/-! What a program can get only from the machine that it runs on. -/
namespace EventReadout

inductive Demand
  /-- A block of memory. -/
  | block (bytes : Nat)
  /-- A table of records whose layout the compiler chooses. -/
  | table (entries : Nat)
  | workers (count : Nat)
  /-- A machine word for a number. -/
  | word (number : Nat)
  deriving DecidableEq, Repr

/-- Why a run ends without an answer. -/
inductive Halt
  | outOfMemory
  | noWorker
  | overflow
  deriving DecidableEq, Repr

def Demand.halt : Demand → Halt
  | block _ | table _ => .outOfMemory
  | workers _ => .noWorker
  | word _ => .overflow

/-- The most that a machine provides at once. -/
structure Host where
  blockBytes : Nat
  tableEntries : Nat
  workers : Nat
  /-- No allocator hands out more than a signed size can express. -/
  blockBytes_lt : 2 * blockBytes < UInt64.size
  deriving DecidableEq, Repr

namespace Host

variable {α : Type}

def meets (h : Host) : Demand → Bool
  | .block bytes => bytes ≤ h.blockBytes
  | .table entries => entries ≤ h.tableEntries
  | .workers count => count ≤ h.workers
  | .word number => number < UInt64.size

/-- Demands are made in order, and the first that is not met ends the run. -/
def carryOut (h : Host) (demands : List Demand) (answer : α) : Except Halt α :=
  match demands.find? (!h.meets ·) with
  | none => .ok answer
  | some demand => .error demand.halt

theorem carryOut_eq_ok_iff {h : Host} {demands : List Demand} {answer x : α} :
    h.carryOut demands answer = .ok x ↔ (∀ demand ∈ demands, h.meets demand) ∧ x = answer := by
  unfold carryOut
  cases hfind : demands.find? (!h.meets ·) with
  | none =>
    have hall : ∀ demand ∈ demands, h.meets demand := by simpa using hfind
    rw [Except.ok.injEq]
    exact ⟨fun heq => ⟨hall, heq.symm⟩, fun ⟨_, heq⟩ => heq.symm⟩
  | some demand =>
    have hunmet := List.find?_some hfind
    have hmem := List.mem_of_find?_eq_some hfind
    simp only [reduceCtorEq, false_iff, not_and]
    intro hall
    simp [hall demand hmem] at hunmet

end Host
end EventReadout
