/-! Unbounded first-in first-out queues that can be closed. -/
namespace EventReadout

structure Queue (α : Type) where
  /-- Oldest first. -/
  items : List α := []
  closed : Bool := false
  deriving DecidableEq, Repr

/-- What a consumer meets at the queue. -/
inductive Removal (α : Type)
  | item (x : α)
  | closed
  /-- The queue is open and empty: a consumer has to wait. -/
  | blocked
  deriving DecidableEq, Repr

namespace Queue

variable {α : Type}

def size (q : Queue α) : Nat := q.items.length

def isEmpty (q : Queue α) : Bool := q.items.isEmpty

/-- A closed queue still takes items. -/
def add (q : Queue α) (x : α) : Queue α := { q with items := q.items ++ [x] }

def close (q : Queue α) : Queue α := { q with closed := true }

/-- Items that are left are handed out even after the close. -/
def remove (q : Queue α) : Removal α × Queue α :=
  match q.items with
  | x :: rest => (.item x, { q with items := rest })
  | [] => (if q.closed then .closed else .blocked, q)

variable {q rest : Queue α} {x : α}

theorem remove_eq_item_iff :
    q.remove = (.item x, rest) ↔ q.items = x :: rest.items ∧ rest.closed = q.closed := by
  obtain ⟨items, closed⟩ := q
  obtain ⟨left, shut⟩ := rest
  cases items with
  | nil => cases closed <;> simp [remove]
  | cons y ys => simp [remove, and_assoc, eq_comm]

theorem remove_eq_closed_iff :
    q.remove = (.closed, rest) ↔ q.items = [] ∧ q.closed = true ∧ rest = q := by
  obtain ⟨items, closed⟩ := q
  cases items with
  | nil => cases closed <;> simp [remove, eq_comm]
  | cons y ys => simp [remove]

theorem remove_eq_blocked_iff :
    q.remove = (.blocked, rest) ↔ q.items = [] ∧ q.closed = false ∧ rest = q := by
  obtain ⟨items, closed⟩ := q
  cases items with
  | nil => cases closed <;> simp [remove, eq_comm]
  | cons y ys => simp [remove]

/-- `count` consumers remove one item each, in turn. -/
def removeMany (q : Queue α) : Nat → List (Removal α) × Queue α
  | 0 => ([], q)
  | count + 1 =>
    let (removal, q) := q.remove
    let (later, q) := q.removeMany count
    (removal :: later, q)

end Queue
end EventReadout
