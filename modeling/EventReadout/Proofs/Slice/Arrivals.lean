import EventReadout.Proofs.Slice.Store
import Mathlib.Data.Finset.Sort

/-!
A slice store seen from outside: the generations that are resident, and one list of the items that
were accepted, in order of arrival.

Under any sequence of operations both give the same answers. What is drained is sorted by slice, or
is one slice, and the sort is stable, so that items of a slice leave in order of arrival.
-/
namespace EventReadout

namespace SliceStore

/-- What can be done to a store. Every item is filed under its own slice. -/
inductive Operation (α : Type)
  | openWrap (wrap : Nat)
  /-- The generation of the item becomes resident first. -/
  | file (x : α)
  /-- A generation that is not resident does not take the item. -/
  | fileResident (x : α)
  | drainOlder (wrap : Nat)
  | drainBuffer (slice : TimeSlice)
  | drainAll
  deriving DecidableEq, Repr

inductive Answer (α : Type)
  | done
  | handedBack (x : α)
  /-- In the order in which they were removed. -/
  | removed (items : List α)
  deriving DecidableEq, Repr

section Runs

variable {α σ τ : Type}

/-- Operations one after the other, on whatever answers them. -/
def runAll (perform : σ → Operation α → Answer α × σ) :
    σ → List (Operation α) → List (Answer α) × σ
  | state, [] => ([], state)
  | state, operation :: rest =>
    let (answer, state) := perform state operation
    let (later, state) := runAll perform state rest
    (answer :: later, state)

/-- States that stay related while they answer alike cannot be told apart by their answers. -/
theorem runAll_related {perform : σ → Operation α → Answer α × σ}
    {perform' : τ → Operation α → Answer α × τ} {related : σ → τ → Prop}
    (step : ∀ {s t}, related s t → ∀ operation,
      (perform s operation).1 = (perform' t operation).1 ∧
        related (perform s operation).2 (perform' t operation).2)
    {s : σ} {t : τ} (h : related s t) (operations : List (Operation α)) :
    (runAll perform s operations).1 = (runAll perform' t operations).1 ∧
      related (runAll perform s operations).2 (runAll perform' t operations).2 := by
  induction operations generalizing s t with
  | nil => exact ⟨rfl, h⟩
  | cons operation rest ih =>
    obtain ⟨hanswer, hnext⟩ := step h operation
    obtain ⟨hlater, hlast⟩ := ih hnext
    exact ⟨congrArg₂ List.cons hanswer hlater, hlast⟩

end Runs

variable {α : Type} (slice : α → TimeSlice)

/-- An item that is refused is handed back. -/
def tryAdd (s : SliceStore α) (x : α) : Answer α × SliceStore α :=
  match s.add? (slice x) x with
  | some s => (.done, s)
  | none => (.handedBack x, s)

def perform (s : SliceStore α) : Operation α → Answer α × SliceStore α
  | .openWrap wrap => (.done, s.openWrap wrap)
  | .file x => (s.openWrap (slice x).wrap).tryAdd slice x
  | .fileResident x => s.tryAdd slice x
  | .drainOlder wrap => (.removed (s.drainOlder wrap).1, (s.drainOlder wrap).2)
  | .drainBuffer t => (.removed (s.drainBuffer t).1, (s.drainBuffer t).2)
  | .drainAll => (.removed s.drainAll.1, s.drainAll.2)

end SliceStore

/-- The resident generations, and the items accepted and not yet drained, oldest first. -/
structure Arrivals (α : Type) where
  wraps : Finset Nat := ∅
  items : List α := []

namespace Arrivals

open SliceStore (Operation Answer)

variable {α : Type}

def openWrap (a : Arrivals α) (wrap : Nat) : Arrivals α := { a with wraps := insert wrap a.wraps }

variable (slice : α → TimeSlice) (buffers : Nat)

/-- An item is accepted by a resident generation that has its buffer. -/
def tryAdd (a : Arrivals α) (x : α) : Answer α × Arrivals α :=
  if (slice x).wrap ∈ a.wraps ∧ (slice x).buffer < buffers then
    (.done, { a with items := a.items ++ [x] })
  else (.handedBack x, a)

def perform (a : Arrivals α) : Operation α → Answer α × Arrivals α
  | .openWrap wrap => (.done, a.openWrap wrap)
  | .file x => (a.openWrap (slice x).wrap).tryAdd slice buffers x
  | .fileResident x => a.tryAdd slice buffers x
  | .drainOlder wrap =>
    (.removed (sortBySlice slice (a.items.filter fun x => (slice x).wrap < wrap)),
      { wraps := a.wraps.filter fun w => ¬ w < wrap
        items := a.items.filter fun x => ¬ (slice x).wrap < wrap })
  | .drainBuffer t =>
    (.removed (a.items.filter (slice · = t)), { a with items := a.items.filter (slice · ≠ t) })
  | .drainAll => (.removed (sortBySlice slice a.items), {})

end Arrivals

namespace SliceStore

variable {α : Type} {slice : α → TimeSlice} {buffers : Nat} {s : SliceStore α} {a : Arrivals α}

/-- The store holds the items that have arrived, in the generations that are resident. -/
structure Represents (slice : α → TimeSlice) (buffers : Nat) (s : SliceStore α) (a : Arrivals α) :
    Prop where
  buffers : s.buffers = buffers
  holds : s.Holds slice a.items
  mem_wraps : ∀ w, w ∈ s.wraps ↔ w ∈ a.wraps

namespace Represents

theorem empty (slice : α → TimeSlice) (buffers : Nat) :
    Represents slice buffers ({ buffers } : SliceStore α) {} where
  buffers := rfl
  holds := .empty buffers
  mem_wraps w := by simp [wraps]

theorem wraps_eq (h : s.Represents slice buffers a) : s.wraps = a.wraps.sort := by
  have hnodup : s.wraps.Nodup := h.holds.ascending.imp Nat.ne_of_lt
  have hset : a.wraps = s.wraps.toFinset := by
    ext w
    rw [List.mem_toFinset, h.mem_wraps]
  rw [hset, eq_comm, List.toFinset_sort _ hnodup]
  exact h.holds.ascending.imp Nat.le_of_lt

theorem count_eq (h : s.Represents slice buffers a) : s.count = a.items.length := by
  rw [count, h.holds.toList_eq]
  exact (sortBySlice_perm slice a.items).length_eq

theorem openWrap (h : s.Represents slice buffers a) (wrap : Nat) :
    (s.openWrap wrap).Represents slice buffers (a.openWrap wrap) := by
  obtain ⟨hholds, hwraps⟩ := h.holds.openWrap wrap
  refine ⟨(buffers_openWrap s wrap).trans h.buffers, hholds, fun w => ?_⟩
  rw [hwraps, h.mem_wraps, Arrivals.openWrap, Finset.mem_insert]

theorem tryAdd (h : s.Represents slice buffers a) (x : α) :
    (s.tryAdd slice x).1 = (a.tryAdd slice buffers x).1 ∧
      (s.tryAdd slice x).2.Represents slice buffers (a.tryAdd slice buffers x).2 := by
  unfold SliceStore.tryAdd Arrivals.tryAdd
  by_cases hx : (slice x).wrap ∈ a.wraps ∧ (slice x).buffer < buffers
  · obtain ⟨s', hadd, hholds, hwraps, hbuffers⟩ :=
      h.holds.add? ((h.mem_wraps _).2 hx.1) (by rw [h.buffers]; exact hx.2)
    rw [if_pos hx, hadd]
    exact ⟨rfl, hbuffers.trans h.buffers, hholds, fun w => by rw [hwraps, h.mem_wraps]⟩
  · have hrefused : s.add? (slice x) x = none := by
      rw [h.holds.add?_eq_none_iff, h.mem_wraps, h.buffers]
      exact hx
    rw [if_neg hx, hrefused]
    exact ⟨rfl, h⟩

theorem drainOlder (h : s.Represents slice buffers a) (wrap : Nat) :
    (s.perform slice (.drainOlder wrap)).1 = (a.perform slice buffers (.drainOlder wrap)).1 ∧
      (s.perform slice (.drainOlder wrap)).2.Represents slice buffers
        (a.perform slice buffers (.drainOlder wrap)).2 := by
  obtain ⟨hitems, hholds, hwraps⟩ := h.holds.drainOlder wrap
  refine ⟨congrArg Answer.removed hitems, h.buffers, hholds, fun w => ?_⟩
  simp only [SliceStore.perform, Arrivals.perform, hwraps, List.mem_filter, Finset.mem_filter,
    h.mem_wraps, decide_eq_true_eq]

theorem drainBuffer (h : s.Represents slice buffers a) (t : TimeSlice) :
    (s.perform slice (.drainBuffer t)).1 = (a.perform slice buffers (.drainBuffer t)).1 ∧
      (s.perform slice (.drainBuffer t)).2.Represents slice buffers
        (a.perform slice buffers (.drainBuffer t)).2 := by
  obtain ⟨hitems, hholds, hwraps⟩ := h.holds.drainBuffer t
  have hbuffers : (s.drainBuffer t).2.buffers = s.buffers := by
    rw [SliceStore.drainBuffer]
    split <;> rfl
  refine ⟨congrArg Answer.removed hitems, hbuffers.trans h.buffers, hholds, fun w => ?_⟩
  simp only [SliceStore.perform, Arrivals.perform, hwraps, h.mem_wraps]

theorem drainAll (h : s.Represents slice buffers a) :
    (s.perform slice .drainAll).1 = (a.perform slice buffers .drainAll).1 ∧
      (s.perform slice .drainAll).2.Represents slice buffers
        (a.perform slice buffers .drainAll).2 := by
  have hempty : s.drainAll.2 = { buffers } := by
    rw [← h.buffers]
    rfl
  refine ⟨congrArg Answer.removed h.holds.toList_eq, ?_⟩
  simp only [SliceStore.perform, Arrivals.perform, hempty]
  exact .empty slice buffers

theorem perform (h : s.Represents slice buffers a) (operation : Operation α) :
    (s.perform slice operation).1 = (a.perform slice buffers operation).1 ∧
      (s.perform slice operation).2.Represents slice buffers
        (a.perform slice buffers operation).2 := by
  cases operation with
  | openWrap wrap => exact ⟨rfl, h.openWrap wrap⟩
  | file x => exact (h.openWrap (slice x).wrap).tryAdd x
  | fileResident x => exact h.tryAdd x
  | drainOlder wrap => exact h.drainOlder wrap
  | drainBuffer t => exact h.drainBuffer t
  | drainAll => exact h.drainAll

end Represents

/--
Whatever is done to a new store, it answers as the list of arrivals does. At every point its
generations are the resident ones in ascending order, and it counts the items that are left.
-/
theorem runAll_eq_arrivals (slice : α → TimeSlice) (buffers : Nat)
    (operations : List (Operation α)) :
    let (answers, s) := runAll (perform slice) { buffers } operations
    let (expected, a) := runAll (Arrivals.perform slice buffers) {} operations
    answers = expected ∧ s.wraps = a.wraps.sort ∧ s.count = a.items.length := by
  obtain ⟨hanswers, hlast⟩ := runAll_related (fun h operation => h.perform operation)
    (Represents.empty slice buffers) operations
  exact ⟨hanswers, hlast.wraps_eq, hlast.count_eq⟩

end SliceStore
end EventReadout
