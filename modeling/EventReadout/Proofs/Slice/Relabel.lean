import EventReadout.Slice.Reassembly
import Mathlib.Data.List.Basic

/-!
Relabelling the items of a reassembly.

No operation looks into an item: where it goes and when it leaves depend on the slices alone, so
that every operation commutes with a function on the items.
-/
namespace EventReadout

namespace Generation

variable {α β : Type} (f : α → β) (g : Generation α)

def map : Generation β := ⟨g.buckets.map (List.map f)⟩

@[simp] theorem map_empty (buffers : Nat) : (empty buffers).map f = empty buffers := by
  simp [map, empty]

@[simp] theorem bufferCount_map : (g.map f).bufferCount = g.bufferCount := List.length_map _

theorem bucket_map (buffer : Nat) : (g.map f).bucket buffer = (g.bucket buffer).map f := by
  unfold bucket map
  rw [List.getD_eq_getElem?_getD, List.getD_eq_getElem?_getD, List.getElem?_map]
  cases g.buckets[buffer]? <;> rfl

theorem toList_map : (g.map f).toList = g.toList.map f := List.map_flatten.symm

theorem add?_map (buffer : Nat) (x : α) :
    (g.map f).add? buffer (f x) = (g.add? buffer x).map (map f) := by
  have hmodify : (g.buckets.map (List.map f)).modify buffer (· ++ [f x]) =
      (g.buckets.modify buffer (· ++ [x])).map (List.map f) := by
    apply List.ext_getElem?
    intro b
    rw [List.getElem?_map, List.getElem?_modify, List.getElem?_modify, List.getElem?_map]
    cases g.buckets[b]? with
    | none => rfl
    | some xs => by_cases hb : buffer = b <;> simp [hb]
  unfold add?
  rw [bufferCount_map]
  split
  · exact congrArg (fun bs => some (⟨bs⟩ : Generation β)) hmodify
  · rfl

theorem takeBuffer_map (buffer : Nat) :
    (g.map f).takeBuffer buffer =
      ((g.takeBuffer buffer).1.map f, (g.takeBuffer buffer).2.map f) := by
  rw [takeBuffer, bucket_map]
  simp only [takeBuffer, map, List.map_set, List.map_nil]

end Generation

namespace SliceStore

variable {α β : Type} (f : α → β) (s : SliceStore α)

def map : SliceStore β := ⟨s.buffers, s.residents.map fun (wrap, g) => (wrap, g.map f)⟩

@[simp] theorem wraps_map : (s.map f).wraps = s.wraps := by
  simp [wraps, map]

@[simp] theorem contains_map (wrap : Nat) : (s.map f).contains wrap = s.contains wrap := by
  rw [contains, wraps_map, contains]

theorem toList_map : (s.map f).toList = s.toList.map f := by
  simp [toList, map, List.flatMap_map, List.map_flatMap, Generation.toList_map]

@[simp] theorem count_map : (s.map f).count = s.count := by
  rw [count, toList_map, List.length_map, count]

theorem generation?_map (wrap : Nat) :
    (s.map f).generation? wrap = (s.generation? wrap).map (Generation.map f) := by
  unfold generation? map
  induction s.residents with
  | nil => rfl
  | cons entry rest ih =>
    obtain ⟨w, g⟩ := entry
    dsimp only at ih ⊢
    rw [List.map_cons, List.lookup_cons, List.lookup_cons]
    cases wrap == w with
    | true => rfl
    | false => exact ih

theorem insert_map (wrap : Nat) (g : Generation α) (rs : List (Nat × Generation α)) :
    insert wrap (g.map f) (rs.map fun (w, h) => (w, h.map f)) =
      (insert wrap g rs).map fun (w, h) => (w, h.map f) := by
  induction rs with
  | nil => rfl
  | cons entry rest ih =>
    obtain ⟨w, h⟩ := entry
    simp only [List.map_cons, insert]
    split
    · rfl
    · split
      · rfl
      · rw [ih, List.map_cons]

theorem openWrap_map (wrap : Nat) : (s.map f).openWrap wrap = (s.openWrap wrap).map f := by
  unfold openWrap
  rw [contains_map]
  split
  · rfl
  · have hinsert := insert_map f wrap (.empty s.buffers) s.residents
    rw [Generation.map_empty] at hinsert
    rw [map, mk.injEq]
    exact ⟨rfl, hinsert⟩

theorem add?_map (slice : TimeSlice) (x : α) :
    (s.map f).add? slice (f x) = (s.add? slice x).map (map f) := by
  unfold add?
  rw [generation?_map]
  cases s.generation? slice.wrap with
  | none => rfl
  | some g =>
    change ((g.map f).add? slice.buffer (f x)).bind _ =
      Option.map _ ((g.add? slice.buffer x).bind _)
    rw [Generation.add?_map]
    cases g.add? slice.buffer x with
    | none => rfl
    | some g =>
      have hinsert := insert_map f slice.wrap g s.residents
      exact congrArg (fun rs => some (⟨s.buffers, rs⟩ : SliceStore β)) hinsert

theorem drainOlder_map (wrap : Nat) :
    (s.map f).drainOlder wrap = ((s.drainOlder wrap).1.map f, (s.drainOlder wrap).2.map f) := by
  simp only [drainOlder, map, List.partition_eq_filter_filter, List.filter_map, List.flatMap_map,
    List.map_flatMap, Generation.toList_map]
  rfl

theorem drainBuffer_map (slice : TimeSlice) :
    (s.map f).drainBuffer slice =
      ((s.drainBuffer slice).1.map f, (s.drainBuffer slice).2.map f) := by
  unfold drainBuffer
  rw [generation?_map]
  cases s.generation? slice.wrap with
  | none => rfl
  | some g =>
    have hinsert := insert_map f slice.wrap (g.takeBuffer slice.buffer).2 s.residents
    simp only [Option.map_some, Generation.takeBuffer_map]
    rw [Prod.mk.injEq, map, mk.injEq]
    exact ⟨rfl, rfl, hinsert⟩

end SliceStore

namespace Reassembly

variable {α β : Type} (f : α → β) (r : Reassembly α)

def map : Reassembly β := ⟨r.store.map f, r.mark⟩

theorem deposit_map (slice : TimeSlice) (x : α) :
    (r.map f).deposit slice (f x) =
      ((r.deposit slice x).1, (r.deposit slice x).2.map f) := by
  unfold deposit
  dsimp only [map]
  rw [SliceStore.add?_map]
  cases r.store.add? slice x with
  | none => rfl
  | some store => rfl

/-- The verdict on an item does not depend on the item. -/
theorem file_map (slice : TimeSlice) (x : α) :
    (r.map f).file slice (f x) = ((r.file slice x).1, (r.file slice x).2.map f) := by
  unfold file
  change (if r.store.buffers ≤ slice.buffer then _
    else if (r.store.map f).contains slice.wrap then _
    else if r.mark.wrap - 1 ≤ slice.wrap then _ else _) = _
  rw [SliceStore.contains_map]
  split
  · rfl
  · split
    · let mark :=
        if slice.wrap = r.mark.wrap ∧ r.mark.buffer < slice.buffer then slice else r.mark
      exact deposit_map f ⟨r.store, mark⟩ slice x
    · split
      · have hopen := SliceStore.openWrap_map f r.store slice.wrap
        change Reassembly.deposit ⟨(r.store.map f).openWrap slice.wrap, slice⟩ slice (f x) = _
        rw [hopen]
        exact deposit_map f ⟨r.store.openWrap slice.wrap, slice⟩ slice x
      · rfl

theorem drainFinal_map :
    (r.map f).drainFinal = (r.drainFinal.1.map f, r.drainFinal.2.map f) := by
  unfold drainFinal
  change (if r.mark.wrap = 0 then _ else _) = _
  split
  · rfl
  · change (((r.store.map f).drainOlder _).1 ++
      (((r.store.map f).drainOlder _).2.drainBuffer _).1, Reassembly.mk
        (((r.store.map f).drainOlder _).2.drainBuffer _).2 r.mark) = _
    rw [SliceStore.drainOlder_map, SliceStore.drainBuffer_map, ← List.map_append]
    rfl

theorem finish_map : (r.map f).finish = (r.finish.1.map f, r.finish.2.map f) := by
  change ((r.store.map f).toList, _) = _
  rw [SliceStore.toList_map]
  rfl

end Reassembly
end EventReadout
