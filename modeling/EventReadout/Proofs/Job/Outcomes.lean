import EventReadout.Job.Basic
import Mathlib.Data.List.Basic
import Mathlib.Data.List.Induction

/-!
Outcomes of decoding, one for each word.

The results of a job are its outcomes sorted by kind. The control marks keep how events and control
words were mixed: put back at their indices, they restore the order.
-/
namespace EventReadout

/-- What becomes of a word. -/
inductive Outcome
  | broadcast (coarse : UInt64)
  | control (word : DataWord)
  | event (e : Event)
  /-- An event that is dropped, because its time cannot be resolved. -/
  | mismatch (m : TimestampMismatch)
  deriving DecidableEq, Repr

namespace Outcome

def event? : Outcome → Option Event
  | event e => some e
  | broadcast _ | control _ | mismatch _ => none

def mismatch? : Outcome → Option TimestampMismatch
  | mismatch m => some m
  | broadcast _ | control _ | event _ => none

def control? : Outcome → Option DataWord
  | control word => some word
  | broadcast _ | event _ | mismatch _ => none

def isBroadcast : Outcome → Bool
  | broadcast _ => true
  | control _ | event _ | mismatch _ => false

/-- The word is found in the results. -/
def isKept : Outcome → Bool
  | control _ | event _ => true
  | broadcast _ | mismatch _ => false

/-- The control words, each with the number of events before it. -/
def marks (before : Nat) : List Outcome → List ControlMark
  | [] => []
  | control word :: rest => ⟨word, before⟩ :: marks before rest
  | event _ :: rest => marks (before + 1) rest
  | broadcast _ :: rest | mismatch _ :: rest => marks before rest

/-- The control words that have an index. -/
def controlsAt (controls : List ControlMark) (index : Nat) : List Outcome :=
  (controls.filter (·.index = index)).map fun mark => control mark.word

/-- Each control word put back in front of the event that its index names. -/
def interleave (events : List Event) (controls : List ControlMark) : List Outcome :=
  (List.range (events.length + 1)).flatMap fun k =>
    controlsAt controls k ++ (events[k]?.map event).toList

section Marks

variable {os : List Outcome} {before : Nat}

theorem marks_append (before : Nat) (os later : List Outcome) :
    marks before (os ++ later) =
      marks before os ++ marks (before + (os.filterMap event?).length) later := by
  induction os generalizing before with
  | nil => rfl
  | cons o rest ih =>
    cases o with
    | control word => exact congrArg (_ :: ·) (ih before)
    | event e =>
      have hrest := ih (before + 1)
      rw [Nat.add_right_comm] at hrest
      exact hrest
    | broadcast value => exact ih before
    | mismatch m => exact ih before

theorem map_word_marks (before : Nat) (os : List Outcome) :
    (marks before os).map ControlMark.word = os.filterMap control? := by
  induction os generalizing before with
  | nil => rfl
  | cons o rest ih =>
    cases o with
    | control word => exact congrArg (word :: ·) (ih before)
    | event e => exact ih (before + 1)
    | broadcast value => exact ih before
    | mismatch m => exact ih before

/-- Marks that start later count from there. -/
theorem marks_eq_map (before : Nat) (os : List Outcome) :
    marks before os = (marks 0 os).map fun mark => ⟨mark.word, before + mark.index⟩ := by
  induction os generalizing before with
  | nil => rfl
  | cons o rest ih =>
    cases o with
    | control word => exact congrArg (_ :: ·) (ih before)
    | event e =>
      have hrest := ih (before + 1)
      rw [marks, marks, hrest, ih 1, List.map_map]
      simp only [Function.comp_def, Nat.add_assoc]
    | broadcast value => exact ih before
    | mismatch m => exact ih before

theorem index_of_mem_marks {mark : ControlMark} (h : mark ∈ marks before os) :
    before ≤ mark.index ∧ mark.index ≤ before + (os.filterMap event?).length := by
  induction os generalizing before with
  | nil => cases h
  | cons o rest ih =>
    cases o with
    | control word =>
      rcases List.mem_cons.1 h with rfl | hrest
      · exact ⟨Nat.le_refl _, Nat.le_add_right _ _⟩
      · exact ih hrest
    | event e =>
      obtain ⟨hlow, hhigh⟩ := @ih (before + 1) h
      change before ≤ mark.index ∧ mark.index ≤ before + ((rest.filterMap event?).length + 1)
      omega
    | broadcast value => exact @ih before h
    | mismatch m => exact @ih before h

theorem pairwise_index_marks (before : Nat) (os : List Outcome) :
    ((marks before os).map ControlMark.index).Pairwise (· ≤ ·) := by
  induction os generalizing before with
  | nil => exact List.Pairwise.nil
  | cons o rest ih =>
    cases o with
    | control word =>
      refine List.pairwise_cons.2 ⟨fun index hindex => ?_, ih before⟩
      obtain ⟨mark, hmark, rfl⟩ := List.mem_map.1 hindex
      exact (index_of_mem_marks hmark).1
    | event e => exact ih (before + 1)
    | broadcast value => exact ih before
    | mismatch m => exact ih before

/-- A mark stands for one of the outcomes, and its index counts the events before that one. -/
theorem getElem?_marks {k : Nat} {mark : ControlMark} (h : (marks before os)[k]? = some mark) :
    ∃ i, os[i]? = some (control mark.word) ∧ ((os.take i).filterMap control?).length = k ∧
      mark.index = before + ((os.take i).filterMap event?).length := by
  induction os generalizing before k with
  | nil => cases h
  | cons o rest ih =>
    cases o with
    | control word =>
      cases k with
      | zero =>
        cases h
        exact ⟨0, rfl, rfl, rfl⟩
      | succ k =>
        obtain ⟨i, hi, hk, hindex⟩ := @ih before k h
        exact ⟨i + 1, hi, congrArg (· + 1) hk, hindex⟩
    | event e =>
      obtain ⟨i, hi, hk, hindex⟩ := @ih (before + 1) k h
      refine ⟨i + 1, hi, hk, ?_⟩
      rw [hindex, Nat.add_assoc, Nat.add_comm 1]
      rfl
    | broadcast value =>
      obtain ⟨i, hi, hk, hindex⟩ := @ih before k h
      exact ⟨i + 1, hi, hk, hindex⟩
    | mismatch m =>
      obtain ⟨i, hi, hk, hindex⟩ := @ih before k h
      exact ⟨i + 1, hi, hk, hindex⟩

theorem length_eq_add_kinds (before : Nat) (os : List Outcome) :
    (os.filterMap event?).length + (marks before os).length + (os.filterMap mismatch?).length +
      os.countP isBroadcast = os.length := by
  induction os generalizing before with
  | nil => rfl
  | cons o rest ih =>
    have hrest := ih before
    have hlater := ih (before + 1)
    cases o <;> simp [marks, event?, mismatch?, isBroadcast, List.filterMap_cons,
      List.countP_cons] <;> omega

end Marks

section Interleave

variable {events : List Event} {controls : List ControlMark}

theorem controlsAt_append (controls later : List ControlMark) (index : Nat) :
    controlsAt (controls ++ later) index = controlsAt controls index ++ controlsAt later index := by
  rw [controlsAt, List.filter_append, List.map_append, controlsAt, controlsAt]

theorem controlsAt_eq_nil {index : Nat} (h : ∀ mark ∈ controls, mark.index ≠ index) :
    controlsAt controls index = [] := by
  rw [controlsAt, List.map_eq_nil_iff, List.filter_eq_nil_iff]
  intro mark hmark
  simpa using h mark hmark

/-- Behind the last event only control words are left. -/
theorem interleave_eq (events : List Event) (controls : List ControlMark) :
    interleave events controls =
      ((List.range events.length).flatMap fun k =>
        controlsAt controls k ++ (events[k]?.map event).toList) ++
          controlsAt controls events.length := by
  rw [interleave, List.range_succ, List.flatMap_append, List.flatMap_singleton,
    List.getElem?_eq_none (Nat.le_refl _), Option.map_none, Option.toList_none, List.append_nil]

theorem interleave_concat_event (e : Event)
    (h : ∀ mark ∈ controls, mark.index ≤ events.length) :
    interleave (events ++ [e]) controls = interleave events controls ++ [event e] := by
  have hbehind : controlsAt controls (events.length + 1) = [] :=
    controlsAt_eq_nil fun mark hmark => Nat.ne_of_lt (Nat.lt_succ_of_le (h mark hmark))
  have hlast : (events ++ [e])[events.length]? = some e := List.getElem?_concat_length
  have hfront : ∀ k ∈ List.range events.length,
      controlsAt controls k ++ ((events ++ [e])[k]?.map event).toList =
        controlsAt controls k ++ (events[k]?.map event).toList := by
    intro k hk
    rw [List.getElem?_append_left (List.mem_range.1 hk)]
  rw [interleave_eq, interleave_eq, List.length_append, List.length_singleton, hbehind,
    List.range_succ, List.flatMap_append, List.flatMap_singleton, hlast, List.flatMap_congr hfront]
  simp

theorem interleave_concat_control (events : List Event) (controls : List ControlMark)
    (word : DataWord) :
    interleave events (controls ++ [⟨word, events.length⟩]) =
      interleave events controls ++ [control word] := by
  have hlast : controlsAt [⟨word, events.length⟩] events.length = [control word] := by
    simp [controlsAt]
  have hfront : ∀ k ∈ List.range events.length,
      controlsAt (controls ++ [⟨word, events.length⟩]) k ++ (events[k]?.map event).toList =
        controlsAt controls k ++ (events[k]?.map event).toList := by
    intro k hk
    have hother : controlsAt [⟨word, events.length⟩] k = [] :=
      controlsAt_eq_nil fun mark hmark => by
        rw [List.mem_singleton.1 hmark]
        exact Nat.ne_of_gt (List.mem_range.1 hk)
    rw [controlsAt_append, hother, List.append_nil]
  rw [interleave_eq, interleave_eq, List.flatMap_congr hfront, controlsAt_append, hlast,
    List.append_assoc]

/-- The marks tell in which order events and control words were. -/
theorem interleave_marks (os : List Outcome) :
    interleave (os.filterMap event?) (marks 0 os) = os.filter isKept := by
  induction os using List.reverseRecOn with
  | nil => rfl
  | append_singleton os o ih =>
    rw [marks_append, List.filterMap_append, List.filter_append, ← ih, Nat.zero_add]
    cases o with
    | control word =>
      have hsame : os.filterMap event? ++ [control word].filterMap event? = os.filterMap event? :=
        List.append_nil _
      rw [hsame]
      exact interleave_concat_control _ _ word
    | event e =>
      have hnone : marks 0 os ++ marks (os.filterMap event?).length [event e] = marks 0 os :=
        List.append_nil _
      rw [hnone]
      refine interleave_concat_event e fun mark hmark => ?_
      have hindex := (index_of_mem_marks hmark).2
      rwa [Nat.zero_add] at hindex
    | broadcast value => simp [marks, event?, isKept, List.filterMap_cons]
    | mismatch m => simp [marks, event?, isKept, List.filterMap_cons]

end Interleave

end Outcome

end EventReadout
