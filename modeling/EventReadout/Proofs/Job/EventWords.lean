import EventReadout.Job.Decode
import Mathlib.Data.List.Basic
import Mathlib.Data.List.Induction

/-!
Which word an event comes from.

Decoding reads an event's id, energy and fine timestamp from one event word, and its coarse
timestamp from the words before that one.
-/
namespace EventReadout

/-- The coarse timestamps when these words have been read. -/
def CoarseTimestamps.ofWords (words : List DataWord) : CoarseTimestamps :=
  words.foldl (fun coarse w =>
    match w.classify with
    | .extendedTimestamp value => coarse.observe value
    | .control _ | .event .. => coarse) {}

theorem CoarseTimestamps.ofWords_concat (words : List DataWord) (w : DataWord) :
    ofWords (words ++ [w]) = match w.classify with
      | .extendedTimestamp value => (ofWords words).observe value
      | .control _ | .event .. => ofWords words :=
  List.foldl_concat ..

/-- The event stands in the word at an index. -/
def EventAt (words : List DataWord) (index : Nat) (e : Event) : Prop :=
  ∃ w fine energy, words[index]? = some w ∧ w.position = .ok e.id ∧ w.energy = .ok energy ∧
    e.energy = energy.toUInt32 ∧ w.fine = .ok fine ∧
    (CoarseTimestamps.ofWords (words.take index)).resolve fine = .ok e.timestamp

/-- Words that come later do not matter. -/
theorem EventAt.append {words : List DataWord} {index : Nat} {e : Event}
    (h : EventAt words index e) (later : List DataWord) : EventAt (words ++ later) index e := by
  obtain ⟨w, fine, energy, hword, hfields⟩ := h
  obtain ⟨hindex, -⟩ := List.getElem?_eq_some_iff.1 hword
  refine ⟨w, fine, energy, ?_, ?_⟩
  · rw [List.getElem?_append_left hindex, hword]
  · rw [List.take_append_of_le_length (Nat.le_of_lt hindex)]
    exact hfields

theorem DataWord.fields_of_classify {w : DataWord} {fine : UInt64} {id : UInt32} {energy : UInt16}
    (h : w.classify = .event fine id energy) :
    w.fine = .ok fine ∧ w.position = .ok id ∧ w.energy = .ok energy := by
  have hevent : w.isControl = false := by
    cases hcontrol : w.isControl with
    | false => rfl
    | true =>
      unfold classify controlType? at h
      rw [if_pos hcontrol] at h
      split at h
      · cases h
      · cases h
      · next hnone => cases hnone
  have hrequire : w.require .event = .ok () := by
    unfold require kind
    rw [hevent]
    rfl
  unfold classify controlType? at h
  rw [hevent, if_neg (by decide)] at h
  cases h
  unfold DataWord.fine position DataWord.energy
  rw [hrequire]
  exact ⟨rfl, rfl, rfl⟩

namespace WordDecoder

theorem run_concat (d : WordDecoder) (words : List DataWord) (w : DataWord) :
    d.run (words ++ [w]) = (d.run words).step w :=
  List.foldl_concat ..

theorem step_of_classify_extendedTimestamp {d : WordDecoder} {w : DataWord}
    {value : UInt64} (hw : w.classify = .extendedTimestamp value) :
    d.step w = { d with coarse := d.coarse.observe value } := by
  unfold step
  rw [hw]

theorem step_of_classify_event {d : WordDecoder} {w : DataWord} {fine timestamp : UInt64}
    {id : UInt32} {energy : UInt16} (hw : w.classify = .event fine id energy)
    (h : d.coarse.resolve fine = .ok timestamp) :
    d.step w = { d with events := d.events.push ⟨timestamp, id, energy.toUInt32⟩ } := by
  unfold step
  rw [hw]
  dsimp only
  rw [h]

/-- The decoder has observed the extended timestamps, and its events stand in the words read. -/
theorem run_events (words : List DataWord) :
    let d := ({} : WordDecoder).run words
    d.coarse = .ofWords words ∧ ∀ e ∈ d.events.events, ∃ index, EventAt words index e := by
  induction words using List.reverseRecOn with
  | nil => exact ⟨rfl, by simp [run]⟩
  | append_singleton words w ih =>
    obtain ⟨hcoarse, hevents⟩ := ih
    have hkept (e : Event) (he : e ∈ (({} : WordDecoder).run words).events.events) :
        ∃ index, EventAt (words ++ [w]) index e := by
      obtain ⟨index, hindex⟩ := hevents e he
      exact ⟨index, hindex.append [w]⟩
    dsimp only
    rw [run_concat, CoarseTimestamps.ofWords_concat]
    unfold step
    cases hclass : w.classify with
    | extendedTimestamp value => exact ⟨by rw [← hcoarse], hkept⟩
    | control raw => exact ⟨hcoarse, hkept⟩
    | event fine id energy =>
      dsimp only
      cases hresolve : (({} : WordDecoder).run words).coarse.resolve fine with
      | error mismatch => exact ⟨hcoarse, hkept⟩
      | ok timestamp =>
        refine ⟨hcoarse, fun e he => ?_⟩
        rcases Array.mem_push.1 he with he | rfl
        · exact hkept e he
        · obtain ⟨hfine, hposition, henergy⟩ := DataWord.fields_of_classify hclass
          rw [hcoarse] at hresolve
          refine ⟨words.length, w, fine, energy, ?_, hposition, henergy, rfl, hfine, ?_⟩
          · rw [List.getElem?_concat_length]
          · rw [List.take_left]
            exact hresolve

end WordDecoder

theorem Job.exists_eventAt (j : Job) {e : Event} (he : e ∈ j.decode.decoded.events.events) :
    ∃ index, EventAt j.decode.words index e :=
  (WordDecoder.run_events j.words).2 e he

end EventReadout
