import EventReadout.Proofs.Job.Description
import EventReadout.Proofs.Timestamp.Broadcasts

/-!
What later words add to the results of earlier ones.

It depends on the earlier words through their last two broadcasts only, so that decoding finds its
way back after any damage as soon as two broadcasts have come through.
-/
namespace EventReadout

/-- The coarse value that a word broadcasts. -/
def DataWord.broadcast? (w : DataWord) : Option UInt64 :=
  match w.classify with
  | .extendedTimestamp value => some value
  | .control _ | .event .. => none

theorem DataWord.broadcast?_eq_none {w : DataWord} (h : w.isExtendedTimestamp = false) :
    w.broadcast? = none := by
  unfold isExtendedTimestamp at h
  unfold broadcast? classify
  cases hw : w.controlType? with
  | none => rfl
  | some type =>
    cases type with
    | extendedTimestamp => simp [hw] at h
    | other raw => rfl

namespace CoarseTimestamps

/-- Of the words before only the values broadcast matter. -/
theorem ofWords_eq_observeAll (words : List DataWord) :
    ofWords words = ({} : CoarseTimestamps).observeAll (words.filterMap DataWord.broadcast?) := by
  unfold ofWords observeAll
  rw [List.foldl_filterMap]
  congr
  funext coarse w
  unfold DataWord.broadcast?
  cases w.classify <;> rfl

/-- Words that end in two broadcasts leave nothing else behind. -/
theorem ofWords_of_two_broadcasts {first last : DataWord} {c₁ c₂ : UInt64}
    (hfirst : first.classify = .extendedTimestamp c₁)
    (hlast : last.classify = .extendedTimestamp c₂) {between : List DataWord}
    (hbetween : ∀ w ∈ between, w.isExtendedTimestamp = false) (earlier : List DataWord) :
    ofWords (earlier ++ [first] ++ between ++ [last]) =
      (({} : CoarseTimestamps).observe c₁).observe c₂ := by
  have hquiet : between.filterMap DataWord.broadcast? = [] := by
    rw [List.filterMap_eq_nil_iff]
    exact fun w hw => DataWord.broadcast?_eq_none (hbetween w hw)
  have hbroadcast₁ : first.broadcast? = some c₁ := by rw [DataWord.broadcast?, hfirst]
  have hbroadcast₂ : last.broadcast? = some c₂ := by rw [DataWord.broadcast?, hlast]
  have hvalues : (earlier ++ [first] ++ between ++ [last]).filterMap DataWord.broadcast? =
      earlier.filterMap DataWord.broadcast? ++ [c₁, c₂] := by
    simp [List.filterMap_append, hquiet, hbroadcast₁, hbroadcast₂]
  rw [ofWords_eq_observeAll, hvalues, observeAll_append]
  exact observe_observe _ _ c₁ c₂

end CoarseTimestamps

namespace DecodedWords

/-- `all` is what `d` has and what `part` adds to it, whose control words count the events of `d` as
well. -/
structure ContinuedBy (d part all : DecodedWords) : Prop where
  events : all.events.events = d.events.events ++ part.events.events
  controls : all.controls =
    d.controls ++ part.controls.map fun mark => ⟨mark.word, d.events.size + mark.index⟩
  mismatches : all.mismatches = d.mismatches ++ part.mismatches

/-- What words add that come after `earlier`. -/
def added (earlier words : List DataWord) : DecodedWords where
  events := ⟨((outcomes earlier words).filterMap Outcome.event?).toArray⟩
  controls := (Outcome.marks 0 (outcomes earlier words)).toArray
  mismatches := ((outcomes earlier words).filterMap Outcome.mismatch?).toArray

theorem ofWords_continuedBy (earlier words : List DataWord) :
    (ofWords earlier).ContinuedBy (added earlier words) (ofWords (earlier ++ words)) := by
  rw [ofWords_eq_outcomes, ofWords_eq_outcomes, outcomes_append, List.nil_append]
  constructor
  case events => simp [added]
  case controls =>
    rw [Outcome.marks_append, Nat.zero_add, Outcome.marks_eq_map (List.length _)]
    simp [added, EventBatch.size]
  case mismatches => simp [added]

end DecodedWords

/--
Two broadcasts make decoding forget what was before them: after them the same words add the same
events, control words and mismatches. Only the indices of the control words are further on by the
events accepted before.
-/
theorem Job.decode_resynchronises {first last : DataWord} {c₁ c₂ : UInt64}
    (hfirst : first.classify = .extendedTimestamp c₁)
    (hlast : last.classify = .extendedTimestamp c₂) {between : List DataWord}
    (hbetween : ∀ w ∈ between, w.isExtendedTimestamp = false)
    (earlier earlier' later : List DataWord) :
    let decoded (words : List DataWord) := (Job.decode { words }).decoded
    let before := earlier ++ [first] ++ between ++ [last]
    let before' := earlier' ++ [first] ++ between ++ [last]
    ∃ part : DecodedWords,
      (decoded before).ContinuedBy part (decoded (before ++ later)) ∧
        (decoded before').ContinuedBy part (decoded (before' ++ later)) := by
  intro decoded before before'
  have hcoarse : CoarseTimestamps.ofWords before = CoarseTimestamps.ofWords before' :=
    (CoarseTimestamps.ofWords_of_two_broadcasts hfirst hlast hbetween earlier).trans
      (CoarseTimestamps.ofWords_of_two_broadcasts hfirst hlast hbetween earlier').symm
  have hadded : DecodedWords.added before later = DecodedWords.added before' later := by
    unfold DecodedWords.added
    rw [outcomes_congr hcoarse]
  refine ⟨DecodedWords.added before later, DecodedWords.ofWords_continuedBy before later, ?_⟩
  rw [hadded]
  exact DecodedWords.ofWords_continuedBy before' later

/-- Also if the first of the two is zero, after another zero or after none at all: the prefixes
leave one event and two, and what is late for the second broadcast is a mismatch in either case. -/
theorem Job.decode_resynchronises_after_zero :
    let decoded (words : List DataWord) := (Job.decode { words }).decoded
    let reset := fun earlier => earlier ++ [DataWord.extendedTimestamp 0] ++
      [DataWord.event 1 0x10 2] ++ [DataWord.extendedTimestamp 0x400000]
    let before := reset [.extendedTimestamp 0x100400000, .extendedTimestamp 0]
    let before' := reset [.event 3 0x20 4]
    let later := [.control (.other 0x21) 5, .event 5 0x200008 6, .event 7 0x10 8]
    (decoded before).events.size = 1 ∧ (decoded before').events.size = 2 ∧
      (decoded (before ++ later)).mismatches.size = 1 ∧
      ∃ part : DecodedWords,
        (decoded before).ContinuedBy part (decoded (before ++ later)) ∧
          (decoded before').ContinuedBy part (decoded (before' ++ later)) := by
  intro decoded reset before before' later
  have hfirst : (DataWord.extendedTimestamp 0).classify = .extendedTimestamp 0 := by decide
  have hlast : (DataWord.extendedTimestamp 0x400000).classify = .extendedTimestamp 0x400000 := by
    decide
  refine ⟨rfl, rfl, rfl, ?_⟩
  exact Job.decode_resynchronises hfirst hlast (by decide) _ _ later

end EventReadout
