import EventReadout.Proofs.Job.EventWords
import EventReadout.Proofs.Job.Outcomes

/-!
What decoding makes of a list of words, read off the words.

A word is judged by itself and by the coarse timestamps that the words before it leave. Decoding
keeps the outcomes, and nothing else: not what a recycled job held before.
-/
namespace EventReadout

namespace DataWord

/-- What becomes of a word that finds these coarse timestamps. -/
def outcome (w : DataWord) (coarse : CoarseTimestamps) : Outcome :=
  match w.classify with
  | .extendedTimestamp value => .broadcast value
  | .control _ => .control w
  | .event fine id energy =>
    match coarse.resolve fine with
    | .ok timestamp => .event ⟨timestamp, id, energy.toUInt32⟩
    | .error m => .mismatch m

/-- Control words other than extended timestamps are kept. -/
def isMarked (w : DataWord) : Bool := w.isControl && !w.isExtendedTimestamp

theorem isControl_eq_isSome (w : DataWord) : w.isControl = w.controlType?.isSome := by
  unfold controlType?
  split <;> simp_all

theorem isBroadcast_outcome (w : DataWord) (coarse : CoarseTimestamps) :
    (w.outcome coarse).isBroadcast = w.isExtendedTimestamp := by
  unfold outcome classify isExtendedTimestamp
  cases w.controlType? with
  | none =>
    dsimp only
    cases coarse.resolve _ <;> rfl
  | some type => cases type <;> rfl

theorem control?_outcome (w : DataWord) (coarse : CoarseTimestamps) :
    (w.outcome coarse).control? = if w.isMarked then some w else none := by
  unfold isMarked
  rw [isControl_eq_isSome]
  unfold outcome classify isExtendedTimestamp
  cases w.controlType? with
  | none =>
    dsimp only
    cases coarse.resolve _ <;> rfl
  | some type => cases type <;> rfl

end DataWord

theorem CoarseTimestamps.ofWords_concat_eq_outcome (words : List DataWord) (w : DataWord) :
    ofWords (words ++ [w]) = match w.outcome (ofWords words) with
      | .broadcast value => (ofWords words).observe value
      | .control _ | .event _ | .mismatch _ => ofWords words := by
  rw [ofWords_concat]
  unfold DataWord.outcome
  cases w.classify with
  | extendedTimestamp value => rfl
  | control raw => rfl
  | event fine id energy =>
    dsimp only
    cases CoarseTimestamps.resolve _ fine <;> rfl

/-- What becomes of words that come after `earlier`. -/
def outcomes (earlier words : List DataWord) : List Outcome :=
  words.mapIdx fun i w => w.outcome (.ofWords (earlier ++ words.take i))

section Outcomes

variable {earlier earlier' words : List DataWord}

theorem length_outcomes (earlier words : List DataWord) :
    (outcomes earlier words).length = words.length := List.length_mapIdx

theorem outcomes_cons (earlier : List DataWord) (w : DataWord) (rest : List DataWord) :
    outcomes earlier (w :: rest) =
      w.outcome (.ofWords earlier) :: outcomes (earlier ++ [w]) rest := by
  unfold outcomes
  rw [List.mapIdx_cons, List.take_zero, List.append_nil]
  simp only [List.take_succ_cons, List.append_assoc, List.singleton_append]

theorem outcomes_append (earlier words later : List DataWord) :
    outcomes earlier (words ++ later) =
      outcomes earlier words ++ outcomes (earlier ++ words) later := by
  induction words generalizing earlier with
  | nil => rw [List.append_nil]; rfl
  | cons w rest ih =>
    rw [List.cons_append, outcomes_cons, outcomes_cons, ih, List.append_assoc]
    rfl

theorem outcomes_take (earlier words : List DataWord) (i : Nat) :
    (outcomes earlier words).take i = outcomes earlier (words.take i) := by
  have hsplit := outcomes_append earlier (words.take i) (words.drop i)
  rw [List.take_append_drop] at hsplit
  by_cases hi : i ≤ words.length
  · have hlength : (outcomes earlier (words.take i)).length = i := by
      rw [length_outcomes, List.length_take_of_le hi]
    rw [hsplit, List.take_left' hlength]
  · have hle : words.length ≤ i := Nat.le_of_not_le hi
    rw [List.take_of_length_le hle, List.take_of_length_le (by rw [length_outcomes]; exact hle)]

theorem countP_isBroadcast_outcomes (earlier words : List DataWord) :
    (outcomes earlier words).countP Outcome.isBroadcast =
      words.countP DataWord.isExtendedTimestamp := by
  induction words generalizing earlier with
  | nil => rfl
  | cons w rest ih =>
    rw [outcomes_cons, List.countP_cons, List.countP_cons, ih, DataWord.isBroadcast_outcome]

theorem filterMap_control?_outcomes (earlier words : List DataWord) :
    (outcomes earlier words).filterMap Outcome.control? = words.filter DataWord.isMarked := by
  induction words generalizing earlier with
  | nil => rfl
  | cons w rest ih =>
    rw [outcomes_cons, List.filterMap_cons, DataWord.control?_outcome, List.filter_cons, ih]
    cases w.isMarked <;> rfl

/-- Of the words before only the coarse timestamps matter. -/
theorem outcomes_congr
    (h : CoarseTimestamps.ofWords earlier = CoarseTimestamps.ofWords earlier')
    (words : List DataWord) :
    outcomes earlier words = outcomes earlier' words := by
  unfold outcomes CoarseTimestamps.ofWords at *
  simp only [List.foldl_append, h]

end Outcomes

namespace WordDecoder

theorem step_eq_outcome (d : WordDecoder) (w : DataWord) :
    d.step w = match w.outcome d.coarse with
      | .broadcast value => { d with coarse := d.coarse.observe value }
      | .control word => { d with controls := d.controls.push ⟨word, d.events.size⟩ }
      | .event e => { d with events := d.events.push e }
      | .mismatch m => { d with mismatches := d.mismatches.push m } := by
  unfold step DataWord.outcome
  cases w.classify with
  | extendedTimestamp value => rfl
  | control raw => rfl
  | event fine id energy =>
    dsimp only
    cases d.coarse.resolve fine <;> rfl

theorem run_eq_outcomes (words : List DataWord) :
    ({} : WordDecoder).run words = {
      coarse := .ofWords words
      events := ⟨((outcomes [] words).filterMap Outcome.event?).toArray⟩
      controls := (Outcome.marks 0 (outcomes [] words)).toArray
      mismatches := ((outcomes [] words).filterMap Outcome.mismatch?).toArray } := by
  induction words using List.reverseRecOn with
  | nil => rfl
  | append_singleton words w ih =>
    have hlast : outcomes words [w] = [w.outcome (.ofWords words)] := by
      rw [outcomes_cons]
      rfl
    rw [run_concat, step_eq_outcome, ih, outcomes_append, List.nil_append, hlast,
      Outcome.marks_append, CoarseTimestamps.ofWords_concat_eq_outcome]
    cases w.outcome (.ofWords words) <;>
      simp [Outcome.marks, Outcome.event?, Outcome.mismatch?, List.filterMap_cons]

end WordDecoder

namespace DecodedWords

theorem ofWords_eq_outcomes (words : List DataWord) :
    ofWords words = {
      events := ⟨((outcomes [] words).filterMap Outcome.event?).toArray⟩
      controls := (Outcome.marks 0 (outcomes [] words)).toArray
      mismatches := ((outcomes [] words).filterMap Outcome.mismatch?).toArray
      malformedStart := (malformedStart? words).isSome } := by
  rw [ofWords_eq, WordDecoder.run_eq_outcomes]

/-- All that decoding makes of a list of words. -/
structure Describes (d : DecodedWords) (words : List DataWord) : Prop where
  columns : d.events.timestamps.size = d.events.size ∧ d.events.ids.size = d.events.size ∧
    d.events.energies.size = d.events.size
  /-- Every word is an event, a kept control word, a mismatch or an extended timestamp. -/
  counts : d.events.size + d.controls.size + d.mismatches.size +
    words.countP DataWord.isExtendedTimestamp = words.length
  events : d.events.events.toList = (outcomes [] words).filterMap Outcome.event?
  mismatches : d.mismatches.toList = (outcomes [] words).filterMap Outcome.mismatch?
  controls : d.controls.toList.map ControlMark.word = words.filter DataWord.isMarked
  ascending : (d.controls.toList.map ControlMark.index).Pairwise (· ≤ ·)
  bounded : ∀ mark ∈ d.controls, mark.index ≤ d.events.size
  /-- The mark at `k` is that of the kept control word before which there are `k` others, and its
  index is the number of events accepted before that word. -/
  index : ∀ (k : Nat) (mark : ControlMark), d.controls[k]? = some mark →
    ∃ i, words[i]? = some mark.word ∧ mark.word.isMarked = true ∧
      (words.take i).countP DataWord.isMarked = k ∧
      mark.index = ((outcomes [] (words.take i)).filterMap Outcome.event?).length
  /-- Put back at their indices, the control words are again where they were among the events. -/
  order : Outcome.interleave d.events.events.toList d.controls.toList =
    (outcomes [] words).filter Outcome.isKept
  malformed : d.malformedStart = true ↔
    ∃ first rest, words = first :: rest ∧ first.isExtendedTimestamp = false

/-- A mark leads back to its word. -/
theorem exists_word_of_mark {words : List DataWord} {k : Nat} {mark : ControlMark}
    (h : (Outcome.marks 0 (outcomes [] words))[k]? = some mark) :
    ∃ i, words[i]? = some mark.word ∧ mark.word.isMarked = true ∧
      (words.take i).countP DataWord.isMarked = k ∧
      mark.index = ((outcomes [] (words.take i)).filterMap Outcome.event?).length := by
  obtain ⟨i, hi, hk, hindex⟩ := Outcome.getElem?_marks h
  rw [outcomes_take, filterMap_control?_outcomes, ← List.countP_eq_length_filter] at hk
  rw [outcomes_take, Nat.zero_add] at hindex
  obtain ⟨w, hw, houtcome⟩ : ∃ w, words[i]? = some w ∧
      w.outcome (.ofWords ([] ++ words.take i)) = .control mark.word := by
    rw [outcomes, List.getElem?_mapIdx, Option.map_eq_some_iff] at hi
    exact hi
  have hcontrol := w.control?_outcome (.ofWords ([] ++ words.take i))
  rw [houtcome] at hcontrol
  cases hmarked : w.isMarked with
  | false =>
    rw [hmarked] at hcontrol
    cases hcontrol
  | true =>
    rw [hmarked, if_pos rfl] at hcontrol
    obtain rfl : mark.word = w := Option.some.inj hcontrol
    exact ⟨i, hw, hmarked, hk, hindex⟩

theorem isSome_malformedStart?_iff (words : List DataWord) :
    (malformedStart? words).isSome = true ↔
      ∃ first rest, words = first :: rest ∧ first.isExtendedTimestamp = false := by
  cases words with
  | nil => simp [malformedStart?]
  | cons first rest => simp [malformedStart?, Option.isSome_filter]

theorem describes_ofWords (words : List DataWord) : (ofWords words).Describes words := by
  rw [ofWords_eq_outcomes]
  constructor
  case columns => simp [EventBatch.timestamps, EventBatch.ids, EventBatch.energies, EventBatch.size]
  case counts =>
    have hkinds := Outcome.length_eq_add_kinds 0 (outcomes [] words)
    rw [countP_isBroadcast_outcomes, length_outcomes] at hkinds
    exact hkinds
  case events => rfl
  case mismatches => rfl
  case controls => exact (Outcome.map_word_marks 0 _).trans (filterMap_control?_outcomes [] words)
  case ascending => exact Outcome.pairwise_index_marks 0 _
  case bounded =>
    intro mark hmark
    have hindex := (Outcome.index_of_mem_marks (List.mem_toArray.1 hmark)).2
    rw [Nat.zero_add] at hindex
    exact hindex
  case index =>
    intro k mark hmark
    rw [List.getElem?_toArray] at hmark
    exact exists_word_of_mark hmark
  case order => exact Outcome.interleave_marks _
  case malformed => exact isSome_malformedStart?_iff words

end DecodedWords

/--
Decoding describes the words of a job completely, whatever the job held before, and leaves the rest
of the job alone.
-/
theorem Job.decode_describes (j : Job) :
    j.decode = { j with decoded := j.decode.decoded } ∧
      (∀ earlier : DecodedWords, ({ j with decoded := earlier } : Job).decode = j.decode) ∧
      j.decode.decoded.Describes j.words :=
  ⟨rfl, fun _ => rfl, DecodedWords.describes_ofWords j.words⟩

end EventReadout
