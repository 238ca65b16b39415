import EventReadout.Proofs.Job.EventWords
import EventReadout.Proofs.Timestamp.Window

/-!
Payloads whose words are put in consistently with time.

Coarse timestamps are announced one period after the other, and each event lies in the window that
the latest of them opens. Such a payload is decoded to the events that were put in.
-/
namespace EventReadout

/-- What a word of a payload stands for. -/
inductive Item
  | broadcast (coarse : UInt64)
  | event (time : UInt64) (id : UInt32) (energy : UInt16)
  | control (word : DataWord)
  deriving DecidableEq, Repr

namespace Item

/-- An event keeps of its time what fits into its word. -/
def word : Item → DataWord
  | broadcast coarse => .extendedTimestamp coarse
  | event time id energy => .event id (time % 0x1000000) energy
  | control word => word

def event? : Item → Option Event
  | event time id energy => some ⟨time, id, energy.toUInt32⟩
  | broadcast _ | control _ => none

def control? : Item → Option DataWord
  | control word => some word
  | broadcast _ | event .. => none

/-- The control words, each with the number of events before it. -/
def marks (before : Nat) : List Item → List ControlMark
  | [] => []
  | broadcast _ :: rest => marks before rest
  | event .. :: rest => marks (before + 1) rest
  | control word :: rest => ⟨word, before⟩ :: marks before rest

theorem map_word_marks (before : Nat) (items : List Item) :
    (marks before items).map ControlMark.word = items.filterMap control? := by
  induction items generalizing before with
  | nil => rfl
  | cons item rest ih =>
    cases item with
    | broadcast coarse => exact ih before
    | event time id energy => exact ih (before + 1)
    | control word => exact congrArg (word :: ·) (ih before)

/-- What may follow an announcement of `latest`, up to the next one and beyond. -/
def Timed (latest : UInt64) : List Item → Prop
  | [] => True
  | broadcast coarse :: rest =>
    coarse.toNat < 2 ^ 52 ∧ Timestamp.index coarse = Timestamp.index latest + 1 ∧
      Timed coarse rest
  | event time id energy :: rest =>
    time.toNat < 2 ^ 52 ∧ id.toNat < 2 ^ 24 ∧ energy.toNat < 2 ^ 14 ∧
      Timestamp.InWindow time latest ∧ Timed latest rest
  | control word :: rest =>
    word.isControl = true ∧ word.isExtendedTimestamp = false ∧ Timed latest rest

instance Timed.decidable : (latest : UInt64) → (items : List Item) → Decidable (Timed latest items)
  | _, [] => isTrue trivial
  | latest, broadcast coarse :: rest =>
    have := Timed.decidable coarse rest
    inferInstanceAs (Decidable (coarse.toNat < 2 ^ 52 ∧
      Timestamp.index coarse = Timestamp.index latest + 1 ∧ Timed coarse rest))
  | latest, event time id energy :: rest =>
    have := Timed.decidable latest rest
    inferInstanceAs (Decidable (time.toNat < 2 ^ 52 ∧ id.toNat < 2 ^ 24 ∧ energy.toNat < 2 ^ 14 ∧
      Timestamp.InWindow time latest ∧ Timed latest rest))
  | latest, control word :: rest =>
    have := Timed.decidable latest rest
    inferInstanceAs (Decidable (word.isControl = true ∧ word.isExtendedTimestamp = false ∧
      Timed latest rest))

end Item

theorem DataWord.classify_control {w : DataWord} (hcontrol : w.isControl = true)
    (htype : w.isExtendedTimestamp = false) : w.classify = .control w.raw := by
  unfold isExtendedTimestamp at htype
  unfold classify
  cases hw : w.controlType? with
  | none =>
    rw [controlType?, if_pos hcontrol] at hw
    cases hw
  | some type =>
    cases type with
    | extendedTimestamp => simp [hw] at htype
    | other raw => rfl

theorem DataWord.classify_fitting_event {id : UInt32} {energy : UInt16} (hid : id.toNat < 2 ^ 24)
    (henergy : energy.toNat < 2 ^ 14) (time : UInt64) :
    (event id (time % 0x1000000) energy).classify =
      .event (time % 0x1000000) id energy := by
  have hfine : time % 0x1000000 % 0x1000000 = time % 0x1000000 := by
    rw [← UInt64.toNat_inj, UInt64.toNat_mod, UInt64.toNat_mod]
    exact Nat.mod_mod _ _
  have hposition : id % 0x1000000 = id := by
    rw [← UInt32.toNat_inj, UInt32.toNat_mod]
    exact Nat.mod_eq_of_lt hid
  have hfield : energy % 0x4000 = energy := by
    rw [← UInt16.toNat_inj, UInt16.toNat_mod]
    exact Nat.mod_eq_of_lt henergy
  rw [classify_event, hfine, hposition, hfield]

/-- The masks of an announcement keep its period. -/
theorem DataWord.index_and_coarseMask {coarse : UInt64} (h : coarse.toNat < 2 ^ 52) :
    Timestamp.index (coarse &&& coarseMask) = Timestamp.index coarse := by
  rw [Timestamp.index_eq, Timestamp.index_eq, toNat_and_coarseMask]
  omega

/-- The pair is in the period of the value announced last, and in the one before. -/
structure CoarseTimestamps.Follow (c : CoarseTimestamps) (latest : UInt64) : Prop where
  current : Timestamp.index c.current = Timestamp.index latest
  previous : Timestamp.index c.current = Timestamp.index c.previous + 1

namespace CoarseTimestamps

variable {c : CoarseTimestamps} {latest coarse time : UInt64}

/-- The first announcement stands for one a period earlier as well. -/
theorem follow_first (hlow : 2 ^ 21 ≤ coarse.toNat) (hhigh : coarse.toNat < 2 ^ 52) :
    (({} : CoarseTimestamps).observe (coarse &&& DataWord.coarseMask)).Follow coarse := by
  have hindex := DataWord.index_and_coarseMask hhigh
  have hmasked := DataWord.toNat_and_coarseMask coarse
  have hsize : Timestamp.period.toNat = 2 ^ 21 := rfl
  generalize coarse &&& DataWord.coarseMask = value at hindex hmasked
  have hperiod : Timestamp.period ≤ value := by
    rw [UInt64.le_iff_toNat_le, hsize]
    omega
  have hprevious : (({} : CoarseTimestamps).observe value).previous = value - Timestamp.period := by
    simp [observe, UInt64.not_lt.2 hperiod]
  refine ⟨hindex, ?_⟩
  rw [hprevious]
  change Timestamp.index value = _
  rw [Timestamp.index_eq, Timestamp.index_eq, UInt64.toNat_sub_of_le _ _ hperiod, hsize]
  omega

/-- Each later one takes the place of its predecessor. -/
theorem Follow.observe (h : c.Follow latest) (hhigh : coarse.toNat < 2 ^ 52)
    (hperiod : Timestamp.index coarse = Timestamp.index latest + 1) :
    (c.observe (coarse &&& DataWord.coarseMask)).Follow coarse := by
  have hindex := DataWord.index_and_coarseMask hhigh
  have hsome : c.current ≠ 0 := by
    intro hzero
    have hprevious := h.previous
    rw [hzero] at hprevious
    cases hprevious
  refine ⟨hindex, ?_⟩
  simp only [CoarseTimestamps.observe, if_neg hsome]
  rw [hindex, hperiod, h.current]

theorem Follow.resolve (h : c.Follow latest) (htime : time.toNat < 2 ^ 52)
    (hwindow : Timestamp.InWindow time latest) : c.resolve (time % 0x1000000) = .ok time := by
  have hcurrent : Timestamp.InWindow time c.current := by
    unfold Timestamp.InWindow at *
    rw [Timestamp.matchCode_eq_index] at *
    rw [h.current]
    exact hwindow
  exact Timestamp.full_of_inWindow h.previous htime hcurrent

end CoarseTimestamps

namespace WordDecoder

variable {d : WordDecoder} {latest : UInt64} {items : List Item}

theorem step_of_classify_control {w : DataWord} {raw : UInt64} (hw : w.classify = .control raw) :
    d.step w = { d with controls := d.controls.push ⟨w, d.events.size⟩ } := by
  unfold step
  rw [hw]

/-- From a pair that follows the announcements every item is read back. -/
theorem run_timed (hd : d.coarse.Follow latest) (h : Item.Timed latest items) :
    ∃ coarse, d.run (items.map Item.word) = {
      coarse
      events := ⟨d.events.events ++ (items.filterMap Item.event?).toArray⟩
      controls := d.controls ++ (Item.marks d.events.size items).toArray
      mismatches := d.mismatches } := by
  induction items generalizing d latest with
  | nil => exact ⟨d.coarse, by simp [run, Item.marks]⟩
  | cons item rest ih =>
    have hrun : d.run ((item :: rest).map Item.word) = (d.step item.word).run
      (rest.map Item.word) := rfl
    rw [hrun]
    cases item with
    | broadcast coarse =>
      obtain ⟨hhigh, hperiod, hrest⟩ := h
      have hstep : d.step (Item.broadcast coarse).word = _ :=
        step_of_classify_extendedTimestamp (DataWord.classify_extendedTimestamp coarse)
      rw [hstep]
      exact ih (hd.observe hhigh hperiod) hrest
    | event time id energy =>
      obtain ⟨htime, hid, henergy, hwindow, hrest⟩ := h
      have hstep : d.step (Item.event time id energy).word = _ :=
        step_of_classify_event (DataWord.classify_fitting_event hid henergy time)
          (hd.resolve htime hwindow)
      rw [hstep]
      obtain ⟨coarse, hlater⟩ := ih (d := { d with events := d.events.push _ }) hd hrest
      refine ⟨coarse, hlater.trans ?_⟩
      simp [Item.marks, Item.event?]
    | control word =>
      obtain ⟨hcontrol, htype, hrest⟩ := h
      have hstep : d.step (Item.control word).word = _ :=
        step_of_classify_control (DataWord.classify_control hcontrol htype)
      rw [hstep]
      obtain ⟨coarse, hlater⟩ := ih (d := { d with controls := d.controls.push _ }) hd hrest
      refine ⟨coarse, hlater.trans ?_⟩
      simp [Item.marks, Item.event?, Item.word, List.filterMap_cons]

end WordDecoder

/--
A payload that opens with a coarse timestamp, and whose items are consistent with time, is decoded
to its events with their full times, in order. Nothing is a mismatch or malformed, and the control
words are kept as they are, each with the number of events before it.
-/
theorem Job.decode_timed (j : Job) {first : UInt64} {rest : List Item}
    (hwords : j.words = (Item.broadcast first :: rest).map Item.word)
    (hlow : 2 ^ 21 ≤ first.toNat) (hhigh : first.toNat < 2 ^ 52)
    (htimed : Item.Timed first rest) :
    let items := Item.broadcast first :: rest
    j.decode = { j with
      decoded := {
        events := ⟨(items.filterMap Item.event?).toArray⟩
        controls := (Item.marks 0 items).toArray
        mismatches := #[]
        malformedStart := false } } ∧
    (Item.marks 0 items).map ControlMark.word = items.filterMap Item.control? := by
  have hfirst : ({} : WordDecoder).step (.extendedTimestamp first) =
      { coarse := ({} : CoarseTimestamps).observe (first &&& DataWord.coarseMask) } :=
    WordDecoder.step_of_classify_extendedTimestamp (DataWord.classify_extendedTimestamp first)
  have hopening : (DataWord.extendedTimestamp first).isExtendedTimestamp = true := by
    rw [DataWord.isExtendedTimestamp, DataWord.controlType?_extendedTimestamp]
    rfl
  have hstart : malformedStart? j.words = none := by
    rw [hwords]
    simp [malformedStart?, Item.word, hopening]
  obtain ⟨coarse, hrun⟩ := WordDecoder.run_timed
    (d := { coarse := ({} : CoarseTimestamps).observe (first &&& DataWord.coarseMask) })
    (CoarseTimestamps.follow_first hlow hhigh) htimed
  have hall : ({} : WordDecoder).run j.words =
      (({} : WordDecoder).step (.extendedTimestamp first)).run (rest.map Item.word) := by
    rw [hwords]
    rfl
  refine ⟨?_, Item.map_word_marks 0 _⟩
  rw [Job.decode_eq, DecodedWords.ofWords_eq, hstart, hall, hfirst, hrun]
  simp [Item.event?, Item.marks, List.filterMap_cons]

/-- A time before, one within and one after the period announced, then a late one again in the next
period, whose match code is 3. -/
theorem Job.decode_timed_across_periods :
    let items : List Item := [.broadcast 0x1C00008, .event 0x1AFFFFF 1 2,
      .control ⟨0x8400000000000000⟩, .event 0x1C00000 3 4, .event 0x1E00000 5 6,
      .broadcast 0x1FFFFFF, .event 0x1DFFFFF 7 8]
    let decoded := (Job.decode { words := items.map Item.word }).decoded
    decoded.events.events.toList =
        [⟨0x1AFFFFF, 1, 2⟩, ⟨0x1C00000, 3, 4⟩, ⟨0x1E00000, 5, 6⟩, ⟨0x1DFFFFF, 7, 8⟩] ∧
      decoded.controls.toList = [⟨⟨0x8400000000000000⟩, 1⟩] ∧ decoded.mismatches = #[] ∧
      decoded.malformedStart = false := by
  intro items decoded
  have hlow : 2 ^ 21 ≤ (0x1C00008 : UInt64).toNat := by decide
  have hdecoded := (Job.decode_timed { words := items.map Item.word } rfl hlow (by decide)
    (by decide)).1
  have hall : decoded = _ := congrArg Job.decoded hdecoded
  rw [hall]
  exact ⟨rfl, rfl, rfl, rfl⟩

end EventReadout
