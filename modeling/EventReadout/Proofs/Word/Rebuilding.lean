import EventReadout.Proofs.Word.Data

/-!
Words put together from a type or from fields, and words taken apart and put together again.

A word is its classification but for the bits that its class leaves unused. The control flag is the
top bit of the type field, so that a control word cannot be built with a type below 32: it gets the
type 32 above.
-/
namespace EventReadout

theorem ControlType.raw_ofRaw (raw : UInt8) : (ofRaw raw).raw = raw := by
  unfold ofRaw
  split
  · next h => exact h.symm
  · rfl

theorem ControlType.ofRaw_inj {raw raw' : UInt8} : ofRaw raw = ofRaw raw' ↔ raw = raw' := by
  constructor
  · intro h
    rw [← raw_ofRaw raw, h, raw_ofRaw]
  · exact congrArg ofRaw

namespace DataWord

variable {w : DataWord}

theorem toNat_and_of_mask (word : UInt64) {mask : UInt64} (start width : Nat)
    (h : mask.toNat = (2 ^ width - 1) * 2 ^ start) :
    (word &&& mask).toNat = word.toNat / 2 ^ start % 2 ^ width * 2 ^ start := by
  rw [UInt64.toNat_and, h]
  exact and_mask _ start width

/-- The flag and the type field side by side: the top bit of the field is set in any case. -/
theorem toNat_flag_or_type (type : UInt8) :
    (controlFlag ||| ((type.toUInt64 &&& typeMask) <<< 58)).toNat =
      2 ^ 63 + type.toNat % 2 ^ 5 * 2 ^ 58 := by
  have hfield : (type.toUInt64 &&& typeMask).toNat = type.toNat % 2 ^ 6 := toNat_and_typeMask _
  have hshifted : ((type.toUInt64 &&& typeMask) <<< 58).toNat = (type.toNat % 2 ^ 6) <<< 58 := by
    rw [toNat_shiftLeft _ (by decide), hfield, Nat.shiftLeft_eq]
    · rfl
    · rw [hfield]
      change _ * 2 ^ 58 < 2 ^ 64
      omega
  have hset : 2 ^ 5 ||| type.toNat % 2 ^ 6 = 2 ^ 5 + type.toNat % 2 ^ 5 := by
    have hsplit (low : Nat) (hlow : low < 2 ^ 5) : 2 ^ 5 + low = 2 ^ 5 ||| low := by
      have h := Nat.two_pow_add_eq_or_of_lt hlow 1
      rwa [Nat.mul_one] at h
    have hlow : type.toNat % 2 ^ 5 < 2 ^ 5 := Nat.mod_lt _ (by decide)
    by_cases hbelow : type.toNat % 2 ^ 6 < 2 ^ 5
    · have hsame : type.toNat % 2 ^ 6 = type.toNat % 2 ^ 5 := by omega
      rw [hsame, hsplit _ hlow]
    · have hsame : type.toNat % 2 ^ 6 = 2 ^ 5 + type.toNat % 2 ^ 5 := by omega
      rw [hsame, hsplit _ hlow, ← Nat.or_assoc, Nat.or_self]
  calc (controlFlag ||| ((type.toUInt64 &&& typeMask) <<< 58)).toNat
      = (2 ^ 5) <<< 58 ||| (type.toNat % 2 ^ 6) <<< 58 := by
        rw [UInt64.toNat_or, hshifted]
        rfl
    _ = (2 ^ 5 + type.toNat % 2 ^ 5) <<< 58 := by rw [← Nat.shiftLeft_or_distrib, hset]
    _ = 2 ^ 63 + type.toNat % 2 ^ 5 * 2 ^ 58 := by
        rw [Nat.shiftLeft_eq]
        omega

/-- Of the type only the lower five bits are free. -/
theorem toNat_control (type : ControlType) (payload : UInt64) :
    (control type payload).raw.toNat =
      2 ^ 63 + type.raw.toNat % 2 ^ 5 * 2 ^ 58 + payload.toNat % 2 ^ 58 := by
  have hhead := toNat_flag_or_type type.raw
  have hpayload : (payload &&& payloadMask).toNat = payload.toNat % 2 ^ 58 := by
    rw [UInt64.toNat_and]
    exact Nat.and_two_pow_sub_one_eq_mod _ 58
  unfold control
  dsimp only
  rw [toNat_or_of_lt 58, hhead, hpayload]
  · omega
  · omega

theorem controlType?_of_isControl (h : w.isControl = true) :
    w.controlType? = some (.ofRaw (UInt8.ofNat (w.raw.toNat / 2 ^ 58))) := by
  have hlt := w.raw.toNat_lt
  have hfield : ((w.raw >>> 58) &&& typeMask).toUInt8 = UInt8.ofNat (w.raw.toNat / 2 ^ 58) := by
    rw [← UInt8.toNat_inj, UInt64.toNat_toUInt8, toNat_and_typeMask,
      toNat_shiftRight _ (by decide), UInt8.toNat_ofNat']
    change _ / 2 ^ 58 % 2 ^ 6 % 2 ^ 8 = _
    omega
  rw [controlType?, if_pos h, hfield]

theorem controlType?_of_not_isControl (h : ¬ w.isControl = true) : w.controlType? = none :=
  if_neg h

/-- A control word has the type that it is built with, or the one 32 above. -/
theorem controlType?_control (type : ControlType) (payload : UInt64) :
    (control type payload).controlType? = some (.ofRaw (32 + type.raw % 32)) := by
  have hraw := toNat_control type payload
  have hcontrol : (control type payload).isControl = true := by
    rw [isControl_iff]
    omega
  have htype : UInt8.ofNat ((control type payload).raw.toNat / 2 ^ 58) = 32 + type.raw % 32 := by
    rw [← UInt8.toNat_inj, UInt8.toNat_ofNat', UInt8.toNat_add, UInt8.toNat_mod]
    change _ = (32 + type.raw.toNat % 32) % 2 ^ 8
    omega
  rw [controlType?_of_isControl hcontrol, htype]

theorem control_and_payloadMask (type : ControlType) (payload : UInt64) :
    (control type payload).raw &&& payloadMask = payload &&& payloadMask := by
  have hraw := toNat_control type payload
  have hmask (word : UInt64) : (word &&& payloadMask).toNat = word.toNat % 2 ^ 58 := by
    rw [UInt64.toNat_and]
    exact Nat.and_two_pow_sub_one_eq_mod _ 58
  rw [← UInt64.toNat_inj, hmask, hmask]
  omega

/-- The types 0 and 32 announce a coarse timestamp, and all others keep their word. -/
theorem classify_control_eq (type : ControlType) (payload : UInt64) :
    (control type payload).classify =
      if type.raw % 32 = 0 then .extendedTimestamp (payload &&& coarseMask)
      else .control (control type payload).raw := by
  have htype := controlType?_control type payload
  by_cases hzero : type.raw % 32 = 0
  · have hraw := toNat_control type payload
    have hcoarse : (control type payload).raw &&& coarseMask = payload &&& coarseMask := by
      rw [← UInt64.toNat_inj, toNat_and_coarseMask, toNat_and_coarseMask]
      omega
    rw [hzero] at htype
    rw [if_pos hzero, ← hcoarse, classify, htype]
    rfl
  · have hother : (32 + type.raw % 32 : UInt8) ≠ 0x20 := by
      rw [← UInt8.toNat_inj, UInt8.toNat_mod] at hzero
      rw [ne_eq, ← UInt8.toNat_inj, UInt8.toNat_add, UInt8.toNat_mod]
      change ¬ type.raw.toNat % 32 = 0 at hzero
      change ¬ (32 + type.raw.toNat % 32) % 2 ^ 8 = 32
      omega
    rw [ControlType.ofRaw, if_neg hother] at htype
    rw [if_neg hzero, classify, htype]

/--
A control word keeps its payload. It keeps the type that it is built with exactly if that type has
the top bit of its field; any other one is raised by 32, which makes a broadcast of the type 0.
-/
theorem control_keeps_type_iff (raw : UInt8) (payload : UInt64) :
    let w := control (.ofRaw raw) payload
    w.controlType? = some (.ofRaw (32 + raw % 32)) ∧
      (w.controlType? = some (.ofRaw raw) ↔ 32 ≤ raw ∧ raw < 64) ∧
      w.classify =
        (if raw % 32 = 0 then .extendedTimestamp (payload &&& coarseMask) else .control w.raw) ∧
      w.raw &&& payloadMask = payload &&& payloadMask := by
  have htype := controlType?_control (.ofRaw raw) payload
  have hclass := classify_control_eq (.ofRaw raw) payload
  rw [ControlType.raw_ofRaw] at htype hclass
  refine ⟨htype, ?_, hclass, control_and_payloadMask _ _⟩
  rw [htype, Option.some.injEq, ControlType.ofRaw_inj, ← UInt8.toNat_inj, UInt8.toNat_add,
    UInt8.toNat_mod, UInt8.le_iff_toNat_le, UInt8.lt_iff_toNat_lt]
  change (32 + raw.toNat % 32) % 2 ^ 8 = raw.toNat ↔ 32 ≤ raw.toNat ∧ raw.toNat < 64
  omega

/-- A control word of the type 0 is a broadcast, like one of the type 32 with the same payload. -/
theorem type_zero_taken_for_broadcast :
    let w := control (.ofRaw 0) 0x200000
    ControlType.ofRaw 0 ≠ .extendedTimestamp ∧
      w.raw = 0x8000000000200000 ∧ w.controlType? = some .extendedTimestamp ∧
      w.classify = .extendedTimestamp 0x200000 ∧ w = control .extendedTimestamp 0x200000 ∧
      ¬ ∀ (raw : UInt8) (payload : UInt64), raw < 64 →
        (control (.ofRaw raw) payload).controlType? = some (.ofRaw raw) := by
  refine ⟨by decide, by decide, by decide, by decide, by decide, fun h => ?_⟩
  exact absurd (h 0 0x200000 (by decide)) (by decide)

/-- Bit 38 of an event word, between the fine timestamp and the position. -/
def eventGap : UInt64 := (1 : UInt64) <<< (38 : UInt64)

/-- Bits 52 to 57 of a broadcast, between its type and its coarse timestamp, and bits 0 to 2. -/
def broadcastGap : UInt64 := ((0x3F : UInt64) <<< (52 : UInt64)) ||| 0x7

/-- Digits above and digits below a gap, without what is in the gap. -/
theorem toNat_and_of_masks (word : UInt64) {high low : UInt64}
    (highStart highWidth start width : Nat)
    (hhigh : high.toNat = (2 ^ highWidth - 1) * 2 ^ highStart)
    (hlow : low.toNat = (2 ^ width - 1) * 2 ^ start) (hgap : start + width ≤ highStart) :
    (word &&& (high ||| low)).toNat =
      word.toNat / 2 ^ highStart % 2 ^ highWidth * 2 ^ highStart +
        word.toNat / 2 ^ start % 2 ^ width * 2 ^ start := by
  have hupper := toNat_and_of_mask word highStart highWidth hhigh
  have hlower := toNat_and_of_mask word start width hlow
  have hbelow : (word &&& low).toNat < 2 ^ highStart := by
    rw [hlower]
    calc word.toNat / 2 ^ start % 2 ^ width * 2 ^ start
        < 2 ^ width * 2 ^ start :=
          Nat.mul_lt_mul_of_pos_right (Nat.mod_lt _ (Nat.two_pow_pos _)) (Nat.two_pow_pos _)
      _ = 2 ^ (start + width) := by rw [Nat.pow_add, Nat.mul_comm]
      _ ≤ 2 ^ highStart := Nat.pow_le_pow_right (by decide) hgap
  have habove : (word &&& high).toNat % 2 ^ highStart = 0 := by
    rw [hupper]
    exact Nat.mul_mod_left _ _
  have hparts : word &&& (high ||| low) = (word &&& high) ||| (word &&& low) := by
    rw [← UInt64.toNat_inj]
    simp only [UInt64.toNat_and, UInt64.toNat_or, Nat.and_or_distrib_left]
  rw [hparts, toNat_or_of_lt highStart hbelow habove, hupper, hlower]

theorem eq_of_toNat_eq {w' : DataWord} (h : w.raw.toNat = w'.raw.toNat) : w = w' :=
  congrArg mk (UInt64.toNat_inj.1 h)

theorem event_eq_of_not_isControl (h : ¬ w.isControl = true) :
    event ((w.raw >>> 39) &&& positionMask).toUInt32 ((w.raw >>> 14) &&& fineMask)
        (w.raw &&& energyMask).toUInt16 = ⟨w.raw &&& ~~~eventGap⟩ := by
  have hbelow : w.raw.toNat < 2 ^ 63 := by
    rw [isControl_iff] at h
    omega
  have hposition : ((w.raw >>> 39) &&& positionMask).toUInt32.toNat =
      w.raw.toNat / 2 ^ 39 % 2 ^ 24 % 2 ^ 32 := by
    have hmasked : ((w.raw >>> 39) &&& positionMask).toNat = (w.raw >>> 39).toNat % 2 ^ 24 :=
      toNat_and_fineMask _
    rw [UInt64.toNat_toUInt32, hmasked, toNat_shiftRight _ (by decide)]
    rfl
  have hfine : ((w.raw >>> 14) &&& fineMask).toNat = w.raw.toNat / 2 ^ 14 % 2 ^ 24 := by
    rw [toNat_and_fineMask, toNat_shiftRight _ (by decide)]
    rfl
  have henergy : (w.raw &&& energyMask).toUInt16.toNat = w.raw.toNat % 2 ^ 14 % 2 ^ 16 := by
    rw [UInt64.toNat_toUInt16, toNat_and_energyMask]
  have hkept : (w.raw &&& ~~~eventGap).toNat =
      w.raw.toNat / 2 ^ 39 % 2 ^ 25 * 2 ^ 39 + w.raw.toNat / 2 ^ 0 % 2 ^ 38 * 2 ^ 0 := by
    have hmask : ~~~eventGap = 0xFFFFFF8000000000 ||| 0x3FFFFFFFFF := by decide
    rw [hmask]
    exact toNat_and_of_masks _ 39 25 0 38 (by decide) (by decide) (by decide)
  apply eq_of_toNat_eq
  rw [toNat_event, hposition, hfine, henergy]
  change _ = (w.raw &&& ~~~eventGap).toNat
  rw [hkept]
  omega

/-- The type and the payload of a control word are all of it. -/
theorem control_eq_of_controlType? {type : ControlType} (h : w.controlType? = some type) :
    control type w.raw = w := by
  have hcontrol : w.isControl = true := by
    by_contra hevent
    rw [controlType?_of_not_isControl hevent] at h
    cases h
  rw [controlType?_of_isControl hcontrol, Option.some.injEq] at h
  rw [isControl_iff] at hcontrol
  have hlt := w.raw.toNat_lt
  apply eq_of_toNat_eq
  rw [toNat_control, ← h, ControlType.raw_ofRaw, UInt8.toNat_ofNat']
  omega

/-- A broadcast is its coarse timestamp, but for the gap. -/
theorem extendedTimestamp_eq_of_controlType? (h : w.controlType? = some .extendedTimestamp) :
    extendedTimestamp (w.raw &&& coarseMask) = ⟨w.raw &&& ~~~broadcastGap⟩ := by
  have hraw : w.raw.toNat = 2 ^ 63 + w.raw.toNat % 2 ^ 58 := by
    have hsame : (control .extendedTimestamp w.raw).raw.toNat = w.raw.toNat := by
      rw [control_eq_of_controlType? h]
    rw [toNat_control] at hsame
    exact hsame.symm
  have hkept : (w.raw &&& ~~~broadcastGap).toNat =
      w.raw.toNat / 2 ^ 58 % 2 ^ 6 * 2 ^ 58 + w.raw.toNat / 2 ^ 3 % 2 ^ 49 * 2 ^ 3 := by
    have hmask : ~~~broadcastGap = 0xFC00000000000000 ||| coarseMask := by decide
    rw [hmask]
    exact toNat_and_of_masks _ 58 6 3 49 (by decide) (by decide) (by decide)
  apply eq_of_toNat_eq
  rw [toNat_extendedTimestamp, toNat_and_coarseMask]
  change _ = (w.raw &&& ~~~broadcastGap).toNat
  rw [hkept]
  omega

theorem accessors_of_isControl (h : w.isControl = true) :
    w.kind = .control ∧ w.coarse = .ok (w.raw &&& coarseMask) ∧
      w.fine = .error (.wordKind .event w.raw) ∧ w.position = .error (.wordKind .event w.raw) ∧
      w.energy = .error (.wordKind .event w.raw) := by
  have hkind : w.kind = .control := if_pos h
  have hgranted : w.require .control = .ok () := if_pos hkind
  have hrefused : w.require .event = .error (.wordKind .event w.raw) := by
    rw [require, hkind]
    rfl
  rw [coarse, fine, position, energy, hgranted, hrefused]
  exact ⟨hkind, rfl, rfl, rfl, rfl⟩

theorem accessors_of_not_isControl (h : ¬ w.isControl = true) :
    w.kind = .event ∧ w.coarse = .error (.wordKind .control w.raw) ∧
      w.fine = .ok ((w.raw >>> 14) &&& fineMask) ∧
      w.position = .ok ((w.raw >>> 39) &&& positionMask).toUInt32 ∧
      w.energy = .ok (w.raw &&& energyMask).toUInt16 := by
  have hkind : w.kind = .event := if_neg h
  have hgranted : w.require .event = .ok () := if_pos hkind
  have hrefused : w.require .control = .error (.wordKind .control w.raw) := by
    rw [require, hkind]
    rfl
  rw [coarse, fine, position, energy, hgranted, hrefused]
  exact ⟨hkind, rfl, rfl, rfl, rfl⟩

/--
What a word is classed as is what its accessors answer, and all others refuse with the word. Put
together again from its class it is the same word but for the gaps of its layout; and a word put
together from fields is classed as what they are once cut to their widths.
-/
theorem classify_rebuilds :
    (∀ w : DataWord,
      match w.classify with
      | .event fine id energy =>
        w.kind = .event ∧ w.controlType? = none ∧
          w.fine = .ok fine ∧ w.position = .ok id ∧ w.energy = .ok energy ∧
          w.coarse = .error (.wordKind .control w.raw) ∧
          event id fine energy = ⟨w.raw &&& ~~~eventGap⟩
      | .extendedTimestamp coarse =>
        w.kind = .control ∧ w.controlType? = some .extendedTimestamp ∧ w.coarse = .ok coarse ∧
          w.fine = .error (.wordKind .event w.raw) ∧
          w.position = .error (.wordKind .event w.raw) ∧
          w.energy = .error (.wordKind .event w.raw) ∧
          extendedTimestamp coarse = ⟨w.raw &&& ~~~broadcastGap⟩
      | .control word =>
        word = w.raw ∧ w.kind = .control ∧ w.coarse = .ok (w.raw &&& 0x000FFFFFFFFFFFF8) ∧
          w.fine = .error (.wordKind .event w.raw) ∧
          w.position = .error (.wordKind .event w.raw) ∧
          w.energy = .error (.wordKind .event w.raw) ∧
          ∃ type, type ≠ .extendedTimestamp ∧ w.controlType? = some type ∧ control type word = w) ∧
      (∀ (position : UInt32) (fine : UInt64) (energy : UInt16),
        (event position fine energy).classify =
          .event (fine % 0x1000000) (position % 0x1000000) (energy % 0x4000)) ∧
      ∀ coarse : UInt64,
        (extendedTimestamp coarse).classify =
          .extendedTimestamp (coarse &&& 0x000FFFFFFFFFFFF8) := by
  refine ⟨fun w => ?_, classify_event, classify_extendedTimestamp⟩
  by_cases hcontrol : w.isControl = true
  · obtain ⟨hkind, hcoarse, hfine, hposition, henergy⟩ := accessors_of_isControl hcontrol
    cases htype : w.controlType? with
    | none =>
      rw [controlType?_of_isControl hcontrol] at htype
      cases htype
    | some type =>
      cases type with
      | extendedTimestamp =>
        have hclass : w.classify = .extendedTimestamp (w.raw &&& coarseMask) := by
          rw [classify, htype]
        rw [hclass]
        exact ⟨hkind, rfl, hcoarse, hfine, hposition, henergy,
          extendedTimestamp_eq_of_controlType? htype⟩
      | other raw =>
        have hclass : w.classify = .control w.raw := by
          rw [classify, htype]
        rw [hclass]
        exact ⟨rfl, hkind, hcoarse, hfine, hposition, henergy, .other raw, by simp, rfl,
          control_eq_of_controlType? htype⟩
  · obtain ⟨hkind, hcoarse, hfine, hposition, henergy⟩ := accessors_of_not_isControl hcontrol
    have hnone := controlType?_of_not_isControl hcontrol
    have hclass : w.classify = .event ((w.raw >>> 14) &&& fineMask)
        ((w.raw >>> 39) &&& positionMask).toUInt32 (w.raw &&& energyMask).toUInt16 := by
      rw [classify, hnone]
    rw [hclass]
    exact ⟨hkind, hnone, hfine, hposition, henergy, hcoarse, event_eq_of_not_isControl hcontrol⟩

end DataWord
end EventReadout
