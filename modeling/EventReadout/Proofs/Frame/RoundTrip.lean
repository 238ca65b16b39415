import EventReadout.Frame.Draft
import EventReadout.Proofs.Packet.Header
import EventReadout.Proofs.Word.Cursor
import Mathlib.Data.List.Basic

/-!
Frames that are encoded are read back: number, idle flag and filled slots, and in every filled slot
the header and the payload that it was filled with.
-/
namespace EventReadout

theorem mapM_eq_ok_iff {ε α β : Type} {f : α → Except ε β} {p : α → Prop} {g : α → β}
    (hf : ∀ x y, f x = .ok y ↔ p x ∧ y = g x) {xs : List α} {ys : List β} :
    xs.mapM f = .ok ys ↔ (∀ x ∈ xs, p x) ∧ ys = xs.map g := by
  induction xs generalizing ys with
  | nil => simp [pure, Except.pure, eq_comm]
  | cons x xs ih =>
    rw [List.mapM_cons, List.forall_mem_cons, List.map_cons]
    cases hx : f x with
    | error cause =>
      have hnot : ¬ p x := fun hp => by
        rw [(hf x (g x)).2 ⟨hp, rfl⟩] at hx
        cases hx
      simp [bind, Except.bind, hnot]
    | ok y =>
      obtain ⟨hp, rfl⟩ := (hf x y).1 hx
      cases hxs : xs.mapM f with
      | error cause =>
        have hnot : ¬ ∀ x ∈ xs, p x := fun hall => by
          rw [ih.2 ⟨hall, rfl⟩] at hxs
          cases hxs
        simp only [bind, Except.bind, hnot, and_false, false_and, reduceCtorEq]
      | ok zs =>
        obtain ⟨hall, rfl⟩ := ih.1 hxs
        simp only [bind, Except.bind, pure, Except.pure, Except.ok.injEq, hp, true_and]
        rw [eq_comm, iff_and_self]
        exact fun _ => hall

namespace Packet

variable {p : Packet} {lead tail : Bytes}

theorem header_of_bytes {first second : UInt64} (hlead : lead.length = wordBytes)
    (h : p.bytes = lead ++ (p.order.encode first ++ p.order.encode second) ++ tail) :
    p.header = .ok (.decode first second) := by
  rw [List.append_assoc, List.append_assoc] at h
  unfold header
  rw [WordCursor.skip_append h (by rw [hlead, Nat.one_mul])]
  change (WordCursor.read _ >>= _) = _
  rw [WordCursor.read_append rfl]
  change (WordCursor.read _ >>= _) = _
  rw [WordCursor.read_append rfl]
  rfl

theorem readPayload_of_bytes {words : List UInt64}
    (hlead : lead.length = p.headerWords * wordBytes)
    (h : p.bytes = lead ++ p.order.encodeAll words ++ tail) (out : List UInt64) :
    p.readPayload words.length out = .ok (out ++ words) := by
  rw [List.append_assoc] at h
  unfold readPayload
  rw [WordCursor.skip_append h hlead]
  change (WordCursor.readInto _ _ _ >>= _) = _
  rw [WordCursor.readInto_append rfl]
  rfl

end Packet

namespace Filling

/-- The packet has room for the payload, and the header can count the words. -/
def Fits (c : Config) (f : Filling) : Prop :=
  f.payload.length ≤ c.payloadWords ∧ f.payload.length + c.headerWords - 1 ≤ 65535

/-- The filling with its words counted. -/
def counted (c : Config) (f : Filling) : Filling :=
  { f with header.wordCount := UInt16.ofNat (f.payload.length + c.headerWords - 1) }

end Filling

/-- A machine that has the memory for a frame. -/
structure Host.HoldsFrame (h : Host) (c : Config) : Prop where
  slots : c.packetSlots ≤ h.tableEntries
  bytes : c.frameBytes ≤ h.blockBytes

instance (h : Host) (c : Config) : Decidable (h.HoldsFrame c) :=
  decidable_of_iff (c.packetSlots ≤ h.tableEntries ∧ c.frameBytes ≤ h.blockBytes)
    ⟨fun ⟨slots, bytes⟩ => ⟨slots, bytes⟩, fun hh => ⟨hh.slots, hh.bytes⟩⟩

theorem Host.HoldsFrame.frameBytes_lt {h : Host} {c : Config} (hh : h.HoldsFrame c) :
    c.frameBytes < UInt64.size :=
  Nat.lt_of_le_of_lt (Nat.le_trans hh.bytes (Nat.le_mul_of_pos_left _ (by decide)))
    h.blockBytes_lt

namespace FrameDraft

variable {c : Config} {d : FrameDraft} {f g : Filling}

theorem sealFilling_eq_ok_iff : sealFilling c f = .ok g ↔ f.Fits c ∧ g = f.counted c := by
  unfold sealFilling Filling.Fits
  dsimp only
  split
  · next hlong =>
    constructor
    · intro h
      cases h
    · rintro ⟨⟨hroom, -⟩, -⟩
      omega
  · next hroom =>
    split
    · next hcount =>
      constructor
      · intro h
        cases h
        exact ⟨⟨by omega, by omega⟩, rfl⟩
      · rintro ⟨-, rfl⟩
        rfl
    · next hcount =>
      constructor
      · intro h
        cases h
      · rintro ⟨⟨-, hwords⟩, -⟩
        omega

theorem sealSlot_eq_ok_iff {slot : Nat} {s : Option Filling} :
    sealSlot c d slot = .ok s ↔
      (∀ f, d.filling? slot = some f → f.Fits c) ∧ s = (d.filling? slot).map (·.counted c) := by
  unfold sealSlot
  cases d.filling? slot with
  | none =>
    constructor
    · intro h
      cases h
      exact ⟨by simp, rfl⟩
    · rintro ⟨-, rfl⟩
      rfl
  | some f =>
    change some <$> sealFilling c f = _ ↔ _
    cases hseal : sealFilling c f with
    | error cause =>
      constructor
      · intro h
        cases h
      · rintro ⟨hfits, -⟩
        rw [sealFilling_eq_ok_iff.2 ⟨hfits f rfl, rfl⟩] at hseal
        cases hseal
    | ok g =>
      obtain ⟨hfits, rfl⟩ := sealFilling_eq_ok_iff.1 hseal
      constructor
      · intro h
        cases h
        refine ⟨fun g hg => ?_, rfl⟩
        cases hg
        exact hfits
      · rintro ⟨-, rfl⟩
        rfl

section Place

variable {offset : Nat} {bytes base : Bytes}

theorem place_eq (h : offset + bytes.length ≤ base.length) :
    place offset bytes base =
      base.take offset ++ bytes ++ base.drop (offset + bytes.length) := by
  have hzeros : offset - base.length = 0 := by omega
  rw [place, hzeros, Bytes.zeros, List.replicate_zero, List.append_nil]

theorem length_place (h : offset + bytes.length ≤ base.length) :
    (place offset bytes base).length = base.length := by
  rw [place_eq h]
  simp only [List.length_append, List.length_take, List.length_drop]
  omega

/-- What stands before the offset is left alone. -/
theorem place_append {lead kept tail : Bytes} (hoffset : lead.length + kept.length ≤ offset)
    (h : offset + bytes.length ≤ (lead ++ kept ++ tail).length) :
    ∃ tail', place offset bytes (lead ++ kept ++ tail) = lead ++ kept ++ tail' := by
  have hlength : (lead ++ kept).length ≤ offset := by rwa [List.length_append]
  rw [place_eq h, List.take_append, List.take_of_length_le hlength, List.append_assoc,
    List.append_assoc]
  exact ⟨_, rfl⟩

end Place

/-- A slot before anything is put into it. -/
def blankSlot (c : Config) : Bytes := Bytes.zeros c.packetBytes

theorem length_blankSlot (c : Config) : (blankSlot c).length = c.packetBytes :=
  Bytes.length_zeros _

theorem length_headerBlock (order : ByteOrder) (h : PacketHeader) :
    (headerBlock order h).length = 2 * wordBytes := by
  unfold headerBlock
  rw [List.length_append, ByteOrder.length_encode, ByteOrder.length_encode, Nat.two_mul]

theorem slotImage_some (c : Config) (base : Bytes) (f : Filling) :
    slotImage c base (some f) =
      place (c.headerWords * wordBytes) (c.byteOrder.encodeAll f.payload)
        (place wordBytes (headerBlock c.byteOrder f.header) base) := rfl

theorem header_placed (hc : c.Valid) (order : ByteOrder) (h : PacketHeader) :
    ∃ lead tail, lead.length = wordBytes ∧
      place wordBytes (headerBlock order h) (blankSlot c) = lead ++ headerBlock order h ++ tail ∧
      (lead ++ headerBlock order h ++ tail).length = c.packetBytes := by
  have hroom : wordBytes + (headerBlock order h).length ≤ (blankSlot c).length := by
    have hwords := hc.headerWords_ge
    have hlt := hc.header_lt_packet
    rw [length_headerBlock, length_blankSlot]
    rw [wordBytes] at *
    omega
  have hlength := length_place hroom
  rw [place_eq hroom, length_blankSlot] at hlength
  refine ⟨_, _, ?_, place_eq hroom, hlength⟩
  rw [List.length_take]
  omega

theorem slotImage_eq (hc : c.Valid) (hf : f.payload.length ≤ c.payloadWords) :
    (slotImage c (blankSlot c) (some f)).length = c.packetBytes ∧
      (∃ lead tail, lead.length = wordBytes ∧ slotImage c (blankSlot c) (some f) =
        lead ++ headerBlock c.byteOrder f.header ++ tail) ∧
      (∃ lead tail, lead.length = c.headerWords * wordBytes ∧
        slotImage c (blankSlot c) (some f) =
          lead ++ c.byteOrder.encodeAll f.payload ++ tail) := by
  have hwords := hc.headerWords_ge
  have hlt := hc.header_lt_packet
  have hroom : c.headerWords * wordBytes + (c.byteOrder.encodeAll f.payload).length ≤
      c.packetBytes := by
    have haligned := hc.packetBytes_aligned
    unfold Config.payloadWords Config.wordsPerPacket at hf
    rw [ByteOrder.length_encodeAll]
    rw [wordBytes] at *
    omega
  obtain ⟨lead, tail, hlead, hheader, hlength⟩ := header_placed hc c.byteOrder f.header
  rw [← hlength] at hroom
  rw [slotImage_some, hheader]
  refine ⟨(length_place hroom).trans hlength, ⟨lead, ?_⟩, ⟨_, _, ?_, place_eq hroom⟩⟩
  · have hbefore : lead.length + (headerBlock c.byteOrder f.header).length ≤
        c.headerWords * wordBytes := by
      rw [hlead, length_headerBlock]
      rw [wordBytes] at *
      omega
    obtain ⟨tail', htail⟩ := place_append hbefore hroom
    exact ⟨tail', hlead, htail⟩
  · rw [List.length_take]
    omega

/-- Slots that are full to the last byte leave nothing to carry on into the next one. -/
theorem layOut_nil {slots : List (Option Filling)}
    (h : ∀ s ∈ slots, (slotImage c (blankSlot c) s).length = c.packetBytes) :
    layOut c [] slots = slots.flatMap (slotImage c (blankSlot c)) := by
  induction slots with
  | nil => rfl
  | cons s rest ih =>
    obtain ⟨hs, hrest⟩ := List.forall_mem_cons.1 h
    rw [layOut, List.nil_append, List.length_nil, Nat.sub_zero]
    change (slotImage c (blankSlot c) s).take _ ++ layOut c ((slotImage c (blankSlot c) s).drop _) _
      = _
    rw [← hs, List.take_length, List.drop_length, ih hrest, List.flatMap_cons]

theorem cutPackets_flatMap {image : Option Filling → Bytes} {slots : List (Option Filling)}
    (h : ∀ s ∈ slots, (image s).length = c.packetBytes) :
    Frame.cutPackets c (slots.map Option.isSome) (slots.flatMap image) =
      slots.map fun s => s.map fun _ => ⟨image s, c.byteOrder, c.headerWords⟩ := by
  induction slots with
  | nil => rfl
  | cons s rest ih =>
    obtain ⟨hs, hrest⟩ := List.forall_mem_cons.1 h
    rw [List.map_cons, List.flatMap_cons, Frame.cutPackets, ← hs, List.take_left, List.drop_left,
      ih hrest, List.map_cons]
    cases s <;> rfl

/-- The bytes before the validity bytes. -/
def headerLead (order : ByteOrder) (number : UInt64) (idle : Bool) : Bytes :=
  order.encode number ++ (if idle then 1 else 0) :: Bytes.zeros 7

theorem length_headerLead (order : ByteOrder) (number : UInt64) (idle : Bool) :
    (headerLead order number idle).length = Frame.validityOffset := by
  unfold headerLead
  rw [List.length_append, ByteOrder.length_encode, List.length_cons, Bytes.length_zeros]
  rfl

theorem headerImage_eq (c : Config) (number : UInt64) (idle : Bool) (validity : List Bool) :
    headerImage c number idle validity =
      headerLead c.byteOrder number idle ++ (validity.map (fun valid => if valid then 1 else 0) ++
        Bytes.zeros (c.headerBytes - (Frame.validityOffset + validity.length))) := by
  have hlength := length_headerLead c.byteOrder number idle
  unfold headerLead at hlength
  unfold headerImage headerLead
  dsimp only
  rw [List.append_assoc, List.length_append, List.length_map, hlength]

theorem length_headerImage {validity : List Bool} (h : validity.length ≤ c.packetSlots)
    (number : UInt64) (idle : Bool) :
    (headerImage c number idle validity).length = c.headerBytes := by
  rw [headerImage_eq, List.length_append, length_headerLead, List.length_append, List.length_map,
    Bytes.length_zeros, Frame.validityOffset, Config.headerBytes]
  omega

theorem headerImage_nil (c : Config) (number : UInt64) (idle : Bool) :
    headerImage c number idle [] =
      headerImage c number idle (List.replicate c.packetSlots false) := by
  rw [headerImage_eq, headerImage_eq, List.map_nil, List.nil_append, List.map_replicate,
    List.length_nil, List.length_replicate]
  unfold Bytes.zeros
  change _ = _ ++ (List.replicate c.packetSlots 0 ++ _)
  rw [List.replicate_append_replicate]
  congr 2
  unfold Frame.validityOffset Config.headerBytes
  omega

theorem idleFlag_append (order : ByteOrder) (number : UInt64) (idle : Bool) (rest : Bytes) :
    Frame.idleFlag (order.encode number ++ ((if idle then 1 else 0) :: Bytes.zeros 7 ++ rest)) =
      idle := by
  have hlength : (order.encode number).length = Frame.idleOffset :=
    ByteOrder.length_encode order number
  unfold Frame.idleFlag
  rw [List.getD_eq_getElem?_getD, List.getElem?_append_right (Nat.le_of_eq hlength), hlength]
  cases idle <;> rfl

theorem validity_take (validity : List Bool) (rest : Bytes) :
    ((validity.map (fun valid => if valid then (1 : UInt8) else 0) ++ rest).take
      validity.length).map (· != 0) = validity := by
  rw [List.take_left' (List.length_map _), List.map_map]
  conv_rhs => rw [← List.map_id validity]
  apply List.map_congr_left
  intro valid _
  cases valid <;> rfl

/-- A header is read back, whatever follows it; a standard frame needs all its slots. -/
theorem parse_headerImage {validity : List Bool} (h : validity.length = c.packetSlots)
    (number : UInt64) (idle : Bool) {body : Bytes}
    (hbody : body.length = c.packetSlots * c.packetBytes) :
    Frame.parse c (headerImage c number idle validity ++ body) = .ok {
      number, idle, validity
      packets :=
        if idle then validity.map fun _ => none else Frame.cutPackets c validity body } := by
  have hheader := length_headerImage (Nat.le_of_eq h) number idle
  have hlength : (headerImage c number idle validity ++ body).length = c.frameBytes := by
    rw [List.length_append, hheader, hbody, Config.frameBytes]
  have hshort : ¬ c.frameBytes < c.headerBytes := by
    unfold Config.frameBytes
    omega
  have hflag : Frame.idleFlag (headerImage c number idle validity ++ body) = idle := by
    rw [headerImage_eq, headerLead, List.append_assoc, List.append_assoc]
    exact idleFlag_append _ _ _ _
  have hvalidity : (((headerImage c number idle validity ++ body).drop Frame.validityOffset).take
      c.packetSlots).map (· != 0) = validity := by
    rw [headerImage_eq, List.append_assoc, ← length_headerLead c.byteOrder number idle,
      List.drop_left, List.append_assoc, ← h]
    exact validity_take _ _
  have hnumber : c.byteOrder.decode
      ((headerImage c number idle validity ++ body).take wordBytes) = number := by
    rw [headerImage_eq, headerLead, List.append_assoc, List.append_assoc,
      ← ByteOrder.length_encode c.byteOrder number, List.take_left, ByteOrder.decode_encode]
  have hrest : (headerImage c number idle validity ++ body).drop c.headerBytes = body := by
    rw [← hheader, List.drop_left]
  unfold Frame.parse
  dsimp only
  rw [hlength, if_neg hshort, hflag, hvalidity, hnumber, hrest, if_neg (by simp)]

/-- The slots of the frame with their words counted. -/
def countedSlots (d : FrameDraft) (c : Config) : List (Option Filling) :=
  (List.range c.packetSlots).map fun slot => (d.filling? slot).map (·.counted c)

theorem encode_of_beyond (h : ¬ ∀ f ∈ d.fillings, f.slot < c.packetSlots) :
    ∃ cause, d.encode c = .error cause := by
  have hany : d.fillings.any (c.packetSlots ≤ ·.slot) = true := by simpa using h
  unfold encode
  rw [if_pos hany]
  exact ⟨_, rfl⟩

theorem encode_of_within (h : ∀ f ∈ d.fillings, f.slot < c.packetSlots) :
    d.encode c = if d.idle then
        .ok (headerImage c d.number true [] ++ Bytes.zeros (c.packetSlots * c.packetBytes))
      else ((List.range c.packetSlots).mapM (sealSlot c d)).map fun slots =>
        headerImage c d.number false (slots.map Option.isSome) ++ layOut c [] slots := by
  have hany : ¬ d.fillings.any (c.packetSlots ≤ ·.slot) = true := by simpa using h
  unfold encode
  rw [if_neg hany]
  rfl

theorem mapM_sealSlot_eq_ok_iff {slots : List (Option Filling)} :
    (List.range c.packetSlots).mapM (sealSlot c d) = .ok slots ↔
      (∀ slot ∈ List.range c.packetSlots, ∀ f, d.filling? slot = some f → f.Fits c) ∧
        slots = d.countedSlots c :=
  mapM_eq_ok_iff fun _ _ => sealSlot_eq_ok_iff

theorem filling?_fill (d : FrameDraft) (slot : Nat) (header : PacketHeader)
    (payload : List UInt64) (s : Nat) :
    (d.fill slot header payload).filling? s =
      if slot = s then some ⟨slot, header, payload⟩ else d.filling? s := by
  unfold filling? fill
  by_cases h : slot = s
  · rw [List.find?_cons_of_pos (by simp [h]), if_pos h]
  · rw [List.find?_cons_of_neg (by simp [h]), if_neg h]

theorem slot_of_filling? {slot : Nat} (h : d.filling? slot = some f) :
    f ∈ d.fillings ∧ f.slot = slot :=
  ⟨List.mem_of_find?_eq_some h, by simpa using List.find?_some h⟩

/-- A draft is encoded if its slots exist and their fillings fit, which an idle frame may ignore. -/
theorem encode_eq_ok_iff {bytes : Bytes} :
    d.encode c = .ok bytes ↔
      (∀ f ∈ d.fillings, f.slot < c.packetSlots) ∧
        (d.idle = false → ∀ slot f, d.filling? slot = some f → f.Fits c) ∧
        bytes = if d.idle then
            headerImage c d.number true [] ++ Bytes.zeros (c.packetSlots * c.packetBytes)
          else
            headerImage c d.number false ((d.countedSlots c).map Option.isSome) ++
              layOut c [] (d.countedSlots c) := by
  by_cases hslots : ∀ f ∈ d.fillings, f.slot < c.packetSlots
  · rw [encode_of_within hslots]
    cases d.idle with
    | true =>
      rw [if_pos rfl, if_pos rfl, Except.ok.injEq, eq_comm]
      exact ⟨fun h => ⟨hslots, fun hidle => (by cases hidle), h⟩, fun h => h.2.2⟩
    | false =>
      rw [if_neg (by decide), if_neg (by decide)]
      cases hseal : (List.range c.packetSlots).mapM (sealSlot c d) with
      | error cause =>
        constructor
        · intro h
          cases h
        · rintro ⟨-, hfits, -⟩
          rw [mapM_sealSlot_eq_ok_iff.2 ⟨fun slot _ => hfits rfl slot, rfl⟩] at hseal
          cases hseal
      | ok slots =>
        obtain ⟨hfits, rfl⟩ := mapM_sealSlot_eq_ok_iff.1 hseal
        have hall : ∀ slot f, d.filling? slot = some f → f.Fits c := by
          intro slot f hf
          obtain ⟨hmem, rfl⟩ := slot_of_filling? hf
          exact hfits _ (List.mem_range.2 (hslots f hmem)) f hf
        rw [Except.map, Except.ok.injEq, eq_comm]
        exact ⟨fun h => ⟨hslots, fun _ => hall, h⟩, fun h => h.2.2⟩
  · obtain ⟨cause, hcause⟩ := encode_of_beyond hslots
    rw [hcause]
    simp [hslots]

/-- What a slot of a frame holds depends on what it was filled with, if it was. -/
theorem slot_getElem? {β : Type} (xs : List (Option Filling)) (packet : Option Filling → β)
    (slot : Nat) :
    (xs.map Option.isSome).getD slot false = xs[slot]?.join.isSome ∧
      (xs.map fun s => s.map fun _ => packet s)[slot]?.join =
        xs[slot]?.join.map fun f => packet (some f) := by
  rw [List.getD_eq_getElem?_getD, List.getElem?_map, List.getElem?_map]
  rcases xs[slot]? with _ | _ | f
  · exact ⟨rfl, rfl⟩
  · exact ⟨rfl, rfl⟩
  · exact ⟨rfl, rfl⟩

theorem packet_of_fits (hc : c.Valid) (h : f.Fits c) :
    let p : Packet :=
      ⟨slotImage c (blankSlot c) (some (f.counted c)), c.byteOrder, c.headerWords⟩
    ∃ header, p.header = .ok header ∧
      header.wordCount.toNat = f.payload.length + c.headerWords - 1 ∧
      header = { f.header with
        wordCount := header.wordCount, buffer := f.header.buffer % 256 } ∧
      header.payloadWords c.headerWords = f.payload.length ∧
      ∀ out, p.readPayload (header.payloadWords c.headerWords) out = .ok (out ++ f.payload) := by
  obtain ⟨hroom, hcount⟩ := h
  obtain ⟨-, ⟨lead, tail, hlead, hheader⟩, ⟨lead', tail', hlead', hpayload⟩⟩ :=
    slotImage_eq (f := f.counted c) hc hroom
  have hwords := hc.headerWords_ge
  have hcounted : (f.counted c).header.wordCount.toNat = f.payload.length + c.headerWords - 1 :=
    UInt16.toNat_ofNat_of_lt' (Nat.lt_succ_of_le hcount)
  have hread := Packet.header_of_bytes (p := ⟨_, c.byteOrder, c.headerWords⟩) hlead hheader
  rw [PacketHeader.decode_encode] at hread
  have htaken : ({ (f.counted c).header with
      buffer := (f.counted c).header.buffer % 256 } : PacketHeader).payloadWords c.headerWords =
        f.payload.length := by
    unfold PacketHeader.payloadWords
    dsimp only
    omega
  refine ⟨_, hread, hcounted, rfl, htaken, fun out => ?_⟩
  rw [htaken]
  exact Packet.readPayload_of_bytes (p := ⟨_, c.byteOrder, c.headerWords⟩) hlead' hpayload out

theorem image_countedSlots (hc : c.Valid)
    (h : ∀ slot f, d.filling? slot = some f → f.Fits c) :
    ∀ s ∈ d.countedSlots c, (slotImage c (blankSlot c) s).length = c.packetBytes := by
  intro s hs
  obtain ⟨slot, -, rfl⟩ := List.mem_map.1 hs
  cases hf : d.filling? slot with
  | none => exact length_blankSlot c
  | some f => exact (slotImage_eq (f := f.counted c) hc (h slot f hf).1).1

@[simp] theorem length_countedSlots (d : FrameDraft) (c : Config) :
    (d.countedSlots c).length = c.packetSlots := by
  rw [countedSlots, List.length_map, List.length_range]

/-- Slot by slot the frame has what the draft has; beyond its slots the draft has nothing. -/
theorem countedSlots_getElem? (h : ∀ f ∈ d.fillings, f.slot < c.packetSlots) (slot : Nat) :
    (d.countedSlots c)[slot]?.join = (d.filling? slot).map (·.counted c) := by
  rw [countedSlots, List.getElem?_map]
  by_cases hslot : slot < c.packetSlots
  · rw [List.getElem?_range hslot]
    rfl
  · have hnone : d.filling? slot = none := by
      rw [Option.eq_none_iff_forall_ne_some]
      intro f hf
      obtain ⟨hmem, rfl⟩ := slot_of_filling? hf
      exact hslot (h f hmem)
    rw [List.getElem?_eq_none (by rw [List.length_range]; omega), hnone]
    rfl

theorem parse_encode_idle (hidle : d.idle = true) {bytes : Bytes} (h : d.encode c = .ok bytes) :
    bytes.length = c.frameBytes ∧
      ∃ frame, Frame.parse c bytes = .ok frame ∧ frame.number = d.number ∧ frame.idle = true := by
  obtain ⟨-, -, hbytes⟩ := encode_eq_ok_iff.1 h
  rw [if_pos hidle, headerImage_nil] at hbytes
  have hslots : (List.replicate c.packetSlots false).length = c.packetSlots :=
    List.length_replicate
  have hbody := Bytes.length_zeros (c.packetSlots * c.packetBytes)
  rw [hbytes]
  refine ⟨?_, _, parse_headerImage hslots d.number true hbody, rfl, rfl⟩
  rw [List.length_append, length_headerImage (Nat.le_of_eq hslots), hbody, Config.frameBytes]

theorem parse_encode_standard (hc : c.Valid) (hidle : d.idle = false) {bytes : Bytes}
    (h : d.encode c = .ok bytes) :
    bytes.length = c.frameBytes ∧
      Frame.parse c bytes = .ok {
        number := d.number
        idle := false
        validity := (d.countedSlots c).map Option.isSome
        packets := (d.countedSlots c).map fun s => s.map fun _ =>
          ⟨slotImage c (blankSlot c) s, c.byteOrder, c.headerWords⟩ } := by
  obtain ⟨-, hfits, hbytes⟩ := encode_eq_ok_iff.1 h
  have himage := image_countedSlots hc (hfits hidle)
  rw [hidle, if_neg (by decide), layOut_nil himage] at hbytes
  have hslots : ((d.countedSlots c).map Option.isSome).length = c.packetSlots := by
    rw [List.length_map, length_countedSlots]
  have hbody : ((d.countedSlots c).flatMap (slotImage c (blankSlot c))).length =
      c.packetSlots * c.packetBytes := by
    rw [List.length_flatMap, List.map_congr_left himage, List.map_const',
      List.sum_replicate_nat, length_countedSlots]
  rw [hbytes]
  constructor
  · rw [List.length_append, length_headerImage (Nat.le_of_eq hslots), hbody, Config.frameBytes]
  · rw [parse_headerImage hslots d.number false hbody, cutPackets_flatMap himage]
    rfl

theorem slotTable_of_within (h : ∀ f ∈ d.fillings, f.slot < c.packetSlots) :
    d.slotTable c = c.packetSlots := by
  unfold slotTable
  generalize d.fillings = fillings at h
  induction fillings with
  | nil => rfl
  | cons f rest ih =>
    obtain ⟨hf, hrest⟩ := List.forall_mem_cons.1 h
    rw [List.map_cons, List.foldl_cons, Nat.max_eq_left hf]
    exact ih hrest

/-- Such a machine does not show in what is built. -/
theorem build_eq_ok_iff {h : Host} (hh : h.HoldsFrame c) {bytes : Bytes} :
    d.build h c = .ok (.ok bytes) ↔ d.encode c = .ok bytes := by
  rw [build, Host.carryOut_eq_ok_iff]
  constructor
  · exact fun ⟨_, hanswer⟩ => hanswer.symm
  · intro hanswer
    have htable := slotTable_of_within (encode_eq_ok_iff.1 hanswer).1
    refine ⟨?_, hanswer.symm⟩
    rw [demands, htable, if_pos (Nat.le_refl _)]
    simp [Host.meets, hh.slots, hh.bytes]

/--
On a machine that has the memory for a frame, encoding succeeds exactly if every slot exists and, in
a standard frame, every payload that counts fits its packet and its header; the bytes then are one
frame, from which the number, the idle flag and the contents of every slot can be read back.
-/
theorem parse_build (hc : c.Valid) {h : Host} (hh : h.HoldsFrame c) (d : FrameDraft) :
    ((∃ bytes, d.build h c = .ok (.ok bytes)) ↔
      (∀ f ∈ d.fillings, f.slot < c.packetSlots) ∧
        (d.idle = false → ∀ slot f, d.filling? slot = some f →
          f.payload.length ≤ c.payloadWords ∧ f.payload.length + c.headerWords - 1 ≤ 65535)) ∧
      ∀ bytes, d.build h c = .ok (.ok bytes) →
        bytes.length = c.frameSize.toNat ∧
          ∃ frame, Frame.parse c bytes = .ok frame ∧ frame.number = d.number ∧
            frame.idle = d.idle ∧
            (d.idle = false → ∀ slot,
              frame.isValid slot = (d.filling? slot).isSome ∧
                match d.filling? slot with
                | none => frame.packet? slot = none
                | some f => ∃ p header, frame.packet? slot = some p ∧ p.header = .ok header ∧
                    header.wordCount.toNat = f.payload.length + c.headerWords - 1 ∧
                    header = { f.header with
                      wordCount := header.wordCount, buffer := f.header.buffer % 256 } ∧
                    header.payloadWords c.headerWords = f.payload.length ∧
                    ∀ out, p.readPayload (header.payloadWords c.headerWords) out =
                      .ok (out ++ f.payload)) := by
  simp only [build_eq_ok_iff hh, Config.toNat_frameSize hh.frameBytes_lt]
  constructor
  · constructor
    · rintro ⟨bytes, h⟩
      obtain ⟨hslots, hfits, -⟩ := encode_eq_ok_iff.1 h
      exact ⟨hslots, hfits⟩
    · rintro ⟨hslots, hfits⟩
      exact ⟨_, encode_eq_ok_iff.2 ⟨hslots, hfits, rfl⟩⟩
  · intro bytes h
    cases hidle : d.idle with
    | true =>
      obtain ⟨hlength, frame, hparse, hnumber, hflag⟩ := parse_encode_idle hidle h
      exact ⟨hlength, frame, hparse, hnumber, hflag, fun hstandard => (by cases hstandard)⟩
    | false =>
      obtain ⟨hlength, hparse⟩ := parse_encode_standard hc hidle h
      obtain ⟨hslots, hfits, -⟩ := encode_eq_ok_iff.1 h
      refine ⟨hlength, _, hparse, rfl, rfl, fun _ slot => ?_⟩
      obtain ⟨hvalid, hpacket⟩ := slot_getElem? (d.countedSlots c)
        (fun s => (⟨slotImage c (blankSlot c) s, c.byteOrder, c.headerWords⟩ : Packet)) slot
      rw [countedSlots_getElem? hslots] at hvalid hpacket
      refine ⟨hvalid.trans (Option.isSome_map ..), ?_⟩
      cases hf : d.filling? slot with
      | none =>
        rw [hf] at hpacket
        exact hpacket
      | some f =>
        rw [hf] at hpacket
        obtain ⟨header, hread⟩ := packet_of_fits hc (hfits hidle slot f hf)
        exact ⟨_, header, hpacket, hread⟩

/-- The first filling is too long for the packet, and the second one takes its place. -/
theorem parse_build_refilled :
    let c : Config := { packetSlots := 2, packetBytes := 40, byteOrder := .big }
    let d := (({ number := 7 } : FrameDraft).fill 1 {} [1, 2, 3]).fill 1 { buffer := 300 } [5, 6]
    let h : Host := ⟨112, 2, 1, by decide⟩
    c.Valid ∧ h.HoldsFrame c ∧ ∃ bytes frame p header, d.build h c = .ok (.ok bytes) ∧
      bytes.length = 104 ∧ Frame.parse c bytes = .ok frame ∧ frame.number = 7 ∧
      frame.packet? 0 = none ∧ frame.packet? 1 = some p ∧ p.header = .ok header ∧
      header.buffer = 300 % 256 ∧
      ∀ out, p.readPayload (header.payloadWords 3) out = .ok (out ++ [5, 6]) := by
  intro c d h
  have hc : c.Valid := by decide
  have hh : h.HoldsFrame c := by decide
  have hfilling (slot : Nat) :
      d.filling? slot = if 1 = slot then some ⟨1, { buffer := 300 }, [5, 6]⟩ else none := by
    simp only [d, filling?_fill]
    split
    · rfl
    · rfl
  obtain ⟨hencode, hread⟩ := parse_build hc hh d
  obtain ⟨bytes, hbytes⟩ := hencode.2 (by
    refine ⟨by decide, fun _ slot f hf => ?_⟩
    rw [hfilling] at hf
    split at hf
    · cases hf
      decide
    · cases hf)
  obtain ⟨hlength, frame, hframe, hnumber, -, hslots⟩ := hread bytes hbytes
  have hsize : c.frameSize.toNat = 104 := by decide
  obtain ⟨-, hempty⟩ := hslots rfl 0
  obtain ⟨-, hfilled⟩ := hslots rfl 1
  rw [hfilling] at hempty hfilled
  obtain ⟨p, header, hp, hheader, -, heq, -, hpayload⟩ := hfilled
  exact ⟨hc, hh, bytes, frame, p, header, hbytes, hlength.trans hsize, hframe, hnumber, hempty,
    hp, hheader, congrArg PacketHeader.buffer heq, hpayload⟩

end FrameDraft
end EventReadout
