import EventReadout.Packet.Header
import EventReadout.Proofs.Word.Rebuilding

/-!
Packet headers come back from their two words, but for the high bits of the buffer index, and words
come back from their header, but for the bits that it leaves unused.
-/
namespace EventReadout

/-- Two halves of a word side by side. -/
theorem toNat_halves {high low : UInt64} (hhigh : high.toNat < 2 ^ 32) (hlow : low.toNat < 2 ^ 32) :
    ((high <<< 32) ||| low).toNat = high.toNat * 2 ^ 32 + low.toNat := by
  have hroom : high.toNat * 2 ^ 32 < 2 ^ 64 := by omega
  have hshift : (high <<< 32).toNat = high.toNat * 2 ^ 32 :=
    DataWord.toNat_shiftLeft high (by decide) hroom
  rw [DataWord.toNat_or_of_lt 32 hlow, hshift]
  omega

namespace PacketHeader

theorem toNat_decode (first second : UInt64) :
    (decode first second).wordCount.toNat = first.toNat % 2 ^ 16 ∧
      (decode first second).packetNumber.toNat = first.toNat / 2 ^ 32 ∧
      (decode first second).wrap.toNat = second.toNat % 2 ^ 32 ∧
      (decode first second).buffer.toNat = second.toNat / 2 ^ 32 % 2 ^ 8 := by
  have hfirst := first.toNat_lt
  have hcount : (first &&& 0xFFFF).toNat = first.toNat % 2 ^ 16 := by
    rw [UInt64.toNat_and]
    exact Nat.and_two_pow_sub_one_eq_mod _ 16
  have hwrap : (second &&& 0xFFFFFFFF).toNat = second.toNat % 2 ^ 32 := by
    rw [UInt64.toNat_and]
    exact Nat.and_two_pow_sub_one_eq_mod _ 32
  have hhigh (word : UInt64) : (word >>> 32).toNat = word.toNat / 2 ^ 32 :=
    DataWord.toNat_shiftRight word (by decide)
  have hbuffer : ((second >>> 32) &&& 0xFF).toNat = second.toNat / 2 ^ 32 % 2 ^ 8 := by
    rw [UInt64.toNat_and, hhigh]
    exact Nat.and_two_pow_sub_one_eq_mod _ 8
  simp only [decode, UInt64.toNat_toUInt16, UInt64.toNat_toUInt32, hcount, hwrap, hhigh, hbuffer]
  omega

theorem toNat_encode (h : PacketHeader) :
    h.encode.1.toNat = h.packetNumber.toNat * 2 ^ 32 + h.wordCount.toNat ∧
      h.encode.2.toNat = h.buffer.toNat % 2 ^ 8 * 2 ^ 32 + h.wrap.toNat := by
  have hcount := h.wordCount.toNat_lt
  have hbuffer : (h.buffer.toUInt64 &&& 0xFF).toNat = h.buffer.toNat % 2 ^ 8 := by
    rw [UInt64.toNat_and, UInt32.toNat_toUInt64]
    exact Nat.and_two_pow_sub_one_eq_mod _ 8
  constructor
  · have hlow : h.wordCount.toUInt64.toNat < 2 ^ 32 := by
      rw [UInt16.toNat_toUInt64]
      omega
    exact toNat_halves h.packetNumber.toNat_lt hlow
  · have hhigh : (h.buffer.toUInt64 &&& 0xFF).toNat < 2 ^ 32 := by
      rw [hbuffer]
      omega
    rw [← hbuffer]
    exact toNat_halves hhigh h.wrap.toNat_lt

theorem decode_encode (h : PacketHeader) :
    decode h.encode.1 h.encode.2 = { h with buffer := h.buffer % 256 } := by
  have hcount := h.wordCount.toNat_lt
  have hnumber := h.packetNumber.toNat_lt
  have hwrap := h.wrap.toNat_lt
  obtain ⟨hfirst, hsecond⟩ := toNat_encode h
  obtain ⟨hdcount, hdnumber, hdwrap, hdbuffer⟩ := toNat_decode h.encode.1 h.encode.2
  rw [hfirst] at hdcount hdnumber
  rw [hsecond] at hdwrap hdbuffer
  have hmod : (h.buffer % 256).toNat = h.buffer.toNat % 2 ^ 8 := UInt32.toNat_mod ..
  cases hd : decode h.encode.1 h.encode.2 with
  | mk wordCount packetNumber wrap buffer =>
    rw [hd] at hdcount hdnumber hdwrap hdbuffer
    rw [mk.injEq, ← UInt16.toNat_inj, ← UInt32.toNat_inj, ← UInt32.toNat_inj,
      ← UInt32.toNat_inj, hmod]
    dsimp only at hdcount hdnumber hdwrap hdbuffer
    omega

/-- Bits 16 to 31 of the first word, between the word count and the packet number. -/
def firstGap : UInt64 := (0xFFFF : UInt64) <<< (16 : UInt64)

/-- Bits 40 to 63 of the second word, above the buffer index. -/
def secondGap : UInt64 := (0xFFFFFF : UInt64) <<< (40 : UInt64)

/-- Two words are their header, but for the gaps. -/
theorem encode_decode (first second : UInt64) :
    (decode first second).encode = (first &&& ~~~firstGap, second &&& ~~~secondGap) := by
  have hlt := first.toNat_lt
  obtain ⟨hcount, hnumber, hwrap, hbuffer⟩ := toNat_decode first second
  obtain ⟨hfirst, hsecond⟩ := toNat_encode (decode first second)
  have hkeptFirst : (first &&& ~~~firstGap).toNat =
      first.toNat / 2 ^ 32 % 2 ^ 32 * 2 ^ 32 + first.toNat / 2 ^ 0 % 2 ^ 16 * 2 ^ 0 := by
    have hmask : ~~~firstGap = 0xFFFFFFFF00000000 ||| 0xFFFF := by decide
    rw [hmask]
    exact DataWord.toNat_and_of_masks _ 32 32 0 16 (by decide) (by decide) (by decide)
  have hkeptSecond : (second &&& ~~~secondGap).toNat = second.toNat / 2 ^ 0 % 2 ^ 40 * 2 ^ 0 :=
    DataWord.toNat_and_of_mask _ 0 40 (by decide)
  apply Prod.ext
  · rw [← UInt64.toNat_inj, hfirst, hcount, hnumber, hkeptFirst]
    omega
  · rw [← UInt64.toNat_inj, hsecond, hwrap, hbuffer, hkeptSecond]
    omega

end PacketHeader
end EventReadout
