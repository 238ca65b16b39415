import EventReadout.Proofs.Packet.Header
import EventReadout.Proofs.Slice.Id

/-!
The two packed forms of a time slice: a header's second word has the wrap below the buffer, and an
id has it above. Neither form mixes up two slices, and the ids have the order of the slices.
-/
namespace EventReadout

namespace PacketHeader

open SliceStore (Operation runAll)

theorem slice_buffer_decode_lt (first second : UInt64) :
    (decode first second).slice.buffer < 2 ^ 8 := by
  obtain ⟨-, -, -, hbuffer⟩ := toNat_decode first second
  change (decode first second).buffer.toNat < 2 ^ 8
  rw [hbuffer]
  exact Nat.mod_lt _ (Nat.two_pow_pos 8)

theorem slice_lt_slice_iff {h h' : PacketHeader} :
    h.slice < h'.slice ↔ h.wrap < h'.wrap ∨ h.wrap = h'.wrap ∧ h.buffer < h'.buffer := by
  rw [TimeSlice.lt_def, UInt32.lt_iff_toNat_lt, UInt32.lt_iff_toNat_lt, ← UInt32.toNat_inj]
  rfl

theorem slice_eq_slice_iff {h h' : PacketHeader} :
    h.slice = h'.slice ↔ h.wrap = h'.wrap ∧ h.buffer = h'.buffer := by
  rw [TimeSlice.ext_iff, ← UInt32.toNat_inj, ← UInt32.toNat_inj]
  rfl

/--
A header comes back from its words with the buffer index cut to eight bits, and words come back from
their header without the bits it leaves unused. The ids of headers that were read fit a word and
compare as wrap and buffer do, the wrap first. Hence a store of items that are filed under such
headers drains them, whatever was done to it before, in the order of their ids.
-/
theorem packings_faithful :
    (∀ h : PacketHeader, decode h.encode.1 h.encode.2 = { h with buffer := h.buffer % 256 }) ∧
      (∀ first second : UInt64,
        (decode first second).encode = (first &&& ~~~firstGap, second &&& ~~~secondGap)) ∧
      (∀ first second first' second' : UInt64,
        let h := decode first second
        let h' := decode first' second'
        h.slice.id < UInt64.size ∧
          (h.slice.id < h'.slice.id ↔
            h.wrap < h'.wrap ∨ h.wrap = h'.wrap ∧ h.buffer < h'.buffer) ∧
          (h.slice.id = h'.slice.id ↔ h.wrap = h'.wrap ∧ h.buffer = h'.buffer)) ∧
      ∀ (α : Type) (words : α → UInt64 × UInt64) (buffers : Nat) (operations : List (Operation α)),
        let slice x := (decode (words x).1 (words x).2).slice
        let s := (runAll (SliceStore.perform slice) { buffers } operations).2
        let held := (runAll (Arrivals.perform slice buffers) {} operations).2.items
        s.drainAll.1 = sortById slice held ∧
          (∀ wrap, (s.drainOlder wrap).1 =
            sortById slice (held.filter fun x => (slice x).id < TimeSlice.id ⟨wrap, 0⟩)) ∧
          ∀ first second,
            (s.drainBuffer (decode first second).slice).1 =
              held.filter fun x => (slice x).id = (decode first second).slice.id := by
  refine ⟨decode_encode, encode_decode, fun first second first' second' => ?_,
    fun α words buffers operations => ?_⟩
  · have hbuffer := slice_buffer_decode_lt first second
    have hbuffer' := slice_buffer_decode_lt first' second'
    have hwrap : (decode first second).slice.wrap < 2 ^ 32 := (decode first second).wrap.toNat_lt
    have hfits : (decode first second).slice.id < UInt64.size := by
      rw [TimeSlice.id_eq hbuffer]
      change _ < 2 ^ 64
      omega
    have hlt := (TimeSlice.id_lt_id_iff hbuffer hbuffer').trans slice_lt_slice_iff
    have heq := (TimeSlice.id_eq_id_iff hbuffer hbuffer').trans slice_eq_slice_iff
    exact ⟨hfits, hlt, heq⟩
  · intro slice s held
    have hslice (x : α) : (slice x).buffer < 2 ^ 8 := slice_buffer_decode_lt _ _
    have hheld := SliceStore.Represents.runAll slice buffers operations
    exact ⟨hheld.drainAll_by_id hslice, hheld.drainOlder_by_id hslice, fun first second =>
      hheld.drainBuffer_by_id hslice (slice_buffer_decode_lt first second)⟩

end PacketHeader
end EventReadout
