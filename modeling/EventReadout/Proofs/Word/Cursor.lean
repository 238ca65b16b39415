import EventReadout.Proofs.Word.ByteOrder
import EventReadout.Word.Cursor

/-!
What a cursor reads: from enough bytes words, from the bytes of words those words, and from too few
bytes nothing.
-/
namespace EventReadout
namespace WordCursor

theorem le_remainingWords_iff {c : WordCursor} {count : Nat} :
    count ≤ c.remainingWords ↔ count * wordBytes ≤ c.rest.length :=
  Nat.le_div_iff_mul_le (by decide)

theorem skip_eq_ok {c : WordCursor} {count : Nat} (h : count * wordBytes ≤ c.rest.length) :
    c.skip count = .ok (c.advance (count * wordBytes)) := by
  rw [skip, if_neg (Nat.not_lt.2 (le_remainingWords_iff.2 h))]

theorem skip_eq_error {c : WordCursor} {count : Nat} (h : c.remainingWords < count) :
    c.skip count = .error (.unexpectedEnd (c.offset + count * wordBytes) c.length) := by
  rw [skip, if_pos h]

theorem read_eq_ok {c : WordCursor} (h : wordBytes ≤ c.rest.length) :
    c.read = .ok (c.order.decode (c.rest.take wordBytes), c.advance wordBytes) := by
  rw [read, if_pos (by rw [List.length_take, Nat.min_eq_left h])]

theorem read_eq_error {c : WordCursor} (h : c.remainingWords < 1) :
    c.read = .error (.unexpectedEnd c.offset c.length) := by
  have hrest : c.rest.length < 1 * wordBytes := by
    rwa [← Nat.not_le, ← le_remainingWords_iff, Nat.not_le]
  rw [read, if_neg (by rw [List.length_take]; omega)]

theorem readInto_eq_ok {c : WordCursor} {count : Nat} (h : count * wordBytes ≤ c.rest.length)
    (out : List UInt64) :
    c.readInto count out =
      .ok (out ++ c.order.decodeAll (c.rest.take (count * wordBytes)),
        c.advance (count * wordBytes)) := by
  rw [readInto, if_pos (by rw [List.length_take, Nat.min_eq_left h])]

theorem readInto_eq_error {c : WordCursor} {count : Nat} (h : c.remainingWords < count)
    (out : List UInt64) :
    c.readInto count out =
      .error (.unexpectedEnd (c.offset + count * wordBytes) c.length) := by
  have hrest : c.rest.length < count * wordBytes := by
    rwa [← Nat.not_le, ← le_remainingWords_iff, Nat.not_le]
  rw [readInto, if_neg (by rw [List.length_take]; omega)]

@[simp] theorem rest_length_advance (c : WordCursor) (bytes : Nat) :
    (c.advance bytes).rest.length = c.rest.length - bytes := List.length_drop

variable {c : WordCursor} {lead rest : Bytes}

theorem skip_append {count : Nat} (h : c.rest = lead ++ rest)
    (hlead : lead.length = count * wordBytes) :
    c.skip count = .ok { c with offset := c.offset + count * wordBytes, rest } := by
  rw [skip_eq_ok (by rw [h, List.length_append]; omega), advance, h, ← hlead, List.drop_left]

theorem read_append {word : UInt64} (h : c.rest = c.order.encode word ++ rest) :
    c.read = .ok (word, { c with offset := c.offset + wordBytes, rest }) := by
  have hword := ByteOrder.length_encode c.order word
  rw [read_eq_ok (by rw [h, List.length_append]; omega), advance, h, ← hword, List.take_left,
    List.drop_left, ByteOrder.decode_encode]

theorem readInto_append {words : List UInt64} (h : c.rest = c.order.encodeAll words ++ rest)
    (out : List UInt64) :
    c.readInto words.length out =
      .ok (out ++ words, { c with offset := c.offset + words.length * wordBytes, rest }) := by
  have hwords := ByteOrder.length_encodeAll c.order words
  rw [readInto_eq_ok (by rw [h, List.length_append]; omega), advance, h, ← hwords,
    List.take_left, List.drop_left, ByteOrder.decodeAll_encodeAll]

end WordCursor
end EventReadout
