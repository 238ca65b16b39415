import EventReadout.Word.ByteOrder
import Mathlib.Algebra.Ring.Nat

/-! Words come back from their bytes, in either order. -/
namespace EventReadout

namespace Bytes

@[simp] theorem length_ofNat (width n : Nat) : (ofNat width n).length = width := by
  induction width generalizing n with
  | zero => rfl
  | succ width ih => rw [ofNat, List.length_cons, ih]

@[simp] theorem length_zeros (count : Nat) : (zeros count).length = count :=
  List.length_replicate

theorem toNat_ofNat {width n : Nat} (h : n < 256 ^ width) : toNat (ofNat width n) = n := by
  induction width generalizing n with
  | zero =>
    have hzero : n = 0 := by simpa using h
    rw [hzero]
    rfl
  | succ width ih =>
    have hrest : n / 256 < 256 ^ width := by
      rw [Nat.div_lt_iff_lt_mul (by decide), ← Nat.pow_succ]
      exact h
    have hbyte : (UInt8.ofNat (n % 256)).toNat = n % 256 := by
      rw [UInt8.toNat_ofNat', Nat.mod_mod]
    rw [ofNat, toNat, ih hrest, hbyte]
    omega

end Bytes

namespace ByteOrder

@[simp] theorem length_encode (order : ByteOrder) (word : UInt64) :
    (order.encode word).length = wordBytes := by
  unfold encode
  cases order with
  | little => exact Bytes.length_ofNat _ _
  | big =>
    dsimp only
    rw [List.length_reverse, Bytes.length_ofNat]

theorem decode_encode (order : ByteOrder) (word : UInt64) :
    order.decode (order.encode word) = word := by
  have hword : UInt64.ofNat (Bytes.toNat (Bytes.ofNat wordBytes word.toNat)) = word := by
    rw [Bytes.toNat_ofNat word.toNat_lt, UInt64.ofNat_toNat]
  unfold decode encode
  cases order with
  | little => exact hword
  | big =>
    dsimp only
    rw [List.reverse_reverse, hword]

@[simp] theorem encodeAll_nil (order : ByteOrder) : order.encodeAll [] = [] := rfl

theorem encodeAll_cons (order : ByteOrder) (word : UInt64) (words : List UInt64) :
    order.encodeAll (word :: words) = order.encode word ++ order.encodeAll words := rfl

@[simp] theorem length_encodeAll (order : ByteOrder) (words : List UInt64) :
    (order.encodeAll words).length = words.length * wordBytes := by
  induction words with
  | nil => rw [encodeAll_nil, List.length_nil, List.length_nil, Nat.zero_mul]
  | cons word words ih =>
    rw [encodeAll_cons, List.length_append, length_encode, ih, List.length_cons, Nat.succ_mul,
      Nat.add_comm]

theorem decodeAll_append (order : ByteOrder) {word : Bytes} (h : word.length = wordBytes)
    (rest : Bytes) :
    order.decodeAll (word ++ rest) = order.decode word :: order.decodeAll rest := by
  have hgo (lead : Array UInt64) (bytes : Bytes) (words : Array UInt64) :
      decodeAll.go order bytes (lead ++ words) = lead.toList ++ decodeAll.go order bytes words := by
    induction bytes, words using decodeAll.go.induct order with
    | case1 b₀ b₁ b₂ b₃ b₄ b₅ b₆ b₇ rest words ih =>
      simp only [decodeAll.go]
      rw [← Array.append_push, ih]
    | case2 bytes words hshort =>
      rw [decodeAll.go, decodeAll.go, Array.toList_append]
      · exact hshort
      · exact hshort
  match word, h with
  | [b₀, b₁, b₂, b₃, b₄, b₅, b₆, b₇], _ => exact hgo #[order.decode _] rest #[]

theorem decodeAll_encodeAll (order : ByteOrder) (words : List UInt64) :
    order.decodeAll (order.encodeAll words) = words := by
  induction words with
  | nil => rfl
  | cons word words ih =>
    rw [encodeAll_cons, decodeAll_append order (length_encode order word), decode_encode, ih]

/-- The word whose bytes begin at an offset. -/
def wordAt (order : ByteOrder) (bytes : Bytes) (offset : Nat) : UInt64 :=
  order.decode ((bytes.drop offset).take wordBytes)

theorem wordAt_part (order : ByteOrder) (bytes : Bytes) {start size offset : Nat}
    (h : offset + wordBytes ≤ size) :
    order.wordAt ((bytes.drop start).take size) offset = order.wordAt bytes (start + offset) := by
  unfold wordAt
  rw [List.drop_take, List.take_take, List.drop_drop, Nat.min_eq_left (by omega)]

/-- The words that begin at an offset, one after the other. -/
def wordsAt (order : ByteOrder) (bytes : Bytes) (offset count : Nat) : List UInt64 :=
  (List.range count).map fun i => order.wordAt bytes (offset + i * wordBytes)

@[simp] theorem length_wordsAt (order : ByteOrder) (bytes : Bytes) (offset count : Nat) :
    (order.wordsAt bytes offset count).length = count := by
  rw [wordsAt, List.length_map, List.length_range]

theorem wordsAt_succ (order : ByteOrder) (bytes : Bytes) (offset count : Nat) :
    order.wordsAt bytes offset (count + 1) =
      order.wordAt bytes offset :: order.wordsAt bytes (offset + wordBytes) count := by
  have hnext (i : Nat) : offset + (i + 1) * wordBytes = offset + wordBytes + i * wordBytes := by
    rw [Nat.succ_mul]
    omega
  rw [wordsAt, List.range_succ_eq_map, List.map_cons, List.map_map, Nat.zero_mul, Nat.add_zero]
  simp only [Function.comp_def, Nat.succ_eq_add_one, hnext]
  rfl

theorem decodeAll_drop_take (order : ByteOrder) {bytes : Bytes} {offset count : Nat}
    (h : count * wordBytes ≤ (bytes.drop offset).length) :
    order.decodeAll ((bytes.drop offset).take (count * wordBytes)) =
      order.wordsAt bytes offset count := by
  induction count generalizing offset with
  | zero =>
    rw [Nat.zero_mul, List.take_zero]
    rfl
  | succ count ih =>
    rw [Nat.succ_mul] at h
    have hfirst : ((bytes.drop offset).take wordBytes).length = wordBytes := by
      rw [List.length_take]
      omega
    have hrest : count * wordBytes ≤ (bytes.drop (offset + wordBytes)).length := by
      rw [← List.drop_drop, List.length_drop]
      omega
    rw [Nat.succ_mul, Nat.add_comm, List.take_add, decodeAll_append order hfirst, List.drop_drop,
      ih hrest, wordsAt_succ, wordAt]

theorem wordsAt_encodeAll (order : ByteOrder) (words : List UInt64) (rest : Bytes) :
    order.wordsAt (order.encodeAll words ++ rest) 0 words.length = words := by
  have hlength := length_encodeAll order words
  have hbytes : words.length * wordBytes ≤
      ((order.encodeAll words ++ rest).drop 0).length := by
    rw [List.drop_zero, List.length_append]
    omega
  rw [← decodeAll_drop_take order hbytes, List.drop_zero, ← hlength, List.take_left,
    decodeAll_encodeAll]

end ByteOrder
end EventReadout
