import EventReadout.Proofs.Word.Cursor

/-!
The three readers of a cursor, in any order and over bytes of any length.

A reader passes over as many words as it is asked for, or it fails and everything stays as it was.
Which of the two happens depends on the words that are left alone, and not on the reader.
-/
namespace EventReadout
namespace WordCursor

/-- What can be asked of a cursor. -/
inductive Operation
  | read
  | skip (count : Nat)
  | readInto (count : Nat)
  deriving DecidableEq, Repr

/-- Words to pass over. -/
def Operation.size : Operation → Nat
  | read => 1
  | skip count | readInto count => count

/-- A cursor, and the words that blocks are appended to. -/
structure Reading where
  cursor : WordCursor
  out : List UInt64
  deriving DecidableEq, Repr

namespace Reading

/-- The word that `read` gives is the answer; a block goes to `out`. -/
def attempt (r : Reading) : Operation → Except DecodeError (Option UInt64 × Reading)
  | .read => do
    let (word, cursor) ← r.cursor.read
    return (some word, { r with cursor })
  | .skip count => do
    let cursor ← r.cursor.skip count
    return (none, { r with cursor })
  | .readInto count => do
    let (out, cursor) ← r.cursor.readInto count r.out
    return (none, { cursor, out })

/-- After a failure everything is as it was. -/
def perform (r : Reading) (operation : Operation) : Except DecodeError (Option UInt64) × Reading :=
  match r.attempt operation with
  | .ok (word, r) => (.ok word, r)
  | .error cause => (.error cause, r)

/-- Operations one after the other; what fails does not keep the next one from being tried. -/
def performAll : Reading → List Operation → List (Except DecodeError (Option UInt64)) × Reading
  | r, [] => ([], r)
  | r, operation :: rest =>
    let (answer, r) := r.perform operation
    let (later, r) := performAll r rest
    (answer :: later, r)

theorem performAll_cons (r : Reading) (operation : Operation) (rest : List Operation) :
    r.performAll (operation :: rest) =
      ((r.perform operation).1 :: ((r.perform operation).2.performAll rest).1,
        ((r.perform operation).2.performAll rest).2) := rfl

end Reading

/-- The cursor over some bytes once it has come to an offset. -/
def atOffset (order : ByteOrder) (bytes : Bytes) (offset : Nat) : WordCursor :=
  { order, offset, rest := bytes.drop offset }

section AtOffset

variable (order : ByteOrder) (bytes : Bytes) (offset : Nat)

theorem advance_atOffset (passed : Nat) :
    (atOffset order bytes offset).advance passed = atOffset order bytes (offset + passed) := by
  rw [advance, atOffset, atOffset, List.drop_drop]

theorem remainingWords_atOffset :
    (atOffset order bytes offset).remainingWords = (bytes.length - offset) / wordBytes := by
  rw [remainingWords, atOffset, List.length_drop]

theorem le_remainingWords_encodeAll (words : List UInt64) (rest : Bytes) :
    words.length ≤ (atOffset order (order.encodeAll words ++ rest) 0).remainingWords := by
  rw [le_remainingWords_iff, atOffset, List.drop_zero, List.length_append,
    ByteOrder.length_encodeAll]
  omega

variable {order bytes offset} {count : Nat}

theorem length_atOffset (h : offset ≤ bytes.length) :
    (atOffset order bytes offset).length = bytes.length := by
  change offset + (bytes.drop offset).length = bytes.length
  rw [List.length_drop, Nat.add_sub_cancel' h]

theorem read_atOffset (h : 1 ≤ (atOffset order bytes offset).remainingWords) :
    (atOffset order bytes offset).read =
      .ok (order.wordAt bytes offset, atOffset order bytes (offset + wordBytes)) := by
  have hword := le_remainingWords_iff.1 h
  rw [Nat.one_mul] at hword
  rw [read_eq_ok hword, advance_atOffset]
  rfl

theorem skip_atOffset (h : count ≤ (atOffset order bytes offset).remainingWords) :
    (atOffset order bytes offset).skip count =
      .ok (atOffset order bytes (offset + count * wordBytes)) := by
  rw [skip_eq_ok (le_remainingWords_iff.1 h), advance_atOffset]

theorem readInto_atOffset (h : count ≤ (atOffset order bytes offset).remainingWords)
    (out : List UInt64) :
    (atOffset order bytes offset).readInto count out =
      .ok (out ++ order.wordsAt bytes offset count,
        atOffset order bytes (offset + count * wordBytes)) := by
  have hblock := le_remainingWords_iff.1 h
  have hwords := order.decodeAll_drop_take hblock
  rw [readInto_eq_ok hblock, advance_atOffset]
  change Except.ok (out ++ order.decodeAll ((bytes.drop offset).take _), _) = _
  rw [hwords]

end AtOffset

namespace Reading

theorem perform_of_lt {c : WordCursor} {operation : Operation}
    (h : c.remainingWords < operation.size) (out : List UInt64) :
    ∃ place, perform { cursor := c, out } operation =
      (.error (.unexpectedEnd place c.length), { cursor := c, out }) := by
  unfold perform
  cases operation with
  | read => rw [attempt, read_eq_error h]; exact ⟨_, rfl⟩
  | skip count => rw [attempt, skip_eq_error (show _ < count from h)]; exact ⟨_, rfl⟩
  | readInto count => rw [attempt, readInto_eq_error (show _ < count from h)]; exact ⟨_, rfl⟩

section AtOffset

variable {order : ByteOrder} {bytes : Bytes} {offset count : Nat} {out : List UInt64}

theorem perform_read (h : 1 ≤ (atOffset order bytes offset).remainingWords) :
    perform { cursor := atOffset order bytes offset, out } .read =
      (.ok (some (order.wordAt bytes offset)),
        { cursor := atOffset order bytes (offset + wordBytes), out }) := by
  rw [perform, attempt, read_atOffset h]
  rfl

theorem perform_skip (h : count ≤ (atOffset order bytes offset).remainingWords) :
    perform { cursor := atOffset order bytes offset, out } (.skip count) =
      (.ok none, { cursor := atOffset order bytes (offset + count * wordBytes), out }) := by
  rw [perform, attempt, skip_atOffset h]
  rfl

theorem perform_readInto (h : count ≤ (atOffset order bytes offset).remainingWords) :
    perform { cursor := atOffset order bytes offset, out } (.readInto count) =
      (.ok none,
        { cursor := atOffset order bytes (offset + count * wordBytes),
          out := out ++ order.wordsAt bytes offset count }) := by
  rw [perform, attempt, readInto_atOffset h]
  rfl

theorem exists_perform_eq_ok (operation : Operation)
    (h : operation.size ≤ (atOffset order bytes offset).remainingWords) :
    ∃ word out', perform { cursor := atOffset order bytes offset, out } operation =
      (.ok word,
        { cursor := atOffset order bytes (offset + operation.size * wordBytes), out := out' }) := by
  cases operation with
  | read => rw [Operation.size, Nat.one_mul, perform_read h]; exact ⟨_, _, rfl⟩
  | skip count => exact ⟨_, _, perform_skip h⟩
  | readInto count => exact ⟨_, _, perform_readInto h⟩

theorem isOk_perform_iff (operation : Operation) :
    (perform { cursor := atOffset order bytes offset, out } operation).1.isOk ↔
      operation.size ≤ (atOffset order bytes offset).remainingWords := by
  rcases Nat.lt_or_ge (atOffset order bytes offset).remainingWords operation.size with hlt | hle
  · obtain ⟨place, hfailed⟩ := perform_of_lt hlt out
    rw [hfailed]
    exact iff_of_false Bool.false_ne_true (Nat.not_le.2 hlt)
  · obtain ⟨word, out', hdone⟩ := exists_perform_eq_ok operation hle
    rw [hdone]
    exact iff_of_true rfl hle

/-- Word by word the cursor comes as far as at once. -/
theorem performAll_reads (h : count ≤ (atOffset order bytes offset).remainingWords) :
    performAll { cursor := atOffset order bytes offset, out } (List.replicate count .read) =
      ((order.wordsAt bytes offset count).map (.ok ∘ some),
        { cursor := atOffset order bytes (offset + count * wordBytes), out }) := by
  induction count generalizing offset with
  | zero => rw [Nat.zero_mul, Nat.add_zero]; rfl
  | succ count ih =>
    have hrest : count ≤ (atOffset order bytes (offset + wordBytes)).remainingWords := by
      rw [remainingWords_atOffset, wordBytes] at *
      omega
    have hend : offset + wordBytes + count * wordBytes = offset + (count + 1) * wordBytes := by
      rw [Nat.succ_mul]
      omega
    rw [List.replicate_succ, performAll_cons, perform_read (Nat.le_of_add_left_le h), ih hrest,
      ByteOrder.wordsAt_succ, List.map_cons, hend]
    rfl

/-- Of too many reads one fails, after those that the words are enough for. -/
theorem exists_read_failed (h : (atOffset order bytes offset).remainingWords < count) :
    ∃ cause, .error cause ∈ (performAll { cursor := atOffset order bytes offset, out }
      (List.replicate count .read)).1 := by
  induction count generalizing offset with
  | zero => omega
  | succ count ih =>
    rw [List.replicate_succ, performAll_cons]
    rcases Nat.eq_zero_or_pos (atOffset order bytes offset).remainingWords with hnone | hsome
    · have hread : (atOffset order bytes offset).remainingWords < Operation.read.size :=
        Nat.lt_one_iff.2 hnone
      obtain ⟨place, hfailed⟩ := perform_of_lt hread out
      rw [hfailed]
      exact ⟨_, List.mem_cons_self⟩
    · have hrest : (atOffset order bytes (offset + wordBytes)).remainingWords < count := by
        rw [remainingWords_atOffset, wordBytes] at *
        omega
      obtain ⟨cause, hlater⟩ := ih hrest
      rw [perform_read hsome]
      exact ⟨cause, List.mem_cons_of_mem _ hlater⟩

theorem isOk_reads_iff :
    (∀ answer ∈ (performAll { cursor := atOffset order bytes offset, out }
      (List.replicate count .read)).1, answer.isOk) ↔
        count ≤ (atOffset order bytes offset).remainingWords := by
  rcases Nat.lt_or_ge (atOffset order bytes offset).remainingWords count with hlt | hle
  · obtain ⟨cause, hfailed⟩ := exists_read_failed hlt
    exact iff_of_false (fun hok => Bool.false_ne_true (hok _ hfailed)) (Nat.not_le.2 hlt)
  · rw [performAll_reads hle]
    refine iff_of_true (fun answer hanswer => ?_) hle
    obtain ⟨word, -, rfl⟩ := List.mem_map.1 hanswer
    rfl

end AtOffset

/-- A reading in front of a whole word of the bytes, or at their end. -/
inductive Reached (order : ByteOrder) (bytes : Bytes) : Reading → Prop
  | intro {offset : Nat} (out : List UInt64) (whole : offset % wordBytes = 0)
      (within : offset ≤ bytes.length) :
    Reached order bytes { cursor := atOffset order bytes offset, out }

namespace Reached

variable {order : ByteOrder} {bytes : Bytes} {r : Reading}

theorem perform (h : Reached order bytes r) (operation : Operation) :
    Reached order bytes (r.perform operation).2 := by
  cases h with
  | @intro offset out whole within =>
    rcases Nat.lt_or_ge (atOffset order bytes offset).remainingWords operation.size with hlt | hle
    · obtain ⟨place, hfailed⟩ := perform_of_lt hlt out
      rw [hfailed]
      exact .intro out whole within
    · have hrest := le_remainingWords_iff.1 hle
      rw [atOffset, List.length_drop] at hrest
      obtain ⟨word, out', hdone⟩ := exists_perform_eq_ok operation hle
      rw [hdone]
      refine .intro out' ?_ (by omega)
      rw [Nat.add_mul_mod_self_right, whole]

theorem performAll (h : Reached order bytes r) (operations : List Operation) :
    Reached order bytes (r.performAll operations).2 := by
  induction operations generalizing r with
  | nil => exact h
  | cons operation rest ih => exact ih (h.perform operation)

end Reached
end Reading

/--
Whatever has been tried before, a cursor is a whole number of words into its bytes. From there a
number of words can be skipped, read one by one or read as a block if that many whole words are
left, and in no other case. All three then come to the same place, and the block appends the words
that the single reads give. An operation that fails changes nothing. Words that were written are
read back, in either order.
-/
theorem readers_agree (order : ByteOrder) (bytes : Bytes) (out : List UInt64)
    (operations : List Operation) :
    let r := (Reading.performAll { cursor := ofBytes order bytes, out } operations).2
    let c := r.cursor
    (c.offset % wordBytes = 0 ∧ c.offset ≤ bytes.length ∧
      c.remainingWords = (bytes.length - c.offset) / wordBytes) ∧
    (∀ count : Nat,
      ((r.perform (.skip count)).1.isOk ↔ count ≤ c.remainingWords) ∧
      ((r.perform (.readInto count)).1.isOk ↔ count ≤ c.remainingWords) ∧
      ((∀ answer ∈ (r.performAll (List.replicate count .read)).1, answer.isOk) ↔
        count ≤ c.remainingWords)) ∧
    (∀ count ≤ c.remainingWords,
      let words := order.wordsAt bytes c.offset count
      let passed := atOffset order bytes (c.offset + count * wordBytes)
      r.perform (.skip count) = (.ok none, { r with cursor := passed }) ∧
      r.perform (.readInto count) = (.ok none, { cursor := passed, out := r.out ++ words }) ∧
      r.performAll (List.replicate count .read) =
        (words.map (.ok ∘ some), { r with cursor := passed })) ∧
    (∀ operation, ¬ (r.perform operation).1.isOk →
      ∃ place, r.perform operation = (.error (.unexpectedEnd place bytes.length), r)) ∧
    (∀ words rest,
      let written : Reading := { cursor := ofBytes order (order.encodeAll words ++ rest), out }
      (written.performAll (List.replicate words.length .read)).1 = words.map (.ok ∘ some) ∧
        (written.perform (.readInto words.length)).2.out = out ++ words) := by
  have hstart : Reading.Reached order bytes { cursor := ofBytes order bytes, out } :=
    .intro out (Nat.zero_mod _) (Nat.zero_le _)
  have hreached := hstart.performAll operations
  generalize (Reading.performAll { cursor := ofBytes order bytes, out } operations).2 = r
    at hreached ⊢
  cases hreached with
  | intro out' whole within =>
    refine ⟨⟨whole, within, remainingWords_atOffset _ _ _⟩, fun count => ⟨?_, ?_, ?_⟩,
      fun count h => ⟨?_, ?_, ?_⟩, fun operation hfailed => ?_, fun words rest => ⟨?_, ?_⟩⟩
    · exact Reading.isOk_perform_iff (.skip count)
    · exact Reading.isOk_perform_iff (.readInto count)
    · exact Reading.isOk_reads_iff
    · exact Reading.perform_skip h
    · exact Reading.perform_readInto h
    · exact Reading.performAll_reads h
    · rw [Reading.isOk_perform_iff, Nat.not_le] at hfailed
      rw [← length_atOffset within]
      exact Reading.perform_of_lt hfailed out'
    · change (Reading.performAll { cursor := atOffset order _ 0, out } _).1 = _
      rw [Reading.performAll_reads (le_remainingWords_encodeAll order words rest),
        order.wordsAt_encodeAll]
    · change (Reading.perform { cursor := atOffset order _ 0, out } _).2.out = _
      rw [Reading.perform_readInto (le_remainingWords_encodeAll order words rest),
        order.wordsAt_encodeAll]

end WordCursor
end EventReadout
