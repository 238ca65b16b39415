import EventReadout.Proofs.Channel.Position
import Mathlib.Data.List.Infix

/-!
Channel buffers under any sequence of operations.

There is always room for one more value, because a buffer that has been filled is emitted at once.
So values can be taken in as many at a time as fit, which comes to an end after finitely many turns,
and what leaves the buffer is the stream of values cut at its capacity. The frames are numbered from
the rank on each time the numbering starts over, as far as the numbers fit their words.
-/
namespace EventReadout.ChannelBuffer

variable {α : Type} [ChannelElement α]

section Turns

/-- Values that can still come in before the buffer is full. -/
def room (b : ChannelBuffer α) : Nat := b.capacity - b.pending.size

/-- Values become pending all at once, and a buffer that is full then is emitted. -/
def fill (b : ChannelBuffer α) (values : List α) : List OutputFrame × ChannelBuffer α :=
  let filled : ChannelBuffer α := { b with pending := b.pending ++ values.toArray }
  if filled.pending.size = b.capacity then ([filled.emit.1], filled.emit.2) else ([], filled)

/-- Turn after turn as many values as there is room for, until none is left. -/
inductive Fills : ChannelBuffer α → List α → List OutputFrame → ChannelBuffer α → Prop
  | done (b : ChannelBuffer α) : Fills b [] [] b
  | turn {b b' : ChannelBuffer α} {values : List α} {frames : List OutputFrame} (h : values ≠ [])
      (rest : Fills (b.fill (values.take b.room)).2 (values.drop b.room) frames b') :
    Fills b values ((b.fill (values.take b.room)).1 ++ frames) b'

variable {b b' b'' : ChannelBuffer α} {values : List α} {frames frames' : List OutputFrame}

theorem Fills.unique (h : Fills b values frames b') (h' : Fills b values frames' b'') :
    frames = frames' ∧ b' = b'' := by
  induction h generalizing frames' b'' with
  | done b =>
    cases h' with
    | done => exact ⟨rfl, rfl⟩
    | turn hne => exact absurd rfl hne
  | turn hne _ ih =>
    cases h' with
    | done => exact absurd rfl hne
    | turn _ rest =>
      obtain ⟨hframes, hlast⟩ := ih rest
      exact ⟨by rw [hframes], hlast⟩

theorem size_pending_feed_lt (hroom : b.pending.size < b.capacity) (values : List α) :
    (b.feed values).2.pending.size < (b.feed values).2.capacity := by
  rw [feed_eq_blocks b hroom]
  simpa using length_leftover_lt (Nat.zero_lt_of_lt hroom) (b.pending.toList ++ values)

theorem fill_eq_feed (hroom : b.pending.size < b.capacity) (hfits : values.length ≤ b.room) :
    b.fill values = b.feed values := by
  have hlength : (b.pending.toList ++ values).length = (b.pending ++ values.toArray).size := by
    simp
  have hall : (b.pending.toList ++ values).toArray = b.pending ++ values.toArray := by simp
  rw [feed_eq_blocks b hroom]
  unfold fill
  dsimp only
  by_cases hfull : (b.pending ++ values.toArray).size = b.capacity
  · obtain ⟨hblocks, hleft⟩ := blocks_of_length_eq (Nat.zero_lt_of_lt hroom) (hlength.trans hfull)
    rw [if_pos hfull, hblocks, hleft]
    simp [emit, hall]
  · have hshort : (b.pending.toList ++ values).length < b.capacity := by
      refine Nat.lt_of_le_of_ne ?_ (hlength ▸ hfull)
      unfold room at hfits
      rw [List.length_append, Array.length_toList]
      omega
    rw [if_neg hfull, blocks_of_lt hshort, leftover_of_lt hshort, hall]
    simp

/-- With room in the buffer every turn takes a value, so that the turns come to an end. -/
theorem fills_feed (hroom : b.pending.size < b.capacity) (values : List α) :
    Fills b values (b.feed values).1 (b.feed values).2 := by
  induction hlength : values.length using Nat.strongRecOn generalizing b values with
  | ind n ih =>
    by_cases hnil : values = []
    · subst hnil
      exact .done b
    · have hshorter : (values.drop b.room).length < n := by
        have hpos := List.length_pos_iff.2 hnil
        unfold room
        rw [List.length_drop]
        omega
      have hturn : b.fill (values.take b.room) = b.feed (values.take b.room) :=
        fill_eq_feed hroom (List.length_take_le _ _)
      have hnext := size_pending_feed_lt hroom (values.take b.room)
      have hsplit := feed_append b (values.take b.room) (values.drop b.room)
      rw [List.take_append_drop] at hsplit
      rw [← hturn] at hnext hsplit
      rw [hsplit]
      exact .turn hnil (ih _ hshorter hnext _ rfl)

theorem fills_iff_append (hroom : b.pending.size < b.capacity) (values : Array α) :
    Fills b values.toList frames b' ↔ b.append values = (frames, b') := by
  have hfills := fills_feed hroom values.toList
  rw [← append_eq_feed] at hfills
  constructor
  · intro h
    obtain ⟨hframes, hlast⟩ := hfills.unique h
    exact Prod.ext hframes hlast
  · intro h
    rw [h] at hfills
    exact hfills

end Turns

/-- What can be done to a buffer. -/
inductive Operation (α : Type)
  | append (values : Array α)
  | flush
  | configure (processes rank : Nat)
  | restart
  deriving DecidableEq, Repr

namespace Operation

/-- The process count and the rank that are set. -/
def numbering? : Operation α → Option (Nat × Nat)
  | configure processes rank => some (processes, rank)
  | append _ | flush | restart => none

def renumbers : Operation α → Bool
  | configure .. | restart => true
  | append _ | flush => false

end Operation

/-- Neither a new configuration nor a restart emits anything. -/
def perform (b : ChannelBuffer α) : Operation α → List OutputFrame × ChannelBuffer α
  | .append values => b.append values
  | .flush => b.flush
  | .configure processes rank => ([], b.configure processes rank)
  | .restart => ([], b.restart)

def performAll (b : ChannelBuffer α) (operations : List (Operation α)) : ChannelBuffer α :=
  operations.foldl (fun b operation => (b.perform operation).2) b

/-- The numbering set last, or else the `initial` one. -/
def lastNumbering (initial : Nat × Nat) (operations : List (Operation α)) : Nat × Nat :=
  operations.foldl (fun last operation => operation.numbering?.getD last) initial

/-- The frames emitted since the numbers last started over; `sent` are those before. -/
def emitted (b : ChannelBuffer α) (sent : List OutputFrame) :
    List (Operation α) → List OutputFrame
  | [] => sent
  | operation :: rest =>
    (b.perform operation).2.emitted
      (if operation.renumbers then [] else sent ++ (b.perform operation).1) rest

section Hosted

variable (h : Host)

def performOn (b : ChannelBuffer α) :
    Operation α → Except Halt (List OutputFrame × ChannelBuffer α)
  | .append values => b.appendOn h values
  | .flush => b.flushOn h
  | .configure processes rank => .ok ([], b.configure processes rank)
  | .restart => .ok ([], b.restart)

def performAllOn (b : ChannelBuffer α) (operations : List (Operation α)) :
    Except Halt (ChannelBuffer α) :=
  operations.foldlM (fun b operation => do return (← b.performOn h operation).2) b

end Hosted

/-- The buffer serves its channel at its capacity, and has room for a value. -/
structure Ready (b : ChannelBuffer α) (channel : Channel) (capacity : Nat) : Prop where
  channel : b.channel = channel
  capacity : b.capacity = capacity
  room : b.pending.size < b.capacity

variable {b : ChannelBuffer α} {channel : Channel} {capacity : Nat}

omit [ChannelElement α] in
theorem ready_ofCapacity (channel : Channel) (capacity : Nat) :
    (ofCapacity channel capacity : ChannelBuffer α).Ready channel (max capacity 1) :=
  ⟨rfl, rfl, Nat.le_max_right capacity 1⟩

theorem Ready.perform (h : b.Ready channel capacity) (operation : Operation α) :
    (b.perform operation).2.Ready channel capacity := by
  cases operation with
  | append values =>
    have hcapacity := congrArg ChannelBuffer.capacity (cleared_feed b values.toList)
    change (b.append values).2.Ready channel capacity
    rw [append_eq_feed]
    exact ⟨(channel_feed _ _).trans h.channel, hcapacity.trans h.capacity,
      size_pending_feed_lt h.room _⟩
  | flush =>
    change b.flush.2.Ready channel capacity
    unfold flush
    split
    · exact h
    · exact ⟨h.channel, h.capacity, Nat.zero_lt_of_lt h.room⟩
  | configure processes rank => exact ⟨h.channel, h.capacity, h.room⟩
  | restart => exact ⟨h.channel, h.capacity, h.room⟩

theorem Ready.performAll (h : b.Ready channel capacity) (operations : List (Operation α)) :
    (b.performAll operations).Ready channel capacity := by
  induction operations generalizing b with
  | nil => exact h
  | cons operation rest ih => exact ih (h.perform operation)

theorem append_append (b : ChannelBuffer α) (xs ys : Array α) :
    b.append (xs ++ ys) =
      ((b.append xs).1 ++ ((b.append xs).2.append ys).1, ((b.append xs).2.append ys).2) := by
  simp only [append_eq_feed, Array.toList_append, feed_append]

theorem append_parts (hroom : b.pending.size < b.capacity) (values : Array α) :
    ∃ parts : List (List α), (∀ part ∈ parts, part.length = b.capacity) ∧
      (b.append values).1 = (parts.mapIdx fun k part =>
        ⟨b.channel, b.next + k * b.processes, ChannelElement.toData part.toArray, []⟩) ∧
      parts.flatten ++ (b.append values).2.pending.toList = b.pending.toList ++ values.toList ∧
      (b.append values).2.next = b.next + parts.length * b.processes := by
  refine ⟨blocks b.capacity (b.pending.toList ++ values.toList), ?_⟩
  rw [append_eq_feed, feed_eq_blocks b hroom]
  exact ⟨fun _ => length_of_mem_blocks, rfl, flatten_blocks_append_leftover _ _, rfl⟩

theorem flush_eq (b : ChannelBuffer α) :
    b.flush = if b.pending = #[] then ([], b) else ([b.emit.1], b.emit.2) := by
  unfold flush
  simp only [Array.isEmpty_iff]

section Numbers

variable {sent : List OutputFrame}

theorem numbering_perform (b : ChannelBuffer α) (operation : Operation α) :
    ((b.perform operation).2.processes, (b.perform operation).2.rank) =
      operation.numbering?.getD (b.processes, b.rank) := by
  cases operation with
  | append values =>
    have hcleared := cleared_feed b values.toList
    have hprocesses := congrArg ChannelBuffer.processes hcleared
    have hrank := congrArg ChannelBuffer.rank hcleared
    change ((b.append values).2.processes, (b.append values).2.rank) = _
    rw [append_eq_feed]
    exact Prod.ext hprocesses hrank
  | flush =>
    change (b.flush.2.processes, b.flush.2.rank) = _
    unfold flush
    split <;> rfl
  | configure processes rank => rfl
  | restart => rfl

theorem numbering_performAll (b : ChannelBuffer α) (operations : List (Operation α)) :
    ((b.performAll operations).processes, (b.performAll operations).rank) =
      lastNumbering (b.processes, b.rank) operations := by
  induction operations generalizing b with
  | nil => rfl
  | cons operation rest ih =>
    have hrest := ih (b.perform operation).2
    rw [numbering_perform] at hrest
    exact hrest

/-- Frames numbered from the rank on in steps of the process count, and the number after theirs. -/
structure Numbered (b : ChannelBuffer α) (sent : List OutputFrame) : Prop where
  numbers : sent.map OutputFrame.number =
    (List.range sent.length).map fun k => b.rank + k * b.processes
  next : b.next = b.rank + sent.length * b.processes

omit [ChannelElement α] in
theorem numbered_nil {b : ChannelBuffer α} (h : b.next = b.rank) : b.Numbered [] :=
  ⟨rfl, by rw [h, List.length_nil, Nat.zero_mul, Nat.add_zero]⟩

omit [ChannelElement α] in
/-- Frames that carry the next numbers continue the sequence. -/
theorem Numbered.append {b b' : ChannelBuffer α} {frames : List OutputFrame} (h : b.Numbered sent)
    (hprocesses : b'.processes = b.processes) (hrank : b'.rank = b.rank)
    (hframes : frames.map OutputFrame.number =
      (List.range frames.length).map fun k => b.next + k * b.processes)
    (hnext : b'.next = b.next + frames.length * b.processes) : b'.Numbered (sent ++ frames) := by
  constructor
  · rw [List.map_append, h.numbers, hframes, hprocesses, hrank, h.next, List.length_append,
      List.range_add, List.map_append, List.map_map]
    congr 2
    funext k
    simp only [Function.comp_apply, Nat.add_mul, Nat.add_assoc]
  · rw [hnext, h.next, hprocesses, hrank, List.length_append, Nat.add_mul, Nat.add_assoc]

theorem Numbered.perform (hb : b.Ready channel capacity) (h : b.Numbered sent)
    (operation : Operation α) :
    (b.perform operation).2.Numbered
      (if operation.renumbers then [] else sent ++ (b.perform operation).1) := by
  have hnumbering := numbering_perform b operation
  cases operation with
  | append values =>
    obtain ⟨hprocesses, hrank⟩ := Prod.mk.inj hnumbering
    obtain ⟨parts, -, hframes, -, hnext⟩ := append_parts hb.room values
    have hlength : (b.append values).1.length = parts.length := by simp [hframes]
    refine h.append hprocesses hrank ?_ ?_
    · change (b.append values).1.map _ = (List.range (b.append values).1.length).map _
      rw [hlength, hframes]
      apply List.ext_getElem <;> simp
    · change (b.append values).2.next = b.next + (b.append values).1.length * b.processes
      rw [hnext, hlength]
  | flush =>
    obtain ⟨hprocesses, hrank⟩ := Prod.mk.inj hnumbering
    refine h.append hprocesses hrank ?_ ?_
    · change b.flush.1.map _ = (List.range b.flush.1.length).map _
      unfold flush
      split <;> simp [emit]
    · change b.flush.2.next = b.next + b.flush.1.length * b.processes
      unfold flush
      split <;> simp [emit]
  | configure processes rank => exact numbered_nil rfl
  | restart => exact numbered_nil rfl

theorem Numbered.performAll (hb : b.Ready channel capacity) (h : b.Numbered sent)
    (operations : List (Operation α)) :
    (b.performAll operations).Numbered (b.emitted sent operations) := by
  induction operations generalizing b sent with
  | nil => exact h
  | cons operation rest ih => exact ih (hb.perform operation) (h.perform hb operation)

end Numbers

section Hosted

variable {h : Host}

theorem next_le_push (b : ChannelBuffer α) (frames : Array OutputFrame) (value : α) :
    b.next ≤ (b.push frames value).2.next := by
  rw [push_eq]
  dsimp only
  split
  · exact Nat.le_refl _
  · exact Nat.le_add_right _ _

theorem next_le_foldl_push (values : List α) (frames : Array OutputFrame) (b : ChannelBuffer α) :
    b.next ≤ (values.foldl (fun s value => s.2.push s.1 value) (frames, b)).2.next := by
  induction values generalizing frames b with
  | nil => exact Nat.le_refl _
  | cons value rest ih => exact Nat.le_trans (next_le_push b frames value) (ih _ _)

theorem emitOn_eq (hmemory : b.capacity * ChannelElement.bytes α ≤ h.blockBytes)
    (hnumber : b.next + b.processes < UInt64.size) : b.emitOn h = .ok b.emit :=
  Host.carryOut_eq_ok_iff.2 ⟨by simp [Host.meets, hmemory, hnumber], rfl⟩

theorem pushOn_eq (hmemory : b.capacity * ChannelElement.bytes α ≤ h.blockBytes)
    {frames : Array OutputFrame} {value : α}
    (hnumber : (b.push frames value).2.next < UInt64.size) :
    b.pushOn h frames value = .ok (b.push frames value) := by
  rw [push_eq] at hnumber ⊢
  dsimp only at hnumber ⊢
  unfold pushOn
  dsimp only
  split at hnumber
  · next hfree =>
    rw [if_pos hfree, if_pos hfree]
    rfl
  · next hfull =>
    have hemit := emitOn_eq (b := { b with pending := b.pending.push value }) hmemory hnumber
    rw [if_neg hfull, if_neg hfull, hemit]
    rfl

theorem capacity_push (b : ChannelBuffer α) (frames : Array OutputFrame) (value : α) :
    (b.push frames value).2.capacity = b.capacity := by
  rw [push_eq]
  dsimp only
  split <;> rfl

theorem foldlM_pushOn (hmemory : b.capacity * ChannelElement.bytes α ≤ h.blockBytes)
    {values : List α} {frames : Array OutputFrame}
    (hnumber : (values.foldl (fun s value => s.2.push s.1 value) (frames, b)).2.next <
      UInt64.size) :
    values.foldlM (fun s value => s.2.pushOn h s.1 value) (frames, b) =
      .ok (values.foldl (fun s value => s.2.push s.1 value) (frames, b)) := by
  induction values generalizing frames b with
  | nil => rfl
  | cons value rest ih =>
    -- numbers only grow, so that the last one has all others below it
    have hfirst := Nat.lt_of_le_of_lt (next_le_foldl_push rest _ _) hnumber
    have hrest := @ih (b.push frames value).2 (by rwa [capacity_push]) (b.push frames value).1
      hnumber
    rw [List.foldlM_cons, pushOn_eq hmemory hfirst]
    exact hrest

theorem appendOn_eq (hmemory : b.capacity * ChannelElement.bytes α ≤ h.blockBytes)
    {values : Array α} (hnumber : (b.append values).2.next < UInt64.size) :
    b.appendOn h values = .ok (b.append values) := by
  unfold append at hnumber ⊢
  unfold appendOn
  rw [← Array.foldl_toList] at hnumber ⊢
  rw [← Array.foldlM_toList]
  have hfold := foldlM_pushOn hmemory hnumber
  change (values.toList.foldlM (fun s value => s.2.pushOn h s.1 value) (#[], b) >>= _) = _
  rw [hfold]
  rfl

/-- With memory for its frames a buffer does what is asked of it, unless its numbers overflow. -/
theorem performOn_eq (hmemory : b.capacity * ChannelElement.bytes α ≤ h.blockBytes)
    {operation : Operation α} (hnumber : (b.perform operation).2.next < UInt64.size) :
    b.performOn h operation = .ok (b.perform operation) := by
  cases operation with
  | append values => exact appendOn_eq hmemory hnumber
  | flush =>
    change b.flush.2.next < UInt64.size at hnumber
    change b.flushOn h = .ok b.flush
    unfold flush at hnumber ⊢
    unfold flushOn
    split at hnumber
    · next hempty =>
      rw [if_pos hempty, if_pos hempty]
      rfl
    · next hpending =>
      rw [if_neg hpending, if_neg hpending, emitOn_eq hmemory hnumber]
      rfl
  | configure processes rank => rfl
  | restart => rfl

theorem performAllOn_eq (hb : b.Ready channel capacity)
    (hmemory : capacity * ChannelElement.bytes α ≤ h.blockBytes) {operations : List (Operation α)}
    (hnumbers : ∀ before, before <+: operations → (b.performAll before).next < UInt64.size) :
    b.performAllOn h operations = .ok (b.performAll operations) := by
  induction operations generalizing b with
  | nil => rfl
  | cons operation rest ih =>
    have hfirst : (b.perform operation).2.next < UInt64.size := hnumbers [operation] (by simp)
    have hrest := ih (hb.perform operation) fun before hbefore =>
      hnumbers (operation :: before) (by simpa using hbefore)
    rw [performAllOn, List.foldlM_cons, performOn_eq (hb.capacity ▸ hmemory) hfirst]
    exact hrest

end Hosted

/--
On a machine with memory for a frame, whatever has been done to a buffer as long as its numbers fit
their words, the process count and the rank are those configured last, and the frames since the
numbers last started over are numbered from the rank on in steps of the process count. Appending
then comes to an end if it is done by turns, it does not matter in how many parts values come in,
and the frames that leave are full, carry the values in order and have the next numbers. A flush
emits what is pending, if anything is.
-/
theorem stream_chunked {h : Host} {channel : Channel} {capacity : Nat}
    (hmemory : max capacity 1 * ChannelElement.bytes α ≤ h.blockBytes)
    {operations : List (Operation α)}
    (hnumbers : ∀ before, before <+: operations →
      ((ofCapacity channel capacity : ChannelBuffer α).performAll before).next < UInt64.size) :
    let new : ChannelBuffer α := ofCapacity channel capacity
    let b := new.performAll operations
    let sent := new.emitted [] operations
    (ofCapacityOn h channel capacity >>= fun new : ChannelBuffer α =>
        new.performAllOn h operations) = .ok b ∧
      b.capacity = max capacity 1 ∧ b.pending.size < b.capacity ∧
      (b.processes, b.rank) = lastNumbering (1, 0) operations ∧
      sent.map OutputFrame.number =
        (List.range sent.length).map (fun k => b.rank + k * b.processes) ∧
      b.next = b.rank + sent.length * b.processes ∧
      (∀ operation, (b.perform operation).2.next < UInt64.size →
        b.performOn h operation = .ok (b.perform operation)) ∧
      (∀ (values : Array α) (frames : List OutputFrame) (b' : ChannelBuffer α),
        Fills b values.toList frames b' ↔ b.append values = (frames, b')) ∧
      (∀ xs ys : Array α, b.append (xs ++ ys) =
        ((b.append xs).1 ++ ((b.append xs).2.append ys).1, ((b.append xs).2.append ys).2)) ∧
      (∀ values : Array α, ∃ parts : List (List α),
        (∀ part ∈ parts, part.length = b.capacity) ∧
          (b.append values).1 = (parts.mapIdx fun k part =>
            ⟨channel, b.next + k * b.processes, ChannelElement.toData part.toArray, []⟩) ∧
          parts.flatten ++ (b.append values).2.pending.toList =
            b.pending.toList ++ values.toList ∧
          (b.append values).2.next = b.next + parts.length * b.processes) ∧
      b.flush = if b.pending = #[] then ([], b) else
        ([⟨channel, b.next, ChannelElement.toData b.pending, []⟩],
          { b with pending := #[], next := b.next + b.processes }) := by
  intro new b sent
  have hnew : new.Ready channel (max capacity 1) := ready_ofCapacity channel capacity
  have hready : b.Ready channel (max capacity 1) := hnew.performAll operations
  have hcreated : ofCapacityOn h channel capacity = .ok new := by
    have hblock := Nat.le_trans
      (Nat.mul_le_mul_right (ChannelElement.bytes α) (Nat.le_max_left capacity 1)) hmemory
    exact Host.carryOut_eq_ok_iff.2 ⟨by simp [Host.meets, hblock], rfl⟩
  obtain ⟨hsent, hnext⟩ := Numbered.performAll hnew (numbered_nil rfl) operations
  refine ⟨?_, hready.capacity, hready.room, numbering_performAll new operations, hsent, hnext,
    fun operation => performOn_eq (hready.capacity ▸ hmemory),
    fun values _ _ => fills_iff_append hready.room values, append_append b, ?_, ?_⟩
  · rw [hcreated]
    exact performAllOn_eq hnew hmemory hnumbers
  · rw [← hready.channel]
    exact append_parts hready.room
  · rw [← hready.channel]
    exact flush_eq b

/-- The third of three processes, configured while a value is pending, and restarted later. -/
theorem stream_chunked_of_third_rank :
    let h : Host := ⟨16, 0, 0, by decide⟩
    let new : ChannelBuffer UInt64 := ofCapacity .timeOffset 2
    let operations : List (Operation UInt64) :=
      [.append #[1, 2, 3], .configure 3 2, .append #[7, 8, 9, 4]]
    let b := new.performAll operations
    (ofCapacityOn h .timeOffset 2 >>= fun new : ChannelBuffer UInt64 =>
        new.performAllOn h operations) = .ok b ∧
      (b.processes, b.rank) = (3, 2) ∧ b.next = 8 ∧
      (new.emitted [] operations).map OutputFrame.number = [2, 5] ∧
      b.performOn h (.append #[5, 6]) = .ok ([⟨.timeOffset, 8, .u64 #[4, 5], []⟩],
        { b with pending := #[6], next := 11 }) ∧
      b.flush.1 = [⟨.timeOffset, 8, .u64 #[4], []⟩] ∧
      (new.performAll (operations ++ [.restart])).next = 2 := by
  intro h new operations b
  have hmemory : max 2 1 * ChannelElement.bytes UInt64 ≤ h.blockBytes := by decide
  have hfit : ∀ before ∈ (operations ++ [Operation.restart]).inits,
      (new.performAll before).next < UInt64.size := by decide
  have hnumbers : ∀ before, before <+: operations → (new.performAll before).next < UInt64.size :=
    fun before hbefore =>
      hfit before ((List.mem_inits _ _).2 (hbefore.trans (List.prefix_append _ _)))
  obtain ⟨hrun, -, -, hnumbering, hsent, hnext, hperform, -, -, -, hflush⟩ :=
    stream_chunked hmemory hnumbers
  have hrestarts : ∀ before, before <+: operations ++ [Operation.restart] →
      (new.performAll before).next < UInt64.size :=
    fun before hbefore => hfit before ((List.mem_inits _ _).2 hbefore)
  obtain ⟨-, -, -, -, -, hrestarted, -⟩ := stream_chunked hmemory hrestarts
  exact ⟨hrun, hnumbering, hnext, hsent, hperform (.append #[5, 6]) (by decide),
    congrArg Prod.fst hflush, hrestarted⟩

end EventReadout.ChannelBuffer
