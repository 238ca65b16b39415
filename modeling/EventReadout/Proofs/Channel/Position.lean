import EventReadout.Proofs.Channel.Blocks
import EventReadout.Proofs.Channel.Chunks

/-!
The three channel buffers in step.

Buffers that start together stay together. They hold the columns of the same events and number their
frames alike, so that one position describes all three.
-/
namespace EventReadout

namespace Channel

/-- The column that a channel carries. -/
def data (events : List Event) : Channel → ChannelData
  | timeOffset => .u64 (events.map (·.timestamp)).toArray
  | id => .u32 (events.map (·.id)).toArray
  | energy => .u32 (events.map (·.energy)).toArray

/-- Frames for consecutive parts, numbered from `first` on in steps of `step`. -/
def frames (ch : Channel) (first step : Nat) (parts : List (List Event)) : List OutputFrame :=
  parts.mapIdx fun k part => ⟨ch, first + k * step, ch.data part, []⟩

theorem frames_append (ch : Channel) (first step : Nat) (parts parts' : List (List Event)) :
    ch.frames first step (parts ++ parts') =
      ch.frames first step parts ++ ch.frames (first + parts.length * step) step parts' := by
  unfold frames
  rw [List.mapIdx_append]
  congr 2
  funext k part
  rw [Nat.add_mul, Nat.add_comm (k * step), Nat.add_assoc]

theorem map_size_frames (ch : Channel) (first step : Nat) (parts : List (List Event)) :
    (ch.frames first step parts).map OutputFrame.size = parts.map List.length := by
  unfold frames
  apply List.ext_getElem
  · simp
  · intro k _ _
    cases ch <;> simp [OutputFrame.size, data, ChannelData.size]

theorem exists_number_of_mem_frames {ch : Channel} {first step : Nat}
    {parts : List (List Event)} {f : OutputFrame} (h : f ∈ ch.frames first step parts) :
    ∃ k, f.number = first + k * step := by
  obtain ⟨k, -, rfl⟩ := List.mem_mapIdx.1 h
  exact ⟨k, rfl⟩

end Channel

namespace ChannelBuffer

variable {α : Type} [ChannelElement α]

/-- A buffer emits the blocks of what it holds and what comes in, and keeps what is left over. -/
theorem feed_eq_blocks (b : ChannelBuffer α) (hroom : b.pending.size < b.capacity) (xs : List α) :
    let all := b.pending.toList ++ xs
    b.feed xs =
      ((blocks b.capacity all).mapIdx fun k block =>
          ⟨b.channel, b.next + k * b.processes, ChannelElement.toData block.toArray, []⟩,
        { b with
          pending := (leftover b.capacity all).toArray
          next := b.next + (blocks b.capacity all).length * b.processes }) := by
  induction xs generalizing b with
  | nil =>
    have hshort : b.pending.toList.length < b.capacity := by simpa using hroom
    dsimp only
    rw [List.append_nil, blocks_of_lt hshort, leftover_of_lt hshort, List.length_nil,
      Nat.zero_mul]
    rfl
  | cons x xs ih =>
    have hall : b.pending.toList ++ x :: xs = (b.pending.push x).toList ++ xs := by simp
    dsimp only
    rw [hall, feed, push_eq]
    by_cases hfree : (b.pending.push x).size < b.capacity
    · rw [if_pos hfree]
      exact ih { b with pending := b.pending.push x } hfree
    · have hfull : (b.pending.push x).toList.length = b.capacity := by
        rw [Array.length_toList]
        rw [Array.size_push] at hfree ⊢
        omega
      have hcapacity : 0 < b.capacity := Nat.zero_lt_of_lt hroom
      have hrest := ih ({ b with pending := b.pending.push x } : ChannelBuffer α).emit.2 hcapacity
      rw [if_neg hfree]
      dsimp only [emit] at hrest ⊢
      rw [hrest, blocks_cons hcapacity hfull, leftover_cons hcapacity hfull, List.mapIdx_cons,
        List.length_cons]
      simp only [List.nil_append, Nat.succ_mul, Nat.zero_mul, Nat.add_zero, Array.toArray_toList]
      simp only [Nat.add_assoc, Nat.add_comm b.processes]
      rfl

end ChannelBuffer

namespace Outputs

/-- Where all three buffers stand. -/
structure Position where
  capacity : Nat
  processes : Nat := 1
  rank : Nat := 0
  /-- Number of the next frame. -/
  next : Nat := 0
  /-- Events whose columns are pending. -/
  pending : List Event := []

namespace Position

variable {p : Position} {es : List Event}

def buffer {α : Type} (p : Position) (ch : Channel) (column : Event → α) : ChannelBuffer α :=
  ⟨ch, p.capacity, (p.pending.map column).toArray, p.next, p.processes, p.rank⟩

def outputs (p : Position) : Outputs where
  timestamps := p.buffer .timeOffset (·.timestamp)
  ids := p.buffer .id (·.id)
  energies := p.buffer .energy (·.energy)

/-- The frames that events fill together with those pending are numbered and gone. -/
def push (p : Position) (es : List Event) : Position :=
  { p with
    next := p.next + (blocks p.capacity (p.pending ++ es)).length * p.processes
    pending := leftover p.capacity (p.pending ++ es) }

def close (p : Position) : Position := { p with next := p.rank, pending := [] }

def renumber (p : Position) (processes rank : Nat) : Position :=
  { p with processes, rank, next := rank }

theorem labelled_outputs (p : Position) : p.outputs.Labelled := ⟨rfl, rfl, rfl⟩

theorem outputs_ofCapacity {capacity : Nat} (h : 0 < capacity) :
    ofCapacity capacity = (⟨capacity, 1, 0, 0, []⟩ : Position).outputs := by
  have hmax : max capacity 1 = capacity := Nat.max_eq_left h
  unfold ofCapacity ChannelBuffer.ofCapacity
  rw [hmax]
  rfl

theorem outputs_renumber (p : Position) (processes rank : Nat) :
    p.outputs.configure processes rank = (p.renumber processes rank).outputs := rfl

theorem feed_buffer {α : Type} [ChannelElement α] (hroom : p.pending.length < p.capacity)
    (ch : Channel) (column : Event → α) (es : List Event) :
    (p.buffer ch column).feed (es.map column) =
      ((blocks p.capacity (p.pending ++ es)).mapIdx fun k part =>
          ⟨ch, p.next + k * p.processes, ChannelElement.toData (part.map column).toArray, []⟩,
        (p.push es).buffer ch column) := by
  have hsize : (p.buffer ch column).pending.size < (p.buffer ch column).capacity := by
    simpa [buffer] using hroom
  have hfeed := ChannelBuffer.feed_eq_blocks (p.buffer ch column) hsize (es.map column)
  dsimp only [buffer] at hfeed ⊢
  rw [hfeed, ← List.map_append, blocks_map, leftover_map, List.length_map]
  refine Prod.ext ?_ rfl
  apply List.ext_getElem
  · simp
  · intro k _ _
    simp

theorem after_outputs (hroom : p.pending.length < p.capacity) (es : List Event) :
    p.outputs.after es = (p.push es).outputs := by
  unfold after outputs
  dsimp only
  rw [feed_buffer hroom, feed_buffer hroom, feed_buffer hroom]

theorem emitted_outputs (hroom : p.pending.length < p.capacity) (es : List Event) (ch : Channel) :
    p.outputs.emitted es ch =
      ch.frames p.next p.processes (blocks p.capacity (p.pending ++ es)) := by
  unfold outputs
  cases ch with
  | timeOffset => exact congrArg Prod.fst (feed_buffer hroom .timeOffset (·.timestamp) es)
  | id => exact congrArg Prod.fst (feed_buffer hroom .id (·.id) es)
  | energy => exact congrArg Prod.fst (feed_buffer hroom .energy (·.energy) es)

theorem length_pending_push (hroom : p.pending.length < p.capacity) (es : List Event) :
    (p.push es).pending.length < p.capacity :=
  length_leftover_lt (Nat.zero_lt_of_lt hroom) _

theorem push_nil (hroom : p.pending.length < p.capacity) : p.push [] = p := by
  unfold push
  rw [List.append_nil, blocks_of_lt hroom, leftover_of_lt hroom, List.length_nil, Nat.zero_mul]
  rfl

/-- Events that come in two parts move the buffers as if they came at once. -/
theorem push_push (hroom : p.pending.length < p.capacity) (es es' : List Event) :
    (p.push es).push es' = p.push (es ++ es') := by
  obtain ⟨hblocks, hleft⟩ :=
    blocks_append (Nat.zero_lt_of_lt hroom) (p.pending ++ es) es'
  unfold push
  dsimp only
  rw [← List.append_assoc, hblocks, hleft, List.length_append, Nat.add_mul, Nat.add_assoc]

/-- The frame of a channel that a flush emits, if anything is pending. -/
def flushed (p : Position) (ch : Channel) : List OutputFrame :=
  ch.frames p.next p.processes (wholePart p.pending)

theorem flush_outputs (p : Position) : p.outputs.flush.1 = Channel.all.flatMap p.flushed := by
  have hflush {α : Type} [ChannelElement α] (own : Channel) (column : Event → α) :
      (p.buffer own column).flush.1 = (wholePart p.pending).mapIdx fun k part =>
        ⟨own, p.next + k * p.processes, ChannelElement.toData (part.map column).toArray, []⟩ := by
    unfold ChannelBuffer.flush wholePart buffer
    cases p.pending with
    | nil => rfl
    | cons e es => simp [ChannelBuffer.emit]
  change (p.buffer _ _).flush.1 ++ (p.buffer _ _).flush.1 ++ (p.buffer _ _).flush.1 =
    p.flushed .timeOffset ++ (p.flushed .id ++ (p.flushed .energy ++ []))
  rw [hflush, hflush, hflush, List.append_nil, List.append_assoc]
  rfl

theorem filter_flush (p : Position) (ch : Channel) :
    p.outputs.flush.1.filter (·.channel = ch) = p.flushed ch := by
  rw [flush_outputs]
  unfold flushed wholePart
  cases p.pending with
  | nil => cases ch <;> rfl
  | cons e es => cases ch <;> rfl

end Position
end Outputs
end EventReadout
