import EventReadout.Proofs.Channel.Columns

/-!
How channel buffers cut their values into frames.

What leaves a buffer does not depend on how the values are parcelled out, and the numbers and sizes
of the frames depend on nothing but how many values there are.
-/
namespace EventReadout

/-- A payload has as many values as went into it. -/
class LawfulChannelElement (α : Type) [ChannelElement α] : Prop where
  size_toData (values : Array α) : (ChannelElement.toData values).size = values.size

instance : LawfulChannelElement UInt32 := ⟨fun _ => rfl⟩

instance : LawfulChannelElement UInt64 := ⟨fun _ => rfl⟩

/-- What a receiver knows of a frame before it reads the values. -/
def OutputFrame.label (f : OutputFrame) : Nat × Nat := (f.number, f.size)

namespace ChannelBuffer

variable {α β : Type} [ChannelElement α] [ChannelElement β]

theorem push_eq (b : ChannelBuffer α) (frames : Array OutputFrame) (x : α) :
    b.push frames x =
      let full : ChannelBuffer α := { b with pending := b.pending.push x }
      if full.pending.size < b.capacity then (frames, full)
      else (frames.push full.emit.1, full.emit.2) := rfl

/-- Values one after the other, with the frames that they fill. -/
def feed (b : ChannelBuffer α) : List α → List OutputFrame × ChannelBuffer α
  | [] => ([], b)
  | x :: xs =>
    ((b.push #[] x).1.toList ++ ((b.push #[] x).2.feed xs).1, ((b.push #[] x).2.feed xs).2)

theorem push_eq_append (b : ChannelBuffer α) (frames : Array OutputFrame) (x : α) :
    b.push frames x = (frames ++ (b.push #[] x).1, (b.push #[] x).2) := by
  rw [push_eq, push_eq]
  dsimp only
  split
  · simp
  · simp

theorem append_eq_feed (b : ChannelBuffer α) (values : Array α) :
    b.append values = b.feed values.toList := by
  have hfold (xs : List α) (frames : Array OutputFrame) (b : ChannelBuffer α) :
      let out := xs.foldl (fun s x => s.2.push s.1 x) (frames, b)
      out.1.toList = frames.toList ++ (b.feed xs).1 ∧ out.2 = (b.feed xs).2 := by
    induction xs generalizing frames b with
    | nil => exact ⟨(List.append_nil _).symm, rfl⟩
    | cons x xs ih =>
      have hpush := push_eq_append b frames x
      obtain ⟨hframes, hbuffer⟩ := ih (b.push frames x).1 (b.push frames x).2
      rw [hpush] at hframes hbuffer
      simp only [List.foldl_cons, feed]
      rw [hpush]
      refine ⟨?_, hbuffer⟩
      rw [hframes, Array.toList_append, List.append_assoc]
  obtain ⟨hframes, hbuffer⟩ := hfold values.toList #[] b
  rw [Array.foldl_toList] at hframes hbuffer
  rw [List.nil_append] at hframes
  exact Prod.ext hframes hbuffer

/-- Parcels of values can be joined. -/
theorem feed_append (b : ChannelBuffer α) (xs ys : List α) :
    b.feed (xs ++ ys) =
      ((b.feed xs).1 ++ ((b.feed xs).2.feed ys).1, ((b.feed xs).2.feed ys).2) := by
  induction xs generalizing b with
  | nil => rfl
  | cons x xs ih => simp only [List.cons_append, feed, ih, List.append_assoc]

/-- The buffer with nothing pending and its numbering restarted. -/
def cleared (b : ChannelBuffer α) : ChannelBuffer α := { b with pending := #[], next := b.rank }

theorem cleared_push (b : ChannelBuffer α) (x : α) : (b.push #[] x).2.cleared = b.cleared := by
  rw [push_eq]
  dsimp only
  split <;> rfl

theorem cleared_feed (b : ChannelBuffer α) (xs : List α) :
    (b.feed xs).2.cleared = b.cleared := by
  induction xs generalizing b with
  | nil => rfl
  | cons x xs ih => exact (ih _).trans (cleared_push b x)

theorem channel_feed (b : ChannelBuffer α) (xs : List α) :
    (b.feed xs).2.channel = b.channel := by
  have hcleared := congrArg channel (cleared_feed b xs)
  exact hcleared

theorem channel_of_mem_feed (b : ChannelBuffer α) (xs : List α) :
    ∀ f ∈ (b.feed xs).1, f.channel = b.channel := by
  induction xs generalizing b with
  | nil => simp [feed]
  | cons x xs ih =>
    intro f hf
    rw [feed, List.mem_append] at hf
    rcases hf with hf | hf
    · rw [push_eq] at hf
      dsimp only at hf
      split at hf
      · simp at hf
      · simp only [Array.push_empty, List.mem_singleton] at hf
        rw [hf]
        rfl
    · have hcleared := congrArg channel (cleared_push b x)
      exact (ih _ f hf).trans hcleared

/-- Buffers that have come equally far, whatever values they hold. -/
structure Level (b : ChannelBuffer α) (b' : ChannelBuffer β) : Prop where
  capacity : b.capacity = b'.capacity
  pending : b.pending.size = b'.pending.size
  next : b.next = b'.next
  processes : b.processes = b'.processes

variable {b : ChannelBuffer α} {b' : ChannelBuffer β}

omit [ChannelElement α] in
theorem Level.refl (b : ChannelBuffer α) : Level b b := ⟨rfl, rfl, rfl, rfl⟩

variable [LawfulChannelElement α] [LawfulChannelElement β]

theorem Level.push (h : Level b b') (x : α) (y : β) :
    (b.push #[] x).1.toList.map OutputFrame.label =
        (b'.push #[] y).1.toList.map OutputFrame.label ∧
      Level (b.push #[] x).2 (b'.push #[] y).2 := by
  have hsize : (b.pending.push x).size = (b'.pending.push y).size := by
    rw [Array.size_push, Array.size_push, h.pending]
  have hroom : (b.pending.push x).size < b.capacity ↔ (b'.pending.push y).size < b'.capacity := by
    rw [hsize, h.capacity]
  rw [push_eq, push_eq]
  dsimp only
  by_cases hfree : (b'.pending.push y).size < b'.capacity
  · rw [if_pos (hroom.mpr hfree), if_pos hfree]
    exact ⟨rfl, h.capacity, hsize, h.next, h.processes⟩
  · rw [if_neg fun hx => hfree (hroom.mp hx), if_neg hfree]
    constructor
    · simp [OutputFrame.label, OutputFrame.size, emit, LawfulChannelElement.size_toData, h.next,
        h.pending]
    · refine ⟨h.capacity, rfl, ?_, h.processes⟩
      simp only [emit, h.next, h.processes]

theorem Level.feed (h : Level b b') {xs : List α} {ys : List β} (hlength : xs.length = ys.length) :
    (b.feed xs).1.map OutputFrame.label = (b'.feed ys).1.map OutputFrame.label ∧
      Level (b.feed xs).2 (b'.feed ys).2 := by
  induction xs generalizing b b' ys with
  | nil =>
    obtain rfl := List.eq_nil_of_length_eq_zero hlength.symm
    exact ⟨rfl, h⟩
  | cons x xs ih =>
    cases ys with
    | nil => cases hlength
    | cons y ys =>
      obtain ⟨hfirst, hlevel⟩ := h.push x y
      obtain ⟨hrest, hlast⟩ := ih hlevel (Nat.succ.inj hlength)
      refine ⟨?_, hlast⟩
      simp only [ChannelBuffer.feed, List.map_append, hfirst, hrest]

end ChannelBuffer

namespace Outputs

variable {o : Outputs} {es es' : List Event}

/-- The buffers when events have been written. -/
def after (o : Outputs) (es : List Event) : Outputs where
  timestamps := (o.timestamps.feed (es.map (·.timestamp))).2
  ids := (o.ids.feed (es.map (·.id))).2
  energies := (o.energies.feed (es.map (·.energy))).2

/-- The frames of a channel that events fill. -/
def emitted (o : Outputs) (es : List Event) : Channel → List OutputFrame
  | .timeOffset => (o.timestamps.feed (es.map (·.timestamp))).1
  | .id => (o.ids.feed (es.map (·.id))).1
  | .energy => (o.energies.feed (es.map (·.energy))).1

theorem after_append (o : Outputs) (es es' : List Event) :
    o.after (es ++ es') = (o.after es).after es' := by
  simp only [after, List.map_append, ChannelBuffer.feed_append]

theorem emitted_append (o : Outputs) (es es' : List Event) (ch : Channel) :
    o.emitted (es ++ es') ch = o.emitted es ch ++ (o.after es).emitted es' ch := by
  cases ch <;> simp only [emitted, after, List.map_append, ChannelBuffer.feed_append]

theorem Labelled.after (ho : o.Labelled) (es : List Event) : (o.after es).Labelled where
  timestamps := (ChannelBuffer.channel_feed _ _).trans ho.timestamps
  ids := (ChannelBuffer.channel_feed _ _).trans ho.ids
  energies := (ChannelBuffer.channel_feed _ _).trans ho.energies

theorem Labelled.channel_of_mem_emitted (ho : o.Labelled) (ch : Channel) :
    ∀ f ∈ o.emitted es ch, f.channel = ch := by
  intro f hf
  cases ch with
  | timeOffset => exact (ChannelBuffer.channel_of_mem_feed _ _ f hf).trans ho.timestamps
  | id => exact (ChannelBuffer.channel_of_mem_feed _ _ f hf).trans ho.ids
  | energy => exact (ChannelBuffer.channel_of_mem_feed _ _ f hf).trans ho.energies

theorem write_eq (o : Outputs) (batch : EventBatch) :
    o.write batch = (Channel.all.flatMap (o.emitted batch.events.toList),
      o.after batch.events.toList) := by
  have ht := ChannelBuffer.append_eq_feed o.timestamps batch.timestamps
  have hi := ChannelBuffer.append_eq_feed o.ids batch.ids
  have hn := ChannelBuffer.append_eq_feed o.energies batch.energies
  rw [EventBatch.timestamps, Array.toList_map] at ht
  rw [EventBatch.ids, Array.toList_map] at hi
  rw [EventBatch.energies, Array.toList_map] at hn
  unfold write
  simp only [EventBatch.timestamps, EventBatch.ids, EventBatch.energies, ht, hi, hn, Channel.all,
    List.flatMap_cons, List.flatMap_nil, List.append_nil, List.append_assoc, emitted, after]

/-- Channel by channel a batch emits what its column fills. -/
theorem filter_channel_write (ho : o.Labelled) (batch : EventBatch) (ch : Channel) :
    (o.write batch).1.filter (·.channel = ch) = o.emitted batch.events.toList ch := by
  have hown (c : Channel) : (o.emitted batch.events.toList c).filter (·.channel = ch) =
      if c = ch then o.emitted batch.events.toList c else [] := by
    by_cases hc : c = ch
    · rw [if_pos hc, List.filter_eq_self]
      intro f hf
      simpa [hc] using ho.channel_of_mem_emitted c f hf
    · rw [if_neg hc, List.filter_eq_nil_iff]
      intro f hf
      simpa [ho.channel_of_mem_emitted c f hf] using hc
  rw [write_eq, List.filter_flatMap]
  simp only [hown, Channel.all, List.flatMap_cons, List.flatMap_nil]
  cases ch <;> simp

/-- Several batches fill the frames that all their events fill. -/
theorem writeAll_eq (ho : o.Labelled) (batches : List EventBatch) :
    (o.writeAll batches).2 = o.after (batches.flatMap (·.events.toList)) ∧
      ∀ ch, (o.writeAll batches).1.filter (·.channel = ch) =
        o.emitted (batches.flatMap (·.events.toList)) ch := by
  induction batches generalizing o with
  | nil =>
    refine ⟨rfl, fun ch => ?_⟩
    cases ch <;> rfl
  | cons batch rest ih =>
    have hafter : (o.write batch).2 = o.after batch.events.toList := by rw [write_eq]
    obtain ⟨hbuffers, hframes⟩ := ih (o := (o.write batch).2) (hafter ▸ ho.after _)
    rw [hafter] at hbuffers hframes
    rw [writeAll, List.flatMap_cons]
    dsimp only
    rw [hafter]
    refine ⟨by rw [hbuffers, after_append], fun ch => ?_⟩
    rw [List.filter_append, filter_channel_write ho, hframes, emitted_append]

/-- Numbers and sizes of frames tell how many events there are, and nothing else of them. -/
theorem labels_emitted (o : Outputs) (hlength : es.length = es'.length) (ch : Channel) :
    (o.emitted es ch).map OutputFrame.label = (o.emitted es' ch).map OutputFrame.label := by
  cases ch with
  | timeOffset => exact ((ChannelBuffer.Level.refl o.timestamps).feed (by simpa using hlength)).1
  | id => exact ((ChannelBuffer.Level.refl o.ids).feed (by simpa using hlength)).1
  | energy => exact ((ChannelBuffer.Level.refl o.energies).feed (by simpa using hlength)).1

end Outputs

theorem length_eq_add_channels (frames : List OutputFrame) : frames.length =
    (frames.filter (·.channel = .timeOffset)).length + (frames.filter (·.channel = .id)).length +
      (frames.filter (·.channel = .energy)).length := by
  induction frames with
  | nil => rfl
  | cons f rest ih =>
    rw [List.length_cons, ih]
    cases hf : f.channel <;> simp [hf] <;> omega

theorem length_eq_of_labels_eq {frames frames' : List OutputFrame}
    (h : ∀ ch : Channel, (frames.filter (·.channel = ch)).map OutputFrame.label =
      (frames'.filter (·.channel = ch)).map OutputFrame.label) :
    frames.length = frames'.length := by
  have hlength (ch : Channel) : (frames.filter (·.channel = ch)).length =
      (frames'.filter (·.channel = ch)).length := by
    simpa using congrArg List.length (h ch)
  rw [length_eq_add_channels, hlength, hlength, hlength, ← length_eq_add_channels]

end EventReadout
