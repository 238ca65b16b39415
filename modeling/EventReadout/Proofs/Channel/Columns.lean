import EventReadout.Channel.Outputs

/-!
The columns of values that output frames carry.

Whatever is written to the channel buffers leaves them in the order in which it came: the values
of the frames emitted, followed by those still pending, are the values written.
-/
namespace EventReadout

namespace ChannelData

def values32 : ChannelData → List UInt32
  | u32 values => values.toList
  | u64 _ => []

def values64 : ChannelData → List UInt64
  | u32 _ => []
  | u64 values => values.toList

theorem values32_toData (v : Array UInt32) : (ChannelElement.toData v).values32 = v.toList := rfl

theorem values64_toData (v : Array UInt64) : (ChannelElement.toData v).values64 = v.toList := rfl

end ChannelData

/-- Values that frames carry on one channel, frame after frame. -/
def column {α : Type} (read : ChannelData → List α) (ch : Channel) (frames : List OutputFrame) :
    List α :=
  (frames.filter (·.channel = ch)).flatMap fun f => read f.data

section Column

variable {α : Type} {read : ChannelData → List α} {ch : Channel} {frames : List OutputFrame}

theorem column_append (frames frames' : List OutputFrame) :
    column read ch (frames ++ frames') = column read ch frames ++ column read ch frames' := by
  rw [column, List.filter_append, List.flatMap_append, column, column]

theorem column_eq_flatMap (h : ∀ f ∈ frames, f.channel = ch) :
    column read ch frames = frames.flatMap fun f => read f.data := by
  rw [column, List.filter_eq_self.2 (by simpa using h)]

theorem column_eq_nil {ch' : Channel} (h : ∀ f ∈ frames, f.channel = ch') (hne : ch' ≠ ch) :
    column read ch frames = [] := by
  have hnil : frames.filter (·.channel = ch) = [] := by
    rw [List.filter_eq_nil_iff]
    intro f hf
    simpa [h f hf] using hne
  rw [column, hnil, List.flatMap_nil]

end Column

namespace ChannelBuffer

variable {α : Type} {read : ChannelData → List α}

/-- From `b`, these frames and this buffer result when `values` come in, read back by `read`. -/
structure Passes (read : ChannelData → List α) (b : ChannelBuffer α) (values : List α)
    (frames : List OutputFrame) (b' : ChannelBuffer α) : Prop where
  frames_channel : ∀ f ∈ frames, f.channel = b.channel
  channel : b'.channel = b.channel
  values : (frames.flatMap fun f => read f.data) ++ b'.pending.toList = b.pending.toList ++ values

theorem Passes.refl (b : ChannelBuffer α) : b.Passes read [] [] b := ⟨by simp, rfl, by simp⟩

theorem Passes.trans {b b' b'' : ChannelBuffer α} {xs ys : List α} {fs gs : List OutputFrame}
    (h : b.Passes read xs fs b') (h' : b'.Passes read ys gs b'') :
    b.Passes read (xs ++ ys) (fs ++ gs) b'' where
  frames_channel f hf := by
    rcases List.mem_append.1 hf with hf | hf
    · exact h.frames_channel f hf
    · exact (h'.frames_channel f hf).trans h.channel
  channel := h'.channel.trans h.channel
  values := by
    rw [List.flatMap_append, List.append_assoc, h'.values, ← List.append_assoc, h.values,
      List.append_assoc]

variable [ChannelElement α]

theorem emit_passes (hread : ∀ v : Array α, read (ChannelElement.toData v) = v.toList)
    (b : ChannelBuffer α) : b.Passes read [] [b.emit.1] b.emit.2 :=
  ⟨by simp [emit], rfl, by simp [emit, hread]⟩

theorem push_passes (hread : ∀ v : Array α, read (ChannelElement.toData v) = v.toList)
    (b : ChannelBuffer α) (frames : Array OutputFrame) (x : α) :
    ∃ fs, (b.push frames x).1.toList = frames.toList ++ fs ∧
      b.Passes read [x] fs (b.push frames x).2 := by
  let full : ChannelBuffer α := { b with pending := b.pending.push x }
  have hfull : b.Passes read [x] [] full := ⟨by simp, rfl, by simp [full]⟩
  by_cases hsize : full.pending.size < b.capacity
  · have heq : b.push frames x = (frames, full) := if_pos hsize
    rw [heq]
    exact ⟨[], by simp, hfull⟩
  · have heq : b.push frames x = (frames.push full.emit.1, full.emit.2) := if_neg hsize
    rw [heq]
    exact ⟨[full.emit.1], by simp, hfull.trans (emit_passes hread full)⟩

theorem append_passes (hread : ∀ v : Array α, read (ChannelElement.toData v) = v.toList)
    (b : ChannelBuffer α) (values : Array α) :
    b.Passes read values.toList (b.append values).1 (b.append values).2 := by
  have hfold (xs : List α) (frames : Array OutputFrame) (b : ChannelBuffer α) :
      let out := xs.foldl (fun s x => s.2.push s.1 x) (frames, b)
      ∃ fs, out.1.toList = frames.toList ++ fs ∧ b.Passes read xs fs out.2 := by
    induction xs generalizing frames b with
    | nil => exact ⟨[], by simp, .refl b⟩
    | cons x xs ih =>
      obtain ⟨fs, hfs, hpush⟩ := push_passes hread b frames x
      obtain ⟨gs, hgs, hrest⟩ := ih (b.push frames x).1 (b.push frames x).2
      exact ⟨fs ++ gs, by rw [List.foldl_cons, hgs, hfs, List.append_assoc], hpush.trans hrest⟩
  obtain ⟨fs, hfs, hpass⟩ := hfold values.toList #[] b
  rw [Array.foldl_toList] at hfs hpass
  rw [List.nil_append] at hfs
  have hframes : (b.append values).1 = fs := hfs
  rw [← hframes] at hpass
  exact hpass

theorem flush_passes (hread : ∀ v : Array α, read (ChannelElement.toData v) = v.toList)
    (b : ChannelBuffer α) :
    b.Passes read [] b.flush.1 b.flush.2 ∧ b.flush.2.pending = #[] := by
  by_cases hempty : b.pending.isEmpty = true
  · rw [flush, if_pos hempty]
    exact ⟨.refl b, by simpa using hempty⟩
  · rw [flush, if_neg hempty]
    exact ⟨emit_passes hread b, rfl⟩

end ChannelBuffer

/-- Values on the three channels. -/
structure Columns where
  timestamps : List UInt64 := []
  ids : List UInt32 := []
  energies : List UInt32 := []
  deriving DecidableEq, Repr

namespace Columns

def append (c d : Columns) : Columns :=
  ⟨c.timestamps ++ d.timestamps, c.ids ++ d.ids, c.energies ++ d.energies⟩

instance : Append Columns := ⟨append⟩

theorem append_def (c d : Columns) :
    c ++ d = ⟨c.timestamps ++ d.timestamps, c.ids ++ d.ids, c.energies ++ d.energies⟩ := rfl

protected theorem append_assoc (c d e : Columns) : c ++ d ++ e = c ++ (d ++ e) := by
  simp only [append_def, List.append_assoc]

@[simp] protected theorem append_nil (c : Columns) : c ++ ({} : Columns) = c := by
  simp [append_def]

@[simp] protected theorem nil_append (c : Columns) : ({} : Columns) ++ c = c := by
  simp [append_def]

def Aligned (c : Columns) : Prop :=
  c.timestamps.length = c.ids.length ∧ c.ids.length = c.energies.length

/-- The rows, read across the channels. -/
def events (c : Columns) : List Event :=
  (c.timestamps.zip (c.ids.zip c.energies)).map fun (timestamp, id, energy) =>
    ⟨timestamp, id, energy⟩

def ofEvents (events : List Event) : Columns :=
  ⟨events.map (·.timestamp), events.map (·.id), events.map (·.energy)⟩

theorem ofEvents_append (es es' : List Event) :
    ofEvents (es ++ es') = ofEvents es ++ ofEvents es' := by
  simp only [ofEvents, append_def, List.map_append]

theorem aligned_ofEvents (es : List Event) : (ofEvents es).Aligned := by
  simp [Aligned, ofEvents]

@[simp] theorem events_ofEvents (es : List Event) : (ofEvents es).events = es := by
  simp [events, ofEvents, List.zip_map', Function.comp_def]

def ofFrames (frames : List OutputFrame) : Columns where
  timestamps := column ChannelData.values64 .timeOffset frames
  ids := column ChannelData.values32 .id frames
  energies := column ChannelData.values32 .energy frames

@[simp] theorem ofFrames_nil : ofFrames [] = {} := rfl

theorem ofFrames_append (frames frames' : List OutputFrame) :
    ofFrames (frames ++ frames') = ofFrames frames ++ ofFrames frames' := by
  simp only [ofFrames, append_def, column_append]

end Columns

namespace Outputs

/-- Each buffer serves its own channel. -/
structure Labelled (o : Outputs) : Prop where
  timestamps : o.timestamps.channel = .timeOffset
  ids : o.ids.channel = .id
  energies : o.energies.channel = .energy

def pending (o : Outputs) : Columns :=
  ⟨o.timestamps.pending.toList, o.ids.pending.toList, o.energies.pending.toList⟩

/-- Frames of the three channels, one channel after the other, carry what the buffers pass on. -/
private theorem ofFrames_of_passes {o : Outputs} (ho : o.Labelled) (o' : Outputs)
    (es : List Event) {ts is ns : List OutputFrame}
    (ht : o.timestamps.Passes ChannelData.values64 (es.map (·.timestamp)) ts o'.timestamps)
    (hi : o.ids.Passes ChannelData.values32 (es.map (·.id)) is o'.ids)
    (hn : o.energies.Passes ChannelData.values32 (es.map (·.energy)) ns o'.energies) :
    o'.Labelled ∧
      Columns.ofFrames (ts ++ is ++ ns) ++ o'.pending = o.pending ++ Columns.ofEvents es := by
  have htc := ht.frames_channel
  have hic := hi.frames_channel
  have hnc := hn.frames_channel
  rw [ho.timestamps] at htc
  rw [ho.ids] at hic
  rw [ho.energies] at hnc
  refine ⟨⟨ht.channel.trans ho.timestamps, hi.channel.trans ho.ids,
    hn.channel.trans ho.energies⟩, ?_⟩
  have hcols : Columns.ofFrames (ts ++ is ++ ns) =
      ⟨ts.flatMap fun f => f.data.values64, is.flatMap fun f => f.data.values32,
        ns.flatMap fun f => f.data.values32⟩ := by
    simp only [Columns.ofFrames, column_append]
    rw [column_eq_flatMap htc, column_eq_flatMap hic, column_eq_flatMap hnc,
      column_eq_nil hic (by decide), column_eq_nil hnc (by decide), column_eq_nil htc (by decide),
      column_eq_nil hnc (by decide), column_eq_nil htc (by decide), column_eq_nil hic (by decide)]
    simp
  rw [hcols, Columns.append_def, pending, pending, Columns.ofEvents, Columns.append_def,
    Columns.mk.injEq]
  exact ⟨ht.values, hi.values, hn.values⟩

theorem write_columns {o : Outputs} (ho : o.Labelled) (batch : EventBatch) :
    (o.write batch).2.Labelled ∧
      Columns.ofFrames (o.write batch).1 ++ (o.write batch).2.pending =
        o.pending ++ Columns.ofEvents batch.events.toList := by
  have ht := ChannelBuffer.append_passes ChannelData.values64_toData o.timestamps batch.timestamps
  have hi := ChannelBuffer.append_passes ChannelData.values32_toData o.ids batch.ids
  have hn := ChannelBuffer.append_passes ChannelData.values32_toData o.energies batch.energies
  rw [EventBatch.timestamps, Array.toList_map] at ht
  rw [EventBatch.ids, Array.toList_map] at hi
  rw [EventBatch.energies, Array.toList_map] at hn
  exact ofFrames_of_passes ho (o.write batch).2 batch.events.toList ht hi hn

theorem writeAll_columns {o : Outputs} (ho : o.Labelled) (batches : List EventBatch) :
    (o.writeAll batches).2.Labelled ∧
      Columns.ofFrames (o.writeAll batches).1 ++ (o.writeAll batches).2.pending =
        o.pending ++ Columns.ofEvents (batches.flatMap (·.events.toList)) := by
  induction batches generalizing o with
  | nil => exact ⟨ho, by simp [writeAll, Columns.ofEvents]⟩
  | cons batch rest ih =>
    obtain ⟨hw, hcols⟩ := write_columns ho batch
    obtain ⟨hrest, hcols'⟩ := ih hw
    refine ⟨hrest, ?_⟩
    change Columns.ofFrames ((o.write batch).1 ++ ((o.write batch).2.writeAll rest).1) ++
      ((o.write batch).2.writeAll rest).2.pending = _
    rw [Columns.ofFrames_append, Columns.append_assoc, hcols', ← Columns.append_assoc, hcols,
      List.flatMap_cons, Columns.ofEvents_append, Columns.append_assoc]

theorem flush_columns {o : Outputs} (ho : o.Labelled) :
    o.flush.2.Labelled ∧ Columns.ofFrames o.flush.1 = o.pending ∧ o.flush.2.pending = {} := by
  obtain ⟨ht, ht'⟩ := ChannelBuffer.flush_passes ChannelData.values64_toData o.timestamps
  obtain ⟨hi, hi'⟩ := ChannelBuffer.flush_passes ChannelData.values32_toData o.ids
  obtain ⟨hn, hn'⟩ := ChannelBuffer.flush_passes ChannelData.values32_toData o.energies
  have hempty : o.flush.2.pending = {} := by
    change Columns.mk o.timestamps.flush.2.pending.toList o.ids.flush.2.pending.toList
      o.energies.flush.2.pending.toList = _
    rw [ht', hi', hn']
  obtain ⟨hlabel, hcols⟩ := ofFrames_of_passes ho o.flush.2 [] ht hi hn
  refine ⟨hlabel, ?_, hempty⟩
  rw [hempty] at hcols
  change Columns.ofFrames (o.timestamps.flush.1 ++ o.ids.flush.1 ++ o.energies.flush.1) = _
  rw [Columns.append_nil] at hcols
  rw [hcols]
  exact Columns.append_nil _

theorem labelled_ofCapacity (capacity : Nat) : (ofCapacity capacity).Labelled := ⟨rfl, rfl, rfl⟩

theorem Labelled.configure {o : Outputs} (ho : o.Labelled) (processes rank : Nat) :
    (o.configure processes rank).Labelled := ⟨ho.timestamps, ho.ids, ho.energies⟩

theorem Labelled.restart {o : Outputs} (ho : o.Labelled) : o.restart.Labelled :=
  ⟨ho.timestamps, ho.ids, ho.energies⟩

@[simp] theorem pending_configure (o : Outputs) (processes rank : Nat) :
    (o.configure processes rank).pending = o.pending := rfl

end Outputs
end EventReadout
