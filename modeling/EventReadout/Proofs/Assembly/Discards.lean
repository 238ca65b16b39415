import EventReadout.Proofs.Assembly.Session
import EventReadout.Proofs.Assembly.Tally

/-!
Packets that are turned away leave nothing behind: the frame without them has the same effect on
everything that is written, now and later.
-/
namespace EventReadout

namespace Reassembly

variable {α : Type} {slice : α → TimeSlice} {r r' : Reassembly α} {xs : List α}

theorem Filed.unchanged {x : α} {v : Verdict} (hf : Filed slice xs r x v r') (hv : v ≠ .accepted) :
    r' = r := by
  cases hf with
  | outOfRange | stale => rfl
  | resident | opening => exact absurd rfl hv

theorem fileAll_judged_accepted (h : r.store.Holds slice xs) (ys : List α) :
    r.fileAll slice (r.judged slice .accepted ys) = r.fileAll slice ys ∧
      r.judged slice .accepted (r.judged slice .accepted ys) = r.judged slice .accepted ys := by
  induction ys generalizing r xs with
  | nil => exact ⟨rfl, rfl⟩
  | cons y ys ih =>
    have hfile := file_filed h y
    obtain ⟨hfiled, hjudged⟩ := ih (hfile.holds h)
    by_cases hv : (r.file (slice y) y).1 = .accepted
    · have hfirst : r.judged slice .accepted (y :: ys) =
          y :: (r.file (slice y) y).2.judged slice .accepted ys := by
        rw [judged, if_pos hv]
        rfl
      rw [hfirst, fileAll, fileAll, judged, if_pos hv, hjudged]
      exact ⟨hfiled, rfl⟩
    · have hsame := hfile.unchanged hv
      rw [hsame] at hfiled hjudged
      rw [judged, if_neg hv, List.nil_append, fileAll, hsame]
      exact ⟨hfiled, hjudged⟩

end Reassembly

namespace Frame

variable {c : Config} {bytes : Bytes} {f : Frame} {slots : List Nat}

/-- The validity bytes of some slots are set to zero. -/
def invalidate (slots : List Nat) (bytes : Bytes) : Bytes :=
  bytes.mapIdx fun i byte =>
    if validityOffset ≤ i ∧ i - validityOffset ∈ slots then 0 else byte

@[simp] theorem length_invalidate (slots : List Nat) (bytes : Bytes) :
    (invalidate slots bytes).length = bytes.length := List.length_mapIdx

theorem getElem?_invalidate (slots : List Nat) (bytes : Bytes) (i : Nat) :
    (invalidate slots bytes)[i]? = bytes[i]?.map fun byte =>
      if validityOffset ≤ i ∧ i - validityOffset ∈ slots then 0 else byte :=
  List.getElem?_mapIdx

theorem validFlag_invalidate (slots : List Nat) (bytes : Bytes) (slot : Nat) :
    validFlag (invalidate slots bytes) slot = (validFlag bytes slot && decide (slot ∉ slots)) := by
  unfold validFlag
  rw [List.getD_eq_getElem?_getD, List.getD_eq_getElem?_getD, getElem?_invalidate,
    Nat.add_sub_cancel_left]
  by_cases hslot : slot ∈ slots
  · simp [hslot]
    cases bytes[validityOffset + slot]? <;> simp
  · simp [hslot]

theorem drop_invalidate {start : Nat} (h : ∀ slot ∈ slots, validityOffset + slot < start)
    (bytes : Bytes) : (invalidate slots bytes).drop start = bytes.drop start := by
  apply List.ext_getElem?
  intro i
  rw [List.getElem?_drop, List.getElem?_drop, getElem?_invalidate]
  have hkept : ¬ (validityOffset ≤ start + i ∧ start + i - validityOffset ∈ slots) := by
    rintro ⟨-, hmem⟩
    have hlt := h _ hmem
    omega
  simp [hkept]

theorem idleFlag_invalidate (slots : List Nat) (bytes : Bytes) :
    idleFlag (invalidate slots bytes) = idleFlag bytes := by
  unfold idleFlag
  rw [List.getD_eq_getElem?_getD, List.getD_eq_getElem?_getD, getElem?_invalidate]
  simp [idleOffset, validityOffset]

theorem parse_invalidate (slots : List Nat) (h : parse c bytes = .ok f) (hidle : f.idle = false) :
    ∃ f', parse c (invalidate slots bytes) = .ok f' ∧ f'.idle = false := by
  have hrequired : requiredBytes c (invalidate slots bytes) = requiredBytes c bytes := by
    unfold requiredBytes
    rw [length_invalidate, idleFlag_invalidate]
  have hlong : requiredBytes c bytes ≤ bytes.length := by
    by_contra hshort
    rw [parse_of_short (Nat.lt_of_not_le hshort)] at h
    cases h
  rw [← hrequired, ← length_invalidate slots] at hlong
  obtain ⟨f', hf'⟩ := parse_of_long hlong
  refine ⟨f', hf', ?_⟩
  rw [idle_of_parse hf', idleFlag_invalidate, ← idle_of_parse h, hidle]

theorem slotJob_invalidate (h : ∀ slot ∈ slots, slot < c.packetSlots) (bytes : Bytes)
    (slot : Nat) : slotJob c (invalidate slots bytes) slot = slotJob c bytes slot := by
  have hword (index : Nat) :
      slotWord c (invalidate slots bytes) slot index = slotWord c bytes slot index := by
    unfold slotWord ByteOrder.wordAt
    rw [drop_invalidate]
    intro other hother
    have hlt := h other hother
    unfold slotOffset Config.headerBytes validityOffset
    omega
  unfold slotJob slotPayload slotHeader
  simp only [hword]

theorem jobs_invalidate (hc : c.Valid) (hslots : ∀ slot ∈ slots, slot < c.packetSlots)
    (h : parse c bytes = .ok f) (hidle : f.idle = false) {f' : Frame}
    (h' : parse c (invalidate slots bytes) = .ok f') (hidle' : f'.idle = false) :
    f'.jobs = f.jobs.filter fun j => decide (j.slot ∉ slots) := by
  have hjob : slotJob c (invalidate slots bytes) = slotJob c bytes :=
    funext (slotJob_invalidate hslots bytes)
  rw [jobs_eq hc h hidle, jobs_eq hc h' hidle', hjob, List.filter_map, List.filter_filter]
  congr 1
  apply List.filter_congr
  intro slot _
  rw [validFlag_invalidate]
  exact Bool.and_comm _ _

theorem slots_nodup (hc : c.Valid) (h : parse c bytes = .ok f) (hidle : f.idle = false) :
    (f.jobs.map Job.slot).Nodup ∧ ∀ j ∈ f.jobs, j.slot < c.packetSlots := by
  have hslots : f.jobs.map Job.slot = (List.range c.packetSlots).filter (validFlag bytes) := by
    rw [jobs_eq hc h hidle, List.map_map]
    exact List.map_id _
  refine ⟨?_, fun j hj => ?_⟩
  · rw [hslots]
    exact List.nodup_range.filter _
  · have hmem : j.slot ∈ f.jobs.map Job.slot := List.mem_map_of_mem hj
    rw [hslots] at hmem
    exact List.mem_range.1 (List.mem_of_mem_filter hmem)

end Frame

/-- The slots of the packets that were turned away. -/
def Report.discarded (r : Report) : List Nat := (r.stale ++ r.outOfRange).map Job.slot

namespace Assembler

variable {c : Config} {a : Assembler} {bytes : Bytes} {f : Frame} {ys : List Job}

/-- The accepted packets are those in the slots that are not discarded. -/
theorem judged_accepted_eq_filter {r : Reassembly Job} (hnodup : (ys.map Job.slot).Nodup) :
    let discarded :=
      (r.judged Job.slice .stale ys ++ r.judged Job.slice .outOfRange ys).map Job.slot
    r.judged Job.slice .accepted ys = ys.filter fun j => decide (j.slot ∉ discarded) := by
  intro discarded
  have hperm := Reassembly.judged_perm Job.slice r ys
  rw [List.append_assoc] at hperm
  have hslots := (hperm.map Job.slot).nodup_iff.2 hnodup
  rw [List.map_append, List.nodup_append] at hslots
  obtain ⟨-, -, hapart⟩ := hslots
  have hkept : (r.judged Job.slice .accepted ys).filter (fun j => decide (j.slot ∉ discarded)) =
      r.judged Job.slice .accepted ys := by
    rw [List.filter_eq_self]
    intro j hj
    rw [decide_eq_true_eq]
    intro hmem
    exact hapart _ (List.mem_map_of_mem hj) _ hmem rfl
  have hgone : (r.judged Job.slice .stale ys ++ r.judged Job.slice .outOfRange ys).filter
      (fun j => decide (j.slot ∉ discarded)) = [] := by
    rw [List.filter_eq_nil_iff]
    intro j hj hnot
    exact of_decide_eq_true hnot (List.mem_map_of_mem hj)
  have hsub := (Reassembly.judged_sublist Job.slice .accepted r ys).filter
    fun j => decide (j.slot ∉ discarded)
  rw [hkept] at hsub
  have hlength := (hperm.filter fun j => decide (j.slot ∉ discarded)).length_eq
  rw [List.filter_append, hkept, hgone, List.append_nil] at hlength
  exact hsub.eq_of_length hlength

/-- Frames and buffers after a standard frame are told from what it writes. -/
theorem outputs_step (ha : a.Consistent c) (arrangement : Arrangement)
    (hf : Frame.parse c bytes = .ok f) (hidle : f.idle = false) :
    let out := a.step (.feed arrangement bytes)
    (out.1.frames, out.2.outputs) =
      a.outputs.writeAll (out.1.written.map (·.decoded.events)) := by
  dsimp only
  rw [step_standard ha arrangement hf hidle]
  rfl

/-- Without the packets turned away a frame carries the accepted ones. -/
theorem jobs_without_discarded (ha : a.Consistent c) (hf : Frame.parse c bytes = .ok f)
    (hidle : f.idle = false) :
    let report := (a.step (.feed .slotOrder bytes)).1
    ∃ f', Frame.parse c (Frame.invalidate report.discarded bytes) = .ok f' ∧ f'.idle = false ∧
      (Call.feed .slotOrder (Frame.invalidate report.discarded bytes)).jobs c =
        report.accepted := by
  intro report
  have hframe := Call.frame?_feed .slotOrder hf
  have hcall : (Call.feed .slotOrder bytes).Standard c := ⟨f, hframe, hidle⟩
  obtain ⟨haccepted, hstale, hout, -, -⟩ :=
    (step_spec ha (.feed .slotOrder bytes)).1.of_standard hcall
  rw [Call.results_slotOrder, Call.jobs_of_frame hframe hidle] at haccepted hstale hout
  obtain ⟨hnodup, hfew⟩ := Frame.slots_nodup ha.valid hf hidle
  have hslot : ∀ jobs : List Job, (jobs.map Job.decode).map Job.slot = jobs.map Job.slot := by
    intro jobs
    rw [List.map_map]
    rfl
  have hdiscarded : ∀ slot ∈ report.discarded, slot < c.packetSlots := by
    intro slot hmem
    obtain ⟨j, hj, rfl⟩ := List.mem_map.1 hmem
    have hjob : j ∈ f.jobs.map Job.decode := by
      rcases List.mem_append.1 hj with hj | hj
      · rw [hstale] at hj
        exact (Reassembly.judged_sublist _ _ _ _).subset hj
      · rw [hout] at hj
        exact (Reassembly.judged_sublist _ _ _ _).subset hj
    obtain ⟨i, hi, rfl⟩ := List.mem_map.1 hjob
    exact hfew i hi
  obtain ⟨f', hf', hidle'⟩ := Frame.parse_invalidate report.discarded hf hidle
  refine ⟨f', hf', hidle', ?_⟩
  rw [← hslot] at hnodup
  have hkept := judged_accepted_eq_filter (r := a.reassembly) hnodup
  rw [← haccepted, ← hstale, ← hout] at hkept
  rw [Call.jobs_of_frame (Call.frame?_feed .slotOrder hf') hidle',
    Frame.jobs_invalidate ha.valid hdiscarded hf hidle hf' hidle', hkept, List.filter_map]
  rfl

/-- The frame that carries only the accepted packets of another one does all that it did. -/
theorem step_accepted (ha : a.Consistent c) {bytes' : Bytes} {f' : Frame}
    (hf : Frame.parse c bytes = .ok f) (hidle : f.idle = false)
    (hf' : Frame.parse c bytes' = .ok f') (hidle' : f'.idle = false)
    (hjobs : (Call.feed .slotOrder bytes').jobs c =
      (a.step (.feed .slotOrder bytes)).1.accepted) :
    let out := a.step (.feed .slotOrder bytes)
    let out' := a.step (.feed .slotOrder bytes')
    out'.1.accepted = out.1.accepted ∧ out'.1.stale = [] ∧ out'.1.outOfRange = [] ∧
      out'.1.written = out.1.written ∧ out'.1.frames = out.1.frames ∧ Alike out'.2 out.2 := by
  dsimp only
  obtain ⟨js, hjs⟩ := ha.holds
  have hcall : (Call.feed .slotOrder bytes).Standard c := ⟨f, Call.frame?_feed _ hf, hidle⟩
  have hcall' : (Call.feed .slotOrder bytes').Standard c := ⟨f', Call.frame?_feed _ hf', hidle'⟩
  obtain ⟨heffect, -, hb⟩ := step_spec ha (.feed .slotOrder bytes)
  obtain ⟨heffect', -, hb'⟩ := step_spec ha (.feed .slotOrder bytes')
  obtain ⟨haccepted, -, -, hwritten, hkept⟩ := heffect.of_standard hcall
  obtain ⟨haccepted', hstale', hout', hwritten', hkept'⟩ := heffect'.of_standard hcall'
  rw [Call.results_slotOrder] at haccepted hwritten hkept
  rw [Call.results_slotOrder, hjobs, haccepted] at haccepted' hstale' hout' hwritten' hkept'
  obtain ⟨hfiled, hagain⟩ := Reassembly.fileAll_judged_accepted hjs
    ((Call.feed .slotOrder bytes).jobs c)
  rw [hagain, ← haccepted] at haccepted'
  rw [hfiled, ← hwritten] at hwritten'
  rw [hfiled, ← hkept] at hkept'
  have hlength := (Reassembly.judged_perm Job.slice a.reassembly
    (a.reassembly.judged Job.slice .accepted ((Call.feed .slotOrder bytes).jobs c))).length_eq
  rw [hagain, List.length_append, List.length_append, ← hstale', ← hout'] at hlength
  have houtputs := outputs_step ha .slotOrder hf hidle
  have houtputs' := outputs_step ha .slotOrder hf' hidle'
  dsimp only at houtputs houtputs'
  rw [hwritten', ← houtputs, Prod.mk.injEq] at houtputs'
  obtain ⟨hframes, hbuffers⟩ := houtputs'
  refine ⟨haccepted', ?_, ?_, hwritten', hframes, hb'.config.trans hb.config.symm, hkept',
    hbuffers⟩
  · apply List.length_eq_zero_iff.1
    omega
  · apply List.length_eq_zero_iff.1
    omega

theorem respond_of_frame (ha : a.config = c) {call : Call} (h : call.frame? c = some f) :
    (a.respond call).1 = .ok (a.step call).1 := by
  obtain ⟨arrangement, bytes, rfl, hf⟩ := Call.exists_feed h
  rw [respond_feed_of_ok ha hf, step_frame ha arrangement hf]

/--
Clearing the validity bytes of the packets that a frame loses, late or out of range, changes
neither what the frame writes nor the store, the mark or the channel buffers after it, and no later
calls can tell the difference. Only counters of packets and events and the pool see it.
-/
theorem discarded_leave_no_trace (ha : a.Reachable c)
    (hcall : (Call.feed .slotOrder bytes).Standard c) :
    let call := Call.feed .slotOrder bytes
    let report := (a.step call).1
    let b := (a.step call).2
    let cleared := Call.feed .slotOrder (Frame.invalidate report.discarded bytes)
    let report' := (a.step cleared).1
    let b' := (a.step cleared).2
    cleared.Standard c ∧
      cleared.jobs c = report.accepted ∧ report'.accepted = report.accepted ∧
      report'.stale = [] ∧ report'.outOfRange = [] ∧ report'.written = report.written ∧
      (a.respond call).1.map Report.frames = .ok report.frames ∧
      (a.respond cleared).1.map Report.frames = .ok report.frames ∧
      b'.reassembly = b.reassembly ∧ b'.outputs = b.outputs ∧
      b'.counts.framesProcessed = b.counts.framesProcessed ∧
      b'.counts.idleFrames = b.counts.idleFrames ∧
      b'.counts.outputFrames = b.counts.outputFrames ∧
      ∀ later, b'.trace later = b.trace later := by
  have hc := ha.consistent
  obtain ⟨f, hframe, hidle⟩ := hcall
  obtain ⟨arrangement, bytes, heq, hf⟩ := Call.exists_feed hframe
  cases heq
  obtain ⟨f', hf', hidle', hjobs⟩ := jobs_without_discarded hc hf hidle
  intro call report b cleared report' b'
  have hstandard : call.Standard c := ⟨f, hframe, hidle⟩
  have hstandard' : cleared.Standard c := ⟨f', Call.frame?_feed _ hf', hidle'⟩
  obtain ⟨haccepted, hstale, hout, hwritten, hframes, halike⟩ :=
    step_accepted hc hf hidle hf' hidle' hjobs
  have hcounts := step_counts hc call
  have hcounts' := step_counts hc cleared
  rw [tally_of_standard hstandard] at hcounts
  rw [tally_of_standard hstandard', hframes] at hcounts'
  have hanswer : (a.respond call).1.map Report.frames = .ok report.frames := by
    rw [respond_of_frame hc.config hframe]
    rfl
  have hanswer' : (a.respond cleared).1.map Report.frames = .ok report.frames := by
    rw [respond_of_frame hc.config (Call.frame?_feed _ hf')]
    exact congrArg Except.ok hframes
  refine ⟨hstandard', hjobs, haccepted, hstale, hout, hwritten, hanswer, hanswer',
    halike.reassembly, halike.outputs, ?_, ?_, ?_, fun later => ?_⟩
  · exact (congrArg Statistics.framesProcessed hcounts').trans
      (congrArg Statistics.framesProcessed hcounts).symm
  · exact (congrArg Statistics.idleFrames hcounts').trans
      (congrArg Statistics.idleFrames hcounts).symm
  · exact (congrArg Statistics.outputFrames hcounts').trans
      (congrArg Statistics.outputFrames hcounts).symm
  · exact halike.trace_eq (step_spec hc cleared).2.2 (step_spec hc call).2.2 later

/-- A late packet stands before one that opens a generation. -/
theorem discarded_before_opening :
    ∃ a bytes, ofConfig .small = .ok a ∧ Call.sample [⟨0, 0⟩, ⟨6, 0⟩] = .feed .slotOrder bytes ∧
      let b := (a.step (.sample [⟨5, 0⟩, ⟨5, 1⟩])).2
      let full := b.step (.feed .slotOrder bytes)
      let cleared := b.step (.feed .slotOrder (Frame.invalidate full.1.discarded bytes))
      full.1.discarded = [0] ∧ full.1.written.map Job.slice = [⟨5, 0⟩] ∧
        cleared.1.stale = [] ∧ cleared.1.written = full.1.written ∧
        ∀ later, cleared.2.trace later = full.2.trace later := by
  have hcall : (Call.sample [⟨0, 0⟩, ⟨6, 0⟩]).Standard .small := by decide +kernel
  refine ⟨_, _, rfl, rfl, ?_⟩
  obtain ⟨-, -, -, hstale, -, hwritten, -, -, -, -, -, -, -, htrace⟩ :=
    discarded_leave_no_trace (.step (.start rfl) (.sample [⟨5, 0⟩, ⟨5, 1⟩])) hcall
  exact ⟨by decide +kernel, by decide +kernel, hstale, hwritten, htrace⟩

end Assembler
end EventReadout
