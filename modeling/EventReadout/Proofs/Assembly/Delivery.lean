import EventReadout.Proofs.Assembly.Acquisition
import EventReadout.Proofs.Channel.Chunks
import EventReadout.Proofs.Slice.Delivery

/-!
What the order in which the workers deliver the results of a frame can change.

The reassembly alone decides: as long as no more than one generation can be opened, every order
has the same outcome, up to the order of the jobs inside a slice.
-/
namespace EventReadout

/-- Delivers the results `js` in the order `ys`, and all others in slot order. -/
def Arrangement.ofPerm {js ys : List Job} (h : ys.Perm js) : Arrangement where
  order jobs := if jobs = js then ys else jobs
  perm jobs := by
    split
    · next heq => rw [heq]; exact h
    · exact .rfl

theorem Arrangement.ofPerm_order {js ys : List Job} (h : ys.Perm js) :
    (Arrangement.ofPerm h).order js = ys := if_pos rfl

def Arrangement.reverseOrder : Arrangement := ⟨List.reverse, List.reverse_perm⟩

/-- The call with the results of its frame delivered in another order. -/
def Call.arranged (p : Arrangement) : Call → Call
  | feed _ bytes => feed p bytes
  | configure processes rank => configure processes rank

namespace Call

variable {c : Config} {call : Call}

@[simp] theorem frame?_arranged (p : Arrangement) (call : Call) :
    (call.arranged p).frame? c = call.frame? c := by
  cases call <;> rfl

theorem Standard.arranged (h : call.Standard c) (p : Arrangement) :
    (call.arranged p).Standard c := by
  unfold Standard
  rw [frame?_arranged]
  exact h

theorem Standard.results_arranged (h : call.Standard c) (p : Arrangement) :
    (call.arranged p).results c = p.order (call.jobs c) := by
  obtain ⟨f, hf, -⟩ := h
  obtain ⟨q, bytes, rfl, -⟩ := Call.exists_feed hf
  rfl

end Call

theorem Statistics.foldl_record_perm {ys zs : List Job} (h : ys.Perm zs) (s : Statistics) :
    ys.foldl record s = zs.foldl record s := by
  apply h.foldl_eq'
  intro i _ j _ s
  simp only [record, mk.injEq, true_and, and_true]
  omega

theorem Pool.allocated_foldl_release {α : Type} [Recyclable α] (xs : List α) (p : Pool α) :
    (xs.foldl release p).allocated = p.allocated := by
  induction xs generalizing p with
  | nil => rfl
  | cons x rest ih => exact ih (p.release x)

theorem Filing.allocated_run (f : Filing) (jobs : List Job) :
    (f.run jobs).pool.allocated = f.pool.allocated := by
  induction jobs generalizing f with
  | nil => rfl
  | cons j rest ih =>
    have hfile : (f.file j).pool.allocated = f.pool.allocated := by
      unfold file
      cases f.reassembly.file j.slice j with
      | mk verdict reassembly => cases verdict <;> rfl
    exact (ih (f.file j)).trans hfile

namespace Assembler

variable {c : Config} {a b : Assembler} {call : Call}

/-- What the results of a frame add to the counters, in terms of what is reported of them. -/
theorem statistics_collect (a : Assembler) (ys : List Job) :
    let report := (a.collect ys).1
    let counts := ys.foldl Statistics.record a.counts
    (a.collect ys).2.statistics =
      { counts with
        stalePackets := counts.stalePackets + report.stale.length
        invalidPackets := counts.invalidPackets + report.outOfRange.length
        outputFrames := counts.outputFrames + report.frames.length
        poolAllocated := a.pool.allocated } := by
  have hfiled := Filing.allocated_run { pool := a.pool, reassembly := a.reassembly } ys
  have hpool : (a.collect ys).2.pool.allocated = a.pool.allocated :=
    (Pool.allocated_foldl_release _ _).trans hfiled
  dsimp only
  rw [statistics, hpool]
  rfl

theorem filter_frames_collect (ho : a.outputs.Labelled) (ys : List Job) (ch : Channel) :
    (a.collect ys).1.frames.filter (·.channel = ch) =
      a.outputs.emitted ((a.collect ys).1.written.flatMap Job.events) ch := by
  have hframes := (Outputs.writeAll_eq ho
    ((a.collect ys).1.written.map (·.decoded.events))).2 ch
  rw [List.flatMap_map] at hframes
  exact hframes

/-- Reports that tell of the same jobs come with the same counters, frame numbers and sizes. -/
theorem collect_same (ho : a.outputs.Labelled) {ys zs : List Job} (hp : ys.Perm zs)
    (hstale : (a.collect ys).1.stale.Perm (a.collect zs).1.stale)
    (hout : (a.collect ys).1.outOfRange.Perm (a.collect zs).1.outOfRange)
    (hwritten : (a.collect ys).1.written.Perm (a.collect zs).1.written) :
    (a.collect ys).2.statistics = (a.collect zs).2.statistics ∧
      ∀ ch, ((a.collect ys).1.frames.filter (·.channel = ch)).map OutputFrame.label =
        ((a.collect zs).1.frames.filter (·.channel = ch)).map OutputFrame.label := by
  have hlabels (ch : Channel) :
      ((a.collect ys).1.frames.filter (·.channel = ch)).map OutputFrame.label =
        ((a.collect zs).1.frames.filter (·.channel = ch)).map OutputFrame.label := by
    rw [filter_frames_collect ho, filter_frames_collect ho]
    exact Outputs.labels_emitted a.outputs (hwritten.flatMap_right _).length_eq ch
  refine ⟨?_, hlabels⟩
  rw [statistics_collect, statistics_collect, Statistics.foldl_record_perm hp, hstale.length_eq,
    hout.length_eq, length_eq_of_labels_eq hlabels]

/-- A frame is collected from a state that the order of its results has no part in. -/
theorem exists_collect (ha : a.Consistent c) (hcall : call.Standard c) :
    ∃ b : Assembler, b.outputs.Labelled ∧
      ∀ p, (a.step (call.arranged p)).2 = (b.collect ((call.arranged p).results c)).2 ∧
        ∃ notices, (a.step (call.arranged p)).1 =
          { (b.collect ((call.arranged p).results c)).1 with notices } := by
  obtain ⟨f, hframe, hidle⟩ := hcall
  obtain ⟨q, bytes, rfl, hf⟩ := Call.exists_feed hframe
  refine ⟨(a.submit f).2.2, ha.labelled, fun p => ?_⟩
  rw [Call.arranged, step_standard ha p hf hidle]
  exact ⟨rfl, _, rfl⟩

theorem step_same (ha : a.Consistent c) (hcall : call.Standard c) {p q : Arrangement}
    (hstale : (a.step (call.arranged p)).1.stale.Perm (a.step (call.arranged q)).1.stale)
    (hout : (a.step (call.arranged p)).1.outOfRange.Perm (a.step (call.arranged q)).1.outOfRange)
    (hwritten : (a.step (call.arranged p)).1.written.Perm
      (a.step (call.arranged q)).1.written) :
    let out := a.step (call.arranged p)
    let out' := a.step (call.arranged q)
    out.2.statistics = out'.2.statistics ∧
      (∀ ch, (out.1.frames.filter (·.channel = ch)).map OutputFrame.label =
        (out'.1.frames.filter (·.channel = ch)).map OutputFrame.label) ∧
      (out.1.written = out'.1.written → out.1.frames = out'.1.frames) := by
  obtain ⟨b, ho, hb⟩ := exists_collect ha hcall
  obtain ⟨hp, pnotices, hp'⟩ := hb p
  obtain ⟨hq, qnotices, hq'⟩ := hb q
  rw [hp', hq'] at hstale hout hwritten
  have hperm : ((call.arranged p).results c).Perm ((call.arranged q).results c) := by
    rw [hcall.results_arranged, hcall.results_arranged]
    exact (p.perm _).trans (q.perm _).symm
  obtain ⟨hcounts, hlabels⟩ := collect_same ho hperm hstale hout hwritten
  dsimp only
  rw [hp, hq, hp', hq']
  refine ⟨hcounts, hlabels, fun heq => ?_⟩
  exact congrArg (fun js : List Job => (b.outputs.writeAll (js.map (·.decoded.events))).1) heq

theorem step_arranged (ha : a.Consistent c) (hcall : call.Standard c) (p : Arrangement) :
    let results := p.order (call.jobs c)
    let out := a.step (call.arranged p)
    out.1.stale = a.reassembly.judged Job.slice .stale results ∧
      out.1.outOfRange = a.reassembly.judged Job.slice .outOfRange results ∧
      out.1.written = (a.reassembly.fileAll Job.slice results).drainFinal.1 ∧
      out.2.reassembly = (a.reassembly.fileAll Job.slice results).drainFinal.2 ∧
      out.2.reassembly.mark = (a.reassembly.fileAll Job.slice results).mark := by
  obtain ⟨js, hjs⟩ := ha.holds
  obtain ⟨-, hstale, hout, hwritten, hr⟩ :=
    (step_spec ha (call.arranged p)).1.of_standard (hcall.arranged p)
  rw [hcall.results_arranged p] at hstale hout hwritten hr
  refine ⟨hstale, hout, hwritten, hr, ?_⟩
  rw [hr]
  exact (Reassembly.drainFinal_eq (Reassembly.holds_fileAll hjs _)).2.2.2

theorem fileAll_arranged (ha : a.Reachable c) {w : Nat}
    (ho : a.reassembly.OpensOnly Job.slice w (call.jobs c)) (p q : Arrangement) :
    let ys := p.order (call.jobs c)
    let zs := q.order (call.jobs c)
    (a.reassembly.judged Job.slice .stale ys).Perm (a.reassembly.judged Job.slice .stale zs) ∧
      (a.reassembly.fileAll Job.slice ys).Agrees Job.slice
        (a.reassembly.fileAll Job.slice zs) := by
  obtain ⟨js, hjs⟩ := ha.consistent.holds
  have htracks := ha.reassembly_settled.tracks hjs
  have hperm := (p.perm (call.jobs c)).trans (q.perm (call.jobs c)).symm
  obtain ⟨hstale, -, hagrees⟩ :=
    (ho.perm (p.perm (call.jobs c)).symm).fileAll_perm hjs htracks hperm
  exact ⟨hstale, hagrees⟩

/--
Every order of delivery discards the same packets and leaves the same mark exactly if of the packets
in range whose generations are not resident only those of one generation can be opened, the others
being too old for the mark and for that generation.
-/
theorem delivery_irrelevant_iff (ha : a.Reachable c) (hcall : call.Standard c) :
    (∀ p q : Arrangement,
        let out := a.step (call.arranged p)
        let out' := a.step (call.arranged q)
        out.1.stale.Perm out'.1.stale ∧ out.2.reassembly.mark = out'.2.reassembly.mark) ↔
      ∃ w, a.reassembly.OpensOnly Job.slice w (call.jobs c) := by
  obtain ⟨js, hjs⟩ := ha.consistent.holds
  constructor
  · intro hsame
    apply Reassembly.exists_opensOnly_of_same hjs
    intro us vs hus hvs
    obtain ⟨hstale, hmark⟩ := hsame (.ofPerm hus) (.ofPerm hvs)
    obtain ⟨hus', -, -, -, husmark⟩ := step_arranged ha.consistent hcall (.ofPerm hus)
    obtain ⟨hvs', -, -, -, hvsmark⟩ := step_arranged ha.consistent hcall (.ofPerm hvs)
    rw [Arrangement.ofPerm_order] at hus' husmark hvs' hvsmark
    rw [hus', hvs'] at hstale
    rw [husmark, hvsmark] at hmark
    exact ⟨hstale, congrArg TimeSlice.wrap hmark⟩
  · rintro ⟨w, ho⟩ p q
    obtain ⟨hp, -, -, -, hpmark⟩ := step_arranged ha.consistent hcall p
    obtain ⟨hq, -, -, -, hqmark⟩ := step_arranged ha.consistent hcall q
    obtain ⟨hstale, hagrees⟩ := fileAll_arranged ha ho p q
    dsimp only
    rw [hp, hq, hpmark, hqmark]
    exact ⟨hstale, hagrees.mark⟩

/-- Of two absent generations the older one is lost or kept as the workers happen to finish, and the
mark ends in the one that comes last. -/
theorem delivery_decides :
    ∃ a, ofConfig .small = .ok a ∧
      let distant := Call.sample [⟨5, 0⟩, ⟨0, 0⟩]
      let adjacent := Call.sample [⟨5, 1⟩, ⟨4, 0⟩]
      let stale (p : Arrangement) := (a.step (distant.arranged p)).1.stale.map Job.slice
      let mark (p : Arrangement) := (a.step (adjacent.arranged p)).2.reassembly.mark
      distant.Standard .small ∧ stale .slotOrder = [⟨0, 0⟩] ∧ stale .reverseOrder = [] ∧
        adjacent.Standard .small ∧ mark .slotOrder = ⟨4, 0⟩ ∧ mark .reverseOrder = ⟨5, 1⟩ ∧
        ¬ ∀ call : Call, call.Standard .small → ∀ p q : Arrangement,
          (a.step (call.arranged p)).1.stale.Perm (a.step (call.arranged q)).1.stale ∧
            (a.step (call.arranged p)).2.reassembly.mark =
              (a.step (call.arranged q)).2.reassembly.mark := by
  refine ⟨_, rfl, ?_⟩
  simp only [← and_assoc]
  refine ⟨by decide +kernel, fun h => ?_⟩
  obtain ⟨hperm, -⟩ :=
    h (.sample [⟨5, 0⟩, ⟨0, 0⟩]) (by decide +kernel) .slotOrder .reverseOrder
  exact absurd hperm.length_eq (by decide +kernel)

/-- A packet that is too late in either order does not stand in the way. -/
theorem delivery_irrelevant_beside_late_packet :
    ∃ a, ofConfig .small = .ok a ∧
      let b := (a.step (.sample [⟨4, 1⟩, ⟨5, 0⟩])).2
      let call := Call.sample [⟨6, 0⟩, ⟨1, 0⟩]
      call.Standard .small ∧ ∀ p q : Arrangement,
        let out := b.step (call.arranged p)
        let out' := b.step (call.arranged q)
        out.1.stale.Perm out'.1.stale ∧ out.2.reassembly.mark = out'.2.reassembly.mark := by
  have hcall : (Call.sample [⟨6, 0⟩, ⟨1, 0⟩]).Standard .small := by decide +kernel
  refine ⟨_, rfl, hcall, ?_⟩
  apply (delivery_irrelevant_iff (.step (.start rfl) _) hcall).2
  exact ⟨6, by decide +kernel, by decide +kernel⟩

/--
If at most one generation of the packets in range is not resident, the order of delivery changes
nothing but the order of the jobs inside a slice, and not even that if every packet has a slice of
its own.
-/
theorem delivery_confluent (ha : a.Reachable c) (hcall : call.Standard c) {w : Nat}
    (hone : ∀ j ∈ call.jobs c, j.slice.buffer < c.sliceBuffers →
      j.slice.wrap ∈ a.residents ∨ j.slice.wrap = w) (p q : Arrangement) :
    let out := a.step (call.arranged p)
    let out' := a.step (call.arranged q)
    out.2.residents = out'.2.residents ∧ out.2.statistics = out'.2.statistics ∧
      out.2.pending = out'.2.pending ∧
      (∀ t, (out.2.reassembly.store.bucket t).Perm (out'.2.reassembly.store.bucket t)) ∧
      (∀ ch, (out.1.frames.filter (·.channel = ch)).map (fun f => (f.number, f.size)) =
        (out'.1.frames.filter (·.channel = ch)).map (fun f => (f.number, f.size))) ∧
      (out.1.written.flatMap Job.events).Perm (out'.1.written.flatMap Job.events) ∧
      (((call.jobs c).map Job.slice).Nodup →
        out.2.reassembly.store = out'.2.reassembly.store ∧ out.1.frames = out'.1.frames) := by
  obtain ⟨js, hjs⟩ := ha.consistent.holds
  have habsent : ∀ j ∈ a.reassembly.absent Job.slice (call.jobs c), j.slice.wrap = w := by
    intro j hj
    obtain ⟨hmem, hb, hw⟩ := Reassembly.mem_absent.1 hj
    rw [ha.consistent.buffers] at hb
    exact (hone j hmem hb).resolve_left hw
  obtain ⟨w, ho⟩ := Reassembly.opensOnly_of_same_wrap habsent
  obtain ⟨hstale, hagrees⟩ := fileAll_arranged ha ho p q
  obtain ⟨hwritten, hkept⟩ := hagrees.drainFinal
  obtain ⟨hps, hpo, hpw, hpr, -⟩ := step_arranged ha.consistent hcall p
  obtain ⟨hqs, hqo, hqw, hqr, -⟩ := step_arranged ha.consistent hcall q
  have hperm := (p.perm (call.jobs c)).trans (q.perm (call.jobs c)).symm
  have hout : (a.step (call.arranged p)).1.outOfRange.Perm
      (a.step (call.arranged q)).1.outOfRange := by
    rw [hpo, hqo, Reassembly.judged_outOfRange hjs, Reassembly.judged_outOfRange hjs]
    exact hperm.filter _
  rw [← hps, ← hqs] at hstale
  rw [← hpw, ← hqw] at hwritten
  rw [← hpr, ← hqr] at hkept
  obtain ⟨hcounts, hlabels, hframes⟩ := step_same ha.consistent hcall hstale hout hwritten
  refine ⟨hkept.wraps, hcounts, hkept.count, hkept.bucket, hlabels, hwritten.flatMap_right _,
    fun hnodup => ?_⟩
  have hnodup' : ((p.order (call.jobs c)).map Job.slice).Nodup :=
    ((p.perm _).map Job.slice).nodup_iff.2 hnodup
  have hsame := (ho.perm (p.perm _).symm).fileAll_eq_of_nodup hjs
    (ha.reassembly_settled.tracks hjs) hperm hnodup'
  rw [hpr, hqr, hsame]
  refine ⟨rfl, hframes ?_⟩
  rw [hpw, hqw, hsame]

/-- Two slices, of which one opens a generation. -/
theorem delivery_confluent_opening :
    ∃ a, ofConfig .small = .ok a ∧
      let b := (a.step (.sample [⟨4, 1⟩, ⟨4, 0⟩])).2
      let call := Call.sample [⟨5, 1⟩, ⟨4, 1⟩]
      (b.step call).1.written.map Job.slice = [⟨4, 1⟩, ⟨4, 1⟩] ∧ ∀ p q : Arrangement,
        let out := b.step (call.arranged p)
        let out' := b.step (call.arranged q)
        out.2.residents = out'.2.residents ∧ out.2.statistics = out'.2.statistics ∧
          out.2.pending = out'.2.pending ∧
          out.2.reassembly.store = out'.2.reassembly.store ∧ out.1.frames = out'.1.frames := by
  refine ⟨_, rfl, by decide +kernel, fun p q => ?_⟩
  have hcall : (Call.sample [⟨5, 1⟩, ⟨4, 1⟩]).Standard .small := by decide +kernel
  obtain ⟨hresidents, hcounts, hpending, -, -, -, hsame⟩ :=
    delivery_confluent (w := 5) (.step (.start rfl) (.sample [⟨4, 1⟩, ⟨4, 0⟩])) hcall
      (by decide +kernel) p q
  exact ⟨hresidents, hcounts, hpending, hsame (by decide +kernel)⟩

end Assembler
end EventReadout
