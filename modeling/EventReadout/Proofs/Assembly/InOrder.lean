import EventReadout.Proofs.Assembly.Run
import EventReadout.Proofs.Slice.Mark
import Mathlib.Data.List.Chain
import Mathlib.Data.List.Induction

/-!
Acquisitions whose frames arrive in the order of their slices.

Everything is then written in order of arrival, one generation after the newest slice.
-/
namespace EventReadout

namespace Reassembly

variable {α : Type} {slice : α → TimeSlice} {r : Reassembly α} {xs written : List α}

/-- What has arrived in order, of which all that lies a generation before the mark is written. -/
structure InStep (slice : α → TimeSlice) (xs written : List α) (r : Reassembly α) : Prop where
  sorted : xs.Pairwise fun x y => slice x ≤ slice y
  inRange : ∀ x ∈ xs, (slice x).buffer < r.store.buffers
  written_eq : written = xs.filter fun x => (slice x).succWrap ≤ r.mark
  holds : r.store.Holds slice (xs.filter fun x => ¬ (slice x).succWrap ≤ r.mark)
  newest : xs = [] ∧ r.store.wraps = [] ∧ r.mark = {} ∨
    (∃ x, xs.getLast? = some x ∧ slice x = r.mark) ∧ r.mark.wrap ∈ r.store.wraps ∧
      ∀ w ∈ r.store.wraps, w ≤ r.mark.wrap

theorem inStep_start (buffers : Nat) :
    InStep slice [] [] ({ store := { buffers } } : Reassembly α) :=
  ⟨.nil, by simp, rfl, .empty _, Or.inl ⟨rfl, rfl, rfl⟩⟩

theorem InStep.le_mark (h : InStep slice xs written r) : ∀ x ∈ xs, slice x ≤ r.mark := by
  intro x hx
  rcases h.newest with ⟨rfl, -, -⟩ | ⟨⟨y, hy, hym⟩, -, -⟩
  · cases hx
  · obtain ⟨before, rfl⟩ := List.getLast?_eq_some_iff.1 hy
    rw [← hym]
    rcases List.mem_append.1 hx with hx | hx
    · exact (List.pairwise_append.1 h.sorted).2.2 x hx y (by simp)
    · rw [List.mem_singleton.1 hx]

theorem finalizes_succ_iff {buffers : Nat} {m s t : TimeSlice}
    (hs : s = m ∨ s = m.succ buffers) (hm : ¬ t.succWrap ≤ m) :
    s.Finalizes t ↔ t.succWrap ≤ s := by
  rw [TimeSlice.finalizes_def, TimeSlice.le_def, TimeSlice.succWrap_wrap,
    TimeSlice.succWrap_buffer]
  rw [TimeSlice.le_def, TimeSlice.succWrap_wrap, TimeSlice.succWrap_buffer] at hm
  rcases hs with rfl | rfl
  · omega
  · unfold TimeSlice.succ
    split
    · dsimp only
      omega
    · dsimp only
      omega

theorem InStep.drainFinal (h : InStep slice xs written r) :
    r.drainFinal.1 = [] ∧ InStep slice xs written r.drainFinal.2 := by
  obtain ⟨-, -, hwraps, hmark⟩ := drainFinal_eq h.holds
  -- a slice that the mark makes final lies a generation before it
  obtain ⟨hout, hkept⟩ := drainFinal_of_pending h.holds fun x hx => by
    have hnot := (List.mem_filter.1 hx).2
    simp only [decide_eq_true_eq] at hnot
    rw [TimeSlice.le_def, TimeSlice.succWrap_wrap, TimeSlice.succWrap_buffer] at hnot
    rw [TimeSlice.finalizes_def]
    omega
  refine ⟨hout, ?_⟩
  constructor
  · exact h.sorted
  · rw [buffers_drainFinal]
    exact h.inRange
  · rw [hmark]
    exact h.written_eq
  · rw [hmark]
    exact hkept
  · rw [hmark, hwraps]
    rcases h.newest with ⟨hnil, hw, hm⟩ | ⟨hlast, hmem, hmax⟩
    · left
      rw [hw]
      exact ⟨hnil, rfl, hm⟩
    · right
      refine ⟨hlast, List.mem_filter.2 ⟨hmem, by simp⟩, ?_⟩
      intro w hw
      exact hmax w (List.mem_filter.1 hw).1

theorem InStep.mark_le (h : InStep slice xs written r) {s : TimeSlice}
    (hnext : xs ≠ [] → s = r.mark ∨ s = r.mark.succ r.store.buffers) : r.mark ≤ s := by
  rcases h.newest with ⟨-, -, hm⟩ | ⟨⟨x, hx, -⟩, -⟩
  · rw [hm, TimeSlice.le_def]
    dsimp only
    omega
  · have hne : xs ≠ [] := by
      rintro rfl
      cases hx
    rcases hnext hne with rfl | rfl
    · exact le_rfl
    · exact TimeSlice.le_succ _ _

theorem InStep.le_of_resident (h : InStep slice xs written r) {w : Nat}
    (hw : w ∈ r.store.wraps) : w ≤ r.mark.wrap := by
  rcases h.newest with ⟨-, hnil, -⟩ | ⟨-, -, hmax⟩
  · rw [hnil] at hw
    cases hw
  · exact hmax w hw

theorem InStep.filter_append_held (h : InStep slice xs written r) :
    (xs.filter fun x => (slice x).succWrap ≤ r.mark) ++
      (xs.filter fun x => ¬ (slice x).succWrap ≤ r.mark) = xs := by
  have hcut := filter_append_filter (p := (·.succWrap ≤ r.mark)) (q := fun _ => True) h.sorted
    (fun hst ht => le_trans (TimeSlice.succWrap_le_succWrap hst) ht) fun _ _ => trivial
  simpa using hcut

/-- What is left when the acquisition ends follows what has been written. -/
theorem InStep.written_append_finish (h : InStep slice xs written r) :
    written ++ r.finish.1 = xs := by
  rw [finish_eq h.holds, sortBySlice_of_pairwise (h.sorted.sublist List.filter_sublist),
    h.written_eq]
  exact h.filter_append_held

theorem InStep.tracks (h : InStep slice xs written r) :
    Tracks slice (xs.filter fun x => ¬ (slice x).succWrap ≤ r.mark) r := by
  rcases h.newest with ⟨-, hnil, hm⟩ | ⟨⟨x, hx, hxm⟩, hmem, -⟩
  · exact Or.inl ⟨hnil, hm⟩
  · right
    refine ⟨hmem, ⟨x, List.mem_filter.2 ⟨List.mem_of_getLast? hx, ?_⟩, hxm⟩, ?_⟩
    · rw [hxm]
      simpa using r.mark.lt_succWrap
    · intro y hy hyw
      have hle := h.le_mark y (List.mem_filter.1 hy).1
      rw [TimeSlice.le_def] at hle
      omega

/-- Items of the newest slice or of the next are accepted, and theirs becomes the mark. -/
theorem InStep.fileAll (h : InStep slice xs written r) {s : TimeSlice}
    (hb : s.buffer < r.store.buffers) {ys : List α} (hys : ∀ y ∈ ys, slice y = s)
    (hne : ys ≠ []) (hnext : xs ≠ [] → s = r.mark ∨ s = r.mark.succ r.store.buffers) :
    r.judged slice .accepted ys = ys ∧ (r.fileAll slice ys).mark = s ∧
      ∀ w ∈ (r.fileAll slice ys).store.wraps, w ≤ s.wrap := by
  have hle := h.mark_le hnext
  have hwrap_le := hle
  rw [TimeSlice.le_def] at hwrap_le
  have hnewest : s.wrap ∉ r.store.wraps ∧ r.mark.wrap ≤ s.wrap + 1 ∨
      s.wrap ∈ r.store.wraps ∧ r.mark.wrap = s.wrap := by
    by_cases hmem : s.wrap ∈ r.store.wraps
    · have := h.le_of_resident hmem
      exact Or.inr ⟨hmem, by omega⟩
    · exact Or.inl ⟨hmem, by omega⟩
  obtain ⟨hacc, hwrap, hwraps⟩ := fileAll_generation h.holds hnewest
    (fun y hy => by rw [hys y hy]; exact ⟨rfl, hb⟩) hne
  have hheld := holds_fileAll h.holds ys
  have htracks := tracks_fileAll h.holds h.tracks ys
  rw [hacc] at hheld htracks
  obtain ⟨⟨x, hx, hxm⟩, hmax⟩ :=
    htracks.of_ne_nil hheld (List.append_ne_nil_of_right_ne_nil _ hne)
  refine ⟨hacc, ?_, ?_⟩
  · have hupper : (r.fileAll slice ys).mark ≤ s := by
      rw [← hxm]
      rcases List.mem_append.1 hx with hx | hx
      · exact le_trans (h.le_mark x (List.mem_filter.1 hx).1) hle
      · rw [hys x hx]
    have hlower : s.buffer ≤ (r.fileAll slice ys).mark.buffer := by
      obtain ⟨y, hy⟩ := List.exists_mem_of_ne_nil ys hne
      have hyb := hmax y (List.mem_append_right _ hy) (by rw [hys y hy, hwrap])
      rw [hys y hy] at hyb
      exact hyb
    rw [TimeSlice.le_def] at hupper
    rw [TimeSlice.ext_iff]
    omega
  · intro w hw
    rcases hwraps w hw with rfl | hw
    · exact Nat.le_refl _
    · have := h.le_of_resident hw
      omega

theorem InStep.filter_finalizes (h : InStep slice xs written r) {s : TimeSlice} {ys : List α}
    (hys : ∀ y ∈ ys, slice y = s)
    (hnext : xs ≠ [] → s = r.mark ∨ s = r.mark.succ r.store.buffers) :
    let held := (xs.filter fun x => ¬ (slice x).succWrap ≤ r.mark) ++ ys
    (held.filter fun x => s.Finalizes (slice x)) =
        ((xs ++ ys).filter fun x => ¬ (slice x).succWrap ≤ r.mark ∧ (slice x).succWrap ≤ s) ∧
      (held.filter fun x => ¬ s.Finalizes (slice x)) =
        (xs ++ ys).filter fun x => ¬ (slice x).succWrap ≤ s := by
  have hle := h.mark_le hnext
  have hnew : ∀ y ∈ ys, ¬ (slice y).succWrap ≤ s := by
    intro y hy
    rw [hys y hy]
    exact not_le_of_gt s.lt_succWrap
  have hheld : (xs.filter fun x => ¬ (slice x).succWrap ≤ r.mark) ++ ys =
      (xs ++ ys).filter fun x => ¬ (slice x).succWrap ≤ r.mark := by
    have hall : ys.filter (fun x => ¬ (slice x).succWrap ≤ r.mark) = ys := by
      rw [List.filter_eq_self]
      intro y hy
      simpa using fun hm => hnew y hy (le_trans hm hle)
    rw [List.filter_append, hall]
  have hfinal : ∀ x ∈ xs ++ ys, ¬ (slice x).succWrap ≤ r.mark →
      (s.Finalizes (slice x) ↔ (slice x).succWrap ≤ s) := by
    intro x hx hm
    rcases List.mem_append.1 hx with hx | hx
    · exact finalizes_succ_iff (hnext (List.ne_nil_of_mem hx)) hm
    · have hself := hnew x hx
      rw [hys x hx] at hself ⊢
      refine iff_of_false ?_ hself
      rw [TimeSlice.finalizes_def]
      omega
  dsimp only
  rw [hheld, List.filter_filter, List.filter_filter]
  constructor
  · apply List.filter_congr
    intro x hx
    by_cases hm : (slice x).succWrap ≤ r.mark
    · simp [hm]
    · simp [hm, hfinal x hx hm]
  · apply List.filter_congr
    intro x hx
    by_cases hm : (slice x).succWrap ≤ r.mark
    · simp [hm, le_trans hm hle]
    · simp [hm, hfinal x hx hm]

theorem InStep.sorted_append (h : InStep slice xs written r) {s : TimeSlice} (hle : r.mark ≤ s)
    {ys : List α} (hys : ∀ y ∈ ys, slice y = s) :
    (xs ++ ys).Pairwise fun x y => slice x ≤ slice y := by
  rw [List.pairwise_append]
  refine ⟨h.sorted, List.pairwise_of_forall_mem_list fun x hx y hy => ?_, fun x hx y hy => ?_⟩
  · rw [hys x hx, hys y hy]
  · rw [hys y hy]
    exact le_trans (h.le_mark x hx) hle

/-- What was written before and what the next slice makes final is all a generation behind it. -/
theorem InStep.written_append (h : InStep slice xs written r) {s : TimeSlice} (hle : r.mark ≤ s)
    {ys : List α} (hys : ∀ y ∈ ys, slice y = s) :
    (written ++ (xs ++ ys).filter fun x =>
        ¬ (slice x).succWrap ≤ r.mark ∧ (slice x).succWrap ≤ s) =
      (xs ++ ys).filter fun x => (slice x).succWrap ≤ s := by
  have hnone : ys.filter (fun x => (slice x).succWrap ≤ r.mark) = [] := by
    rw [List.filter_eq_nil_iff]
    intro y hy
    rw [hys y hy]
    simpa using lt_of_le_of_lt hle s.lt_succWrap
  have hbefore : written = (xs ++ ys).filter fun x => (slice x).succWrap ≤ r.mark := by
    rw [List.filter_append, hnone, List.append_nil]
    exact h.written_eq
  rw [hbefore]
  exact filter_append_filter (p := (·.succWrap ≤ r.mark)) (q := (·.succWrap ≤ s))
    (h.sorted_append hle hys) (fun hst ht => le_trans (TimeSlice.succWrap_le_succWrap hst) ht)
    fun _ ht => le_trans ht hle

theorem InStep.deliver (h : InStep slice xs written r) {s : TimeSlice}
    (hb : s.buffer < r.store.buffers) {ys : List α} (hys : ∀ y ∈ ys, slice y = s)
    (hne : ys ≠ []) (hnext : xs ≠ [] → s = r.mark ∨ s = r.mark.succ r.store.buffers) :
    r.judged slice .accepted ys = ys ∧
      InStep slice (xs ++ ys) (written ++ (r.fileAll slice ys).drainFinal.1)
        (r.fileAll slice ys).drainFinal.2 := by
  have hle := h.mark_le hnext
  have hsorted := h.sorted_append hle hys
  obtain ⟨hacc, hmark, hwraps⟩ := h.fileAll hb hys hne hnext
  have hheld := holds_fileAll h.holds ys
  rw [hacc] at hheld
  obtain ⟨hout, hkept, hwraps', hmark'⟩ := drainFinal_eq hheld
  obtain ⟨hfinal, hrest⟩ := h.filter_finalizes hys hnext
  rw [hmark, hfinal, sortBySlice_of_pairwise (hsorted.sublist List.filter_sublist)] at hout
  rw [hmark, hrest] at hkept
  rw [hmark] at hwraps' hmark'
  refine ⟨hacc, ?_⟩
  constructor
  · exact hsorted
  · rw [buffers_drainFinal, buffers_fileAll h.holds]
    intro x hx
    rcases List.mem_append.1 hx with hx | hx
    · exact h.inRange x hx
    · rw [hys x hx]
      exact hb
  · rw [hmark', hout]
    exact h.written_append hle hys
  · rw [hmark']
    exact hkept
  · right
    rw [hmark', hwraps']
    have hlast := List.getLast_mem hne
    refine ⟨⟨ys.getLast hne, ?_, hys _ hlast⟩, List.mem_filter.2 ⟨?_, by simp⟩, ?_⟩
    · rw [List.getLast?_append, List.getLast?_eq_some_getLast hne]
      rfl
    · have hres := (hheld.resident_of_mem (List.mem_append_right _ hlast)).1
      rw [hys _ hlast] at hres
      exact hres
    · exact fun w hw => hwraps w (List.mem_filter.1 hw).1

end Reassembly

theorem eq_nil_of_perm_append {α : Type} {xs ys zs : List α} (h : (xs ++ ys ++ zs).Perm xs) :
    ys = [] ∧ zs = [] := by
  have hlen := h.length_eq
  simp only [List.length_append] at hlen
  have hys : ys.length = 0 := by omega
  have hzs : zs.length = 0 := by omega
  exact ⟨List.length_eq_zero_iff.1 hys, List.length_eq_zero_iff.1 hzs⟩

/-- Standard frames, each with packets of one slice, that of the frame before it or the next one. -/
structure InOrder (c : Config) (calls : List Call) : Prop where
  slotOrder : ∀ call ∈ calls, ∃ bytes, call = .feed .slotOrder bytes
  standard : ∀ call ∈ calls, call.Standard c
  oneSlice : ∀ call ∈ calls, ∀ j ∈ call.jobs c, ∀ k ∈ call.jobs c, j.slice = k.slice
  inRange : ∀ j, (calls.flatMap (Call.jobs c)).head? = some j → j.slice.buffer < c.sliceBuffers
  consecutive : ((calls.flatMap (Call.jobs c)).map Job.slice).IsChain fun s t =>
    t = s ∨ t = s.succ c.sliceBuffers

theorem InOrder.of_append {c : Config} {calls calls' : List Call}
    (h : InOrder c (calls ++ calls')) : InOrder c calls where
  slotOrder call hcall := h.slotOrder call (List.mem_append_left _ hcall)
  standard call hcall := h.standard call (List.mem_append_left _ hcall)
  oneSlice call hcall := h.oneSlice call (List.mem_append_left _ hcall)
  inRange j hj := h.inRange j (by rw [List.flatMap_append, List.head?_append, hj]; rfl)
  consecutive := by
    have hall := h.consecutive
    rw [List.flatMap_append, List.map_append] at hall
    exact hall.left_of_append

namespace Assembler

/-- The frame that comes next carries the newest slice or the one after it. -/
theorem next_slice {c : Config} {calls : List Call} {call : Call}
    (h : InOrder c (calls ++ [call])) (hpos : 0 < c.sliceBuffers) {r : Reassembly Job}
    {written : List Job} (hr : r.InStep Job.slice (calls.flatMap (Call.jobs c)) written)
    (hbuf : r.store.buffers = c.sliceBuffers) {j : Job} {rest : List Job}
    (hj : call.jobs c = j :: rest) :
    j.slice.buffer < r.store.buffers ∧ (calls.flatMap (Call.jobs c) ≠ [] →
      j.slice = r.mark ∨ j.slice = r.mark.succ r.store.buffers) := by
  have harrivals : (calls ++ [call]).flatMap (Call.jobs c) =
      calls.flatMap (Call.jobs c) ++ j :: rest := by
    rw [List.flatMap_append, List.flatMap_singleton, hj]
  have hchain := h.consecutive
  have hfirst := h.inRange
  rw [harrivals] at hchain hfirst
  rw [List.map_append, List.isChain_append] at hchain
  rw [hbuf]
  rcases hr.newest with ⟨hnil, -, -⟩ | ⟨⟨x, hx, hxm⟩, -, -⟩
  · rw [hnil] at hfirst ⊢
    exact ⟨hfirst j rfl, fun hne => absurd rfl hne⟩
  · have hstep : j.slice = r.mark ∨ j.slice = r.mark.succ c.sliceBuffers := by
      rw [← hxm]
      exact hchain.2.2 x.slice (by rw [List.getLast?_map, hx]; rfl) j.slice rfl
    have hlast := hr.inRange x (List.mem_of_getLast? hx)
    rw [hxm, hbuf] at hlast
    refine ⟨?_, fun _ => hstep⟩
    rcases hstep with heq | heq
    · rw [heq]
      exact hlast
    · rw [heq]
      unfold TimeSlice.succ
      split <;> assumption

theorem run_inStep {c : Config} {a : Assembler} (ha : a.Ready c) {calls : List Call}
    (h : InOrder c calls) :
    (a.run calls).2.reassembly.InStep Job.slice (calls.flatMap (Call.jobs c))
        (a.run calls).1.written ∧
      (a.run calls).1.stale = [] ∧ (a.run calls).1.outOfRange = [] := by
  induction calls using List.reverseRecOn with
  | nil =>
    refine ⟨?_, rfl, rfl⟩
    change a.reassembly.InStep Job.slice [] []
    rw [ha.reassembly_eq.1]
    exact Reassembly.inStep_start _
  | append_singleton calls call ih =>
    obtain ⟨hstep, hstale, hout⟩ := ih h.of_append
    obtain ⟨-, hc⟩ := run_spec ha.reachable.consistent calls
    obtain ⟨bytes, rfl⟩ := h.slotOrder call (by simp)
    have hstandard := h.standard (.feed .slotOrder bytes) (by simp)
    rw [run_append, run_singleton, List.flatMap_append, List.flatMap_singleton]
    generalize (a.run calls).2 = b at *
    generalize (a.run calls).1 = report at *
    obtain ⟨-, hst, ho, hw, hr⟩ := (step_spec hc (.feed .slotOrder bytes)).1.of_standard hstandard
    rw [Call.results_slotOrder] at hst ho hw hr
    rw [Report.written_append, Report.stale_append, Report.outOfRange_append, hstale, hout, hw,
      hr, hst, ho, List.nil_append, List.nil_append]
    cases hys : (Call.feed .slotOrder bytes).jobs c with
    | nil =>
      obtain ⟨hnone, hkept⟩ := hstep.drainFinal
      rw [List.append_nil]
      refine ⟨?_, rfl, rfl⟩
      change Reassembly.InStep Job.slice _ (report.written ++ b.reassembly.drainFinal.1)
        b.reassembly.drainFinal.2
      rw [hnone, List.append_nil]
      exact hkept
    | cons j rest =>
      obtain ⟨hb, hnext⟩ := next_slice h hc.valid.sliceBuffers_pos hstep hc.buffers hys
      have hone := h.oneSlice (.feed .slotOrder bytes) (by simp)
      rw [hys] at hone
      obtain ⟨hall, hdelivered⟩ := hstep.deliver hb
        (fun k hk => hone k hk j (by simp)) (List.cons_ne_nil j rest) hnext
      have hjudged := Reassembly.judged_perm Job.slice b.reassembly (j :: rest)
      rw [hall] at hjudged
      exact ⟨hdelivered, eq_nil_of_perm_append hjudged⟩

/-- In order of slices, everything is written in order of arrival and one generation late. -/
theorem run_in_order {c : Config} {a : Assembler} (ha : a.Ready c) {calls : List Call}
    (h : InOrder c calls) :
    let arrivals := calls.flatMap (Call.jobs c)
    let report := (a.run calls).1
    let b := (a.run calls).2
    (∀ last, arrivals.getLast? = some last →
        report.written = arrivals.filter fun j => j.slice.succWrap ≤ last.slice) ∧
      Columns.ofFrames report.frames ++ b.outputs.pending =
        Columns.ofEvents (report.written.flatMap Job.events) ∧
      report.stale = [] ∧ report.outOfRange = [] ∧
      b.counts.stalePackets = a.counts.stalePackets ∧
      b.counts.invalidPackets = a.counts.invalidPackets ∧
      ∀ idle : Call, idle.Closing c →
        (a.run (calls ++ [idle])).1.written = arrivals ∧
          Columns.ofFrames (a.run (calls ++ [idle])).1.frames =
            Columns.ofEvents (arrivals.flatMap Job.events) := by
  have hc := ha.reachable.consistent
  obtain ⟨hr, hp⟩ := ha.reassembly_eq
  obtain ⟨hstep, hstale, hout⟩ := run_inStep ha h
  obtain ⟨haccounted, hb⟩ := run_spec hc calls
  have hcolumns := haccounted.columns
  have hstales := haccounted.stalePackets
  have hinvalids := haccounted.invalidPackets
  rw [hp, Columns.nil_append] at hcolumns
  rw [hstale, List.length_nil, Nat.add_zero] at hstales
  rw [hout, List.length_nil, Nat.add_zero] at hinvalids
  refine ⟨?_, hcolumns, hstale, hout, hstales, hinvalids, ?_⟩
  · intro last hlast
    rcases hstep.newest with ⟨hnil, -, -⟩ | ⟨⟨x, hx, hxm⟩, -, -⟩
    · rw [hnil] at hlast
      cases hlast
    · rw [hlast, Option.some.injEq] at hx
      rw [hx, hxm]
      exact hstep.written_eq
  · intro idle hidle
    obtain ⟨hall, -⟩ := run_spec hc (calls ++ [idle])
    have hempty := (step_closing hb hidle).2
    have hwritten : (a.run (calls ++ [idle])).1.written = calls.flatMap (Call.jobs c) := by
      rw [run_append, run_singleton, Report.written_append]
      obtain ⟨hw, -, -⟩ := (step_spec hb idle).1.of_closing hidle
      rw [hw, Reassembly.finish_eq hstep.holds]
      rw [sortBySlice_of_pairwise (hstep.sorted.sublist List.filter_sublist), hstep.written_eq]
      exact hstep.filter_append_held
    refine ⟨hwritten, ?_⟩
    have hframes := hall.columns
    rw [hp, Columns.nil_append, hwritten, run_append, run_singleton] at hframes
    rw [run_append, run_singleton]
    rw [hempty, Columns.append_nil] at hframes
    exact hframes

theorem in_order_across_generations :
    ∃ a, ofConfig .small = .ok a ∧
      let calls := [Call.sample [⟨0, 1⟩, ⟨0, 1⟩], .sample [], .sample [⟨1, 0⟩], .sample [⟨1, 1⟩]]
      InOrder .small calls ∧
        (a.run calls).1.written.map Job.slice = [⟨0, 1⟩, ⟨0, 1⟩] ∧
        (a.run (calls ++ [.idle])).1.written = calls.flatMap (Call.jobs .small) := by
  have horder : InOrder .small
      [.sample [⟨0, 1⟩, ⟨0, 1⟩], .sample [], .sample [⟨1, 0⟩], .sample [⟨1, 1⟩]] := by
    refine ⟨?_, by decide +kernel, by decide +kernel, by decide +kernel, by decide +kernel⟩
    intro call hcall
    simp only [List.mem_cons, List.not_mem_nil, or_false] at hcall
    rcases hcall with rfl | rfl | rfl | rfl <;> exact ⟨_, rfl⟩
  refine ⟨_, rfl, horder, by decide +kernel, ?_⟩
  exact ((run_in_order (.start rfl) horder).2.2.2.2.2.2 .idle (by decide +kernel)).1

end Assembler
end EventReadout
