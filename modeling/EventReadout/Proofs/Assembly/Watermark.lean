import EventReadout.Proofs.Assembly.Run
import EventReadout.Proofs.Slice.Mark
import Mathlib.Order.Bounds.Defs

/-!
The mark of a reassembly between two calls.

While a frame is filed the mark is the newest slice held of its own generation; draining then
removes what the mark makes final and leaves that slice in place.
-/
namespace EventReadout

namespace Reassembly

variable {α : Type} {slice : α → TimeSlice} {r : Reassembly α} {xs : List α}

/-- What holds between two calls when a generation has `buffers` buffers. -/
structure Settled (slice : α → TimeSlice) (buffers : Nat) (r : Reassembly α) : Prop where
  mark : r.store.residents = [] ∧ r.mark = {} ∨
    ∃ g, r.store.generation? r.mark.wrap = some g ∧ IsGreatest {b | g.bucket b ≠ []} r.mark.buffer
  recent : ∀ w ∈ r.store.wraps, r.mark.wrap - 1 ≤ w
  filed : ∀ w g, (w, g) ∈ r.store.residents → ∀ b, ∀ x ∈ g.bucket b, slice x = ⟨w, b⟩ ∧ b < buffers
  drained : 0 < r.mark.wrap → ∀ g, r.store.generation? (r.mark.wrap - 1) = some g →
    g.bucket r.mark.buffer = []

theorem Settled.tracks {buffers : Nat} (hr : Settled slice buffers r)
    (h : r.store.Holds slice xs) : Tracks slice xs r := by
  rcases hr.mark with ⟨hnil, hmark⟩ | ⟨g, hg, hne, hmax⟩
  · left
    rw [SliceStore.wraps, hnil]
    exact ⟨rfl, hmark⟩
  · right
    refine ⟨SliceStore.mem_wraps_of_generation? hg, ?_, ?_⟩
    · obtain ⟨x, hx⟩ := List.exists_mem_of_ne_nil _ hne
      rw [h.bucket_eq hg] at hx
      have hx := List.mem_filter.1 hx
      exact ⟨x, hx.1, by simpa using hx.2⟩
    · intro x hx hxw
      apply hmax
      intro hempty
      rw [h.bucket_eq hg, List.filter_eq_nil_iff] at hempty
      have hslice : slice x = ⟨r.mark.wrap, (slice x).buffer⟩ := by rw [← hxw]
      exact hempty x hx (by simpa using hslice)

theorem Settled.mark_wrap_le {buffers : Nat} (hr : Settled slice buffers r) :
    ∀ w ∈ r.store.wraps, r.mark.wrap ≤ w + 1 := by
  intro w hw
  have := hr.recent w hw
  omega

/-- Draining leaves the newest slice of the mark's generation in place. -/
theorem isGreatest_drainFinal (h : r.store.Holds slice xs) (hmem : r.mark.wrap ∈ r.store.wraps)
    {x : α} (hx : x ∈ xs) (hxm : slice x = r.mark)
    (hmax : ∀ y ∈ xs, (slice y).wrap = r.mark.wrap → (slice y).buffer ≤ r.mark.buffer) :
    ∃ g, r.drainFinal.2.store.generation? r.mark.wrap = some g ∧
      IsGreatest {b | g.bucket b ≠ []} r.mark.buffer := by
  obtain ⟨-, hkept, hwraps, -⟩ := drainFinal_eq h
  have hres : r.mark.wrap ∈ r.drainFinal.2.store.wraps := by
    rw [hwraps]
    simpa using hmem
  obtain ⟨g, hg⟩ := SliceStore.exists_generation? hres
  refine ⟨g, hg, ?_, ?_⟩
  · -- nothing makes its own slice final
    have hnot : ¬ r.mark.Finalizes (slice x) := by
      rw [hxm, TimeSlice.finalizes_def]
      omega
    have hkeep : x ∈ xs.filter fun x => ¬ r.mark.Finalizes (slice x) :=
      List.mem_filter.2 ⟨hx, by simpa using hnot⟩
    apply List.ne_nil_of_mem (a := x)
    rw [hkept.bucket_eq hg]
    exact List.mem_filter.2 ⟨hkeep, by simpa using hxm⟩
  · intro b hb
    obtain ⟨y, hy⟩ := List.exists_mem_of_ne_nil _ hb
    rw [hkept.bucket_eq hg] at hy
    have hy := List.mem_filter.1 hy
    have hslice : slice y = ⟨r.mark.wrap, b⟩ := by simpa using hy.2
    have hle := hmax y (List.mem_filter.1 hy.1).1 (by rw [hslice])
    rw [hslice] at hle
    exact hle

theorem settled_drainFinal (h : r.store.Holds slice xs) (ht : Tracks slice xs r) :
    Settled slice r.store.buffers r.drainFinal.2 := by
  obtain ⟨-, hkept, hwraps, hmark⟩ := drainFinal_eq h
  have hbuf := buffers_drainFinal r
  constructor
  · rw [hmark]
    rcases ht with ⟨hnil, hzero⟩ | ⟨hmem, ⟨x, hx, hxm⟩, hmax⟩
    · left
      rw [hnil] at hwraps
      exact ⟨List.map_eq_nil_iff.1 hwraps, hzero⟩
    · right
      exact isGreatest_drainFinal h hmem hx hxm hmax
  · intro w hw
    rw [hwraps] at hw
    have hlt := (List.mem_filter.1 hw).2
    rw [hmark]
    simp only [decide_eq_true_eq] at hlt
    omega
  · intro w g hg b x hx
    rw [hkept.bucket_eq (hkept.generation?_of_mem hg)] at hx
    have hslice : slice x = ⟨w, b⟩ := by simpa using (List.mem_filter.1 hx).2
    have hlt := (hkept.resident_of_mem (List.mem_filter.1 hx).1).2
    rw [hslice, hbuf] at hlt
    exact ⟨hslice, hlt⟩
  · intro hpos g hg
    rw [hmark] at hpos hg ⊢
    rw [hkept.bucket_eq hg, List.filter_filter, List.filter_eq_nil_iff]
    intro x _ hx
    simp only [Bool.and_eq_true, decide_eq_true_eq, TimeSlice.finalizes_def] at hx
    rw [hx.1] at hx
    dsimp only at hx
    omega

theorem settled_start (buffers : Nat) :
    Settled slice buffers ({ store := { buffers } } : Reassembly α) where
  mark := Or.inl ⟨rfl, rfl⟩
  recent w hw := by cases hw
  filed w g hg := by cases hg
  drained hpos := by cases hpos

end Reassembly

namespace Assembler

theorem Effect.settled {c : Config} {a b : Assembler} {call : Call} {report : Report}
    (h : Effect c a call report b) (ha : a.Consistent c)
    (hr : a.reassembly.Settled Job.slice c.sliceBuffers) :
    b.reassembly.Settled Job.slice c.sliceBuffers := by
  obtain ⟨js, hjs⟩ := ha.holds
  cases h with
  | quiet _ _ _ _ hb =>
    rw [hb]
    exact hr
  | closing _ _ _ hb _ =>
    rw [hb, Reassembly.finish_eq hjs, ← ha.buffers]
    exact Reassembly.settled_start _
  | standard _ _ _ _ _ hb =>
    have htracks := Reassembly.tracks_fileAll hjs (hr.tracks hjs) (call.results c)
    have hsettled := Reassembly.settled_drainFinal
      (Reassembly.holds_fileAll hjs (call.results c)) htracks
    rw [Reassembly.buffers_fileAll hjs, ha.buffers] at hsettled
    rw [hb]
    exact hsettled

/-- The reassembly is settled between any two calls. -/
theorem Reachable.reassembly_settled {c : Config} {a : Assembler} (h : a.Reachable c) :
    a.reassembly.Settled Job.slice c.sliceBuffers := by
  induction h with
  | start h =>
    rw [(consistent_ofConfig h).2.1]
    exact Reassembly.settled_start _
  | step h call ih => exact (step_spec h.consistent call).1.settled h.consistent ih

theorem settled_after_late_packet :
    ∃ a, ofConfig .small = .ok a ∧
      let b := ((a.step (.sample [⟨5, 1⟩, ⟨4, 0⟩])).2.step (.sample [⟨4, 1⟩])).2
      b.reassembly.mark = ⟨4, 1⟩ ∧ b.reassembly.Settled Job.slice 2 := by
  refine ⟨_, rfl, by decide +kernel, ?_⟩
  have hfirst := (Reachable.start (c := .small) rfl).step (.sample [⟨5, 1⟩, ⟨4, 0⟩])
  exact (hfirst.step _).reassembly_settled

end Assembler
end EventReadout
