import EventReadout.Proofs.Assembly.Acquisition

/-!
How far the mark can fall back inside an acquisition, and how many generations that leaves resident.

A late packet of the generation before the mark, if that is not resident, takes the mark with it.
Nothing of the kind happens as long as generations first appear in ascending order.
-/
namespace EventReadout
namespace Assembler

variable {c : Config} {a b : Assembler} {call : Call} {calls : List Call}

theorem Effect.mark_le_iff {report : Report} (h : Effect c a call report b)
    (hcall : ¬ call.Closing c) (ha : a.Consistent c)
    (hsettled : a.reassembly.Settled Job.slice c.sliceBuffers) :
    a.reassembly.mark ≤ b.reassembly.mark ↔
      ∀ j, (newcomers Job.slice a.residents report.accepted).getLast? = some j →
        a.reassembly.mark.wrap ≤ j.slice.wrap := by
  obtain ⟨js, hjs⟩ := ha.holds
  cases h with
  | quiet _ _ hjobs _ hb =>
    rw [hjobs.1, hb]
    refine iff_of_true le_rfl ?_
    intro j hj
    cases hj
  | closing hc => exact absurd hc hcall
  | standard _ hacc _ _ _ hb =>
    have hheld := Reassembly.holds_fileAll hjs (call.results c)
    rw [hacc, hb, (Reassembly.drainFinal_eq hheld).2.2.2]
    exact Reassembly.mark_le_fileAll_iff hjs (hsettled.tracks hjs) _

/-- Packets far behind the newest one come in exactly if one of them opens its generation. -/
theorem accepted_recent_iff (ha : a.reassembly.Settled Job.slice c.sliceBuffers) {ys zs : List Job}
    (hfollows : a.reassembly.Follows Job.slice ys)
    (hnewest : ∀ j ∈ ys, j.slice.wrap ≤ a.reassembly.mark.wrap) :
    (∀ j ∈ ys, ∀ k ∈ zs, j.slice.wrap ≤ k.slice.wrap + 1) ↔
      ∀ k ∈ newcomers Job.slice a.residents zs, a.reassembly.mark.wrap ≤ k.slice.wrap + 1 := by
  constructor
  · intro hrecent k hk
    have hkz := (mem_of_mem_newcomers hk).1
    rcases hfollows.marked with hzero | ⟨j, hj, hjm⟩
    · rw [hzero]
      exact Nat.zero_le _
    · rw [← hjm]
      exact hrecent j hj k hkz
  · intro hopened j hj k hk
    have hjm := hnewest j hj
    by_cases hres : k.slice.wrap ∈ a.residents
    · have := ha.mark_wrap_le _ hres
      omega
    · obtain ⟨i, hi, hik⟩ := exists_newcomer hk hres
      have := hopened i hi
      omega

/--
A frame lets the mark fall exactly if the generation that it opens last is older than the mark.

While generations first appear in ascending order it never falls, and later frames bring nothing
more than one generation older than what was accepted before.
-/
theorem mark_le_step_iff (h : Underway c a calls) (hcall : ¬ call.Closing c) :
    let before := (a.run calls).2
    let earlier := (a.run calls).1.accepted
    let after := (before.step call).2
    let accepted := (before.step call).1.accepted
    let opened := newcomers Job.slice before.residents accepted
    let recent := ∀ j ∈ earlier, ∀ k ∈ accepted, j.slice.wrap ≤ k.slice.wrap + 1
    (before.reassembly.mark ≤ after.reassembly.mark ↔
        ∀ j, opened.getLast? = some j → before.reassembly.mark.wrap ≤ j.slice.wrap) ∧
      ((∀ j ∈ earlier, j.slice.wrap ≤ before.reassembly.mark.wrap) →
        (recent ↔ ∀ k ∈ opened, before.reassembly.mark.wrap ≤ k.slice.wrap + 1)) ∧
      (InSequence Job.slice (earlier ++ accepted) →
        before.reassembly.mark ≤ after.reassembly.mark ∧ recent) := by
  have hreach := h.ready.reachable.run calls
  have hsettled := hreach.reassembly_settled
  have heffect := (step_spec hreach.consistent call).1
  dsimp only
  refine ⟨heffect.mark_le_iff hcall hreach.consistent hsettled,
    accepted_recent_iff hsettled h.follows, fun hseq => ?_⟩
  have hleads := h.leads hseq.of_append
  obtain ⟨-, hmark, hrecent⟩ :=
    heffect.leads hcall hreach.consistent hsettled h.follows hleads hseq
  refine ⟨hmark, fun j hj k hk => ?_⟩
  have := hleads.newest j hj
  have := hrecent k hk
  omega

/-- A late packet of an absent generation takes the mark back, and then an older one is let in. -/
theorem mark_falls_to_late_generation :
    ∃ a, ofConfig .small = .ok a ∧
      let late := Call.sample [⟨4, 0⟩]
      let later := Call.sample [⟨3, 0⟩]
      let before := a.run [.sample [⟨5, 1⟩]]
      let out := before.2.step late
      Underway .small a [.sample [⟨5, 1⟩], late, later] ∧
        before.2.reassembly.mark = ⟨5, 1⟩ ∧ out.2.reassembly.mark = ⟨4, 0⟩ ∧
        ¬ before.2.reassembly.mark ≤ out.2.reassembly.mark ∧
        before.1.accepted.map Job.slice = [⟨5, 1⟩] ∧
        (out.2.step later).1.accepted.map Job.slice = [⟨3, 0⟩] :=
  ⟨_, rfl, ⟨.start rfl, by decide +kernel⟩, by decide +kernel⟩

theorem mark_advances_in_sequence :
    ∃ a, ofConfig .small = .ok a ∧
      let before := a.run [.sample [⟨4, 1⟩, ⟨5, 0⟩]]
      let out := before.2.step (.sample [⟨7, 1⟩, ⟨5, 1⟩])
      out.1.accepted.map Job.slice = [⟨7, 1⟩, ⟨5, 1⟩] ∧
        before.2.reassembly.mark ≤ out.2.reassembly.mark ∧
        ∀ j ∈ before.1.accepted, ∀ k ∈ out.1.accepted, j.slice.wrap ≤ k.slice.wrap + 1 := by
  refine ⟨_, rfl, by decide +kernel, ?_⟩
  have hunder : Underway .small _ [.sample [⟨4, 1⟩, ⟨5, 0⟩]] := ⟨.start rfl, by decide +kernel⟩
  have hcall : ¬ (Call.sample [⟨7, 1⟩, ⟨5, 1⟩]).Closing .small := by decide +kernel
  exact (mark_le_step_iff hunder hcall).2.2 (by decide +kernel)

/--
Resident are the generations from the mark up to the newest one accepted, and perhaps the one before
the mark; so no more than these two exactly if no packet accepted is of a newer generation.
-/
theorem residents_bounded_iff (h : Underway c a calls) :
    let b := (a.run calls).2
    let accepted := (a.run calls).1.accepted
    let mark := b.reassembly.mark
    (∀ w ∈ b.residents, mark.wrap ≤ w + 1) ∧
      (∀ w, mark.wrap ≤ w → (w ∈ b.residents ↔ ∃ j ∈ accepted, w ≤ j.slice.wrap)) ∧
      (b.residents.length ≤ 2 ∧ (∀ w ∈ b.residents, w = mark.wrap ∨ w + 1 = mark.wrap) ↔
        ∀ j ∈ accepted, j.slice.wrap ≤ mark.wrap) ∧
      (InSequence Job.slice accepted → ∀ j ∈ accepted, j.slice.wrap ≤ mark.wrap) := by
  have hreach := h.ready.reachable.run calls
  obtain ⟨js, hjs⟩ := hreach.consistent.holds
  have hspans := h.follows.spans
  have hrecent : ∀ w ∈ (a.run calls).2.residents,
      (a.run calls).2.reassembly.mark.wrap ≤ w + 1 := hreach.reassembly_settled.mark_wrap_le
  dsimp only
  refine ⟨hrecent, hspans, ⟨?_, ?_⟩, fun hseq => (h.leads hseq).newest⟩
  · rintro ⟨-, htwo⟩ j hj
    by_contra hlt
    have hmem := (hspans j.slice.wrap (by omega)).2 ⟨j, hj, Nat.le_refl _⟩
    have := htwo _ hmem
    omega
  · intro hnewest
    have htwo : ∀ w ∈ (a.run calls).2.residents, w = (a.run calls).2.reassembly.mark.wrap ∨
        w + 1 = (a.run calls).2.reassembly.mark.wrap := by
      intro w hw
      have := hrecent w hw
      by_cases hmark : (a.run calls).2.reassembly.mark.wrap ≤ w
      · obtain ⟨j, hj, hwj⟩ := (hspans w hmark).1 hw
        have := hnewest j hj
        omega
      · omega
    exact ⟨Reassembly.wraps_length_le_two hjs htwo, htwo⟩

/-- Late generations, one further back with each frame, stay resident one and all. -/
theorem residents_accumulate :
    ∃ a, ofConfig .small = .ok a ∧
      let calls := [Call.sample [⟨5, 1⟩], .sample [⟨4, 0⟩], .sample [⟨3, 0⟩]]
      let b := (a.run calls).2
      Underway .small a calls ∧ b.residents = [3, 4, 5] ∧ b.reassembly.mark = ⟨3, 0⟩ ∧
        ¬ b.residents.length ≤ 2 ∧
        ¬ ∀ w ∈ b.residents, w = b.reassembly.mark.wrap ∨ w + 1 = b.reassembly.mark.wrap :=
  ⟨_, rfl, ⟨.start rfl, by decide +kernel⟩, by decide +kernel⟩

theorem residents_bounded_in_sequence :
    ∃ a, ofConfig .small = .ok a ∧
      let b := (a.run [.sample [⟨3, 0⟩, ⟨4, 1⟩], .sample [⟨5, 0⟩, ⟨4, 0⟩]]).2
      b.residents = [4, 5] ∧ b.residents.length ≤ 2 ∧
        ∀ w ∈ b.residents, w = b.reassembly.mark.wrap ∨ w + 1 = b.reassembly.mark.wrap := by
  refine ⟨_, rfl, by decide +kernel, ?_⟩
  have hunder : Underway .small _ [.sample [⟨3, 0⟩, ⟨4, 1⟩], .sample [⟨5, 0⟩, ⟨4, 0⟩]] :=
    ⟨.start rfl, by decide +kernel⟩
  obtain ⟨-, -, hiff, hnewest⟩ := residents_bounded_iff hunder
  exact hiff.2 (hnewest (by decide +kernel))

end Assembler
end EventReadout
