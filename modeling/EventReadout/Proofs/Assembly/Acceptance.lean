import EventReadout.Proofs.Assembly.Run
import EventReadout.Proofs.Frame.Slots

/-!
Which bytes are taken in as a frame.

Their length decides, and nothing else: bytes that are refused leave no trace, and a frame that is
taken in can be read slot by slot, whatever the slots contain.
-/
namespace EventReadout

/-- The valid slots whose packets name a buffer that the generations lack. -/
def Frame.misfitSlots (c : Config) (bytes : Bytes) : List Nat :=
  (List.range c.packetSlots).filter fun slot =>
    validFlag bytes slot && decide (c.sliceBuffers ≤ (slotHeader c bytes slot).buffer.toNat)

namespace Assembler

variable {c : Config} {a : Assembler} {arrangement : Arrangement} {bytes : Bytes}

theorem respond_feed_of_error (h : a.config = c) {cause : DecodeError}
    (hf : Frame.parse c bytes = .error cause) :
    a.respond (.feed arrangement bytes) = (.error (.decode cause), a) := by
  simp only [respond, feedWith, handle, h, hf]

theorem respond_feed_of_ok (h : a.config = c) {f : Frame} (hf : Frame.parse c bytes = .ok f) :
    a.respond (.feed arrangement bytes) =
      (.ok (a.feedFrame arrangement.order f).1, (a.feedFrame arrangement.order f).2) := by
  simp only [respond, feedWith, handle, h, hf]

/-- Bytes that are too short to be a frame are refused with the length that they should have. -/
theorem respond_feed_eq_error_iff (h : a.config = c) {cause : ProcessError} :
    (a.respond (.feed arrangement bytes)).1 = .error cause ↔
      bytes.length < Frame.requiredBytes c bytes ∧
        cause = .decode (.fault (.shortFrame (Frame.requiredBytes c bytes) bytes.length)) := by
  cases hf : Frame.parse c bytes with
  | error parseCause =>
    obtain ⟨hshort, rfl⟩ := Frame.parse_eq_error_iff.1 hf
    rw [respond_feed_of_error h hf, Except.error.injEq, eq_comm]
    simp [hshort]
  | ok f =>
    have hlong : ¬ bytes.length < Frame.requiredBytes c bytes := fun hshort => by
      rw [Frame.parse_of_short hshort] at hf
      cases hf
    rw [respond_feed_of_ok h hf]
    simp [hlong]

theorem Effect.of_not_standard {b : Assembler} {call : Call} {report : Report}
    (h : Effect c a call report b) (hcall : ¬ call.Standard c) :
    report.accepted = [] ∧ report.stale = [] ∧ report.outOfRange = [] := by
  cases h with
  | quiet _ _ hjobs => exact hjobs
  | closing _ hjobs => exact hjobs
  | standard hs => exact absurd hs hcall

theorem outOfRange_length (ha : a.Consistent c) {f : Frame} (hf : Frame.parse c bytes = .ok f)
    (hidle : f.idle = false) :
    (a.step (.feed arrangement bytes)).1.outOfRange.length =
      (Frame.misfitSlots c bytes).length := by
  obtain ⟨js, hjs⟩ := ha.holds
  have hframe := Call.frame?_feed arrangement hf
  obtain ⟨-, -, hout, -, -⟩ := (step_spec ha (.feed arrangement bytes)).1.of_standard
    ⟨f, hframe, hidle⟩
  have hperm := Call.results_perm c (.feed arrangement bytes)
  rw [Call.jobs_of_frame hframe hidle, Frame.jobs_eq ha.valid hf hidle, List.map_map] at hperm
  rw [hout, Reassembly.judged_outOfRange hjs, (hperm.filter _).length_eq, List.filter_map,
    List.length_map, List.filter_filter, ha.buffers, Frame.misfitSlots]
  congr 1
  apply List.filter_congr
  intro slot _
  exact Bool.and_comm _ _

theorem invalidPackets_of_idle (ha : a.Consistent c) {f : Frame} (hf : Frame.parse c bytes = .ok f)
    (hidle : f.idle = true) :
    (a.step (.feed arrangement bytes)).2.counts.invalidPackets = a.counts.invalidPackets := by
  obtain ⟨heffect, hcounted, -⟩ := step_spec ha (.feed arrangement bytes)
  have hnot := Call.not_standard_of_closing ⟨f, Call.frame?_feed arrangement hf, hidle⟩
  rw [hcounted.invalidPackets, (heffect.of_not_standard hnot).2.2]
  rfl

theorem invalidPackets_of_standard (ha : a.Consistent c) {f : Frame}
    (hf : Frame.parse c bytes = .ok f) (hidle : f.idle = false) :
    (a.step (.feed arrangement bytes)).2.counts.invalidPackets =
      a.counts.invalidPackets + (Frame.misfitSlots c bytes).length := by
  obtain ⟨-, hcounted, -⟩ := step_spec ha (.feed arrangement bytes)
  rw [hcounted.invalidPackets, outOfRange_length ha hf hidle]

end Assembler
end EventReadout
