import EventReadout.Proofs.Assembly.Ledger
import Std.Data.String.ToNat

/-!
The log of a call against the counters.

Each stage of a frame gives notice of what it counts: the intake of claims that it cuts down and of
a pool that grows, the decoding of each job, the filing of each job that is turned away. Together
the notices of a call are told, up to their order, from how much it adds to each counter. In the log
they are known by their level and by how their texts begin.
-/
namespace EventReadout

/-- A text without the numbers in it. -/
def wording (text : String) : List Char := text.toList.filter (!·.isDigit)

section Wording

theorem toString_text (text : String) : toString text = text := rfl

theorem wording_append (text rest : String) :
    wording (text ++ rest) = wording text ++ wording rest := by
  rw [wording, String.toList_append, List.filter_append]
  rfl

theorem wording_toString (n : Nat) : wording (toString n) = [] := by
  change n.repr.toList.filter _ = []
  rw [List.filter_eq_nil_iff, Nat.toList_repr]
  intro c hc
  rw [Nat.isDigit_of_mem_toDigits (by decide) (by decide) hc]
  decide

end Wording

/-- What a notice is about, without the details. -/
inductive Topic
  | workersStarted
  | processConfigured
  | headerUnreadable
  | payloadClamped
  | payloadUnreadable
  | poolGrown
  | malformedStart
  | timestampMismatch
  | jobDecoded
  | packetStale
  | sliceOutOfRange
  | frameProcessed
  | idleFlushed
  | dumpUnclosed
  deriving DecidableEq, Repr

namespace Topic

/-- How a record on the topic begins, but for numbers. -/
def phrase : Topic → String
  | workersStarted => "Started  decode workers"
  | processConfigured => "Configured as process"
  | headerUnreadable => "Packet slot : unreadable header: "
  | payloadClamped => "Packet  claims"
  | payloadUnreadable => "Packet : "
  | poolGrown => "Job pool exhausted"
  | malformedStart => "Packet  does not start with an extended timestamp"
  | timestampMismatch => "Packet : timestamp mismatch"
  | jobDecoded => "Packet  slice"
  | packetStale => "Stale packet"
  | sliceOutOfRange => "Packet : time slice buffer  out of range"
  | frameProcessed => "Frame : "
  | idleFlushed => "Idle frame: flushed"
  | dumpUnclosed => "Dump does not end with an idle frame"

/-- Unreadable payloads apart, no topic's phrase is the beginning of another one's. -/
theorem eq_of_phrase_prefix {t u : Topic} (ht : t ≠ .payloadUnreadable)
    (hu : u ≠ .payloadUnreadable) (h : t.phrase.toList <+: u.phrase.toList) : t = u := by
  cases t <;> cases u <;> first | rfl | exact absurd rfl ‹_› | exact absurd h (by decide)

end Topic

namespace Notice

def topic : Notice → Topic
  | workersStarted _ => .workersStarted
  | processConfigured .. => .processConfigured
  | headerUnreadable .. => .headerUnreadable
  | payloadClamped .. => .payloadClamped
  | payloadUnreadable .. => .payloadUnreadable
  | poolGrown _ => .poolGrown
  | malformedStart .. => .malformedStart
  | timestampMismatch .. => .timestampMismatch
  | jobDecoded .. => .jobDecoded
  | packetStale .. => .packetStale
  | sliceOutOfRange .. => .sliceOutOfRange
  | frameProcessed .. => .frameProcessed
  | idleFlushed .. => .idleFlushed
  | dumpUnclosed => .dumpUnclosed

/-- Every text begins with the phrase of its topic. -/
theorem phrase_prefix_wording (n : Notice) : n.topic.phrase.toList <+: wording n.text := by
  have hmore {phrase text : List Char} (h : phrase <+: text) (rest : List Char) :
      phrase <+: text ++ rest := h.trans (List.prefix_append text rest)
  cases n <;> unfold text topic Topic.phrase <;>
    simp only [toString_text, wording_append, wording_toString, List.append_nil]
  case headerUnreadable => exact hmore (by decide) _
  case payloadUnreadable => exact hmore (by decide) _
  case malformedStart => exact hmore (by decide) _
  case jobDecoded => exact hmore (hmore (by decide) _) _
  case timestampMismatch m =>
    unfold TimestampMismatch.message
    simp only [wording_append, ← List.append_assoc]
    exact hmore (hmore (hmore (hmore (hmore (hmore (by decide) _) _) _) _) _) _
  case sliceOutOfRange =>
    unfold Fault.message
    simp only [toString_text, wording_append, wording_toString, List.append_nil]
    decide
  all_goals decide

/-- How notices appear in a log: with a level, and about a topic. -/
def headings (notices : List Notice) : List (Level × Topic) :=
  notices.map fun n => (n.level, n.topic)

@[simp] theorem headings_append (notices later : List Notice) :
    headings (notices ++ later) = headings notices ++ headings later :=
  List.map_append

/-- What a notice leaves in a log. -/
def record (n : Notice) : Level × String := (n.level, n.text)

/-- The records of a level that begin, but for numbers, with a phrase. -/
def recorded (log : List (Level × String)) (level : Level) (phrase : String) : Nat :=
  log.countP fun record => record.1 = level ∧ phrase.toList <+: wording record.2

theorem countP_level_record (notices : List Notice) (level : Level) :
    (notices.map record).countP (·.1 = level) = (headings notices).countP (·.1 = level) := by
  rw [List.countP_map, headings, List.countP_map]
  rfl

/-- Where every payload can be read, the phrase of a topic tells its records from all others. -/
theorem recorded_eq_count {notices : List Notice}
    (h : ∀ n ∈ notices, n.topic ≠ .payloadUnreadable) (level : Level) {t : Topic}
    (ht : t ≠ .payloadUnreadable) :
    recorded (notices.map record) level t.phrase = (headings notices).count (level, t) := by
  rw [recorded, List.countP_map, headings, List.count, List.countP_map]
  apply List.countP_congr
  intro n hn
  have htopic : t.phrase.toList <+: wording n.text ↔ n.topic = t := by
    constructor
    · intro hphrase
      -- Of two beginnings of one text the shorter one begins the other.
      rcases List.prefix_or_prefix_of_prefix hphrase n.phrase_prefix_wording with hle | hle
      · exact (Topic.eq_of_phrase_prefix ht (h n hn) hle).symm
      · exact Topic.eq_of_phrase_prefix (h n hn) ht hle
    · rintro rfl
      exact n.phrase_prefix_wording
  simp only [Function.comp_apply, record, htopic, decide_eq_true_eq, beq_iff_eq, Prod.mk.injEq]

theorem upTo_trace (notices : List Notice) : upTo .trace notices = notices := by
  apply List.filter_eq_self.2
  intro n _
  cases n <;> rfl

end Notice

open Notice (headings recorded)

/-- A decoded job is told of once, and each of its mismatches and its malformed start as well. -/
theorem Job.headings_notices (j : Job) :
    headings j.decode.notices =
      List.replicate j.decode.decoded.malformedStart.toNat (.warn, .malformedStart) ++
        List.replicate j.decode.decoded.mismatches.size (.trace, .timestampMismatch) ++
        [(.trace, .jobDecoded)] := by
  have hstart : headings ((malformedStart? j.words).map
        (Notice.malformedStart j.packetNumber)).toList =
      List.replicate (malformedStart? j.words).isSome.toNat (.warn, .malformedStart) := by
    cases malformedStart? j.words <;> rfl
  have hmismatches : headings (j.decode.decoded.mismatches.toList.map
        (Notice.timestampMismatch j.packetNumber)) =
      List.replicate j.decode.decoded.mismatches.size (.trace, .timestampMismatch) := by
    rw [headings, List.map_map, ← Array.length_toList]
    change List.map (fun _ => (Level.trace, Topic.timestampMismatch)) _ = _
    exact List.map_const'
  have hnotices : j.decode.notices =
      ((malformedStart? j.words).map (Notice.malformedStart j.packetNumber)).toList ++
        j.decode.decoded.mismatches.toList.map (Notice.timestampMismatch j.packetNumber) ++
        [.jobDecoded j.packetNumber j.slice j.words.length j.decode.decoded.events.size
          j.decode.decoded.controls.size j.decode.decoded.mismatches.size] := rfl
  rw [hnotices, Notice.headings_append, Notice.headings_append, hstart, hmismatches]
  rfl

/-- What the decoding of jobs gives notice of. -/
def Statistics.decodingRecords (s : Statistics) (jobs : Nat) : List (Level × Topic) :=
  List.replicate s.malformedJobs (.warn, .malformedStart) ++
    List.replicate s.timestampMismatches (.trace, .timestampMismatch) ++
    List.replicate jobs (.trace, .jobDecoded)

theorem headings_decoded (jobs : List Job) :
    (headings ((jobs.map Job.decode).flatMap Job.notices)).Perm
      ((Statistics.ofJobs (jobs.map Job.decode)).decodingRecords jobs.length) := by
  induction jobs with
  | nil => exact .nil
  | cons j rest ih =>
    rw [List.map_cons, List.flatMap_cons, Notice.headings_append, Job.headings_notices]
    refine (ih.append_left _).trans ?_
    rw [List.perm_iff_count]
    intro heading
    simp only [Statistics.decodingRecords, Statistics.ofJobs, List.map_cons, List.sum_cons,
      List.length_cons, List.replicate_add, List.replicate_succ', List.count_append]
    omega

namespace Filing

/-- Each job that has been turned away was told of. -/
def Told (f : Filing) : Prop :=
  (headings f.notices.toList).Perm
    (List.replicate f.stale.size (.error, .packetStale) ++
      List.replicate f.outOfRange.size (.error, .sliceOutOfRange))

theorem Told.file {f : Filing} (h : f.Told) (j : Job) : (f.file j).Told := by
  unfold Filing.file
  cases f.reassembly.file j.slice j with
  | mk verdict reassembly =>
    cases verdict with
    | accepted => exact h
    | stale =>
      unfold Told at *
      dsimp only
      rw [Array.toList_push, Notice.headings_append, Array.size_push, List.replicate_succ]
      exact (h.append_right _).trans (List.perm_append_singleton _ _)
    | outOfRange =>
      unfold Told at *
      dsimp only
      rw [Array.toList_push, Notice.headings_append, Array.size_push, List.replicate_succ',
        ← List.append_assoc]
      exact h.append_right _

theorem Told.run {f : Filing} (h : f.Told) (jobs : List Job) : (f.run jobs).Told := by
  induction jobs generalizing f with
  | nil => exact h
  | cons j rest ih => exact ih (h.file j)

end Filing

/-- Of what is collected, the jobs turned away are told of, and nothing else. -/
theorem Assembler.headings_collect (a : Assembler) (results : List Job) :
    let report := (a.collect results).1
    (headings report.notices).Perm
      (List.replicate report.stale.length (.error, .packetStale) ++
        List.replicate report.outOfRange.length (.error, .sliceOutOfRange)) := by
  have hstart : ({ pool := a.pool, reassembly := a.reassembly } : Filing).Told := .nil
  exact hstart.run results

/-- The header claims more payload words than the packet has room for. -/
def Packet.overclaims (p : Packet) : Bool :=
  match p.header with
  | .ok header => decide (p.payloadCapacity < header.wordCount.toNat - (p.headerWords - 1))
  | .error _ => false

namespace Pool

variable {α : Type} [Recyclable α]

theorem allocated_acquire (p : Pool α) :
    p.acquire.2.allocated = p.allocated + if p.free.isEmpty then 1 else 0 := by
  unfold acquire
  cases p.free <;> rfl

end Pool

namespace Intake

variable {i : Intake} {p : Packet} {slot : Nat}

theorem acquire_told (i : Intake) :
    i.acquire.2.pool = i.pool.acquire.2 ∧
      headings i.acquire.2.notices.toList = headings i.notices.toList ++
        List.replicate (i.pool.acquire.2.allocated - i.pool.allocated) (.trace, .poolGrown) := by
  have hgrown := Pool.allocated_acquire i.pool
  rw [hgrown, Nat.add_sub_cancel_left]
  unfold acquire
  cases i.pool.free.isEmpty with
  | false => exact ⟨rfl, (List.append_nil _).symm⟩
  | true =>
    refine ⟨rfl, ?_⟩
    change headings (i.notices.push _).toList = _
    rw [Array.toList_push, Notice.headings_append]
    rfl

theorem takePacket_told {j : Job} (h : p.job slot = .ok j) :
    (i.takePacket slot p).pool = i.pool.acquire.2 ∧
      headings (i.takePacket slot p).notices.toList = headings i.notices.toList ++
        List.replicate p.overclaims.toNat (.warn, .payloadClamped) ++
        List.replicate (i.pool.acquire.2.allocated - i.pool.allocated) (.trace, .poolGrown) := by
  cases hheader : p.header with
  | error cause =>
    rw [Packet.job, hheader] at h
    cases h
  | ok header =>
    rw [Packet.job_of_header hheader] at h
    cases hread : p.readPayload (min (header.payloadWords p.headerWords) p.payloadCapacity) [] with
    | error cause =>
      rw [hread] at h
      cases h
    | ok words =>
      have hclaim : p.overclaims =
          decide (p.payloadCapacity < header.payloadWords p.headerWords) := by
        rw [Packet.overclaims, hheader]
        rfl
      unfold takePacket
      rw [hheader]
      dsimp only
      rw [hread, hclaim]
      by_cases hmore : p.payloadCapacity < header.payloadWords p.headerWords
      · rw [if_pos hmore, decide_eq_true hmore]
        obtain ⟨hpool, hnotices⟩ := acquire_told (i.note (.payloadClamped header.packetNumber.toNat
          (header.payloadWords p.headerWords) p.payloadCapacity))
        refine ⟨hpool, hnotices.trans ?_⟩
        change headings (i.notices.push _).toList ++ _ = _
        rw [Array.toList_push, Notice.headings_append]
        rfl
      · rw [if_neg hmore, decide_eq_false hmore]
        obtain ⟨hpool, hnotices⟩ := acquire_told i
        refine ⟨hpool, hnotices.trans ?_⟩
        rw [Bool.toNat_false, List.replicate_zero, List.append_nil]

/-- What has been told while the pool grew from `allocated` and `claims` were cut down. -/
structure Told (allocated claims : Nat) (i : Intake) : Prop where
  headings : (Notice.headings i.notices.toList).Perm
    (List.replicate claims (.warn, .payloadClamped) ++
      List.replicate (i.pool.allocated - allocated) (.trace, .poolGrown))
  allocated_le : allocated ≤ i.pool.allocated

theorem Told.takeSlot {allocated claims : Nat} (h : Told allocated claims i)
    {packet : Option Packet} (hread : ∀ p ∈ packet, ∃ j, p.job slot = .ok j) :
    Told allocated (claims + (packet.any Packet.overclaims).toNat) (i.takeSlot slot packet) := by
  cases packet with
  | none => exact ⟨h.headings, h.allocated_le⟩
  | some p =>
    obtain ⟨j, hj⟩ := hread p rfl
    obtain ⟨hpool, hnotices⟩ := takePacket_told (i := i) hj
    have hgrown := Pool.allocated_acquire i.pool
    have hle := h.allocated_le
    refine ⟨?_, ?_⟩
    · change (Notice.headings (i.takePacket slot p).notices.toList).Perm
        (List.replicate (claims + p.overclaims.toNat) _ ++
          List.replicate ((i.takePacket slot p).pool.allocated - allocated) _)
      have hsum : i.pool.acquire.2.allocated - allocated =
          (i.pool.allocated - allocated) + (i.pool.acquire.2.allocated - i.pool.allocated) := by
        omega
      rw [hnotices, hpool, hsum, List.replicate_add, List.replicate_add]
      rw [List.perm_iff_count]
      intro heading
      have hcount := h.headings.count_eq heading
      simp only [List.count_append] at hcount ⊢
      omega
    · change allocated ≤ (i.takePacket slot p).pool.allocated
      rw [hpool]
      omega

theorem Told.takeSlots {allocated claims : Nat} (h : Told allocated claims i)
    (slots : List (Option Packet × Nat))
    (hread : ∀ p slot, (some p, slot) ∈ slots → ∃ j, p.job slot = .ok j) :
    Told allocated (claims + slots.countP fun entry => entry.1.any Packet.overclaims)
      (i.takeSlots slots) := by
  induction slots generalizing i claims with
  | nil => exact h
  | cons entry rest ih =>
    obtain ⟨packet, slot⟩ := entry
    have hfirst : Told allocated (claims + (packet.any Packet.overclaims).toNat)
        (i.takeSlot slot packet) :=
      h.takeSlot fun p hp => hread p slot (by rw [← Option.mem_def.1 hp]; exact List.mem_cons_self)
    have hrest := ih hfirst fun p slot hp => hread p slot (List.mem_cons_of_mem _ hp)
    have hsum : claims + (packet.any Packet.overclaims).toNat +
        (rest.countP fun entry => entry.1.any Packet.overclaims) =
        claims + ((rest.countP fun entry => entry.1.any Packet.overclaims) +
          if packet.any Packet.overclaims then 1 else 0) := by
      cases packet.any Packet.overclaims with
      | false => rfl
      | true =>
        rw [if_pos rfl, Bool.toNat_true]
        omega
    rw [hsum] at hrest
    rw [takeSlots_cons, List.countP_cons]
    exact hrest

/-- The notices of a frame that can be read all through. -/
theorem ofFrame_told (pool : Pool Job) {f : Frame} (h : f.Readable) :
    Told pool.allocated (f.packets.countP (·.any Packet.overclaims)) (ofFrame pool f) := by
  have hstart : Told pool.allocated 0 { pool } := by
    refine ⟨?_, Nat.le_refl _⟩
    dsimp only
    rw [Nat.sub_self]
    exact .nil
  have hall := hstart.takeSlots f.packets.zipIdx fun p slot hp =>
    h p (List.fst_mem_of_mem_zipIdx hp) slot
  have hcount : (f.packets.zipIdx.countP fun entry => entry.1.any Packet.overclaims) =
      f.packets.countP (·.any Packet.overclaims) := by
    conv_rhs => rw [← List.zipIdx_map_fst 0 f.packets]
    rw [List.countP_map]
    rfl
  rw [hcount, Nat.zero_add] at hall
  exact hall

end Intake

namespace Frame

variable {c : Config} {bytes : Bytes} {f : Frame}

/-- The valid slots whose packets claim more payload words than they have room for. -/
def overclaimedSlots (c : Config) (bytes : Bytes) : List Nat :=
  (List.range c.packetSlots).filter fun slot =>
    validFlag bytes slot &&
      decide (c.payloadWords < (slotHeader c bytes slot).wordCount.toNat - (c.headerWords - 1))

theorem overclaims_slotPacket (hc : c.Valid) {slot : Nat} (hslot : slot < c.packetSlots)
    (h : c.frameBytes ≤ bytes.length) :
    (slotPacket c bytes slot).overclaims = decide
      (c.payloadWords < (slotHeader c bytes slot).wordCount.toNat - (c.headerWords - 1)) := by
  rw [Packet.overclaims, header_slotPacket hc hslot h]
  dsimp only
  rw [payloadCapacity_slotPacket hslot h]
  rfl

theorem countP_overclaims (hc : c.Valid) (h : parse c bytes = .ok f) (hidle : f.idle = false) :
    f.packets.countP (·.any Packet.overclaims) = (overclaimedSlots c bytes).length := by
  have hlength := (packets_of_parse h hidle).1
  rw [packets_eq h hidle, List.countP_map, overclaimedSlots, ← List.countP_eq_length_filter]
  apply List.countP_congr
  intro slot hslot
  rw [Function.comp_apply, ← overclaims_slotPacket hc (List.mem_range.1 hslot) hlength]
  cases validFlag bytes slot with
  | false => simp
  | true => simp

end Frame

namespace Assembler

variable {c : Config} {a : Assembler} {call : Call}

/-- The records that account for what a call added to the counters, and for claims cut down. -/
def records (added : Statistics) (claims : Nat) (last : Topic) : List (Level × Topic) :=
  List.replicate claims (.warn, .payloadClamped) ++
    List.replicate added.poolAllocated (.trace, .poolGrown) ++
    added.decodingRecords added.packetsSubmitted ++
    (List.replicate added.stalePackets (.error, .packetStale) ++
      List.replicate added.invalidPackets (.error, .sliceOutOfRange)) ++
    [(.debug, last)]

/-- By how much a call raises the statistics. -/
def increase (c : Config) (a : Assembler) (call : Call) : Statistics :=
  { tally c [call] (a.step call).1 with
    poolAllocated := (a.step call).2.pool.allocated - a.pool.allocated }

theorem statistics_step (ha : a.Consistent c) (call : Call) :
    (a.step call).2.statistics = a.statistics + a.increase c call := by
  have hgrown : (a.step call).2.pool.allocated =
      a.pool.allocated + ((a.step call).2.pool.allocated - a.pool.allocated) := by
    obtain ⟨-, hallocated⟩ := step_pool ha call
    omega
  unfold statistics
  rw [step_counts ha call, hgrown]
  rfl

theorem headings_standard (ha : a.Consistent c) {arrangement : Arrangement} {bytes : Bytes}
    {f : Frame} (hf : Frame.parse c bytes = .ok f) (hidle : f.idle = false) :
    let call := Call.feed arrangement bytes
    (headings (a.step call).1.notices).Perm
      (records (a.increase c call) (Frame.overclaimedSlots c bytes).length .frameProcessed) := by
  have hframe := Call.frame?_feed arrangement hf
  have hjobs := Call.jobs_of_frame hframe hidle
  let results := (Call.feed arrangement bytes).results c
  have hintake := (Intake.ofFrame_told a.pool (Frame.readable_of_parse ha.valid hf hidle)).headings
  rw [Frame.countP_overclaims ha.valid hf hidle] at hintake
  have hdecoded : (headings (results.flatMap Job.notices)).Perm
      ((Statistics.ofJobs (f.jobs.map Job.decode)).decodingRecords f.jobs.length) := by
    have hperm : results.Perm (f.jobs.map Job.decode) := hjobs ▸ Call.results_perm c _
    exact ((hperm.flatMap_right _).map _).trans (headings_decoded f.jobs)
  have hfiled := headings_collect (a.submit f).2.2 results
  obtain ⟨-, hkept⟩ := pool_collect (a.submit f).2.2 results
  dsimp only
  rw [increase, tally_of_standard ⟨f, hframe, hidle⟩, hjobs, List.length_map,
    step_standard ha arrangement hf hidle]
  dsimp only
  rw [hkept, Notice.headings_append, Notice.headings_append, Notice.headings_append]
  exact ((hintake.append hdecoded).append hfiled).append_right _

/-- The one place where the notices of a call are opened. -/
theorem step_headings (ha : a.Consistent c) (arrangement : Arrangement) (bytes : Bytes) :
    let call := Call.feed arrangement bytes
    let claims := if call.Standard c then (Frame.overclaimedSlots c bytes).length else 0
    match (a.respond call).1 with
    | .error _ => a.step call = ({}, a) ∧ claims = 0
    | .ok _ => ∃ last ≠ .payloadUnreadable,
      (headings (a.step call).1.notices).Perm (records (a.increase c call) claims last) := by
  dsimp only
  cases hf : Frame.parse c bytes with
  | error cause =>
    have hrefused : ¬ (Call.feed arrangement bytes).Standard c := by
      rintro ⟨f, hframe, -⟩
      rw [Call.frame?, hf] at hframe
      cases hframe
    rw [respond_feed_of_error ha.config hf, if_neg hrefused]
    exact ⟨step_no_frame ha.config arrangement hf, rfl⟩
  | ok f =>
    have hframe := Call.frame?_feed arrangement hf
    rw [respond_feed_of_ok ha.config hf]
    cases hidle : f.idle with
    | false =>
      have hstandard : (Call.feed arrangement bytes).Standard c := ⟨f, hframe, hidle⟩
      rw [if_pos hstandard]
      exact ⟨.frameProcessed, by simp, headings_standard ha hf hidle⟩
    | true =>
      have hclosing : (Call.feed arrangement bytes).Closing c := ⟨f, hframe, hidle⟩
      obtain ⟨-, hallocated⟩ := pool_finishAcquisition a
      rw [if_neg (Call.not_standard_of_closing hclosing), increase,
        step_frame ha.config arrangement hf, feedFrame, hidle, if_pos rfl, hallocated,
        tally_of_closing hclosing rfl rfl, Nat.sub_self]
      exact ⟨.idleFlushed, by simp, .refl _⟩

theorem count_records (added : Statistics) (claims : Nat) (last : Topic) :
    let all := records added claims last
    all.countP (·.1 = .debug) = 1 ∧
      all.count (.error, .packetStale) = added.stalePackets ∧
      all.count (.error, .sliceOutOfRange) = added.invalidPackets ∧
      all.count (.warn, .malformedStart) = added.malformedJobs ∧
      all.count (.warn, .payloadClamped) = claims ∧
      all.count (.trace, .timestampMismatch) = added.timestampMismatches ∧
      all.count (.trace, .jobDecoded) = added.packetsSubmitted ∧
      all.count (.trace, .poolGrown) = added.poolAllocated := by
  simp [records, Statistics.decodingRecords, List.count_replicate, List.countP_replicate]

theorem topic_of_records {added : Statistics} {claims : Nat} {last : Topic}
    (hlast : last ≠ .payloadUnreadable) :
    ∀ heading ∈ records added claims last, heading.2 ≠ .payloadUnreadable := by
  intro heading hheading
  simp only [records, Statistics.decodingRecords, List.mem_append, List.mem_replicate,
    List.mem_singleton] at hheading
  rcases hheading with ((((⟨-, rfl⟩ | ⟨-, rfl⟩) | (⟨-, rfl⟩ | ⟨-, rfl⟩) | ⟨-, rfl⟩) |
    ⟨-, rfl⟩ | ⟨-, rfl⟩) | rfl) <;> first | exact hlast | nofun

/-- The records of a call in a log that takes notices down to a level. -/
def log (a : Assembler) (level : Level) (arrangement : Arrangement) (bytes : Bytes) :
    List (Level × String) :=
  (Notice.upTo level (a.handle arrangement.order bytes).1.notices).map Notice.record

theorem notices_handle (a : Assembler) (arrangement : Arrangement) (bytes : Bytes) :
    (a.handle arrangement.order bytes).1.notices =
      (a.step (.feed arrangement bytes)).1.notices := by
  simp only [step, respond, feedWith, handle]
  cases Frame.parse a.config bytes with
  | error cause => rfl
  | ok f => rfl

/-- A packet for the small geometry that is late, does not start with a broadcast and cannot be
timed, and one that names a buffer beyond the geometry and claims more than it holds. -/
def faultyBytes : Bytes :=
  let draft := (({} : FrameDraft).fill 0 { wrap := 3 } [(DataWord.event 7 0x600000 1).raw]).fill 1
    { wrap := 5, buffer := 7 } [(DataWord.extendedTimestamp 0x100200000).raw]
  ((draft.encode .small).toOption.getD []).set 72 255

end Assembler
end EventReadout
