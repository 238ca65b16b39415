import EventReadout.Queue.Shared
import Mathlib.Data.List.Basic
import Mathlib.Logic.Relation

/-!
A queue shared by any number of threads hands out what was added, in that order, and strands nobody.

A signal may be lost, and a newcomer may take the item that a woken consumer was woken for. Still no
item is left to those who wait: there is a woken consumer or a signal on its way for each of them.
-/
namespace EventReadout.SharedQueue

variable {α : Type} {s t : SharedQueue α} {i threads : Nat} {action : ThreadAction α}

section Counts

variable {phases : List ThreadPhase} {old : ThreadPhase}

theorem count_set (h : phases[i]? = some old) (new phase : ThreadPhase) :
    (phases.set i new).count phase =
      phases.count phase - (if old = phase then 1 else 0) + if new = phase then 1 else 0 := by
  obtain ⟨hlt, hold⟩ := List.getElem?_eq_some_iff.1 h
  rw [List.count_set hlt, hold]
  simp only [beq_iff_eq]

theorem count_set_of_ne {new phase : ThreadPhase} (h : phases[i]? = some old) (hold : old ≠ phase)
    (hnew : new ≠ phase) : (phases.set i new).count phase = phases.count phase := by
  rw [count_set h, if_neg hold, if_neg hnew, Nat.sub_zero, Nat.add_zero]

theorem MayRemove.count_set_of_ne {new phase : ThreadPhase} (h : s.MayRemove i)
    (hready : .ready ≠ phase) (hwoken : .woken ≠ phase) (hnew : new ≠ phase) :
    (s.threads.set i new).count phase = s.threads.count phase := by
  rcases h with h | h
  · exact SharedQueue.count_set_of_ne h hready hnew
  · exact SharedQueue.count_set_of_ne h hwoken hnew

theorem count_pos (h : phases[i]? = some old) : 0 < phases.count old :=
  List.count_pos_iff.2 (List.mem_of_getElem? h)

theorem getElem?_set_of_ne {j : Nat} {other : ThreadPhase} (h : phases[i]? = some old)
    (hother : phases[j]? = some other) (new : ThreadPhase) (hne : old ≠ other) :
    (phases.set i new)[j]? = some other := by
  have hij : i ≠ j := by
    rintro rfl
    exact hne (Option.some.inj (h.symm.trans hother))
  rw [List.getElem?_set_ne hij, hother]

theorem count_waiting_wakeAll (s : SharedQueue α) : s.wakeAll.count .waiting = 0 := by
  rw [count, wakeAll, List.count_eq_zero, List.mem_map]
  rintro ⟨phase, -, hphase⟩
  split at hphase
  · cases hphase
  · contradiction

end Counts

/-- What holds between any two steps. -/
structure Sound (s : SharedQueue α) : Prop where
  /-- Items are handed out in the order in which they were added. -/
  ledger : s.handedOut ++ s.queue.items = s.added
  /-- While somebody waits, each item has a consumer or a signal that is on its way. -/
  covered : 0 < s.count .waiting → s.queue.size ≤ s.count .woken + s.count .signalling
  closed_iff : s.queue.closed = true ↔ s.announced = true ∨ 0 < s.count .announcing
  deserted : s.announced = true → s.count .waiting = 0

theorem sound_idle (threads : Nat) : (idle threads : SharedQueue α).Sound where
  ledger := rfl
  covered _ := Nat.zero_le _
  closed_iff := by simp [idle, count, List.count_replicate]
  deserted h := by cases h

theorem Step.ledger (next : Step s i action t) (h : s.handedOut ++ s.queue.items = s.added) :
    t.handedOut ++ t.queue.items = t.added := by
  cases next with
  | add x _ =>
    rw [← h]
    exact (List.append_assoc _ _ _).symm
  | take _ found =>
    rw [(Queue.remove_eq_item_iff.1 found).1] at h
    rw [← List.append_cons]
    exact h
  | _ => exact h

theorem Step.covered (next : Step s i action t) (h : s.Sound) :
    0 < t.count .waiting → t.queue.size ≤ t.count .woken + t.count .signalling := by
  have hcovered := h.covered
  simp only [count, Queue.size] at hcovered ⊢
  cases next with
  | add x hready =>
    simp only [move, count_set hready, Queue.add, List.length_append, List.length_singleton,
      reduceCtorEq, ↓reduceIte]
    omega
  | signalNobody hsignal nobody =>
    have hnone := List.count_eq_zero.2 nobody
    simp only [move, count_set hsignal, reduceCtorEq, ↓reduceIte]
    omega
  | signalOne hsignal waiter =>
    have hwaiter := getElem?_set_of_ne hsignal waiter .ready nofun
    have hpos := count_pos hsignal
    have hwaiting := count_pos waiter
    simp only [move, count_set hwaiter, count_set hsignal, reduceCtorEq, ↓reduceIte]
    omega
  | close hready =>
    simp only [move, count_set hready, Queue.close, reduceCtorEq, ↓reduceIte]
    omega
  | announce hannounce =>
    have hnone := count_waiting_wakeAll (s.move i .ready)
    rw [count] at hnone
    simp only [hnone]
    omega
  | take hremove found =>
    rw [(Queue.remove_eq_item_iff.1 found).1, List.length_cons] at hcovered
    rcases hremove with hready | hwoken
    · simp only [move, count_set hready, reduceCtorEq, ↓reduceIte]
      omega
    · have hpos := count_pos hwoken
      simp only [move, count_set hwoken, reduceCtorEq, ↓reduceIte]
      omega
  | leave _ found =>
    simp only [move, (Queue.remove_eq_closed_iff.1 found).1, List.length_nil]
    omega
  | wait _ found =>
    simp only [move, (Queue.remove_eq_blocked_iff.1 found).1, List.length_nil]
    omega
  | wake hwait =>
    have hpos := count_pos hwait
    simp only [move, count_set hwait, reduceCtorEq, ↓reduceIte]
    omega

/-- A consumer starts to wait only at an open, empty queue. -/
theorem Step.waiting_le (next : Step s i action t) :
    t.count .waiting ≤ s.count .waiting ∨ s.queue.items = [] ∧ s.queue.closed = false := by
  cases next with
  | add _ h | signalNobody h _ | close h =>
    exact Or.inl (Nat.le_of_eq (count_set_of_ne h nofun nofun))
  | signalOne h waiter =>
    have hfirst : (s.threads.set i .ready).count .waiting = s.threads.count .waiting :=
      count_set_of_ne h nofun nofun
    have hwaiter := getElem?_set_of_ne h waiter .ready nofun
    left
    simp only [count, move, count_set hwaiter, hfirst, reduceCtorEq, ↓reduceIte]
    omega
  | announce h =>
    have hnone : ({ (s.move i .ready).wakeAll with announced := true }).count .waiting = 0 :=
      count_waiting_wakeAll (s.move i .ready)
    exact Or.inl (hnone ▸ Nat.zero_le _)
  | take h _ | leave h _ => exact Or.inl (Nat.le_of_eq (h.count_set_of_ne nofun nofun nofun))
  | wait _ found =>
    obtain ⟨hitems, hopen, -⟩ := Queue.remove_eq_blocked_iff.1 found
    exact Or.inr ⟨hitems, hopen⟩
  | wake h =>
    left
    simp only [count, move, count_set h, reduceCtorEq, ↓reduceIte]
    omega

theorem Step.announcing_eq (next : Step s i action t) (hclose : action ≠ .close)
    (hannounce : action ≠ .announce) : t.count .announcing = s.count .announcing := by
  cases next with
  | add _ h | signalNobody h _ | wake h => exact count_set_of_ne h nofun nofun
  | signalOne h waiter =>
    have hfirst : (s.threads.set i .ready).count .announcing = s.count .announcing :=
      count_set_of_ne h nofun nofun
    rw [← hfirst]
    exact count_set_of_ne (getElem?_set_of_ne h waiter .ready nofun) nofun nofun
  | close => exact absurd rfl hclose
  | announce => exact absurd rfl hannounce
  | take h _ | leave h _ | wait h _ => exact h.count_set_of_ne nofun nofun nofun

/-- A queue is closed by a thread that signals the waiters right afterwards. -/
theorem Step.closed_iff (next : Step s i action t) (h : s.Sound) :
    t.queue.closed = true ↔ t.announced = true ∨ 0 < t.count .announcing := by
  have hclosed := h.closed_iff
  have hannouncing := next.announcing_eq
  cases next with
  | close hready =>
    have hone : 0 < (s.threads.set i .announcing).count .announcing := by
      rw [count_set hready]
      exact Nat.succ_pos _
    exact iff_of_true rfl (Or.inr hone)
  | announce hannounce => exact iff_of_true (hclosed.2 (Or.inr (count_pos hannounce))) (Or.inl rfl)
  | take _ found =>
    rw [hannouncing nofun nofun, (Queue.remove_eq_item_iff.1 found).2]
    exact hclosed
  | _ =>
    rw [hannouncing nofun nofun]
    exact hclosed

theorem Step.announced (next : Step s i action t) (h : s.announced = true) :
    t.announced = true := by
  cases next with
  | announce => rfl
  | _ => exact h

/-- After the signal of a close nobody starts to wait. -/
theorem Step.deserted (next : Step s i action t) (h : s.Sound) (hannounced : t.announced = true) :
    t.count .waiting = 0 := by
  by_cases hbefore : s.announced = true
  · have hclosed : s.queue.closed = true := h.closed_iff.2 (Or.inl hbefore)
    have hnone := h.deserted hbefore
    rcases next.waiting_le with hle | ⟨-, hopen⟩
    · omega
    · rw [hclosed] at hopen
      cases hopen
  · cases next with
    | announce => exact count_waiting_wakeAll _
    | _ => exact absurd hannounced hbefore

theorem Step.sound (next : Step s i action t) (h : s.Sound) : t.Sound :=
  ⟨next.ledger h.ledger, next.covered h, next.closed_iff h, next.deserted h⟩

theorem Reachable.sound (h : Reachable threads s) : s.Sound := by
  induction h with
  | start => exact sound_idle threads
  | step _ next ih => exact next.sound ih

/-- From `s` the threads can bring about `t`. -/
def LeadsTo (s t : SharedQueue α) : Prop :=
  Relation.ReflTransGen (fun s t => ∃ i action, Step s i action t) s t

theorem Reachable.leadsTo (h : Reachable threads s) (hleads : s.LeadsTo t) :
    Reachable threads t := by
  induction hleads with
  | refl => exact h
  | tail _ next ih =>
    obtain ⟨i, action, next⟩ := next
    exact ih.step next

theorem announced_of_leadsTo (hleads : s.LeadsTo t) (h : s.announced = true) :
    t.announced = true := by
  induction hleads with
  | refl => exact h
  | tail _ next ih =>
    obtain ⟨i, action, next⟩ := next
    exact next.announced ih

theorem mem_iff_count_pos {phase : ThreadPhase} : phase ∈ s.threads ↔ 0 < s.count phase :=
  List.count_pos_iff.symm

/-- Whoever is left waiting when no signal is under way and nobody is about to look at the queue
waits for an item of a queue that is open and empty. -/
theorem Reachable.idle_of_quiet (h : Reachable threads s) (hwaiting : .waiting ∈ s.threads)
    (hquiet : ∀ phase ∈ s.threads, phase = .ready ∨ phase = .waiting) :
    s.queue.items = [] ∧ s.queue.closed = false := by
  have hnone (phase : ThreadPhase) (hready : phase ≠ .ready) (hwait : phase ≠ .waiting) :
      s.count phase = 0 := by
    refine List.count_eq_zero.2 fun hmem => ?_
    rcases hquiet phase hmem with heq | heq
    · exact hready heq
    · exact hwait heq
  have hpos := mem_iff_count_pos.1 hwaiting
  constructor
  · have hcovered := h.sound.covered hpos
    rw [hnone .woken nofun nofun, hnone .signalling nofun nofun] at hcovered
    exact List.length_eq_zero_iff.1 (Nat.le_zero.1 hcovered)
  · by_contra hclosed
    rw [Bool.not_eq_false, h.sound.closed_iff, hnone .announcing nofun nofun] at hclosed
    have hdeserted := h.sound.deserted (hclosed.resolve_right (Nat.lt_irrefl 0))
    omega

/--
In every state that any interleaving can bring about, items have been handed out in the order in
which they were added, and only a closed and empty queue has turned a consumer away. While a
consumer waits, there are no more items than consumers woken and signals due. Once a close has
signalled, no consumer waits or will ever wait.
-/
theorem Reachable.no_consumer_stranded (h : Reachable threads s) :
    s.handedOut ++ s.queue.items = s.added ∧
      (∀ i t, Step s i (.remove .closed) t → s.queue.closed = true ∧ s.queue.items = []) ∧
      (.waiting ∈ s.threads → s.queue.size ≤ s.count .woken + s.count .signalling) ∧
      (s.announced = true → ∀ t, s.LeadsTo t → .waiting ∉ t.threads) := by
  refine ⟨h.sound.ledger, ?closed, fun hwaiting => h.sound.covered (mem_iff_count_pos.1 hwaiting),
    ?announced⟩
  case closed =>
    intro i t next
    cases next with
    | leave _ found =>
      obtain ⟨hitems, hclosed, -⟩ := Queue.remove_eq_closed_iff.1 found
      exact ⟨hclosed, hitems⟩
  case announced =>
    intro hannounced t hleads hwaiting
    have hdeserted := (h.leadsTo hleads).sound.deserted (announced_of_leadsTo hleads hannounced)
    have hpos := mem_iff_count_pos.1 hwaiting
    omega

/-- Two consumers wait, and a newcomer takes the item that one of them has been woken for. -/
theorem reachable_overtaken :
    Reachable 4
      { queue := { items := [8] }, threads := [.woken, .waiting, .signalling, .ready]
        added := [7, 8], handedOut := [7] } := by
  have waiting : Reachable 4
      { threads := [.waiting, .waiting, .ready, .ready] : SharedQueue Nat } :=
    (Reachable.start.step (@Step.wait _ _ 0 _ (Or.inl rfl) rfl)).step
      (@Step.wait _ _ 1 _ (Or.inl rfl) rfl)
  have woken : Reachable 4
      { queue := { items := [7] }, threads := [.woken, .waiting, .ready, .ready], added := [7] } :=
    (waiting.step (@Step.add _ _ 2 7 rfl)).step (@Step.signalOne _ _ 2 0 rfl rfl)
  exact (woken.step (@Step.take _ _ 3 7 _ (Or.inl rfl) rfl)).step (@Step.add _ _ 2 8 rfl)

theorem reachable_overtaken_announced :
    Reachable 4
      { queue := { items := [8], closed := true }, threads := [.woken, .woken, .signalling, .ready]
        added := [7, 8], handedOut := [7], announced := true } :=
  (reachable_overtaken.step (@Step.close _ _ 3 rfl)).step (@Step.announce _ _ 3 rfl)

theorem no_consumer_stranded_overtaken :
    (∃ s : SharedQueue Nat, Reachable 4 s ∧ .waiting ∈ s.threads ∧ s.queue.size = 1 ∧
      s.queue.size ≤ s.count .woken + s.count .signalling) ∧
    ∃ s : SharedQueue Nat, Reachable 4 s ∧ s.announced = true ∧ s.queue.size = 1 ∧
      ∀ t, s.LeadsTo t → .waiting ∉ t.threads := by
  obtain ⟨-, -, hcovered, -⟩ := reachable_overtaken.no_consumer_stranded
  obtain ⟨-, -, -, hdeserted⟩ := reachable_overtaken_announced.no_consumer_stranded
  exact ⟨⟨_, reachable_overtaken, by decide, rfl, hcovered (by decide)⟩,
    ⟨_, reachable_overtaken_announced, rfl, rfl, hdeserted rfl⟩⟩

end EventReadout.SharedQueue
