import EventReadout.Workers.Activity
import Mathlib.Algebra.Ring.Nat
import Mathlib.Data.List.Perm.Basic
import Mathlib.Logic.Relation

/-!
One batch of jobs through the workers: no job is lost or decoded twice, whatever the interleaving.

Every step but a close uses up one unit of a finite amount of work, so a batch comes to its end
unless all workers have left before its last submission.
-/
namespace EventReadout

namespace Hand

/-- The job that is still to be decoded. -/
def undecoded? : Hand → Option Job
  | undecoded j => some j
  | _ => none

def decoded? : Hand → Option Job
  | decoded j => some j
  | _ => none

/-- Steps that are left until the worker has left, one for a later collection included. -/
def effort : Hand → Nat
  | gone => 0
  | free => 1
  | decoded _ => 3
  | undecoded _ => 4

end Hand

namespace Activity

variable {workers : Nat} {batch submitted done later : List Job} {a b c : Activity}

/-- Jobs that a worker has taken and not decoded yet. -/
def undecoded (a : Activity) : List Job := a.hands.filterMap Hand.undecoded?

/-- Jobs that a worker has decoded and not delivered yet. -/
def decoded (a : Activity) : List Job := a.hands.filterMap Hand.decoded?

/-- What is left to do: each job has five steps from the batch to its collection. -/
def effort (a : Activity) : Nat :=
  5 * a.upcoming.length + 4 * a.jobs.items.length + (a.hands.map Hand.effort).sum +
    a.results.items.length

def shut (a : Activity) : Activity := { a with jobs := a.jobs.close }

section Hands

variable {worker : Nat} {old : Hand}

theorem exists_hands_eq (h : a.hand? worker = some old) (new : Hand) :
    ∃ before after, a.hands = before ++ old :: after ∧
      (a.setHand worker new).hands = before ++ new :: after := by
  obtain ⟨hlt, hold⟩ := List.getElem?_eq_some_iff.1 h
  obtain ⟨before, after, heq, -, hset⟩ := @List.exists_of_set Hand worker new a.hands hlt
  rw [hold] at heq
  exact ⟨before, after, heq, hset⟩

theorem filterMap_setHand (f : Hand → Option Job) (h : a.hand? worker = some old) (new : Hand) :
    ((f old).toList ++ (a.setHand worker new).hands.filterMap f).Perm
      ((f new).toList ++ a.hands.filterMap f) := by
  obtain ⟨before, after, hands, hands'⟩ := exists_hands_eq h new
  have hsplit : ∀ hand : Hand, (before ++ hand :: after).filterMap f =
      before.filterMap f ++ ((f hand).toList ++ after.filterMap f) := by
    intro hand
    rw [List.filterMap_append, List.filterMap_cons]
    cases f hand <;> rfl
  rw [hands, hands', hsplit, hsplit]
  simp only [List.perm_iff_count, List.count_append]
  intro j
  omega

theorem undecoded_setHand (h : a.hand? worker = some old) (new : Hand) :
    (old.undecoded?.toList ++ (a.setHand worker new).undecoded).Perm
      (new.undecoded?.toList ++ a.undecoded) :=
  filterMap_setHand Hand.undecoded? h new

theorem decoded_setHand (h : a.hand? worker = some old) (new : Hand) :
    (old.decoded?.toList ++ (a.setHand worker new).decoded).Perm
      (new.decoded?.toList ++ a.decoded) :=
  filterMap_setHand Hand.decoded? h new

theorem effort_setHand (h : a.hand? worker = some old) (new : Hand) :
    (a.setHand worker new).effort + old.effort = a.effort + new.effort := by
  obtain ⟨before, after, hands, hands'⟩ := exists_hands_eq h new
  have upcoming : (a.setHand worker new).upcoming = a.upcoming := rfl
  have jobs : (a.setHand worker new).jobs = a.jobs := rfl
  have results : (a.setHand worker new).results = a.results := rfl
  simp only [effort, upcoming, jobs, results, hands, hands', List.map_append, List.map_cons,
    List.sum_append, List.sum_cons]
  omega

end Hands

/-! ## Where every job is -/

/-- Of the jobs `submitted`, those in `done` have been decoded; the others wait or are in hand. -/
structure Custody (batch submitted done : List Job) (a : Activity) : Prop where
  batch_eq : batch = submitted ++ a.upcoming
  submitted_perm : (a.jobs.items ++ a.undecoded ++ done).Perm submitted
  decoded_perm : (a.decoded ++ a.results.items ++ a.collected).Perm (done.map Job.decode)

theorem custody_start (workers : Nat) (batch : List Job) :
    Custody batch [] [] (start workers batch) := by
  constructor
  · rfl
  · simp [start, undecoded, Hand.undecoded?]
  · simp [start, decoded, Hand.decoded?]

section Steps

variable {worker : Nat} {j : Job} {rest : List Job} {queue : Queue Job}

theorem Custody.submit (h : Custody batch submitted done a) (hupcoming : a.upcoming = j :: rest) :
    Custody batch (submitted ++ [j]) done { a with upcoming := rest, jobs := a.jobs.add j } := by
  have items : (a.jobs.add j).items = a.jobs.items ++ [j] := rfl
  have waiting := List.perm_iff_count.1 h.submitted_perm
  refine ⟨?_, ?_, h.decoded_perm⟩
  · rw [h.batch_eq, hupcoming, List.append_assoc]
    rfl
  · rw [List.perm_iff_count]
    intro x
    have hx := waiting x
    simp only [items, undecoded, List.count_append] at hx ⊢
    omega

theorem Custody.take (h : Custody batch submitted done a) (hfree : a.hand? worker = some .free)
    (found : a.jobs.remove = (.item j, queue)) :
    Custody batch submitted done { a.setHand worker (.undecoded j) with jobs := queue } := by
  have items : a.jobs.items = [j] ++ queue.items := (Queue.remove_eq_item_iff.1 found).1
  have waiting := List.perm_iff_count.1 h.submitted_perm
  have taken := List.perm_iff_count.1 (undecoded_setHand hfree (.undecoded j))
  have others := decoded_setHand hfree (.undecoded j)
  refine ⟨h.batch_eq, ?_, ((others.append_right _).append_right _).trans h.decoded_perm⟩
  rw [List.perm_iff_count]
  intro x
  have hx := waiting x
  have hj := taken x
  simp only [items, undecoded, Hand.undecoded?, Option.toList, List.count_append,
    List.count_nil] at hx hj ⊢
  omega

theorem Custody.decode (h : Custody batch submitted done a)
    (hhand : a.hand? worker = some (.undecoded j)) :
    Custody batch submitted ([j] ++ done) (a.setHand worker (.decoded j.decode)) := by
  have jobs : (a.setHand worker (.decoded j.decode)).jobs = a.jobs := rfl
  have results : (a.setHand worker (.decoded j.decode)).results = a.results := rfl
  have collected : (a.setHand worker (.decoded j.decode)).collected = a.collected := rfl
  have waiting := List.perm_iff_count.1 h.submitted_perm
  have finished := List.perm_iff_count.1 h.decoded_perm
  have taken := List.perm_iff_count.1 (undecoded_setHand hhand (.decoded j.decode))
  have turned := List.perm_iff_count.1 (decoded_setHand hhand (.decoded j.decode))
  refine ⟨h.batch_eq, ?_, ?_⟩
  · rw [List.perm_iff_count]
    intro x
    have hx := waiting x
    have hj := taken x
    simp only [jobs, Hand.undecoded?, Option.toList, List.count_append, List.count_nil] at hx hj ⊢
    omega
  · rw [List.map_append, List.perm_iff_count]
    intro x
    have hx := finished x
    have hj := turned x
    simp only [results, collected, Hand.decoded?, Option.toList, List.count_append,
      List.count_nil, List.map_cons, List.map_nil] at hx hj ⊢
    omega

theorem Custody.deliver (h : Custody batch submitted done a)
    (hhand : a.hand? worker = some (.decoded j)) :
    Custody batch submitted done
      { a.setHand worker .free with results := a.results.add j } := by
  have items : (a.results.add j).items = a.results.items ++ [j] := rfl
  have collected : (a.setHand worker .free).collected = a.collected := rfl
  have finished := List.perm_iff_count.1 h.decoded_perm
  have others := undecoded_setHand hhand .free
  have given := List.perm_iff_count.1 (decoded_setHand hhand .free)
  refine ⟨h.batch_eq, ((others.append_left _).append_right _).trans h.submitted_perm, ?_⟩
  rw [List.perm_iff_count]
  intro x
  have hx := finished x
  have hj := given x
  simp only [items, collected, decoded, Hand.decoded?, Option.toList, List.count_append,
    List.count_nil] at hx hj ⊢
  omega

theorem Custody.collect (h : Custody batch submitted done a)
    (found : a.results.remove = (.item j, queue)) :
    Custody batch submitted done { a with results := queue, collected := a.collected ++ [j] } := by
  have items : a.results.items = [j] ++ queue.items := (Queue.remove_eq_item_iff.1 found).1
  have finished := List.perm_iff_count.1 h.decoded_perm
  refine ⟨h.batch_eq, h.submitted_perm, ?_⟩
  rw [List.perm_iff_count]
  intro x
  have hx := finished x
  simp only [items, decoded, List.count_append] at hx ⊢
  omega

theorem Custody.leave (h : Custody batch submitted done a) (hfree : a.hand? worker = some .free) :
    Custody batch submitted done (a.setHand worker .gone) := by
  have undecoded := undecoded_setHand hfree .gone
  have decoded := decoded_setHand hfree .gone
  exact ⟨h.batch_eq, ((undecoded.append_left _).append_right _).trans h.submitted_perm,
    ((decoded.append_right _).append_right _).trans h.decoded_perm⟩

theorem Custody.step (h : Custody batch submitted done a) (next : Step a b) :
    ∃ submitted' done', Custody batch submitted' done' b := by
  cases next with
  | submit hupcoming => exact ⟨_, done, h.submit hupcoming⟩
  | take hfree found => exact ⟨submitted, done, h.take hfree found⟩
  | decode hhand => exact ⟨submitted, _, h.decode hhand⟩
  | deliver hhand => exact ⟨submitted, done, h.deliver hhand⟩
  | collect _ found => exact ⟨submitted, done, h.collect found⟩
  | close => exact ⟨submitted, done, h.batch_eq, h.submitted_perm, h.decoded_perm⟩
  | leave hfree _ => exact ⟨submitted, done, h.leave hfree⟩

end Steps

theorem Reachable.custody (h : Reachable workers batch a) :
    ∃ submitted done, Custody batch submitted done a := by
  induction h with
  | start => exact ⟨[], [], custody_start workers batch⟩
  | step _ next ih =>
    obtain ⟨submitted, done, hcustody⟩ := ih
    exact hcustody.step next

theorem Custody.length_eq (h : Custody batch submitted done a) :
    a.jobs.items.length + a.undecoded.length + a.decoded.length + a.results.items.length +
      a.collected.length = submitted.length := by
  have waiting := h.submitted_perm.length_eq
  have finished := h.decoded_perm.length_eq
  simp only [List.length_append, List.length_map] at waiting finished
  omega

/-! ## The workers -/

theorem Step.length_hands (next : Step a b) : b.hands.length = a.hands.length := by
  cases next <;> simp [setHand]

theorem Reachable.length_hands (h : Reachable workers batch a) : a.hands.length = workers := by
  induction h with
  | start => exact List.length_replicate
  | step _ next ih => rw [next.length_hands, ih]

/-- A worker leaves only at a queue that is closed and empty. -/
theorem Step.left {worker : Nat} (next : Step a b) (here : a.hand? worker ≠ some .gone)
    (left : b.hand? worker = some .gone) :
    a.jobs.items = [] ∧ a.jobs.closed = true ∧ b.jobs = a.jobs := by
  have moved : ∀ {other : Nat} {new : Hand}, (a.setHand other new).hand? worker = some .gone →
      new = .gone := by
    intro other new hgone
    by_cases heq : other = worker
    · subst heq
      simp only [hand?, setHand, List.getElem?_set_self'] at hgone
      cases hold : a.hands[other]? <;> simp [hold] at hgone
      exact hgone
    · simp only [hand?, setHand, List.getElem?_set_ne heq] at hgone
      exact absurd hgone here
  cases next with
  | submit | collect | close => exact absurd left here
  | take | decode | deliver => cases moved left
  | leave _ found =>
    obtain ⟨hitems, hclosed, -⟩ := Queue.remove_eq_closed_iff.1 found
    exact ⟨hitems, hclosed, rfl⟩

theorem Step.gone_mem (next : Step a b) (h : .gone ∈ b.hands) :
    .gone ∈ a.hands ∨ b.jobs.items = [] ∧ b.jobs.closed = true := by
  obtain ⟨worker, hgone⟩ := List.mem_iff_getElem?.1 h
  by_cases here : a.hand? worker = some .gone
  · exact Or.inl (List.mem_of_getElem? here)
  · obtain ⟨hitems, hclosed, hjobs⟩ := next.left here hgone
    rw [hjobs]
    exact Or.inr ⟨hitems, hclosed⟩

theorem Step.closed (next : Step a b) (h : a.jobs.closed = true) : b.jobs.closed = true := by
  cases next with
  | take _ found => rw [← h, ← (Queue.remove_eq_item_iff.1 found).2]
  | close => rfl
  | _ => exact h

theorem Reachable.closed_of_gone (h : Reachable workers batch a) (hgone : .gone ∈ a.hands) :
    a.jobs.closed = true := by
  induction h with
  | start => cases (List.mem_replicate.1 hgone).2
  | step _ next ih =>
    rcases next.gone_mem hgone with hgone | ⟨-, hclosed⟩
    · exact next.closed (ih hgone)
    · exact hclosed

/-! ## Progress -/

section Effort

variable {worker : Nat} {j : Job} {rest : Queue Job}

theorem effort_take (h : a.hand? worker = some .free) (found : a.jobs.remove = (.item j, rest)) :
    effort { a.setHand worker (.undecoded j) with jobs := rest } + 1 = a.effort := by
  have hhand := effort_setHand h (.undecoded j)
  have hitems := congrArg List.length (Queue.remove_eq_item_iff.1 found).1
  have hjobs : (a.setHand worker (.undecoded j)).jobs = a.jobs := rfl
  simp only [effort, hjobs, Hand.effort, List.length_cons] at hhand hitems ⊢
  omega

theorem effort_decode (h : a.hand? worker = some (.undecoded j)) :
    (a.setHand worker (.decoded j.decode)).effort + 1 = a.effort := by
  have hhand := effort_setHand h (.decoded j.decode)
  simp only [Hand.effort] at hhand
  omega

theorem effort_deliver (h : a.hand? worker = some (.decoded j)) :
    effort { a.setHand worker .free with results := a.results.add j } + 1 = a.effort := by
  have hhand := effort_setHand h .free
  have hresults : (a.setHand worker .free).results = a.results := rfl
  simp only [effort, hresults, Hand.effort, Queue.add, List.length_append, List.length_singleton]
    at hhand ⊢
  omega

theorem effort_leave (h : a.hand? worker = some .free) :
    (a.setHand worker .gone).effort + 1 = a.effort := by
  have hhand := effort_setHand h .gone
  simp only [Hand.effort] at hhand
  omega

theorem Step.effort (next : Step a b) : b.effort + 1 = a.effort ∨ b = a.shut := by
  cases next with
  | submit h =>
    left
    simp only [Activity.effort, h, Queue.add, List.length_append, List.length_cons, List.length_nil]
    omega
  | take h found => exact Or.inl (effort_take h found)
  | decode h => exact Or.inl (effort_decode h)
  | deliver h => exact Or.inl (effort_deliver h)
  | collect _ found =>
    left
    simp only [Activity.effort, (Queue.remove_eq_item_iff.1 found).1, List.length_cons]
    omega
  | close => exact Or.inr rfl
  | leave h _ => exact Or.inl (effort_leave h)

end Effort

theorem exists_step_of_hand {hand : Hand} (hmem : hand ∈ a.hands) (hhere : hand ≠ .gone)
    (hready : hand = .free → a.jobs.items ≠ [] ∨ a.jobs.closed = true) :
    ∃ b, Step a b ∧ b.effort + 1 = a.effort ∧ b.upcoming = a.upcoming ∧
      b.collected = a.collected := by
  obtain ⟨worker, h⟩ := List.mem_iff_getElem?.1 hmem
  cases hand with
  | gone => exact absurd rfl hhere
  | undecoded j => exact ⟨_, .decode h, effort_decode h, rfl, rfl⟩
  | decoded j => exact ⟨_, .deliver h, effort_deliver h, rfl, rfl⟩
  | free =>
    cases hitems : a.jobs.items with
    | nil =>
      have hclosed : a.jobs.closed = true := by
        rcases hready rfl with hne | hclosed
        · exact absurd hitems hne
        · exact hclosed
      have found : a.jobs.remove = (.closed, a.jobs) :=
        Queue.remove_eq_closed_iff.2 ⟨hitems, hclosed, rfl⟩
      exact ⟨_, .leave h found, effort_leave h, rfl, rfl⟩
    | cons j rest =>
      have found : a.jobs.remove = (.item j, { a.jobs with items := rest }) :=
        Queue.remove_eq_item_iff.2 ⟨hitems, rfl⟩
      exact ⟨_, .take h found, effort_take h found, rfl, rfl⟩

theorem Custody.somewhere (h : Custody batch submitted done a)
    (hshort : a.collected.length < batch.length) :
    a.upcoming ≠ [] ∨ a.jobs.items ≠ [] ∨ a.undecoded ≠ [] ∨ a.decoded ≠ [] ∨
      a.results.items ≠ [] := by
  have places := h.length_eq
  have whole := congrArg List.length h.batch_eq
  rw [List.length_append] at whole
  simp only [ne_eq, ← List.length_eq_zero_iff]
  omega

/-- While the queue is open, the batch never comes to a halt before its last result. -/
theorem Reachable.exists_step (h : Reachable workers batch a) (hworkers : 0 < workers)
    (hopen : a.jobs.closed = false) (hshort : a.collected.length < batch.length) :
    ∃ b, Step a b ∧ b.effort + 1 = a.effort := by
  obtain ⟨submitted, done, hcustody⟩ := h.custody
  have stays : ∀ hand ∈ a.hands, hand ≠ .gone := by
    rintro hand hmem rfl
    rw [h.closed_of_gone hmem] at hopen
    cases hopen
  have goes : ∀ hand ∈ a.hands, (hand = .free → a.jobs.items ≠ [] ∨ a.jobs.closed = true) →
      ∃ b, Step a b ∧ b.effort + 1 = a.effort := by
    intro hand hmem hready
    obtain ⟨b, next, heffort, -⟩ := exists_step_of_hand hmem (stays hand hmem) hready
    exact ⟨b, next, heffort⟩
  cases hupcoming : a.upcoming with
  | cons j rest =>
    have next : Step a { a with upcoming := rest, jobs := a.jobs.add j } := .submit hupcoming
    refine ⟨_, next, next.effort.resolve_right fun heq => ?_⟩
    have hsame := congrArg (·.upcoming.length) heq
    simp [shut, hupcoming] at hsame
  | nil =>
    rcases hcustody.somewhere hshort with hne | hne | hne | hne | hne
    · exact absurd hupcoming hne
    · have hhands : 0 < a.hands.length := by rwa [h.length_hands]
      exact goes a.hands[0] (List.getElem_mem hhands) fun _ => Or.inl hne
    · obtain ⟨j, hj⟩ := List.exists_mem_of_ne_nil _ hne
      obtain ⟨hand, hmem, hsome⟩ := List.mem_filterMap.1 hj
      refine goes hand hmem ?_
      rintro rfl
      cases hsome
    · obtain ⟨j, hj⟩ := List.exists_mem_of_ne_nil _ hne
      obtain ⟨hand, hmem, hsome⟩ := List.mem_filterMap.1 hj
      refine goes hand hmem ?_
      rintro rfl
      cases hsome
    · obtain ⟨j, rest, hresults⟩ := List.exists_cons_of_ne_nil hne
      have found : a.results.remove = (.item j, { a.results with items := rest }) :=
        Queue.remove_eq_item_iff.2 ⟨hresults, rfl⟩
      refine ⟨_, .collect hupcoming found, ?_⟩
      simp only [Activity.effort, hresults, List.length_cons]
      omega

theorem Custody.finished (h : Custody batch submitted done a)
    (hall : a.collected.length = batch.length) :
    a.upcoming = [] ∧ a.jobs.items = [] ∧ a.undecoded = [] ∧ a.decoded = [] ∧
      a.results.items = [] := by
  have places := h.length_eq
  have whole := congrArg List.length h.batch_eq
  rw [List.length_append] at whole
  simp only [← List.length_eq_zero_iff]
  omega

theorem free_or_gone (hundecoded : a.undecoded = []) (hdecoded : a.decoded = []) :
    ∀ hand ∈ a.hands, hand = .free ∨ hand = .gone := by
  intro hand hmem
  cases hand with
  | free => exact Or.inl rfl
  | gone => exact Or.inr rfl
  | undecoded j => cases List.filterMap_eq_nil_iff.1 hundecoded _ hmem
  | decoded j => cases List.filterMap_eq_nil_iff.1 hdecoded _ hmem

theorem Custody.collected_perm (h : Custody batch submitted done a)
    (hall : a.collected.length = batch.length) : a.collected.Perm (batch.map Job.decode) := by
  obtain ⟨hupcoming, hitems, hundecoded, hdecoded, hresults⟩ := h.finished hall
  have whole := h.batch_eq
  have waiting := h.submitted_perm
  have finished := h.decoded_perm
  rw [hupcoming, List.append_nil] at whole
  rw [hitems, hundecoded, List.nil_append, List.nil_append, ← whole] at waiting
  rw [hdecoded, hresults, List.nil_append, List.nil_append] at finished
  exact finished.trans (waiting.map Job.decode)

/-! ## After a close -/

/-- From `a`, whose queue has just been closed, to `b`, with the jobs `later` submitted since. -/
structure Closing (a b : Activity) (later : List Job) : Prop where
  upcoming_eq : a.upcoming = later ++ b.upcoming
  closed : b.jobs.closed = true
  after_gone : .gone ∈ b.hands → b.jobs.items <:+ later

theorem Closing.shut (h : .gone ∉ a.hands) : Closing a a.shut [] where
  upcoming_eq := rfl
  closed := rfl
  after_gone hgone := absurd hgone h

theorem Step.queued (next : Step a b) :
    ∃ later, a.upcoming = later ++ b.upcoming ∧ b.jobs.items <:+ a.jobs.items ++ later := by
  cases next with
  | @submit j rest hupcoming => exact ⟨[j], hupcoming, List.suffix_refl _⟩
  | @take worker j rest _ found =>
    refine ⟨[], rfl, ?_⟩
    rw [(Queue.remove_eq_item_iff.1 found).1, List.append_nil]
    exact List.suffix_cons _ _
  | _ => exact ⟨[], rfl, [], (List.append_nil _).symm⟩

theorem Closing.step (h : Closing a b later) (next : Step b c) :
    ∃ more, Closing a c (later ++ more) := by
  obtain ⟨more, hupcoming, hitems⟩ := next.queued
  refine ⟨more, ?_, next.closed h.closed, ?_⟩
  · rw [h.upcoming_eq, hupcoming, List.append_assoc]
  · intro hgone
    rcases next.gone_mem hgone with hgone | ⟨hempty, -⟩
    · obtain ⟨taken, htaken⟩ := h.after_gone hgone
      refine hitems.trans ⟨taken, ?_⟩
      rw [← htaken, List.append_assoc]
    · rw [hempty]
      exact List.nil_suffix

theorem Closing.of_steps (h : .gone ∉ a.hands) (steps : Relation.ReflTransGen Step a.shut b) :
    ∃ later, Closing a b later := by
  induction steps with
  | refl => exact ⟨[], .shut h⟩
  | tail _ next ih =>
    obtain ⟨later, hclosing⟩ := ih
    obtain ⟨more, hclosing'⟩ := hclosing.step next
    exact ⟨later ++ more, hclosing'⟩

theorem Reachable.trans (h : Reachable workers batch a) (steps : Relation.ReflTransGen Step a b) :
    Reachable workers batch b := by
  induction steps with
  | refl => exact h
  | tail _ next ih => exact ih.step next

/-- Once all workers have left, every job submitted before the close has been decoded. -/
theorem Closing.decoded (h : Closing a b later) (hbatch : batch = submitted ++ a.upcoming)
    (hb : Reachable workers batch b) (hworkers : 0 < workers)
    (hgone : ∀ hand ∈ b.hands, hand = .gone) :
    ∃ among, among <+: later ∧
      (b.results.items ++ b.collected).Perm ((submitted ++ among).map Job.decode) := by
  obtain ⟨submitted', done, hcustody⟩ := hb.custody
  have hwhole : submitted' ++ b.upcoming = (submitted ++ later) ++ b.upcoming := by
    rw [← hcustody.batch_eq, hbatch, h.upcoming_eq, List.append_assoc]
  have hall : submitted' = submitted ++ later := List.append_cancel_right hwhole
  have hundecoded : b.undecoded = [] :=
    List.filterMap_eq_nil_iff.2 fun hand hmem => by rw [hgone hand hmem]; rfl
  have hdecoded : b.decoded = [] :=
    List.filterMap_eq_nil_iff.2 fun hand hmem => by rw [hgone hand hmem]; rfl
  have hhands : 0 < b.hands.length := by rwa [hb.length_hands]
  have hmem : Hand.gone ∈ b.hands := by
    have hfirst := List.getElem_mem hhands
    rwa [hgone _ hfirst] at hfirst
  obtain ⟨among, hamong⟩ := h.after_gone hmem
  refine ⟨among, ⟨_, hamong⟩, ?_⟩
  have waiting := hcustody.submitted_perm
  have finished := hcustody.decoded_perm
  rw [hundecoded, hall, List.append_nil, ← hamong, ← List.append_assoc] at waiting
  rw [hdecoded, List.nil_append] at finished
  have hdone : done.Perm (submitted ++ among) :=
    (List.perm_append_right_iff b.jobs.items).1 (List.perm_append_comm.trans waiting)
  exact finished.trans (hdone.map Job.decode)

/-- However the steps interleave, each submitted job is in one place and is decoded once.

The batch comes to its last result, all workers are free again by then, and a close costs no job
that was submitted before it. -/
theorem batch_decoded_once (hworkers : 0 < workers) (h : Reachable workers batch a) :
    a.hands.length = workers ∧
    (∃ submitted done, batch = submitted ++ a.upcoming ∧
      (a.jobs.items ++ a.undecoded ++ done).Perm submitted ∧
      (a.decoded ++ a.results.items ++ a.collected).Perm (done.map Job.decode) ∧
      (a.jobs.closed = false → ∀ b, Relation.ReflTransGen Step a.shut b →
        ∃ later, a.upcoming = later ++ b.upcoming ∧
          (.gone ∈ b.hands → b.jobs.items <:+ later) ∧
          ((∀ hand ∈ b.hands, hand = .gone) → ∃ among, among <+: later ∧
            (b.results.items ++ b.collected).Perm ((submitted ++ among).map Job.decode)) ∧
          ((∃ hand ∈ b.hands, hand ≠ .gone) → ∃ c, Step b c ∧ c.effort + 1 = b.effort ∧
            c.upcoming = b.upcoming ∧ c.collected = b.collected))) ∧
    (a.collected.length < batch.length →
      (a.upcoming ≠ [] ∨ a.jobs.items ≠ [] ∨ a.undecoded ≠ [] ∨ a.decoded ≠ [] ∨
        a.results.items ≠ []) ∧
      (a.jobs.closed = false → ∃ b, Step a b ∧ b.effort + 1 = a.effort)) ∧
    (∀ b, Step a b → (b.effort + 1 = a.effort ∨ b = a.shut) ∧
      ∀ worker, a.hand? worker ≠ some .gone → b.hand? worker = some .gone →
        a.jobs.items = [] ∧ a.jobs.closed = true) ∧
    (a.collected.length = batch.length →
      a.upcoming = [] ∧ a.jobs.items = [] ∧ a.results.items = [] ∧
      (∀ hand ∈ a.hands, hand = .free ∨ hand = .gone ∧ a.jobs.closed = true) ∧
      a.collected.Perm (batch.map Job.decode)) := by
  obtain ⟨submitted, done, hcustody⟩ := h.custody
  refine ⟨h.length_hands, ⟨submitted, done, hcustody.batch_eq, hcustody.submitted_perm,
    hcustody.decoded_perm, ?closing⟩, ?short, ?step, ?complete⟩
  case closing =>
    intro hopen b steps
    have stays : .gone ∉ a.hands := by
      intro hgone
      rw [h.closed_of_gone hgone] at hopen
      cases hopen
    obtain ⟨later, hclosing⟩ := Closing.of_steps stays steps
    have hb : Reachable workers batch b := (h.step .close).trans steps
    refine ⟨later, hclosing.upcoming_eq, hclosing.after_gone,
      hclosing.decoded hcustody.batch_eq hb hworkers, ?_⟩
    rintro ⟨hand, hmem, hhere⟩
    exact exists_step_of_hand hmem hhere fun _ => Or.inr hclosing.closed
  case short =>
    intro hshort
    exact ⟨hcustody.somewhere hshort, fun hopen => h.exists_step hworkers hopen hshort⟩
  case step =>
    intro b next
    refine ⟨next.effort, fun worker here left => ?_⟩
    obtain ⟨hitems, hclosed, -⟩ := next.left here left
    exact ⟨hitems, hclosed⟩
  case complete =>
    intro hall
    obtain ⟨hupcoming, hitems, hundecoded, hdecoded, hresults⟩ := hcustody.finished hall
    refine ⟨hupcoming, hitems, hresults, ?_, hcustody.collected_perm hall⟩
    intro hand hmem
    rcases free_or_gone hundecoded hdecoded hand hmem with hfree | rfl
    · exact Or.inl hfree
    · exact Or.inr ⟨rfl, h.closed_of_gone hmem⟩

/-- Two workers, of which the second is done first. -/
theorem reachable_overtaking (j k : Job) :
    Reachable 2 [j, k]
      { upcoming := [], hands := [.free, .free], collected := [k.decode, j.decode] } := by
  have taken : Reachable 2 [j, k]
      { upcoming := [], hands := [.undecoded j, .undecoded k] } :=
    (((Reachable.start.step (.submit rfl)).step (.submit rfl)).step
      (@Step.take _ 0 _ _ rfl rfl)).step (@Step.take _ 1 _ _ rfl rfl)
  have delivered : Reachable 2 [j, k]
      { upcoming := [], hands := [.free, .free], results := { items := [k.decode, j.decode] } } :=
    (((taken.step (@Step.decode _ 1 _ rfl)).step (@Step.deliver _ 1 _ rfl)).step
      (@Step.decode _ 0 _ rfl)).step (@Step.deliver _ 0 _ rfl)
  exact (delivered.step (.collect rfl rfl)).step (.collect rfl rfl)

theorem batch_decoded_once_overtaking :
    [Job.decode { slot := 1 }, Job.decode { slot := 0 }].Perm
      ([{ slot := 0 }, { slot := 1 }].map Job.decode) := by
  obtain ⟨-, -, -, -, complete⟩ :=
    batch_decoded_once (by decide) (reachable_overtaking { slot := 0 } { slot := 1 })
  obtain ⟨-, -, -, -, collected⟩ := complete rfl
  exact collected

end Activity
end EventReadout
