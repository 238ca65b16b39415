import EventReadout.Queue.Basic

/-!
A queue shared by threads that add, remove and close.

Each critical section is one step. Waiting gives the lock up and joins the waiters; a signal wakes
one waiter or all of them, and is lost if nobody waits. A waiter may also wake without a signal.
-/
namespace EventReadout

/-- Where a thread stands between two of its steps. -/
inductive ThreadPhase
  /-- Outside every call. -/
  | ready
  /-- An item has been added, and no waiter has been signalled yet. -/
  | signalling
  /-- The queue has been closed, and the waiters have not been signalled yet. -/
  | announcing
  | waiting
  /-- No longer a waiter, but without the lock so far. -/
  | woken
  deriving DecidableEq, Repr

/-- One step of a thread. -/
inductive ThreadAction (α : Type)
  | add (x : α)
  /-- Wakes the given waiter, or nobody if there is none. -/
  | signal (waiter : Option Nat)
  | close
  | announce
  /-- Looks at the queue, either on calling or after waking. -/
  | remove (found : Removal α)
  | wake
  deriving DecidableEq, Repr

structure SharedQueue (α : Type) where
  queue : Queue α := {}
  threads : List ThreadPhase
  /-- Every item added so far, oldest first. -/
  added : List α := []
  /-- Every item handed out so far, in that order. -/
  handedOut : List α := []
  /-- Some close has signalled the waiters. -/
  announced : Bool := false
  deriving DecidableEq, Repr

namespace SharedQueue

variable {α : Type}

/-- An open queue before the first call. -/
def idle (threads : Nat) : SharedQueue α := { threads := List.replicate threads .ready }

def phase? (s : SharedQueue α) (thread : Nat) : Option ThreadPhase := s.threads[thread]?

def move (s : SharedQueue α) (thread : Nat) (phase : ThreadPhase) : SharedQueue α :=
  { s with threads := s.threads.set thread phase }

def count (s : SharedQueue α) (phase : ThreadPhase) : Nat := s.threads.count phase

/-- Waiters become woken; nobody else moves. -/
def wakeAll (s : SharedQueue α) : SharedQueue α :=
  { s with threads := s.threads.map fun phase => if phase = .waiting then .woken else phase }

/-- A thread that is not in the middle of another call may look at the queue. -/
def MayRemove (s : SharedQueue α) (thread : Nat) : Prop :=
  s.phase? thread = some .ready ∨ s.phase? thread = some .woken

/-- `Step s i action t`: thread `i` takes one step from `s` to `t`. -/
inductive Step : SharedQueue α → Nat → ThreadAction α → SharedQueue α → Prop
  | add {s : SharedQueue α} {i : Nat} (x : α) (h : s.phase? i = some .ready) :
    Step s i (.add x)
      { s.move i .signalling with queue := s.queue.add x, added := s.added ++ [x] }
  | signalNobody {s : SharedQueue α} {i : Nat} (h : s.phase? i = some .signalling)
      (nobody : .waiting ∉ s.threads) :
    Step s i (.signal none) (s.move i .ready)
  | signalOne {s : SharedQueue α} {i j : Nat} (h : s.phase? i = some .signalling)
      (waiter : s.phase? j = some .waiting) :
    Step s i (.signal (some j)) ((s.move i .ready).move j .woken)
  | close {s : SharedQueue α} {i : Nat} (h : s.phase? i = some .ready) :
    Step s i .close { s.move i .announcing with queue := s.queue.close }
  | announce {s : SharedQueue α} {i : Nat} (h : s.phase? i = some .announcing) :
    Step s i .announce { (s.move i .ready).wakeAll with announced := true }
  | take {s : SharedQueue α} {i : Nat} {x : α} {rest : Queue α} (h : s.MayRemove i)
      (found : s.queue.remove = (.item x, rest)) :
    Step s i (.remove (.item x))
      { s.move i .ready with queue := rest, handedOut := s.handedOut ++ [x] }
  | leave {s : SharedQueue α} {i : Nat} {rest : Queue α} (h : s.MayRemove i)
      (found : s.queue.remove = (.closed, rest)) :
    Step s i (.remove .closed) (s.move i .ready)
  | wait {s : SharedQueue α} {i : Nat} {rest : Queue α} (h : s.MayRemove i)
      (found : s.queue.remove = (.blocked, rest)) :
    Step s i (.remove .blocked) (s.move i .waiting)
  | wake {s : SharedQueue α} {i : Nat} (h : s.phase? i = some .waiting) :
    Step s i .wake (s.move i .woken)

/-- What the threads can bring about, in any order of their steps. -/
inductive Reachable (threads : Nat) : SharedQueue α → Prop
  | start : Reachable threads (.idle threads)
  | step {s t : SharedQueue α} {i : Nat} {action : ThreadAction α} (h : Reachable threads s)
      (next : Step s i action t) : Reachable threads t

end SharedQueue
end EventReadout
