import EventReadout.Workers.Basic

/-!
Workers at work on one batch of jobs, step by step.

The batch is submitted first and its results are collected afterwards; in between, the workers'
steps interleave in any order, and the job queue may be closed at any time.
-/
namespace EventReadout

/-- What a worker has in hand. -/
inductive Hand
  | free
  | undecoded (j : Job)
  | decoded (j : Job)
  /-- The worker has left. -/
  | gone
  deriving DecidableEq, Repr

def Hand.job? : Hand → Option Job
  | free | gone => none
  | undecoded j | decoded j => some j

structure Activity where
  /-- Jobs of the batch that are still to be submitted. -/
  upcoming : List Job
  jobs : Queue Job := {}
  hands : List Hand
  results : Queue Job := {}
  /-- In the order of collection. -/
  collected : List Job := []
  deriving DecidableEq, Repr

namespace Activity

def start (workers : Nat) (batch : List Job) : Activity :=
  { upcoming := batch, hands := List.replicate workers .free }

def hand? (a : Activity) (worker : Nat) : Option Hand := a.hands[worker]?

def setHand (a : Activity) (worker : Nat) (hand : Hand) : Activity :=
  { a with hands := a.hands.set worker hand }

/-- Jobs that the workers hold. -/
def inHand (a : Activity) : List Job := a.hands.filterMap Hand.job?

inductive Step : Activity → Activity → Prop
  | submit {a : Activity} {j : Job} {rest : List Job} (h : a.upcoming = j :: rest) :
    Step a { a with upcoming := rest, jobs := a.jobs.add j }
  | take {a : Activity} {worker : Nat} {j : Job} {rest : Queue Job}
      (h : a.hand? worker = some .free) (found : a.jobs.remove = (.item j, rest)) :
    Step a { a.setHand worker (.undecoded j) with jobs := rest }
  | decode {a : Activity} {worker : Nat} {j : Job} (h : a.hand? worker = some (.undecoded j)) :
    Step a (a.setHand worker (.decoded j.decode))
  | deliver {a : Activity} {worker : Nat} {j : Job} (h : a.hand? worker = some (.decoded j)) :
    Step a { a.setHand worker .free with results := a.results.add j }
  | collect {a : Activity} {j : Job} {rest : Queue Job} (h : a.upcoming = [])
      (found : a.results.remove = (.item j, rest)) :
    Step a { a with results := rest, collected := a.collected ++ [j] }
  | close {a : Activity} : Step a { a with jobs := a.jobs.close }
  | leave {a : Activity} {worker : Nat} {rest : Queue Job} (h : a.hand? worker = some .free)
      (found : a.jobs.remove = (.closed, rest)) :
    Step a (a.setHand worker .gone)

/-- What can come of a batch, whatever the order of the steps. -/
inductive Reachable (workers : Nat) (batch : List Job) : Activity → Prop
  | start : Reachable workers batch (.start workers batch)
  | step {a b : Activity} (h : Reachable workers batch a) (next : Step a b) :
    Reachable workers batch b

end Activity
end EventReadout
