import EventReadout.Proofs.Frame.Jobs
import Mathlib.Data.List.Induction
import Mathlib.Order.Bounds.Basic

/-!
A pool that lends its items, told apart by their serial numbers.

Every item ever allocated is free or held by one holder, and the pool has allocated no more than it
was filled with or had to lend at once. What it lends is blank, whatever the last holder left in it,
and is the free item that came back last, if any has come back.
-/
namespace EventReadout

@[simp] theorem Numbered.serial_reset {α : Type} [Recyclable α] (x : Numbered α) :
    (Recyclable.reset x).serial = x.serial := rfl

namespace Pool

variable {α : Type} [Recyclable α] {p : Pool α}

theorem acquire_of_nil (h : p.free = []) :
    p.acquire = (Recyclable.fresh p.allocated, { p with allocated := p.allocated + 1 }) := by
  rw [acquire, h]

theorem acquire_of_cons {x : α} {rest : List α} (h : p.free = x :: rest) :
    p.acquire = (x, { p with free := rest }) := by
  rw [acquire, h]

/-- The pool without the serial numbers, which change nothing else about it. -/
def items {α : Type} (p : Pool (Numbered α)) : Pool α := ⟨p.free.map (·.item), p.allocated⟩

theorem items_prefilled (count : Nat) :
    (prefilled count : Pool (Numbered α)).items = prefilled count := by
  simp only [items, prefilled, List.map_map]
  rfl

theorem items_acquire (p : Pool (Numbered α)) :
    p.items.acquire = (p.acquire.1.item, p.acquire.2.items) := by
  cases hfree : p.free with
  | nil =>
    have hitems : p.items.free = [] := by rw [items, hfree, List.map_nil]
    rw [acquire_of_nil hitems, acquire_of_nil hfree]
    rfl
  | cons x rest =>
    have hitems : p.items.free = x.item :: rest.map (·.item) := by
      rw [items, hfree, List.map_cons]
    rw [acquire_of_cons hitems, acquire_of_cons hfree]
    rfl

theorem items_release (p : Pool (Numbered α)) (x : Numbered α) :
    (p.release x).items = p.items.release x.item := rfl

end Pool

structure Lending (α : Type) where
  pool : Pool (Numbered α)
  held : List (Numbered α) := []
  /-- Serial numbers of the items handed out, latest first. -/
  lent : List Nat := []
  /-- Serial numbers of the items given back, latest first. -/
  returned : List Nat := []

namespace Lending

/-- What holders do. Only an item that is held can be given back or changed. -/
inductive Action (α : Type)
  | acquire
  | release (serial : Nat)
  /-- The holder leaves anything at all in the item. -/
  | change (serial : Nat) (item : α)

section Runs

variable {α : Type} [Recyclable α]

def start (prefill : Nat) : Lending α := { pool := .prefilled prefill }

def acquire (l : Lending α) : Lending α :=
  { l with
    pool := l.pool.acquire.2
    held := l.pool.acquire.1 :: l.held
    lent := l.pool.acquire.1.serial :: l.lent }

def release (l : Lending α) (serial : Nat) : Lending α :=
  match l.held.find? (·.serial = serial) with
  | none => l
  | some x =>
    { l with
      pool := l.pool.release x
      held := l.held.eraseP (·.serial = serial)
      returned := x.serial :: l.returned }

def perform (l : Lending α) : Action α → Lending α
  | .acquire => l.acquire
  | .release serial => l.release serial
  | .change serial item =>
    { l with held := l.held.map fun x => if x.serial = serial then { x with item } else x }

def run (prefill : Nat) (actions : List (Action α)) : Lending α :=
  actions.foldl perform (start prefill)

/-- All that an action can bring about. -/
inductive Effect (l : Lending α) : Lending α → Prop
  | grown (hfree : l.pool.free = []) :
    Effect l
      { l with
        pool := { l.pool with allocated := l.pool.allocated + 1 }
        held := Recyclable.fresh l.pool.allocated :: l.held
        lent := l.pool.allocated :: l.lent }
  | lent {x : Numbered α} {rest : List (Numbered α)} (hfree : l.pool.free = x :: rest) :
    Effect l
      { l with
        pool := { l.pool with free := rest }
        held := x :: l.held
        lent := x.serial :: l.lent }
  | returned {x : Numbered α} {before after : List (Numbered α)}
      (hheld : l.held = before ++ x :: after) :
    Effect l
      { l with
        pool := l.pool.release x
        held := before ++ after
        returned := x.serial :: l.returned }
  | kept {held : List (Numbered α)} (hserials : held.map (·.serial) = l.held.map (·.serial)) :
    Effect l { l with held }

theorem perform_effect (l : Lending α) (action : Action α) : Effect l (l.perform action) := by
  cases action with
  | acquire =>
    rw [perform, acquire]
    cases hfree : l.pool.free with
    | nil =>
      rw [Pool.acquire_of_nil hfree]
      exact .grown hfree
    | cons x rest =>
      rw [Pool.acquire_of_cons hfree]
      exact .lent hfree
  | release serial =>
    simp only [perform, release]
    cases hfind : l.held.find? (·.serial = serial) with
    | none => exact .kept rfl
    | some x =>
      obtain ⟨hx, before, after, hheld, hbefore⟩ := List.find?_eq_some_iff_append.1 hfind
      have hrest : l.held.eraseP (·.serial = serial) = before ++ after := by
        rw [hheld, List.eraseP_append_right _ (by simpa using hbefore)]
        rw [List.eraseP_cons_of_pos (by exact hx)]
      rw [hrest]
      exact .returned hheld
  | change serial item =>
    refine .kept ?_
    rw [List.map_map]
    apply List.map_congr_left
    intro x _
    dsimp only [Function.comp_apply]
    split <;> rfl

end Runs

/-! ## Who is where, and whose turn it is -/

section Order

variable {α : Type}

/-- Of the free items that `line` names, the first one is the one that came back last. If none of
them has come back, it was there from the start and has never been lent. -/
def Turn (prefill : Nat) (l : Lending α) (line : List Nat) : Prop :=
  ∀ first ∈ line.head?, match l.returned.find? (· ∈ line) with
    | some last => first = last
    | none => first < prefill ∧ first ∉ l.lent

structure Orderly (prefill : Nat) (l : Lending α) : Prop where
  serials_perm : ((l.held ++ l.pool.free).map (·.serial)).Perm (List.range l.pool.allocated)
  turn : ∀ line, line <:+ l.pool.free.map (·.serial) → l.Turn prefill line

variable {prefill : Nat} {l l' : Lending α}

theorem Orderly.nodup (h : l.Orderly prefill) :
    ((l.held ++ l.pool.free).map (·.serial)).Nodup :=
  h.serials_perm.nodup_iff.2 List.nodup_range

theorem Orderly.available_add (h : l.Orderly prefill) :
    l.pool.available + l.held.length = l.pool.allocated := by
  have hlength := h.serials_perm.length_eq
  simp only [List.length_map, List.length_append, List.length_range] at hlength
  rw [Pool.available]
  omega

variable [Recyclable α]

theorem orderly_start (prefill : Nat) : (start prefill : Lending α).Orderly prefill := by
  have hserials : (start prefill : Lending α).pool.free.map (·.serial) =
      (List.range prefill).reverse := by
    simp only [start, Pool.prefilled, List.map_map]
    exact List.map_id _
  constructor
  · rw [List.map_append, hserials]
    exact List.reverse_perm _
  · intro line hline first hfirst
    have hmem : first ∈ (List.range prefill).reverse := by
      rw [← hserials]
      exact hline.subset (List.mem_of_mem_head? hfirst)
    exact ⟨by simpa using hmem, List.not_mem_nil⟩

theorem Effect.serials_perm (e : Effect l l') (h : l.Orderly prefill) :
    ((l'.held ++ l'.pool.free).map (·.serial)).Perm (List.range l'.pool.allocated) := by
  have hperm := h.serials_perm
  cases e with
  | grown hfree =>
    rw [List.range_succ]
    exact (hperm.cons _).trans (List.perm_append_singleton _ _).symm
  | lent hfree =>
    rw [hfree] at hperm
    exact (List.perm_middle.symm.map _).trans hperm
  | @returned x before after hheld =>
    rw [hheld] at hperm
    refine List.Perm.trans ?_ hperm
    simp only [Pool.release, List.map_append, List.map_cons, List.append_assoc, List.cons_append]
    exact List.perm_middle.append_left _
  | kept hserials =>
    rw [List.map_append, hserials, ← List.map_append]
    exact hperm

theorem Effect.turn (e : Effect l l') (h : l.Orderly prefill) (line : List Nat)
    (hline : line <:+ l'.pool.free.map (·.serial)) : l'.Turn prefill line := by
  have hnodup := h.nodup
  cases e with
  | grown hfree =>
    intro first hfirst
    rw [hfree, List.map_nil, List.suffix_nil] at hline
    rw [hline] at hfirst
    cases hfirst
  | @lent x rest hfree =>
    rw [hfree, List.map_append, List.nodup_append] at hnodup
    have hwas : line <:+ l.pool.free.map (·.serial) := by
      rw [hfree]
      exact hline.trans (List.suffix_cons _ _)
    intro first hfirst
    have hne : first ≠ x.serial := by
      rintro rfl
      exact (List.nodup_cons.1 hnodup.2.1).1 (hline.subset (List.mem_of_mem_head? hfirst))
    have hturn := h.turn line hwas first hfirst
    cases hfind : l.returned.find? (· ∈ line) with
    | some last => simpa only [hfind] using hturn
    | none => simpa only [hfind, List.mem_cons, hne, false_or] using hturn
  | @returned x before after hheld =>
    have hout : x.serial ∉ l.pool.free.map (·.serial) := by
      rw [hheld, List.map_append, List.nodup_append] at hnodup
      intro hfree
      exact hnodup.2.2 _ (List.mem_map_of_mem (List.mem_append_right _ List.mem_cons_self)) _
        hfree rfl
    intro first hfirst
    rcases List.suffix_cons_iff.1 hline with rfl | hwas
    · -- the item that has just come back is the first in line
      have hx : x.serial = first := by simpa using hfirst
      simp [hx]
    · have hnot : x.serial ∉ line := fun hmem => hout (hwas.subset hmem)
      have hturn := h.turn line hwas first hfirst
      simpa only [List.find?_cons, hnot, decide_false] using hturn
  | kept hserials => exact h.turn line hline

theorem Effect.orderly (e : Effect l l') (h : l.Orderly prefill) : l'.Orderly prefill :=
  ⟨e.serials_perm h, e.turn h⟩

/-- The pool grows only to lend more than it has allocated. -/
theorem Effect.allocated_eq (e : Effect l l') (h : l.Orderly prefill) :
    l'.pool.allocated = max l.pool.allocated l'.held.length := by
  have hlength := h.available_add
  rw [Pool.available] at hlength
  cases e with
  | grown hfree =>
    rw [hfree, List.length_nil] at hlength
    simp only [List.length_cons]
    omega
  | lent hfree =>
    rw [hfree, List.length_cons] at hlength
    simp only [List.length_cons]
    omega
  | returned hheld =>
    rw [hheld, List.length_append, List.length_cons] at hlength
    simp only [Pool.release, List.length_append]
    omega
  | kept hserials =>
    have hsame := congrArg List.length hserials
    rw [List.length_map, List.length_map] at hsame
    simp only
    omega

theorem run_concat (prefill : Nat) (actions : List (Action α)) (action : Action α) :
    run prefill (actions ++ [action]) = (run prefill actions).perform action := by
  rw [run, List.foldl_append]
  rfl

theorem orderly_run (prefill : Nat) (actions : List (Action α)) :
    (run prefill actions).Orderly prefill := by
  induction actions using List.reverseRecOn with
  | nil => exact orderly_start prefill
  | append_singleton actions action ih =>
    rw [run_concat]
    exact (perform_effect _ action).orderly ih

/-- How many items have been out at once, at the different times up to now. -/
def heldCounts (prefill : Nat) (actions : List (Action α)) : Set Nat :=
  {count | ∃ earlier, earlier <+: actions ∧ (run prefill earlier).held.length = count}

theorem heldCounts_concat (prefill : Nat) (actions : List (Action α)) (action : Action α) :
    heldCounts prefill (actions ++ [action]) =
      insert (run prefill (actions ++ [action])).held.length (heldCounts prefill actions) := by
  ext count
  simp only [heldCounts, List.prefix_concat_iff, or_and_right, exists_or, exists_eq_left,
    Set.mem_insert_iff, Set.mem_ofPred_eq, eq_comm]

theorem exists_mostHeld (prefill : Nat) (actions : List (Action α)) :
    ∃ most, IsGreatest (heldCounts prefill actions) most ∧
      (run prefill actions).pool.allocated = max prefill most := by
  induction actions using List.reverseRecOn with
  | nil =>
    refine ⟨0, ⟨⟨[], List.prefix_rfl, rfl⟩, ?_⟩, (Nat.max_zero prefill).symm⟩
    rintro count ⟨earlier, hearlier, rfl⟩
    rw [List.prefix_nil.1 hearlier]
    rfl
  | append_singleton actions action ih =>
    obtain ⟨most, hmost, hallocated⟩ := ih
    refine ⟨max (run prefill (actions ++ [action])).held.length most, ?_, ?_⟩
    · rw [heldCounts_concat]
      exact hmost.insert _
    · have hgrown := (perform_effect (run prefill actions) action).allocated_eq
        (orderly_run prefill actions)
      rw [← run_concat, hallocated] at hgrown
      omega

end Order

/-! ## Jobs -/

theorem Effect.blank {l l' : Lending Job} (e : Effect l l') (h : l.pool.items.Blank) :
    l'.pool.items.Blank := by
  cases e with
  | grown _ | kept _ => exact h
  | lent hfree =>
    intro j hj
    apply h
    rw [Pool.items, hfree]
    exact List.mem_cons_of_mem _ hj
  | @returned x _ _ _ =>
    rw [Pool.items_release]
    exact h.release x.item

theorem blank_run (prefill : Nat) (actions : List (Action Job)) :
    (run prefill actions).pool.items.Blank := by
  induction actions using List.reverseRecOn with
  | nil =>
    have hitems : (run prefill ([] : List (Action Job))).pool.items = Pool.prefilled prefill :=
      Pool.items_prefilled prefill
    rw [hitems]
    exact .prefilled prefill
  | append_singleton actions action ih =>
    rw [run_concat]
    exact (perform_effect _ action).blank ih

end Lending

/-- Nothing in the job tells of a packet that it was used for. -/
structure Job.IsBlank (j : Job) : Prop where
  slot : j.slot = 0
  packetNumber : j.packetNumber = 0
  slice_id : j.slice.id = 0
  wrap : j.slice.wrap = 0
  buffer : j.slice.buffer = 0
  words : j.words = []
  events : j.decoded.events.events = #[]
  controls : j.decoded.controls = #[]
  mismatches : j.decoded.mismatches = #[]
  malformedStart : j.decoded.malformedStart = false

theorem Job.isBlank_blank : Job.blank.IsBlank := by
  constructor <;> rfl

namespace Lending

/--
Whatever holders have done, no job is held twice or both held and free, the next job lent is blank,
and the pool has allocated no more than it had to. As long as a job is free, the next one lent is
the one that came back last or, if none of the free ones has come back, one that was never lent.
-/
theorem lent_distinct_and_blank (prefill : Nat) (actions : List (Action Job)) :
    let l := run prefill actions
    ((l.held ++ l.pool.free).map (·.serial)).Nodup ∧
      l.pool.acquire.1.item.IsBlank ∧
      l.pool.available + l.held.length = l.pool.allocated ∧
      (∃ most, IsGreatest (heldCounts prefill actions) most ∧
        l.pool.allocated = max prefill most) ∧
      (l.pool.free ≠ [] → match l.returned.find? (· ∈ l.pool.free.map (·.serial)) with
        | some last => l.pool.acquire.1.serial = last
        | none => l.pool.acquire.1.serial < prefill ∧ l.pool.acquire.1.serial ∉ l.lent) := by
  intro l
  have horderly : l.Orderly prefill := orderly_run prefill actions
  have hblank : l.pool.acquire.1.item = Job.blank := by
    have hitems := (blank_run prefill actions).acquire.1
    rwa [Pool.items_acquire] at hitems
  refine ⟨horderly.nodup, ?blank, horderly.available_add, exists_mostHeld prefill actions, ?turn⟩
  case blank =>
    rw [hblank]
    exact Job.isBlank_blank
  case turn =>
    intro hfree
    obtain ⟨x, rest, hfree⟩ := List.exists_cons_of_ne_nil hfree
    rw [Pool.acquire_of_cons hfree]
    exact horderly.turn _ List.suffix_rfl x.serial (by rw [hfree]; rfl)

end Lending
end EventReadout
