import EventReadout.Job.Basic

/-! Pools that hand out recycled items, the most recently returned one first. -/
namespace EventReadout

class Recyclable (α : Type) where
  /-- A blank item, given how many were allocated before it. -/
  fresh : Nat → α
  /-- Makes a used item blank again. -/
  reset : α → α

instance : Recyclable Job := ⟨fun _ => .blank, Job.reset⟩

/-- An item that keeps its serial number through every reset. -/
structure Numbered (α : Type) where
  serial : Nat
  item : α
  deriving DecidableEq, Repr

instance {α : Type} [Recyclable α] : Recyclable (Numbered α) where
  fresh n := ⟨n, Recyclable.fresh n⟩
  reset x := ⟨x.serial, Recyclable.reset x.item⟩

structure Pool (α : Type) where
  /-- Latest first. -/
  free : List α
  allocated : Nat
  deriving DecidableEq, Repr

namespace Pool

variable {α : Type} [Recyclable α]

def prefilled (count : Nat) : Pool α := ⟨(List.range count).reverse.map Recyclable.fresh, count⟩

/-- An empty pool allocates. -/
def acquire (p : Pool α) : α × Pool α :=
  match p.free with
  | x :: rest => (x, { p with free := rest })
  | [] => (Recyclable.fresh p.allocated, { p with allocated := p.allocated + 1 })

def release (p : Pool α) (x : α) : Pool α := { p with free := Recyclable.reset x :: p.free }

def available (p : Pool α) : Nat := p.free.length

end Pool
end EventReadout
