import EventReadout.Slice.Basic

/-! One wrap generation: a bucket of items for each time-slice buffer. -/
namespace EventReadout

structure Generation (α : Type) where
  /-- Each bucket is in order of arrival. -/
  buckets : List (List α)
  deriving DecidableEq, Repr

namespace Generation

variable {α : Type}

def empty (buffers : Nat) : Generation α := ⟨List.replicate buffers []⟩

def bufferCount (g : Generation α) : Nat := g.buckets.length

def bucket (g : Generation α) (buffer : Nat) : List α := g.buckets.getD buffer []

/-- An index beyond the buckets is refused. -/
def add? (g : Generation α) (buffer : Nat) (x : α) : Option (Generation α) :=
  if buffer < g.bufferCount then some ⟨g.buckets.modify buffer (· ++ [x])⟩ else none

def takeBuffer (g : Generation α) (buffer : Nat) : List α × Generation α :=
  (g.bucket buffer, ⟨g.buckets.set buffer []⟩)

/-- All items, buffer by buffer. -/
def toList (g : Generation α) : List α := g.buckets.flatten

def takeAll (g : Generation α) : List α × Generation α := (g.toList, .empty g.bufferCount)

def count (g : Generation α) : Nat := g.toList.length

end Generation
end EventReadout
