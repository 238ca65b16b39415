import EventReadout.Timestamp.Full

/-! The two coarse timestamps a decoder keeps while it walks a packet. -/
namespace EventReadout

structure CoarseTimestamps where
  previous : UInt64 := 0
  current : UInt64 := 0
  deriving DecidableEq, Repr, Inhabited

namespace CoarseTimestamps

/-- Zero stands for no broadcast: the value before is then taken one period back. -/
def observe (c : CoarseTimestamps) (coarse : UInt64) : CoarseTimestamps where
  previous :=
    if c.current = 0 then
      if coarse < Timestamp.period then 0 else coarse - Timestamp.period
    else c.current
  current := coarse

def resolve (c : CoarseTimestamps) (fine : UInt64) : Except TimestampMismatch UInt64 :=
  Timestamp.full fine c.previous c.current

end CoarseTimestamps
end EventReadout
