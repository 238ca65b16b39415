/-! The two classes of payload words. -/
namespace EventReadout

inductive WordKind
  | control
  | event
  deriving DecidableEq, Repr

def WordKind.name : WordKind → String
  | control => "control"
  | event => "event"

end EventReadout
