/-!
# How a target stops

After a resume or a step the target reports that a signal stopped it, that its
program exited, or that a signal ended it. Only the first leaves it able to
take further commands.
-/

namespace AvrConformance

/-- Why the target stopped running. -/
inductive Stop where
  | signal (number : UInt8)
  | exited (status : UInt8)
  | terminated (number : UInt8)
  deriving DecidableEq

namespace Stop

/-- The signal that, delivered with a resume, asks the target to reset itself. -/
def hangup : UInt8 := 1

/-- The signal that ends a step or meets a breakpoint. -/
def trap : UInt8 := 5

/-- Can the target take further commands? -/
def isStopped : Stop → Bool
  | signal _ => true
  | _ => false

/-- The stop in words, as a predicate of the target. -/
def text : Stop → String
  | signal number => s!"stopped with signal {number}"
  | exited status => s!"exited with status {status}"
  | terminated number => s!"terminated by signal {number}"

end Stop

end AvrConformance
