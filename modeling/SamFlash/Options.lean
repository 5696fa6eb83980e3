import SamFlash.Arithmetic

/-!
# Options of a session

The waiting times and bounds of a session, and whether programming ends by making the chip start
from flash.
-/

namespace SamFlash

/-- How long to wait for what; times are in milliseconds. -/
structure Options where
  /-- How long the monitor may take to answer. -/
  responseTimeout : Word := 100
  /-- The pause between two looks for an answer. -/
  pollDelay : Word := 1
  /-- How often the flash status is read before a command is given up. -/
  statusRetries : Word := 500
  /-- The pause between two readings of the flash status. -/
  statusDelay : Word := 100
  /-- How long the boot flag takes to latch. -/
  settleTime : Word := 10000
  /-- Leave the boot source as it is after programming. -/
  keepBootSource : Bool := false
  deriving DecidableEq, Repr

end SamFlash
