import SamFlash.Chip
import SamFlash.Monitor

/-!
# Working with the flash controllers

Commands go to the controller of one plane; readiness is asked of all. `awaitReady` reads the status
of every plane, in order, in rounds: a locked page ends it at once, a round in which every plane is
ready ends it well, and after the last round the first plane that was not ready in that round is
blamed.
-/

namespace SamFlash.FlashController

variable {ε : Type}

/-- Writes a register of a plane's controller. -/
def writeRegister (c : Chip) (plane : Nat) (offset value : Word) : Link ε Unit := do
  let addr ← Link.exact (c.register plane offset)
  Monitor.writeWord addr value

/-- Gives a command to a plane's controller. -/
def command (c : Chip) (plane : Nat) (cmd : FlashCommand) (arg : Word) : Link ε Unit := do
  Link.log (.flashCommand plane cmd arg)
  writeRegister c plane commandOffset (cmd.word arg)

/-- Reads the status of `left` planes from `plane` on. Gives the first plane of the round that is
not ready, where `busy` is the one found so far. -/
def scanPlanes (o : Options) (c : Chip) (stage : Stage) :
    (left plane : Nat) → (busy : Option Nat) → Link ε (Option Nat)
  | 0, _, busy => pure busy
  | left + 1, plane, busy => do
    let addr ← Link.exact (c.register plane statusOffset)
    let status ← Monitor.readWord o addr
    if isLocked status then
      Link.log (.lockError plane stage)
      Link.fail (.flashLock plane stage)
    else
      scanPlanes o c stage left (plane + 1)
        (if !isReady status && busy.isNone then some plane else busy)

/-- Does `left` rounds, after `tried` rounds of which the last one found `busy` not ready. -/
def pollRounds (o : Options) (c : Chip) (stage : Stage) :
    (left : Nat) → (tried : Word) → (busy : Option Nat) → Link ε Unit
  | 0, _, busy => do
    let plane := busy.getD 0
    Link.log (.commandTimeout plane stage)
    Link.fail (.flashCommandTimeout plane stage o.statusRetries)
  | left + 1, tried, _ => do
    let busy ← scanPlanes o c stage c.planes 0 none
    if busy.isSome then
      let tried ← Link.exact (Word.add tried 1)
      if tried < o.statusRetries then Link.delay o.statusDelay
      pollRounds o c stage left tried busy

/-- Waits until all planes are ready in one round. -/
def awaitReady (o : Options) (c : Chip) (stage : Stage) : Link ε Unit :=
  pollRounds o c stage o.statusRetries.toNat 0 none

end SamFlash.FlashController
