import SamFlash.Page

/-!
# The programmer

A programmer identifies the chip, writes images to its flash and selects what it starts from. It
remembers the chip once it has been identified, and how the last call went. An operation that needs
the chip identifies it when it is not known yet; any error leaves the programmer failed, and a
program that failed has to be started over from the first page.
-/

namespace SamFlash

/-- How far a session has come. -/
inductive Phase where
  /-- The monitor has not been contacted. -/
  | fresh
  /-- The chip has been identified. -/
  | connected
  /-- An image is being written. -/
  | programming
  /-- An image has been written and the boot source set. -/
  | complete
  /-- The last call failed. -/
  | failed
  deriving DecidableEq, Repr

/-- What a programmer remembers between calls. -/
structure Programmer where
  phase : Phase := .fresh
  /-- The chip, once it has been identified. -/
  chip : Option Chip := none
  deriving DecidableEq, Repr

namespace Programmer

variable {ε α : Type}

/-- An operation of a programmer, which keeps what it remembers also when it fails. -/
abbrev Call (ε α : Type) := ExceptT (Failure ε) (StateT Programmer (Dialogue ε)) α

/-- An operation of the link as an operation of a programmer. -/
def ofLink (x : Link ε α) : Call ε α :=
  ExceptT.mk fun p => x.run.bind fun r => .done (r, p)

/-- Marks how far the session has come. -/
def enter (phase : Phase) : Call ε Unit := modify fun p => { p with phase := phase }

/-- Remembers that a call failed. -/
def tracked (x : Call ε α) : Call ε α :=
  ExceptT.mk fun p => (x.run p).bind fun (r, q) =>
    .done (r, match r with
      | .error (.error _) => { q with phase := .failed }
      | _ => q)

/-! ## Identification -/

/-- The chip that the monitor runs on. -/
def findChip (o : Options) : Link ε Chip := do
  Link.log .connecting
  Monitor.connect o
  let id ← Monitor.chipId o
  match Chip.lookup id with
  | none =>
    Link.log (.chipUnknown id)
    Link.fail (.unknownChip id)
  | some chip =>
    Link.log (.chipFound chip.name id)
    return chip

/-- Identifies the chip and remembers it. -/
def detect (o : Options) : Call ε Chip := do
  let chip ← ofLink (findChip o)
  set ({ phase := .connected, chip := some chip } : Programmer)
  return chip

/-- The chip; identifies it if it is not known. -/
def connected (o : Options) : Call ε Chip := do
  match (← get).chip with
  | some chip => return chip
  | none => detect o

/-! ## Boot source -/

/-- Makes the chip start from flash, or from the monitor's ROM. -/
def writeBootFlag (o : Options) (c : Chip) (fromFlash : Bool) : Link ε Unit := do
  Link.log (.bootSource fromFlash)
  Link.during .bootFlag do
    FlashController.awaitReady o c .bootFlag
    FlashController.command c 0 (if fromFlash then .setGpnvmBit else .clearGpnvmBit)
      c.bootFlagArgument
    FlashController.awaitReady o c .bootFlag
  Link.log (.settling o.settleTime)
  Link.delay o.settleTime

/-! ## Programming -/

/-- Writes the pages of an image of `size` bytes, waits until the last one is in flash, and sets the
boot source if that is wanted. -/
def writePages (o : Options) (c : Chip) (size pages : Nat) (observed : Bool) : Link ε Unit := do
  Link.log (.writing size pages c.name)
  let workspace ← Workspace.setUp c
  Page.tell observed (.begin c.flashBase pages)
  Page.writeAll o c size observed pages 0 0 workspace
  if o.keepBootSource then
    let last ← Link.exact (Size.sub pages 1)
    Link.during (.page last) (FlashController.awaitReady o c (.page last))
  else
    writeBootFlag o c true
  Page.tell observed .finish
  Link.log .programmingComplete

/-- Refuses an image that is larger than flash; otherwise gives the number of pages that it
takes. -/
def pagesOf (c : Chip) (size : Nat) : Link ε Nat := do
  let capacity ← Link.exact c.capacity
  if capacity < size then
    Link.log (.imageTooLarge size capacity)
    Link.fail (.imageTooLarge size capacity)
  else
    Link.exact (pageCount size c.pageSize)

/-- Writes an image of `size` bytes. -/
def writeImage (o : Options) (size : Nat) (observed : Bool) : Call ε Unit := do
  let chip ← connected o
  let pages ← ofLink (pagesOf chip size)
  if pages = 0 then
    ofLink (Link.log .imageEmpty)
  else
    enter .programming
    ofLink (writePages o chip size pages observed)
  enter .complete

/-! ## Calls -/

/-- Enters binary mode and identifies the chip. -/
def identify (o : Options) : Call ε Chip := tracked (detect o)

/-- Writes `size` bytes of the image to flash, from the first page on, and then makes the chip start
from flash unless the options say otherwise. -/
def program (o : Options) (size : Nat) (observed : Bool) : Call ε Unit :=
  tracked (writeImage o size observed)

/-- Selects what the chip starts from. -/
def setBootSource (o : Options) (fromFlash : Bool) : Call ε Unit :=
  tracked do
    let chip ← connected o
    ofLink (writeBootFlag o chip fromFlash)

end Programmer

end SamFlash
