import SamFlash.Applet
import SamFlash.Chip
import SamFlash.Command.Reader
import SamFlash.Target.Memory

/-!
# A model of the target

What the byte stream does to a chip with the monitor on it. The monitor stores words and blocks in
RAM. A branch to the loaded and complete applet copies words from RAM into the flash latch. A flash
command that erases and writes a page moves the latch to that page, if its word carries the key;
bytes that the latch does not hold become ones. Everything the target is depends on the bytes it has
taken and on nothing else.
-/

namespace SamFlash

/-- A chip, and what its memories and controllers hold. -/
structure Target where
  chip : Chip
  /-- How far the monitor is in the stream. -/
  reader : Reader
  ram : Memory
  /-- Bytes waiting to be written to flash, by address. -/
  latch : Nat → Option UInt8
  flash : Memory
  /-- The mode word of each plane. -/
  mode : Nat → Word
  /-- The command words, each with its plane, the latest first. -/
  flashCommands : List (Nat × Word)
  /-- The pages that were written, the latest first. -/
  written : List Nat
  /-- The branches, each with whether the applet was there and complete, the latest first. -/
  branches : List (Word × Bool)

namespace Target

/-- A chip that has just been started, with empty flash. -/
def fresh (chip : Chip) : Target where
  chip := chip
  reader := Reader.start
  ram := Memory.filled 0
  latch := fun _ => none
  flash := Memory.filled 0xff
  mode := fun _ => 0
  flashCommands := []
  written := []
  branches := []

/-- The plane, among the first `left`, and the offset of a flash controller register. -/
def controllerRegister? (t : Target) (addr : Nat) : (left : Nat) → Option (Nat × Nat)
  | 0 => none
  | left + 1 =>
    let base := t.chip.controllerBase.toNat + left * FlashController.planeStride.toNat
    if base ≤ addr ∧ addr < base + 16 then some (left, addr - base)
    else t.controllerRegister? addr left

/-- Moves the latch to a page. -/
def commit (t : Target) (page : Nat) : Target :=
  let start := t.chip.flashBase.toNat + page * t.chip.pageSize
  let inside (i : Nat) : Bool := start ≤ i && i < start + t.chip.pageSize
  { t with
    flash := fun i => if inside i then (t.latch i).getD 0xff else t.flash i
    latch := fun i => if inside i then none else t.latch i
    written := page :: t.written }

/-- The key of a command word. -/
def keyOf (word : Word) : Word := word >>> 24

/-- The command code of a command word. -/
def codeOf (word : Word) : Word := word &&& 0xff

/-- The argument of a command word. -/
def argumentOf (word : Word) : Nat := ((word >>> 8) &&& 0xffff).toNat

/-- Takes a command word for a plane. Nothing is done for a word without the key. -/
def flashCommand (t : Target) (plane : Nat) (word : Word) : Target :=
  let t := { t with flashCommands := (plane, word) :: t.flashCommands }
  if keyOf word = FlashController.key ∧ codeOf word = FlashCommand.eraseWritePage.code then
    t.commit (plane * (t.chip.pages / t.chip.planes) + argumentOf word)
  else t

/-- A slot of the applet. -/
def slot (t : Target) (offset : Word) : Word :=
  t.ram.word (t.chip.ramUserBase.toNat + offset.toNat)

/-- A branch to `addr` starts the applet with everything in place. -/
def runsApplet (t : Target) (addr : Word) : Bool :=
  addr.toNat == t.chip.ramUserBase.toNat + Applet.stackOffset.toNat &&
    t.ram.load t.chip.ramUserBase.toNat Applet.instructions.length == Applet.instructions &&
    (t.slot Applet.resetOffset).toNat == t.chip.ramUserBase.toNat + 1 &&
    t.slot Applet.stackOffset == t.chip.ramStackTop

/-- Copies words from RAM to the latch. -/
def copy (t : Target) : Target :=
  let n := 4 * (t.slot Applet.wordsOffset).toNat
  let source := (t.slot Applet.sourceOffset).toNat
  let destination := (t.slot Applet.destinationOffset).toNat
  { t with
    latch := fun i =>
      if destination ≤ i ∧ i < destination + n then some (t.ram (source + (i - destination)))
      else t.latch i }

/-- Carries out a command. -/
def obey (t : Target) : Command → Target
  | .binaryMode => t
  | .readWord _ => t
  | .writeWord addr value =>
    match t.controllerRegister? addr.toNat t.chip.planes with
    | some (plane, offset) =>
      if offset = FlashController.commandOffset.toNat then t.flashCommand plane value
      else if offset = FlashController.modeOffset.toNat then
        { t with mode := fun p => if p = plane then value else t.mode p }
      else t
    | none => { t with ram := t.ram.store addr.toNat value.toBytes }
  | .writeBlock addr data => { t with ram := t.ram.store addr.toNat data }
  | .go addr =>
    let complete := t.runsApplet addr
    let t := { t with branches := (addr, complete) :: t.branches }
    if complete then t.copy else t

/-- Takes a byte of the stream. -/
def take (t : Target) (b : UInt8) : Target :=
  let (reader, command) := t.reader.feed b
  let t := { t with reader := reader }
  match command with
  | some c => t.obey c
  | none => t

/-- Takes a stream. -/
def takeAll (t : Target) (bs : List UInt8) : Target := bs.foldl take t

end Target

end SamFlash
