import SamFlash.Link

/-!
# Monitor operations

What the monitor can do for the host: read and write words, store blocks, branch, and, built from
reads, identify the chip. A read is answered by the four bytes of the word, low byte first. Writes
and branches are not answered; they are flushed so that they have left before the next step.

Results:
* `Word.ofBytes_toBytes`: the bytes of a word, low byte first, give the word back.
* `Monitor.isArmVector_iff`: the byte of a reset vector that tells an ARM7 branch.
-/

namespace SamFlash

/-- The word whose bytes are given, low byte first. -/
def Word.ofBytes (bytes : List UInt8) : Word :=
  Word.ofSize (bytes.foldr (fun b n => b.toNat + 256 * n) 0)

/-- The four bytes of a word, low byte first. -/
def Word.toBytes (w : Word) : List UInt8 :=
  let n := w.toNat
  [n, n / 256, n / 256 / 256, n / 256 / 256 / 256].map UInt8.ofNat

theorem Word.ofBytes_toBytes (w : Word) : Word.ofBytes w.toBytes = w := by
  have h := w.toNat_lt
  rw [← UInt32.toNat_inj]
  simp only [Word.ofBytes, Word.toBytes, Word.ofSize, List.map_cons, List.map_nil,
    List.foldr_cons, List.foldr_nil, UInt32.toNat_ofNat', UInt8.toNat_ofNat']
  omega

namespace Monitor

variable {ε : Type}

/-- The vector that the core starts from. -/
def resetVectorAddress : Word := 0x00000000

/-- The bits of a reset vector that tell an ARM7 branch. -/
def armBranchMask : Word := 0xff000000

/-- The value of those bits in an ARM7 branch. -/
def armBranchOpcode : Word := 0xea000000

/-- Chip id register of SAM7 parts. -/
def sam7ChipIdAddress : Word := 0xfffff240

/-- Chip id register of SAM3 parts. -/
def sam3ChipIdAddress : Word := 0x400e0740

/-- Chip id register of SAM3 parts that have it elsewhere. -/
def sam3AlternateChipIdAddress : Word := 0x400e0940

/-- Enters binary mode; nothing else works before. -/
def connect (o : Options) : Link ε Unit := Link.handshake o

/-- The word at an address of the target. -/
def readWord (o : Options) (addr : Word) : Link ε Word := do
  Link.send (Command.readWord addr).header
  let bytes ← Link.receiveExactly o 4
  let value := Word.ofBytes bytes
  Link.log (.wordRead addr value)
  return value

/-- Stores a word. -/
def writeWord (addr value : Word) : Link ε Unit := do
  Link.log (.wordWritten addr value)
  Link.send (Command.writeWord addr value).header
  Link.flush

/-- Stores a block of bytes. -/
def writeBlock (addr : Word) (data : List UInt8) : Link ε Unit := do
  Link.log (.blockWritten addr data.length)
  Link.send (Command.writeBlock addr data).header
  Link.flush
  Link.send data
  Link.flush

/-- Branches to an address. Nothing on the wire says when the code there comes back. -/
def go (addr : Word) : Link ε Unit := do
  Link.log (.branched addr)
  Link.send (Command.go addr).header
  Link.flush

/-- The reset vector is an ARM7 branch. -/
def isArmVector (vector : Word) : Bool := vector &&& armBranchMask == armBranchOpcode

theorem isArmVector_iff {vector : Word} :
    isArmVector vector = true ↔ vector &&& 0xff000000 = 0xea000000 := beq_iff_eq

/-- The chip id. The reset vector tells which register holds it; on SAM3 parts a zero in the usual
place means that the register is in the other one. -/
def chipId (o : Options) : Link ε Word := do
  let vector ← readWord o resetVectorAddress
  if isArmVector vector then
    Link.log (.armVector vector)
    readWord o sam7ChipIdAddress
  else
    Link.log (.cortexVector vector)
    let id ← readWord o sam3ChipIdAddress
    if id = 0 then readWord o sam3AlternateChipIdAddress else return id

end Monitor

end SamFlash
