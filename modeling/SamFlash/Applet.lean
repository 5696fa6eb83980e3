import SamFlash.Monitor

/-!
# The word copy applet

A small Thumb routine that runs on the target: it copies a number of words from one address to
another and returns to the monitor. Its parameters are words at the end of its own code, so it is
set up anew with single word writes. The address handed to the monitor's branch is that of a small
vector table inside the applet: the stack pointer, followed by the entry address whose low bit
selects Thumb state.

Results:
* `Applet.code_length`: the routine with its parameters takes 52 bytes.
* `Applet.slots_fit`: every parameter is a word inside the routine, after the instructions.
-/

namespace SamFlash

/-- An applet that has been loaded at an address. -/
structure Applet where
  base : Word
  deriving DecidableEq, Repr

namespace Applet

variable {ε : Type}

/-- The instructions. -/
def instructions : List UInt8 :=
  [0x09, 0x48, 0x0a, 0x49, 0x0a, 0x4a, 0x02, 0xe0, 0x08, 0xc9, 0x08, 0xc0, 0x01, 0x3a, 0x00, 0x2a,
    0xfa, 0xd1, 0x04, 0x48, 0x00, 0x28, 0x01, 0xd1, 0x01, 0x48, 0x85, 0x46, 0x70, 0x47, 0xc0, 0x46]

/-- The instructions and, still zero, the five parameters. -/
def code : List UInt8 := instructions ++ List.replicate 20 0

/-- Where the code is entered. -/
def startOffset : Word := 0x00

/-- The initial stack pointer; this is what the monitor branches to. -/
def stackOffset : Word := 0x20

/-- The entry address. -/
def resetOffset : Word := 0x24

/-- The address that is copied to. -/
def destinationOffset : Word := 0x28

/-- The address that is copied from. -/
def sourceOffset : Word := 0x2c

/-- The number of words to copy. -/
def wordsOffset : Word := 0x30

theorem code_length : code.length = 0x34 := rfl

theorem slots_fit :
    ∀ s ∈ [stackOffset, resetOffset, destinationOffset, sourceOffset, wordsOffset],
      instructions.length ≤ s.toNat ∧ s.toNat + 4 ≤ code.length ∧ s.toNat % 4 = 0 := by
  intro s hs
  simp only [List.mem_cons, List.not_mem_nil, or_false] at hs
  rcases hs with rfl | rfl | rfl | rfl | rfl <;> decide

/-- The number of bytes that the applet takes in RAM. -/
def size : Word := Word.ofSize code.length

/-- Loads the applet. -/
def load (base : Word) : Link ε Applet := do
  Link.log (.appletLoading base)
  Monitor.writeBlock base code
  return ⟨base⟩

/-- Stores a parameter. -/
def setSlot (a : Applet) (offset value : Word) : Link ε Unit := do
  let addr ← Link.exact (Word.add a.base offset)
  Monitor.writeWord addr value

/-- Sets the stack pointer that the applet runs with. -/
def setStack (a : Applet) (value : Word) : Link ε Unit := do
  Link.log (.appletStack value)
  a.setSlot stackOffset value

/-- Sets the number of words to copy. -/
def setWords (a : Applet) (value : Word) : Link ε Unit := do
  Link.log (.appletWords value)
  a.setSlot wordsOffset value

/-- Sets the address that is copied from. -/
def setSource (a : Applet) (value : Word) : Link ε Unit := do
  Link.log (.appletSource value)
  a.setSlot sourceOffset value

/-- Sets the address that is copied to. -/
def setDestination (a : Applet) (value : Word) : Link ε Unit := do
  Link.log (.appletDestination value)
  a.setSlot destinationOffset value

/-- The entry address, with the bit that selects Thumb state. -/
def entry (a : Applet) : Checked Word := do
  let start ← Word.add a.base startOffset
  Word.add start 1

/-- Starts the copy with the current parameters; does not wait for its end. -/
def run (a : Applet) : Link ε Unit := do
  Link.log .appletRun
  let reset ← Link.exact (Word.add a.base resetOffset)
  let entry ← Link.exact a.entry
  Monitor.writeWord reset entry
  let stack ← Link.exact (Word.add a.base stackOffset)
  Monitor.go stack

end Applet

end SamFlash
