import SamFlash.Arithmetic

/-!
# The embedded flash controller

Every flash plane has its own controller with four registers: mode, command, status and result. A
command is one word that holds a key in its top byte, a 16-bit argument and the command code. The
status word tells whether the controller is ready and whether the last command met a locked page. It
also tells whether the last command was refused as invalid, which nobody looks at.

Results:
* `FlashController.isReady_iff`, `FlashController.isLocked_iff`: the bits of a status word that count.
* `FlashController.isReady_or_commandErrorBit`, `FlashController.isLocked_or_commandErrorBit`: an
  invalid command goes unnoticed.
* `FlashCommand.code_inj`: no two commands share a code.
-/

namespace SamFlash

namespace FlashController

/-- The distance between the register blocks of neighbouring planes. -/
def planeStride : Word := 0x200

/-- Offset of the mode register. -/
def modeOffset : Word := 0x00

/-- Offset of the command register. -/
def commandOffset : Word := 0x04

/-- Offset of the status register. -/
def statusOffset : Word := 0x08

/-- Offset of the result register. -/
def resultOffset : Word := 0x0c

/-- Status bit: ready for a command. -/
def readyBit : Word := 1

/-- Status bit: the last command was not valid. -/
def commandErrorBit : Word := 2

/-- Status bit: the last command met a locked page. -/
def lockErrorBit : Word := 4

/-- The key that every command word carries. -/
def key : Word := 0x5a

/-- The mode word for programming: six wait states, as the silicon's errata ask. -/
def programmingMode : Word := 0x600

/-- The status word says ready. -/
def isReady (status : Word) : Bool := status &&& readyBit != 0

/-- The status word reports a locked page. -/
def isLocked (status : Word) : Bool := status &&& lockErrorBit != 0

theorem isReady_iff {status : Word} : isReady status = true ↔ status &&& 1 ≠ 0 := bne_iff_ne

theorem isReady_eq_false_iff {status : Word} : isReady status = false ↔ status &&& 1 = 0 :=
  bne_eq_false_iff_eq

theorem isLocked_iff {status : Word} : isLocked status = true ↔ status &&& 4 ≠ 0 := bne_iff_ne

theorem isLocked_eq_false_iff {status : Word} : isLocked status = false ↔ status &&& 4 = 0 :=
  bne_eq_false_iff_eq

theorem isReady_or_commandErrorBit (status : Word) :
    isReady (status ||| commandErrorBit) = isReady status := by
  rw [isReady, isReady, Word.or_and_of_disjoint rfl]

theorem isLocked_or_commandErrorBit (status : Word) :
    isLocked (status ||| commandErrorBit) = isLocked status := by
  rw [isLocked, isLocked, Word.or_and_of_disjoint rfl]

end FlashController

/-- What a flash controller can be told to do. -/
inductive FlashCommand where
  | getDescriptor
  | writePage
  | writePageLock
  | eraseWritePage
  | eraseWritePageLock
  | eraseAll
  | setLockBit
  | clearLockBit
  | getLockBit
  | setGpnvmBit
  | clearGpnvmBit
  | getGpnvmBit
  deriving DecidableEq, Repr

namespace FlashCommand

/-- All commands, by ascending code. -/
def all : List FlashCommand :=
  [getDescriptor, writePage, writePageLock, eraseWritePage, eraseWritePageLock, eraseAll,
    setLockBit, clearLockBit, getLockBit, setGpnvmBit, clearGpnvmBit, getGpnvmBit]

/-- The code of a command. -/
def code : FlashCommand → Word
  | getDescriptor => 0x0
  | writePage => 0x1
  | writePageLock => 0x2
  | eraseWritePage => 0x3
  | eraseWritePageLock => 0x4
  | eraseAll => 0x5
  | setLockBit => 0x8
  | clearLockBit => 0x9
  | getLockBit => 0xa
  | setGpnvmBit => 0xb
  | clearGpnvmBit => 0xc
  | getGpnvmBit => 0xd

/-- The name of a command in log messages. -/
def name : FlashCommand → String
  | getDescriptor => "GetDescriptor"
  | writePage => "WritePage"
  | writePageLock => "WritePageLock"
  | eraseWritePage => "EraseWritePage"
  | eraseWritePageLock => "EraseWritePageLock"
  | eraseAll => "EraseAll"
  | setLockBit => "SetLockBit"
  | clearLockBit => "ClearLockBit"
  | getLockBit => "GetLockBit"
  | setGpnvmBit => "SetGpnvmBit"
  | clearGpnvmBit => "ClearGpnvmBit"
  | getGpnvmBit => "GetGpnvmBit"

/-- The command word with an argument, of which the low 16 bits count. -/
def word (c : FlashCommand) (arg : Word) : Word :=
  (FlashController.key <<< 24) ||| ((arg &&& 0xffff) <<< 8) ||| c.code

theorem code_inj : ∀ {a b : FlashCommand}, a.code = b.code → a = b := by
  intro a b
  cases a <;> cases b <;> first | (intro; rfl) | (intro h; exact absurd h (by decide))

theorem mem_all (c : FlashCommand) : c ∈ all := by
  cases c <;> decide

end FlashCommand

end SamFlash
