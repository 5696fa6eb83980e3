import SamFlash.Applet
import SamFlash.Target.Memory

/-!
# Thumb code

The few Thumb instructions that the word copy applet is made of, with their meaning on a machine
with eight low registers, a stack pointer, a link register and the zero flag. A machine that has
branched through its link register is back in the monitor.

Results:
* `Thumb.decode_instructions`: what the bytes of the applet decode to.
-/

namespace SamFlash.Thumb

/-- The instructions in use. -/
inductive Instruction where
  /-- Load a low register from the word at an offset from the aligned program counter. -/
  | loadLiteral (rd : Fin 8) (offset : Nat)
  /-- Branch by an offset from the program counter. -/
  | branch (offset : Int)
  /-- Branch if the last result was not zero. -/
  | branchNotZero (offset : Int)
  /-- Load r3 and step the pointer register. -/
  | loadStep (rn : Fin 8)
  /-- Store r3 and step the pointer register. -/
  | storeStep (rn : Fin 8)
  /-- Subtract a constant. -/
  | subtract (rd : Fin 8) (n : Nat)
  /-- Compare with a constant. -/
  | compare (rn : Fin 8) (n : Nat)
  /-- Move a low register to the stack pointer. -/
  | setStack (rm : Fin 8)
  /-- Branch through the link register. -/
  | returnToCaller
  deriving DecidableEq, Repr

/-- A register number of three bits. -/
def register (n : Nat) : Fin 8 := Fin.ofNat 8 n

/-- The value of the low `bits` bits, the top one of them being the sign. -/
def signed (bits n : Nat) : Int :=
  let n := n % (1 <<< bits)
  if n < 1 <<< (bits - 1) then n else n - (1 <<< bits : Nat)

/-- The instruction that a halfword encodes. -/
def decode (h : Nat) : Option Instruction :=
  let low := h % 256
  let rd := register (h / 256)
  match h / 2048 with
  | 0b01001 => some (.loadLiteral rd (4 * low))
  | 0b11100 => some (.branch (2 * signed 11 h))
  | 0b11010 => if h / 256 = 0xd1 then some (.branchNotZero (2 * signed 8 h)) else none
  | 0b11001 => if low = 0x08 then some (.loadStep rd) else none
  | 0b11000 => if low = 0x08 then some (.storeStep rd) else none
  | 0b00111 => some (.subtract rd low)
  | 0b00101 => some (.compare rd low)
  | 0b01000 =>
    if h = 0x4770 then some .returnToCaller
    else if h / 64 = 0x11a ∧ h % 8 = 5 then some (.setStack (register (h / 8)))
    else none
  | _ => none

/-- The state of the machine. -/
structure Machine where
  registers : Fin 8 → Word
  stackPointer : Word
  programCounter : Nat
  zero : Bool
  memory : Memory

/-- Writes a register. -/
def Machine.set (m : Machine) (r : Fin 8) (w : Word) : Machine :=
  { m with registers := fun s => if s = r then w else m.registers s }

/-- What a step leads to. -/
inductive Outcome where
  | running (m : Machine)
  /-- Back in the monitor. -/
  | returned (m : Machine)
  /-- The core takes a fault: an instruction that is not known, or a word that is not aligned. -/
  | stuck

/-- Carries out an instruction. -/
def Machine.execute (m : Machine) : Instruction → Outcome
  | .loadLiteral rd offset =>
    let addr := (m.programCounter + 4) / 4 * 4 + offset
    .running { m.set rd (m.memory.word addr) with programCounter := m.programCounter + 2 }
  | .branch offset =>
    .running { m with programCounter := (m.programCounter + 4 + offset).toNat }
  | .branchNotZero offset =>
    if m.zero then .running { m with programCounter := m.programCounter + 2 }
    else .running { m with programCounter := (m.programCounter + 4 + offset).toNat }
  | .loadStep rn =>
    let addr := m.registers rn
    if addr.toNat % 4 = 0 then
      .running
        { (m.set rn (addr + 4)).set 3 (m.memory.word addr.toNat) with
          programCounter := m.programCounter + 2 }
    else .stuck
  | .storeStep rn =>
    let addr := m.registers rn
    if addr.toNat % 4 = 0 then
      .running
        { m.set rn (addr + 4) with
          memory := m.memory.store addr.toNat (m.registers 3).toBytes
          programCounter := m.programCounter + 2 }
    else .stuck
  | .subtract rd n =>
    let value := m.registers rd - Word.ofSize n
    .running { m.set rd value with zero := value == 0, programCounter := m.programCounter + 2 }
  | .compare rn n =>
    .running
      { m with
        zero := m.registers rn == Word.ofSize n
        programCounter := m.programCounter + 2 }
  | .setStack rm =>
    .running
      { m with stackPointer := m.registers rm, programCounter := m.programCounter + 2 }
  | .returnToCaller => .returned m

/-- The halfword at an address, low byte first. -/
def halfword (m : Memory) (addr : Nat) : Nat := (m addr).toNat + 256 * (m (addr + 1)).toNat

/-- Carries out the instruction at the program counter. -/
def Machine.step (m : Machine) : Outcome :=
  match decode (halfword m.memory m.programCounter) with
  | some i => m.execute i
  | none => .stuck

/-- Up to `n` steps. -/
def Machine.run : Nat → Machine → Outcome
  | 0, m => .running m
  | n + 1, m =>
    match m.step with
    | .running m => run n m
    | o => o

/-- The monitor's branch to a vector table: the stack pointer comes first in the table, then the entry
address. Without the bit that selects Thumb state the core takes a fault. -/
def Machine.enter (m : Machine) (vector : Nat) : Outcome :=
  let entry := (m.memory.word (vector + 4)).toNat
  if entry % 2 = 1 then
    .running { m with stackPointer := m.memory.word vector, programCounter := entry - 1 }
  else .stuck

/-- The machine when the code behind a vector table is back in the monitor, if it takes up to `n`
steps. -/
def Machine.call (n : Nat) (m : Machine) (vector : Nat) : Option Machine :=
  match m.enter vector with
  | .running m =>
    match m.run n with
    | .returned m => some m
    | _ => none
  | _ => none

/-- What the monitor makes of a command, with memory everywhere and code that is back in up to `n`
steps. -/
def Machine.obey (n : Nat) (m : Machine) : Command → Option Machine
  | .binaryMode => some m
  | .readWord _ => some m
  | .writeWord addr value =>
    some { m with memory := m.memory.store addr.toNat value.toBytes }
  | .writeBlock addr data => some { m with memory := m.memory.store addr.toNat data }
  | .go addr => m.call n addr.toNat

/-- The halfwords that bytes make up, low byte first. -/
def halfwords : List UInt8 → List Nat
  | low :: high :: rest => (low.toNat + 256 * high.toNat) :: halfwords rest
  | _ => []

/-- The applet. -/
def routine : List Instruction :=
  [.loadLiteral 0 36, .loadLiteral 1 40, .loadLiteral 2 40, .branch 4,
    .loadStep 1, .storeStep 0, .subtract 2 1, .compare 2 0, .branchNotZero (-12),
    .loadLiteral 0 16, .compare 0 0, .branchNotZero 2, .loadLiteral 0 4, .setStack 0,
    .returnToCaller]

/-- The halfword behind the applet is never reached. -/
theorem decode_instructions :
    (halfwords Applet.instructions).map decode = routine.map some ++ [none] := by
  decide

end SamFlash.Thumb
