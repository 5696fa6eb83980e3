import SamFlash.Arithmetic
import SamFlash.Text.Hex

/-!
# Commands of the ROM monitor

A command is a letter, its arguments as eight upper-case hexadecimal digits each, separated by
commas, and the terminator `#`. Only the command that stores a block has anything after its
terminator: the raw bytes of the block, as many as it announced. The wire form of a command is the
text and the block together.

Results:
* `length_wire`: how many bytes a command takes on the wire.
-/

namespace SamFlash

/-- What the host asks of the monitor. -/
inductive Command where
  /-- Leave the interactive mode. -/
  | binaryMode
  /-- Send back the word at an address. -/
  | readWord (addr : Word)
  /-- Store a word. -/
  | writeWord (addr value : Word)
  /-- Store a block of bytes. -/
  | writeBlock (addr : Word) (data : List UInt8)
  /-- Branch to an address. -/
  | go (addr : Word)
  deriving DecidableEq, Repr

namespace Command

/-- The character that ends the text of a command. -/
def terminator : Char := '#'

/-- How many bytes acknowledge the change to binary mode. -/
def acknowledgementLength : Nat := 2

/-- An argument of a command. -/
def argument (n : Nat) : List Char := Hex.padded .upper 8 n

/-- The text of a command, without its terminator. -/
def body : Command → List Char
  | binaryMode => ['N']
  | readWord addr => 'w' :: (argument addr.toNat ++ [',', '4'])
  | writeWord addr value => 'W' :: (argument addr.toNat ++ ',' :: argument value.toNat)
  | writeBlock addr data => 'S' :: (argument addr.toNat ++ ',' :: argument data.length)
  | go addr => 'G' :: argument addr.toNat

/-- The text of a command. -/
def text (c : Command) : List Char := c.body ++ [terminator]

/-- The text of a command as it is sent; every character of it is ASCII. -/
def header (c : Command) : List UInt8 := c.text.map Char.toUInt8

/-- The raw bytes that follow the text. -/
def payload : Command → List UInt8
  | writeBlock _ data => data
  | _ => []

/-- All that a command puts on the wire. -/
def wire (c : Command) : List UInt8 := c.header ++ c.payload

theorem length_argument {n : Nat} (h : n < UInt32.size) : (argument n).length = 8 :=
  Hex.length_padded _ _ _ h

/-- The length on the wire, for a block that a word can count. -/
theorem length_wire (c : Command) (h : c.payload.length < UInt32.size) :
    c.wire.length = c.payload.length + match c with
      | binaryMode => 2
      | readWord _ => 12
      | writeWord .. => 19
      | writeBlock .. => 19
      | go _ => 10 := by
  have word (w : Word) : (argument w.toNat).length = 8 := length_argument w.toNat_lt_size
  cases c with
  | binaryMode => rfl
  | readWord addr => simp [wire, header, text, body, payload, word]
  | writeWord addr value => simp [wire, header, text, body, payload, word]
  | writeBlock addr data =>
    have := length_argument (n := data.length) h
    simp only [wire, header, text, body, payload, List.length_append, List.length_map,
      List.length_cons, List.length_nil, word, this]
    omega
  | go addr => simp [wire, header, text, body, payload, word]

end Command

end SamFlash
