import SamFlash.Command

/-!
# Reading the command stream

The monitor's side of the wire. It collects bytes up to the terminator and takes what it collected
as one command; after the text that announces a block it takes exactly the announced number of
bytes, whatever they are, and the command is complete with the last of them. A text that is no
command is dropped.

Results:
* `feedAll_append`: reading a stream in two pieces is reading it whole.
* `feed_block`: inside a block every byte counts as one byte of the block, the terminator too.
-/

namespace SamFlash

/-- What the text before a terminator says. -/
inductive Announcement where
  /-- A command with nothing after its text. -/
  | whole (c : Command)
  /-- A block of the given length follows. -/
  | block (addr : Word) (length : Nat)
  deriving DecidableEq, Repr

/-- Two words separated by a comma. -/
def Announcement.pair? (cs : List Char) : Option (Word × Word) :=
  match Hex.word? (cs.take 8), cs.drop 8 with
  | some a, ',' :: rest => (Hex.word? rest).map fun b => (a, b)
  | _, _ => none

/-- What a text without its terminator announces. -/
def Announcement.ofText? : List Char → Option Announcement
  | ['N'] => some (.whole .binaryMode)
  | 'w' :: cs =>
    match Hex.word? (cs.take 8), cs.drop 8 with
    | some addr, [',', '4'] => some (.whole (.readWord addr))
    | _, _ => none
  | 'W' :: cs => (pair? cs).map fun p => .whole (.writeWord p.1 p.2)
  | 'S' :: cs => (pair? cs).map fun p => .block p.1 p.2.toNat
  | 'G' :: cs => (Hex.word? cs).map fun addr => .whole (.go addr)
  | _ => none

/-- How far the monitor is in the stream. -/
inductive Reader where
  /-- Between commands or inside the text of one; the collected bytes, last one first. -/
  | text (collected : List UInt8)
  /-- Inside a block with `missing + 1` bytes to come; the bytes taken, last one first. -/
  | block (addr : Word) (missing : Nat) (taken : List UInt8)
  deriving DecidableEq, Repr

namespace Reader

/-- At a command boundary. -/
def start : Reader := text []

/-- The collected text, in order. -/
def collectedText (collected : List UInt8) : List Char :=
  collected.reverse.map fun b => Char.ofNat b.toNat

/-- Takes one byte; gives the command that it completes, if it does. -/
def feed : Reader → UInt8 → Reader × Option Command
  | text collected, b =>
    if b = Command.terminator.toUInt8 then
      match Announcement.ofText? (collectedText collected) with
      | some (.whole c) => (start, some c)
      | some (.block addr 0) => (start, some (.writeBlock addr []))
      | some (.block addr (n + 1)) => (block addr n [], none)
      | none => (start, none)
    else (text (b :: collected), none)
  | block addr 0 taken, b => (start, some (.writeBlock addr (b :: taken).reverse))
  | block addr (n + 1) taken, b => (block addr n (b :: taken), none)

/-- Takes the bytes in order; gives the commands that they complete. -/
def feedAll : Reader → List UInt8 → Reader × List Command
  | r, [] => (r, [])
  | r, b :: bs =>
    let (r', c) := r.feed b
    let (r'', cs) := feedAll r' bs
    (r'', c.toList ++ cs)

theorem feedAll_cons (r : Reader) (b : UInt8) (bs : List UInt8) :
    feedAll r (b :: bs) =
      ((feedAll (r.feed b).1 bs).1, (r.feed b).2.toList ++ (feedAll (r.feed b).1 bs).2) := rfl

theorem feedAll_append (r : Reader) (xs ys : List UInt8) :
    feedAll r (xs ++ ys) =
      ((feedAll (feedAll r xs).1 ys).1, (feedAll r xs).2 ++ (feedAll (feedAll r xs).1 ys).2) := by
  induction xs generalizing r with
  | nil => rfl
  | cons x xs ih =>
    rw [List.cons_append, feedAll_cons, ih, feedAll_cons]
    simp only [List.append_assoc]

/-- Inside a block no byte has a meaning of its own. -/
theorem feed_block (addr : Word) (n : Nat) (taken : List UInt8) (b : UInt8) :
    (block addr n taken).feed b =
      match n with
      | 0 => (start, some (.writeBlock addr (b :: taken).reverse))
      | n + 1 => (block addr n (b :: taken), none) := by
  cases n <;> rfl

end Reader

end SamFlash
