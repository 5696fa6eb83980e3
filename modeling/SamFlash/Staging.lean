import SamFlash.Arithmetic

/-!
# Staging buffers

Two neighbouring page buffers in target RAM that take turns: while the flash controller still
works on a page that came from one of them, the next page is loaded into the other.
-/

namespace SamFlash

/-- The two buffers and whose turn it is. -/
structure Staging where
  first : Word
  second : Word
  onSecond : Bool
  deriving DecidableEq, Repr

namespace Staging

/-- Two buffers of `pageSize` bytes from `base` on, with the first one to go first. -/
def ofBase (base : Word) (pageSize : Nat) : Checked Staging := do
  let second ← Word.add base (Word.ofSize pageSize)
  return { first := base, second := second, onSecond := false }

/-- The address of the buffer that the next page goes to. -/
def current (s : Staging) : Word := if s.onSecond then s.second else s.first

/-- The other buffer's turn. -/
def swap (s : Staging) : Staging := { s with onSecond := !s.onSecond }

end Staging

end SamFlash
