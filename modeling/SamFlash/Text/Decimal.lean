/-!
# Reading unsigned decimal numbers

A number is a run of ASCII digits below a bound, with one optional `+` in front and any number of
leading zeros. The three ways to be refused are told apart: nothing was written, some character is
not a digit, or the value reaches the bound. Characters are taken from the left, so a text that is
both too large and malformed is refused for whichever comes first.

Results:
* `read_lt`: a number that is read lies below the bound.
-/

namespace SamFlash.Decimal

/-- Why a text is not a number of the wanted range. -/
inductive Fault where
  | empty
  | invalidDigit
  | tooLarge
  deriving DecidableEq, Repr

/-- What is reported of a text that is refused. -/
def Fault.message : Fault → String
  | .empty => "cannot parse integer from empty string"
  | .invalidDigit => "invalid digit found in string"
  | .tooLarge => "number too large to fit in target type"

/-- The value of an ASCII digit. -/
def digitValue? (c : Char) : Option Nat :=
  if '0' ≤ c ∧ c ≤ '9' then some (c.toNat - 48) else none

/-- Continues the number `n` by the digits that follow. -/
def readFrom (bound : Nat) : Nat → List Char → Except Fault Nat
  | n, [] => .ok n
  | n, c :: cs =>
    match digitValue? c with
    | none => .error .invalidDigit
    | some d => if 10 * n + d < bound then readFrom bound (10 * n + d) cs else .error .tooLarge

/-- The number below `bound` that a text spells. -/
def read (bound : Nat) : List Char → Except Fault Nat
  | [] => .error .empty
  | ['+'] => .error .invalidDigit
  | '+' :: cs => readFrom bound 0 cs
  | cs => readFrom bound 0 cs

/-- The word that a text spells. -/
def readWord (s : String) : Except Fault UInt32 :=
  (read UInt32.size s.toList).map UInt32.ofNat

/-- The 64-bit size that a text spells. -/
def readSize (s : String) : Except Fault Nat := read UInt64.size s.toList

theorem readFrom_lt {bound : Nat} :
    ∀ {cs : List Char} {n v : Nat}, n < bound → readFrom bound n cs = .ok v → v < bound
  | [], n, v, h, e => by
    cases e
    exact h
  | c :: cs, n, v, h, e => by
    rw [readFrom] at e
    split at e
    · cases e
    · split at e
      · rename_i hlt
        exact readFrom_lt hlt e
      · cases e

theorem read_lt {bound : Nat} {cs : List Char} {v : Nat} (pos : 0 < bound)
    (e : read bound cs = .ok v) : v < bound := by
  unfold read at e
  split at e
  · cases e
  · cases e
  · exact readFrom_lt pos e
  · exact readFrom_lt pos e

end SamFlash.Decimal
