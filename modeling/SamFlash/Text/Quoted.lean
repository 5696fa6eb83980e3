import SamFlash.Text.Hex
import SamFlash.Text.Unseen

/-!
# Quoted text

A text between double quotes in which the double quote and the backslash are escaped by a backslash,
the usual control characters have their letter, and any other character that does not show by itself
stands as its hexadecimal number between braces. The single quote ends nothing and is left alone.

Results:
* `escape_of_plain`: a character that shows and is neither the double quote nor the backslash is
  written as itself.
-/

namespace SamFlash.Text

/-- The written form of one character. -/
def escape (c : Char) : List Char :=
  if c.toNat = 0 then ['\\', '0']
  else if c.toNat = 9 then ['\\', 't']
  else if c.toNat = 10 then ['\\', 'n']
  else if c.toNat = 13 then ['\\', 'r']
  else if c.toNat = 34 ∨ c.toNat = 92 then ['\\', c]
  else if isUnseen c then
    ['\\', 'u', Char.ofNat 123] ++ Hex.padded .lower 1 c.toNat ++ [Char.ofNat 125]
  else [c]

/-- The text between quotes. -/
def quoted (s : String) : String :=
  let quote := Char.ofNat 34
  String.ofList ([quote] ++ s.toList.flatMap escape ++ [quote])

theorem escape_of_plain {c : Char} (seen : isUnseen c = false) (quote : c.toNat ≠ 34)
    (backslash : c.toNat ≠ 92) : escape c = [c] := by
  have low : ¬ c.toNat < 32 := by
    intro h
    rw [unseen_of_control h] at seen
    cases seen
  unfold escape
  rw [if_neg (by omega), if_neg (by omega), if_neg (by omega), if_neg (by omega),
    if_neg (by omega), seen]
  rfl

end SamFlash.Text
