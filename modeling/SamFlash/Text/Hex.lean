/-!
# Hexadecimal numbers

Writing a natural number in base sixteen, in either letter case and padded to a least width, and
reading a word back from exactly eight upper-case digits.

Results:
* `length_padded`: a number below the power `w` of 16, padded to `w`, has exactly `w` digits.
* `upperValue?_digit`: the reader gives each upper-case digit its value.
* `word?_padded`: the eight digits written for a word read back as that word.
-/

namespace SamFlash.Hex

/-- Whether the digits above nine are written `A` to `F` or `a` to `f`. -/
inductive LetterCase where
  | upper
  | lower
  deriving DecidableEq, Repr

/-- The character for a digit value below sixteen. -/
def digit (letters : LetterCase) (d : Nat) : Char :=
  if d < 10 then Char.ofNat (48 + d)
  else match letters with
    | .upper => Char.ofNat (55 + d)
    | .lower => Char.ofNat (87 + d)

/-- The digits of a number, without leading zeros; `0` has one digit. -/
def digits (letters : LetterCase) (n : Nat) : List Char :=
  if n < 16 then [digit letters n] else digits letters (n / 16) ++ [digit letters (n % 16)]
termination_by n

/-- The digits of a number with leading zeros up to the given width; a longer number keeps all its
digits. -/
def padded (letters : LetterCase) : Nat → Nat → List Char
  | 0, n => if n = 0 then [] else digits letters n
  | width + 1, n => padded letters width (n / 16) ++ [digit letters (n % 16)]

/-- A word as eight lower-case digits. -/
def word (w : UInt32) : String := String.ofList (padded .lower 8 w.toNat)

/-- A number in lower case with no leading zeros. -/
def plain (n : Nat) : String := String.ofList (padded .lower 1 n)

/-- The value of a digit whose letters are in upper case. -/
def upperValue? (c : Char) : Option Nat :=
  if '0' ≤ c ∧ c ≤ '9' then some (c.toNat - 48)
  else if 'A' ≤ c ∧ c ≤ 'F' then some (c.toNat - 55)
  else none

/-- The number that a run of upper-case digits continues from `n`. -/
def upperFrom? : Nat → List Char → Option Nat
  | n, [] => some n
  | n, c :: cs => (upperValue? c).bind fun d => upperFrom? (16 * n + d) cs

/-- The word written as exactly eight upper-case digits. -/
def word? (cs : List Char) : Option UInt32 :=
  if cs.length = 8 then (upperFrom? 0 cs).map UInt32.ofNat else none

/-! ## Writing and reading -/

theorem length_padded (letters : LetterCase) :
    ∀ (width n : Nat), n < Nat.pow 16 width → (padded letters width n).length = width
  | 0, n, h => by
    have : n = 0 := by simpa using h
    simp [padded, this]
  | width + 1, n, h => by
    have : n / 16 < Nat.pow 16 width := (Nat.div_lt_iff_lt_mul (by decide)).mpr h
    simp [padded, length_padded letters width (n / 16) this]

theorem upperValue?_digit : ∀ {d : Nat}, d < 16 → upperValue? (digit .upper d) = some d := by
  decide

theorem upperFrom?_append (n : Nat) (xs ys : List Char) :
    upperFrom? n (xs ++ ys) = (upperFrom? n xs).bind fun m => upperFrom? m ys := by
  induction xs generalizing n with
  | nil => rfl
  | cons c cs ih =>
    simp only [List.cons_append, upperFrom?]
    cases upperValue? c with
    | none => rfl
    | some d => exact ih _

/-- Padded digits continue any number by their own value. -/
theorem upperFrom?_padded :
    ∀ (width n m : Nat), n < Nat.pow 16 width →
      upperFrom? m (padded .upper width n) = some (m * Nat.pow 16 width + n)
  | 0, n, m, h => by
    have : n = 0 := by simpa using h
    simp [padded, this, upperFrom?]
  | width + 1, n, m, h => by
    have hq : n / 16 < Nat.pow 16 width := (Nat.div_lt_iff_lt_mul (by decide)).mpr h
    have hd : upperValue? (digit .upper (n % 16)) = some (n % 16) :=
      upperValue?_digit (Nat.mod_lt _ (by decide))
    rw [padded, upperFrom?_append, upperFrom?_padded width (n / 16) m hq]
    simp only [Option.bind_some, upperFrom?, hd, Option.some.injEq]
    have hpow : m * Nat.pow 16 (width + 1) = m * Nat.pow 16 width * 16 :=
      (Nat.mul_assoc _ _ _).symm
    rw [hpow]
    omega

theorem word?_padded (w : UInt32) : word? (padded .upper 8 w.toNat) = some w := by
  have h : w.toNat < Nat.pow 16 8 := w.toNat_lt
  rw [word?, length_padded _ _ _ h, if_pos rfl, upperFrom?_padded 8 w.toNat 0 h]
  simp

end SamFlash.Hex
