/-!
# Sizes for people

A number of bytes in the largest decimal unit that does not exceed it, with at most two decimals
and no trailing zeros: `524.29 KB`, `1 KB`, `0 B`. The quotient by the unit is first rounded to a
53-bit binary fraction and that fraction is then rounded to hundredths, a half going to the even
neighbour both times, so a quotient that is not a binary fraction may round either way at a half.

Results:
* `roundHalfEven_dvd`: an exact quotient is not changed by rounding.
* `roundHalfEven_le`: a rounded quotient is at most half a unit away.
-/

namespace SamFlash.ByteSize

/-- The integer nearest to `n / d`; a half goes to the even neighbour. -/
def roundHalfEven (n d : Nat) : Nat :=
  let q := n / d
  let r := n % d
  if 2 * r < d then q
  else if d < 2 * r then q + 1
  else if q % 2 = 0 then q else q + 1

theorem roundHalfEven_dvd {q d : Nat} (pos : 0 < d) : roundHalfEven (q * d) d = q := by
  have h1 : q * d / d = q := Nat.mul_div_cancel q pos
  have h2 : q * d % d = 0 := Nat.mul_mod_left q d
  simp [roundHalfEven, h1, h2, pos]

theorem roundHalfEven_le (n : Nat) {d : Nat} (pos : 0 < d) :
    2 * (roundHalfEven n d * d) ≤ 2 * n + d ∧ 2 * n ≤ 2 * (roundHalfEven n d * d) + d := by
  have small := Nat.mod_lt n pos
  have split := Nat.div_add_mod n d
  rw [Nat.mul_comm] at split
  have step : (n / d + 1) * d = n / d * d + d := by rw [Nat.add_mul, Nat.one_mul]
  unfold roundHalfEven
  simp only
  split
  · omega
  · split
    · rw [step]; omega
    · split
      · omega
      · rw [step]; omega

/-- How many binary places after the point the 53-bit fraction of `n / d` has. -/
def places (n d : Nat) : Nat := 52 + Nat.log2 d - Nat.log2 n

/-- The 53-bit fraction nearest to `n / d`, as a numerator over `2 ^ k`. -/
def fraction (n d : Nat) : Nat × Nat :=
  let k := places n d
  let k := if n <<< k / d < 1 <<< 52 then k + 1 else k
  (roundHalfEven (n <<< k) d, k)

/-- The quotient in hundredths. -/
def hundredths (n d : Nat) : Nat :=
  let (m, k) := fraction n d
  roundHalfEven (100 * m) (1 <<< k)

/-- A number of hundredths, without the zeros at its end. -/
def decimalText (h : Nat) : String :=
  let whole := toString (h / 100)
  let tenth := toString (h / 10 % 10)
  if h % 100 = 0 then whole
  else if h % 10 = 0 then whole ++ "." ++ tenth
  else whole ++ "." ++ tenth ++ toString (h % 10)

/-- The units above the byte, largest first. -/
def units : List (Nat × String) :=
  [(1000000000000000, "PB"), (1000000000000, "TB"), (1000000000, "GB"), (1000000, "MB"),
    (1000, "KB")]

/-- The size in its largest unit. -/
def text (n : Nat) : String :=
  match units.find? fun u => u.1 ≤ n with
  | some (unit, name) => decimalText (hundredths n unit) ++ " " ++ name
  | none => toString n ++ " B"

end SamFlash.ByteSize
