/-!
# Exact arithmetic at a fixed width

Addresses, register values and times are 32-bit words. Sizes, page numbers and plane numbers are
naturals whose every computed value has to fit in 64 bits. An operation whose exact result does
not exist at its width stops with an `ArithmeticFault`; nothing wraps round silently. Two
operations leave this rule on purpose: `Word.ofSize` keeps the low 32 bits of a size, and
`Word.addSaturating` stops at the largest word.

Results:
* `Word.add_eq_ok_iff`, `Word.mul_eq_ok_iff`: a word operation succeeds exactly when the sum or
  product of the values is below `2 ^ 32`, and then gives it.
* `Size.add_eq_ok_iff` and its kin: the same for sizes, in `Nat` with the 64-bit bound.
* `Word.toNat_addSaturating`: the saturating sum is the smaller of the sum and the largest word.
-/

namespace SamFlash

/-- Why an arithmetic operation has no result at its width. -/
inductive ArithmeticFault where
  | addOverflow
  | subtractOverflow
  | multiplyOverflow
  | divideByZero
  | remainderByZero
  deriving DecidableEq, Repr

/-- What is reported when a computation stops on the fault. -/
def ArithmeticFault.message : ArithmeticFault → String
  | .addOverflow => "attempt to add with overflow"
  | .subtractOverflow => "attempt to subtract with overflow"
  | .multiplyOverflow => "attempt to multiply with overflow"
  | .divideByZero => "attempt to divide by zero"
  | .remainderByZero => "attempt to calculate the remainder with a divisor of zero"

/-- A value, or the fault that stopped its computation. -/
abbrev Checked (α : Type) := Except ArithmeticFault α

/-- A 32-bit word: an address, a register value or a time in milliseconds. -/
abbrev Word := UInt32

/-! ## Words -/

namespace Word

/-- The sum, when it fits in a word. -/
def add (a b : Word) : Checked Word :=
  if a.toNat + b.toNat < UInt32.size then .ok (a + b) else .error .addOverflow

/-- The product, when it fits in a word. -/
def mul (a b : Word) : Checked Word :=
  if a.toNat * b.toNat < UInt32.size then .ok (a * b) else .error .multiplyOverflow

/-- The sum, or the largest word when the sum does not fit. -/
def addSaturating (a b : Word) : Word :=
  if a.toNat + b.toNat < UInt32.size then a + b else 0xffffffff

/-- The low 32 bits of a size. -/
def ofSize (n : Nat) : Word := UInt32.ofNat n

theorem toNat_add_of_lt {a b : Word} (h : a.toNat + b.toNat < UInt32.size) :
    (a + b).toNat = a.toNat + b.toNat := by
  rw [UInt32.toNat_add]
  exact Nat.mod_eq_of_lt h

theorem toNat_mul_of_lt {a b : Word} (h : a.toNat * b.toNat < UInt32.size) :
    (a * b).toNat = a.toNat * b.toNat := by
  rw [UInt32.toNat_mul]
  exact Nat.mod_eq_of_lt h

theorem add_eq_ok_iff {a b c : Word} :
    add a b = .ok c ↔ c.toNat = a.toNat + b.toNat := by
  unfold add
  split
  · rename_i h
    rw [Except.ok.injEq, ← UInt32.toNat_inj, toNat_add_of_lt h]
    exact eq_comm
  · rename_i h
    constructor
    · intro e; cases e
    · intro e
      have := c.toNat_lt_size
      omega

theorem mul_eq_ok_iff {a b c : Word} :
    mul a b = .ok c ↔ c.toNat = a.toNat * b.toNat := by
  unfold mul
  split
  · rename_i h
    rw [Except.ok.injEq, ← UInt32.toNat_inj, toNat_mul_of_lt h]
    exact eq_comm
  · rename_i h
    constructor
    · intro e; cases e
    · intro e
      have := c.toNat_lt_size
      omega

theorem toNat_addSaturating (a b : Word) :
    (addSaturating a b).toNat = min (a.toNat + b.toNat) (UInt32.size - 1) := by
  unfold addSaturating
  split
  · rename_i h
    rw [toNat_add_of_lt h]
    omega
  · rename_i h
    show UInt32.size - 1 = _
    omega

/-- Below the largest word, a saturating sum with a positive step moves forward. -/
theorem lt_addSaturating {a b limit : Word} (below : a < limit) (pos : 0 < b) :
    a.toNat < (addSaturating a b).toNat := by
  have h1 : a.toNat < limit.toNat := UInt32.lt_iff_toNat_lt.mp below
  have h2 : 0 < b.toNat := UInt32.lt_iff_toNat_lt.mp pos
  have h3 := limit.toNat_lt_size
  rw [toNat_addSaturating]
  omega

/-- A mask does not see the bits that are set beside it. -/
theorem or_and_of_disjoint {a b mask : Word} (apart : b &&& mask = 0) :
    (a ||| b) &&& mask = a &&& mask := by
  have zero : b.toNat &&& mask.toNat = 0 := by rw [← UInt32.toNat_and, apart]; rfl
  rw [← UInt32.toNat_inj, UInt32.toNat_and, UInt32.toNat_or, Nat.and_or_distrib_right, zero,
    Nat.or_zero, UInt32.toNat_and]

end Word

/-! ## Sizes -/

namespace Size

/-- The sum, when it fits in 64 bits. -/
def add (a b : Nat) : Checked Nat :=
  if a + b < UInt64.size then .ok (a + b) else .error .addOverflow

/-- The difference, when it is not negative. -/
def sub (a b : Nat) : Checked Nat :=
  if b ≤ a then .ok (a - b) else .error .subtractOverflow

/-- The product, when it fits in 64 bits. -/
def mul (a b : Nat) : Checked Nat :=
  if a * b < UInt64.size then .ok (a * b) else .error .multiplyOverflow

/-- The quotient by a divisor other than zero. -/
def div (a b : Nat) : Checked Nat :=
  if b = 0 then .error .divideByZero else .ok (a / b)

/-- The remainder by a divisor other than zero. -/
def mod (a b : Nat) : Checked Nat :=
  if b = 0 then .error .remainderByZero else .ok (a % b)

theorem add_eq_ok_iff {a b c : Nat} : add a b = .ok c ↔ c = a + b ∧ a + b < UInt64.size := by
  unfold add
  split
  · rename_i h
    rw [Except.ok.injEq]
    exact ⟨fun e => ⟨e.symm, h⟩, fun e => e.1.symm⟩
  · rename_i h
    exact ⟨(nomatch ·), fun e => absurd e.2 h⟩

theorem sub_eq_ok_iff {a b c : Nat} : sub a b = .ok c ↔ c = a - b ∧ b ≤ a := by
  unfold sub
  split
  · rename_i h
    rw [Except.ok.injEq]
    exact ⟨fun e => ⟨e.symm, h⟩, fun e => e.1.symm⟩
  · rename_i h
    exact ⟨(nomatch ·), fun e => absurd e.2 h⟩

theorem mul_eq_ok_iff {a b c : Nat} : mul a b = .ok c ↔ c = a * b ∧ a * b < UInt64.size := by
  unfold mul
  split
  · rename_i h
    rw [Except.ok.injEq]
    exact ⟨fun e => ⟨e.symm, h⟩, fun e => e.1.symm⟩
  · rename_i h
    exact ⟨(nomatch ·), fun e => absurd e.2 h⟩

theorem div_eq_ok_iff {a b c : Nat} : div a b = .ok c ↔ c = a / b ∧ b ≠ 0 := by
  unfold div
  split
  · rename_i h
    exact ⟨(nomatch ·), fun e => absurd h e.2⟩
  · rename_i h
    rw [Except.ok.injEq]
    exact ⟨fun e => ⟨e.symm, h⟩, fun e => e.1.symm⟩

end Size

end SamFlash
