import SamFlash.Monitor

/-!
# Memory of the target

Byte-addressed memory. Addresses are naturals, so a range that stays below the top of the address
space never wraps.

Results:
* `load_store_self`: what is stored is what is loaded from there.
* `load_store_disjoint`: a range that a store does not touch keeps its bytes.
* `word_store_toBytes`: a stored word is read back.
-/

namespace SamFlash

/-- The byte at every address. -/
abbrev Memory := Nat → UInt8

namespace Memory

/-- Every byte is the same. -/
def filled (b : UInt8) : Memory := fun _ => b

/-- Stores bytes from an address on. -/
def store (m : Memory) (addr : Nat) (data : List UInt8) : Memory := fun i =>
  if addr ≤ i then (data[i - addr]?).getD (m i) else m i

/-- The `n` bytes from an address on. -/
def load (m : Memory) (addr n : Nat) : List UInt8 := (List.range n).map fun i => m (addr + i)

/-- The word at an address, low byte first. -/
def word (m : Memory) (addr : Nat) : Word := Word.ofBytes (m.load addr 4)

theorem length_load (m : Memory) (addr n : Nat) : (m.load addr n).length = n := by
  simp [load]

theorem store_of_lt {m : Memory} {addr i : Nat} {data : List UInt8} (h : i < addr) :
    m.store addr data i = m i := by
  unfold store
  rw [if_neg (by omega)]

theorem store_of_ge {m : Memory} {addr i : Nat} {data : List UInt8}
    (h : addr + data.length ≤ i) : m.store addr data i = m i := by
  unfold store
  rw [if_pos (by omega), List.getElem?_eq_none (by omega)]
  rfl

theorem load_store_self (m : Memory) (addr : Nat) (data : List UInt8) :
    (m.store addr data).load addr data.length = data := by
  apply List.ext_getElem
  · rw [length_load]
  · intro i h₁ h₂
    simp [load, store, List.getElem?_eq_getElem h₂]

theorem load_store_disjoint {m : Memory} {addr at_ n : Nat} {data : List UInt8}
    (h : at_ + n ≤ addr ∨ addr + data.length ≤ at_) :
    (m.store addr data).load at_ n = m.load at_ n := by
  unfold load
  apply List.map_congr_left
  intro i hi
  have hi : i < n := List.mem_range.mp hi
  rcases h with h | h
  · exact store_of_lt (by omega)
  · exact store_of_ge (by omega)

theorem word_store_toBytes (m : Memory) (addr : Nat) (w : Word) :
    (m.store addr w.toBytes).word addr = w := by
  have h : (m.store addr w.toBytes).load addr 4 = w.toBytes :=
    load_store_self m addr w.toBytes
  rw [word, h, Word.ofBytes_toBytes]

end Memory

end SamFlash
