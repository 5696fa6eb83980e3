import SamFlash.FlashController

/-!
# Supported chips

A profile lists what a chip's memory looks like: where flash starts, how its pages are spread over
planes, which RAM may be used and where the flash controllers are. Adding a part means adding a
row to `Chip.all`.

Results:
* `Chip.lookup_eq_some_iff`: a chip is found by an id exactly when it is the row with that id.
* `Chip.capacity_of_mem`: the capacity, which every row of the table shares.
-/

namespace SamFlash

/-- The memory layout of a chip. -/
structure Chip where
  /-- Value of the chip id register. -/
  id : Word
  name : String
  /-- Address of page 0. -/
  flashBase : Word
  /-- Number of pages on all planes together. -/
  pages : Nat
  /-- Bytes in a page. -/
  pageSize : Nat
  /-- Number of flash planes. -/
  planes : Nat
  lockRegions : Nat
  /-- Start of the RAM that may be used. -/
  ramUserBase : Word
  /-- Stack pointer for code run on the target. -/
  ramStackTop : Word
  /-- Registers of the flash controller of plane 0. -/
  controllerBase : Word
  /-- The boot flag also controls brown-out detection. -/
  canBrownout : Bool
  deriving DecidableEq, Repr

namespace Chip

/-- A part with 512 KiB of flash in two planes. -/
def sam3x8 (id : Word) (name : String) : Chip where
  id := id
  name := name
  flashBase := 0x00080000
  pages := 2048
  pageSize := 256
  planes := 2
  lockRegions := 32
  ramUserBase := 0x20001000
  ramStackTop := 0x20010000
  controllerBase := 0x400e0a00
  canBrownout := false

/-- The supported chips. -/
def all : List Chip :=
  [sam3x8 0x286e0a60 "ATSAM3X8H", sam3x8 0x285e0a60 "ATSAM3X8E", sam3x8 0x284e0a60 "ATSAM3X8C"]

/-- The chip with the given id. -/
def lookup (id : Word) : Option Chip := all.find? fun c => c.id == id

/-- Flash capacity in bytes. -/
def capacity (c : Chip) : Checked Nat := Size.mul c.pageSize c.pages

/-- Pages on each plane. -/
def pagesPerPlane (c : Chip) : Checked Nat := Size.div c.pages c.planes

/-- The plane that holds a page, and the number of the page on that plane. -/
def planeForPage (c : Chip) (page : Nat) : Checked (Nat × Nat) := do
  let perPlane ← c.pagesPerPlane
  let plane ← Size.div page perPlane
  let rest ← Size.mod page perPlane
  return (plane, rest)

/-- The address of a flash controller register of a plane. -/
def register (c : Chip) (plane : Nat) (offset : Word) : Checked Word := do
  let shift ← Word.mul (Word.ofSize plane) FlashController.planeStride
  let block ← Word.add c.controllerBase shift
  Word.add block offset

/-- The address of a page. -/
def pageAddress (c : Chip) (page : Nat) : Checked Word := do
  let bytes ← Size.mul page c.pageSize
  Word.add c.flashBase (Word.ofSize bytes)

/-- The argument of the commands that set and clear the boot flag. -/
def bootFlagArgument (c : Chip) : Word := if c.canBrownout then 3 else 1

/-! ## The table -/

theorem lookup_eq_some_iff {id : Word} {c : Chip} :
    lookup id = some c ↔ c ∈ all ∧ c.id = id := by
  unfold lookup
  constructor
  · intro h
    refine ⟨List.mem_of_find?_eq_some h, ?_⟩
    have := List.find?_some h
    simpa using this
  · rintro ⟨hm, rfl⟩
    simp only [all, List.mem_cons, List.not_mem_nil, or_false] at hm
    rcases hm with rfl | rfl | rfl <;> decide

theorem eq_sam3x8_of_mem {c : Chip} (h : c ∈ all) : c = sam3x8 c.id c.name := by
  simp only [all, List.mem_cons, List.not_mem_nil, or_false] at h
  rcases h with rfl | rfl | rfl <;> rfl

theorem pages_of_mem {c : Chip} (h : c ∈ all) : c.pages = 2048 := by
  rw [eq_sam3x8_of_mem h]
  rfl

theorem pageSize_of_mem {c : Chip} (h : c ∈ all) : c.pageSize = 256 := by
  rw [eq_sam3x8_of_mem h]
  rfl

theorem capacity_of_mem {c : Chip} (h : c ∈ all) : c.capacity = .ok 524288 := by
  unfold capacity
  rw [pageSize_of_mem h, pages_of_mem h]
  exact Size.mul_eq_ok_iff.mpr ⟨by decide, by decide⟩

end Chip

/-- The number of pages that hold `size` bytes. -/
def pageCount (size pageSize : Nat) : Checked Nat := do
  let reach ← Size.add size pageSize
  let last ← Size.sub reach 1
  Size.div last pageSize

/-- The page count is the quotient rounded up, while the sum fits in 64 bits. -/
theorem pageCount_eq_ok {size pageSize : Nat} (pos : 0 < pageSize)
    (fits : size + pageSize < UInt64.size) :
    pageCount size pageSize = .ok ((size + pageSize - 1) / pageSize) := by
  have h1 : Size.add size pageSize = .ok (size + pageSize) :=
    Size.add_eq_ok_iff.mpr ⟨rfl, fits⟩
  have h2 : Size.sub (size + pageSize) 1 = .ok (size + pageSize - 1) :=
    Size.sub_eq_ok_iff.mpr ⟨rfl, by omega⟩
  have h3 : Size.div (size + pageSize - 1) pageSize = .ok ((size + pageSize - 1) / pageSize) :=
    Size.div_eq_ok_iff.mpr ⟨rfl, by omega⟩
  simp only [pageCount, h1, h2, h3, bind, Except.bind]

end SamFlash
