import Mathlib.Algebra.Group.Nat.Defs
import SamFlash.Applet
import SamFlash.Chip
import SamFlash.Staging

/-!
# Sound layouts

What a chip's memory layout has to fulfil so that every address a programmer computes exists and no
two of its areas meet: flash and the flash controllers fit in the address space, a page number fits
in a command's argument, and the applet with its staging buffers lies below the stack and below the
controllers. Under these conditions the exact computations all succeed, with the values named here.
What concerns pages alone is `Chip.Paged`, and asks nothing of RAM.

`Workspace.setUp` loads the applet at the start of the RAM that may be used and lays out the two
buffers of `Staging.ofBase` right behind it, one page each; `Page.write` takes them in turns, so
page `k` goes to the first one if `k` is even (`Chip.bufferAddress`). That the buffers, the slots of
the applet and the registers of the controllers have different addresses is what lets a word be
followed to its place on the target.

The model computes these addresses step by step, with `Chip.register`, `Chip.pageAddress`,
`Chip.planeForPage` and `Word.add`, any of which may have no result. Everything behind this module
uses the closed forms (`Chip.registerAddress`, `Chip.flashAddress`, `Chip.planeOf`,
`Chip.pageOnPlane`, `Chip.slotAddress`) and their values as naturals, for which distances are a
matter of arithmetic.

Results:
* `Chip.sound_of_mem`: every chip of the table is sound.
* `Chip.register_eq`, `Chip.Sound.slot_eq`, `Chip.Paged.pageAddress_eq`,
  `Chip.Paged.planeForPage_eq`: the addresses.
* `Chip.toNat_registerAddress`, `Chip.Paged.toNat_flashAddress`, `Chip.Sound.toNat_bufferAddress`,
  `Chip.Sound.toNat_slotAddress`: their values as naturals.
-/

namespace SamFlash

namespace Chip

/-- Flash is cut into pages that the planes share evenly, the number of a page on its plane fits in a
command's argument, and the pages fit in the address space. -/
structure Paged (c : Chip) : Prop where
  pageSize_pos : 0 < c.pageSize
  planes_pos : 0 < c.planes
  planes_dvd : c.planes * (c.pages / c.planes) = c.pages
  pages_pos : 0 < c.pages
  argument_fits : c.pages / c.planes ≤ 2 ^ 16
  flash_fits : c.flashBase.toNat + c.pages * c.pageSize ≤ 2 ^ 32

/-- The areas of a chip's memory fit and do not meet. -/
structure Sound (c : Chip) : Prop extends c.Paged where
  pageSize_words : c.pageSize % 4 = 0
  registers_fit : c.controllerBase.toNat + c.planes * 0x200 < 2 ^ 32
  ram_fits : c.ramUserBase.toNat + 0x34 + 2 * c.pageSize ≤ c.ramStackTop.toNat
  ram_low : c.ramUserBase.toNat + 0x34 + 2 * c.pageSize ≤ c.controllerBase.toNat

theorem sound_of_mem {c : Chip} (h : c ∈ all) : c.Sound := by
  simp only [all, List.mem_cons, List.not_mem_nil, or_false] at h
  rcases h with rfl | rfl | rfl <;>
    exact ⟨⟨by decide, by decide, by decide, by decide, by decide, by decide⟩, by decide, by decide,
      by decide, by decide⟩

/-! ## Addresses -/

/-- A register of a plane's controller. -/
def registerAddress (c : Chip) (plane : Nat) (offset : Word) : Word :=
  c.controllerBase + Word.ofSize plane * FlashController.planeStride + offset

/-- Where a page lies in flash. -/
def flashAddress (c : Chip) (page : Nat) : Word :=
  c.flashBase + Word.ofSize (page * c.pageSize)

/-- A parameter of the applet. -/
def slotAddress (c : Chip) (offset : Word) : Word := c.ramUserBase + offset

/-- The staging buffer of a page; even pages go to the first one. -/
def bufferAddress (c : Chip) (page : Nat) : Word :=
  c.ramUserBase + Applet.size + Word.ofSize (page % 2 * c.pageSize)

/-- The plane of a page. -/
def planeOf (c : Chip) (page : Nat) : Nat := page / (c.pages / c.planes)

/-- The number of a page on its plane. -/
def pageOnPlane (c : Chip) (page : Nat) : Nat := page % (c.pages / c.planes)

theorem planeOf_mul_add (c : Chip) (page : Nat) :
    c.planeOf page * (c.pages / c.planes) + c.pageOnPlane page = page :=
  Nat.div_add_mod' page _

theorem page_fits {c : Chip} {page : Nat} (hp : page < c.pages) :
    page * c.pageSize + c.pageSize ≤ c.pages * c.pageSize := by
  rw [← Nat.succ_mul]
  exact Nat.mul_le_mul_right _ hp

/-- The buffers of the chip, with the turn that a page finds. -/
theorem staging_eq (c : Chip) (page : Nat) :
    (Staging.mk (c.bufferAddress 0) (c.bufferAddress 1) (page % 2 == 1)).current =
      c.bufferAddress page := by
  unfold Staging.current bufferAddress
  rcases Nat.mod_two_eq_zero_or_one page with e | e <;> simp [e]

theorem toNat_registerAddress {c : Chip} {plane : Nat} {offset : Word}
    (fits : c.controllerBase.toNat + plane * 0x200 + offset.toNat < 2 ^ 32) :
    (c.registerAddress plane offset).toNat =
      c.controllerBase.toNat + plane * 0x200 + offset.toNat := by
  have hs : FlashController.planeStride.toNat = 0x200 := rfl
  simp only [registerAddress, Word.ofSize, UInt32.toNat_add, UInt32.toNat_mul, hs,
    UInt32.toNat_ofNat']
  omega

/-- A register whose address fits in a word is there, whatever the rest of the layout. -/
theorem register_eq {c : Chip} {plane : Nat} {offset : Word}
    (fits : c.controllerBase.toNat + plane * 0x200 + offset.toNat < 2 ^ 32) :
    c.register plane offset = .ok (c.registerAddress plane offset) := by
  have hs : FlashController.planeStride.toNat = 0x200 := rfl
  have h1 : Word.mul (Word.ofSize plane) FlashController.planeStride =
      .ok (Word.ofSize plane * FlashController.planeStride) := by
    rw [Word.mul_eq_ok_iff, Word.toNat_mul_of_lt]
    simp only [Word.ofSize, hs, UInt32.toNat_ofNat', UInt32.size]
    omega
  have h2 : Word.add c.controllerBase (Word.ofSize plane * FlashController.planeStride) =
      .ok (c.controllerBase + Word.ofSize plane * FlashController.planeStride) := by
    rw [Word.add_eq_ok_iff, Word.toNat_add_of_lt]
    simp only [Word.ofSize, UInt32.toNat_mul, hs, UInt32.toNat_ofNat', UInt32.size]
    omega
  have h3 : Word.add (c.controllerBase + Word.ofSize plane * FlashController.planeStride) offset =
      .ok (c.registerAddress plane offset) := by
    rw [Word.add_eq_ok_iff, toNat_registerAddress fits]
    simp only [Word.ofSize, UInt32.toNat_add, UInt32.toNat_mul, hs, UInt32.toNat_ofNat']
    omega
  simp only [register, h1, h2, h3, bind, Except.bind]

namespace Paged

variable {c : Chip} (h : c.Paged)
include h

theorem perPlane_pos : 0 < c.pages / c.planes := by
  rcases Nat.eq_zero_or_pos (c.pages / c.planes) with h0 | h0
  · have hd := h.planes_dvd
    rw [h0, Nat.mul_zero] at hd
    exact absurd hd (Nat.ne_of_lt h.pages_pos)
  · exact h0

theorem planeOf_lt {page : Nat} (hp : page < c.pages) : c.planeOf page < c.planes := by
  unfold planeOf
  rw [Nat.div_lt_iff_lt_mul h.perPlane_pos, h.planes_dvd]
  exact hp

theorem nextPage_eq {page : Nat} (hp : page < c.pages) : Size.add page 1 = .ok (page + 1) := by
  have hflash := h.flash_fits
  have hpage := page_fits hp
  have hpos := h.pageSize_pos
  have hle := Nat.le_mul_of_pos_right page hpos
  exact Size.add_eq_ok_iff.mpr ⟨rfl, by simp only [UInt64.size]; omega⟩

theorem pageOnPlane_lt_perPlane (page : Nat) : c.pageOnPlane page < c.pages / c.planes :=
  Nat.mod_lt _ h.perPlane_pos

theorem pageOnPlane_lt (page : Nat) : c.pageOnPlane page < 2 ^ 16 :=
  Nat.lt_of_lt_of_le (h.pageOnPlane_lt_perPlane page) h.argument_fits

theorem planeForPage_eq (page : Nat) :
    c.planeForPage page = .ok (c.planeOf page, c.pageOnPlane page) := by
  have hplanes : c.planes ≠ 0 := Nat.pos_iff_ne_zero.mp h.planes_pos
  have hper : c.pages / c.planes ≠ 0 := Nat.pos_iff_ne_zero.mp h.perPlane_pos
  simp only [planeForPage, pagesPerPlane, Size.div, Size.mod, if_neg hplanes, if_neg hper, bind,
    Except.bind, pure, Except.pure, planeOf, pageOnPlane]

theorem toNat_flashAddress {page : Nat} (hp : page < c.pages) :
    (c.flashAddress page).toNat = c.flashBase.toNat + page * c.pageSize := by
  have := h.flash_fits
  have := page_fits hp
  have := h.pageSize_pos
  simp only [flashAddress, Word.ofSize, UInt32.toNat_add, UInt32.toNat_ofNat']
  omega

theorem pageAddress_eq {page : Nat} (hp : page < c.pages) :
    c.pageAddress page = .ok (c.flashAddress page) := by
  have := h.flash_fits
  have := page_fits hp
  have h1 : Size.mul page c.pageSize = .ok (page * c.pageSize) :=
    Size.mul_eq_ok_iff.mpr ⟨rfl, by simp only [UInt64.size]; omega⟩
  have h2 : Word.add c.flashBase (Word.ofSize (page * c.pageSize)) = .ok (c.flashAddress page) := by
    rw [Word.add_eq_ok_iff, h.toNat_flashAddress hp]
    have := h.pageSize_pos
    simp only [Word.ofSize, UInt32.toNat_ofNat']
    omega
  simp only [pageAddress, h1, h2, bind, Except.bind]

theorem capacity_eq : c.capacity = .ok (c.pageSize * c.pages) := by
  have := h.flash_fits
  exact Size.mul_eq_ok_iff.mpr ⟨rfl, by rw [Nat.mul_comm, UInt64.size]; omega⟩

end Paged

namespace Sound

variable {c : Chip} (h : c.Sound)
include h

theorem toNat_registerAddress {plane : Nat} (hp : plane < c.planes) {offset : Word}
    (ho : offset.toNat < 0x200) :
    (c.registerAddress plane offset).toNat =
      c.controllerBase.toNat + plane * 0x200 + offset.toNat := by
  have := h.registers_fit
  exact Chip.toNat_registerAddress (by omega)

theorem register_eq {plane : Nat} (hp : plane < c.planes) {offset : Word}
    (ho : offset.toNat < 0x200) :
    c.register plane offset = .ok (c.registerAddress plane offset) := by
  have := h.registers_fit
  exact Chip.register_eq (by omega)

theorem ram_lt : c.ramUserBase.toNat + 0x34 + 2 * c.pageSize < 2 ^ 32 :=
  Nat.lt_of_le_of_lt h.ram_fits c.ramStackTop.toNat_lt

theorem pageSize_lt : c.pageSize < UInt32.size := by
  have := h.ram_lt
  rw [UInt32.size]
  omega

theorem toNat_slotAddress {offset : Word} (ho : offset.toNat ≤ 0x34) :
    (c.slotAddress offset).toNat = c.ramUserBase.toNat + offset.toNat := by
  have := h.ram_lt
  simp only [slotAddress, UInt32.toNat_add]
  omega

theorem slot_eq {offset : Word} (ho : offset.toNat ≤ 0x34) :
    Word.add c.ramUserBase offset = .ok (c.slotAddress offset) := by
  rw [Word.add_eq_ok_iff, h.toNat_slotAddress ho]

theorem toNat_bufferAddress (page : Nat) :
    (c.bufferAddress page).toNat = c.ramUserBase.toNat + 0x34 + page % 2 * c.pageSize := by
  have := h.ram_lt
  have hs : Applet.size.toNat = 0x34 := rfl
  have hm : page % 2 * c.pageSize ≤ c.pageSize := by
    rcases Nat.mod_two_eq_zero_or_one page with e | e <;> simp [e]
  simp only [bufferAddress, Word.ofSize, UInt32.toNat_add, hs, UInt32.toNat_ofNat']
  omega

end Sound

end Chip

end SamFlash
