import Mathlib.Logic.ExistsUnique
import SamFlash.Proofs.Replay

/-!
# Page addressing

A page number reaches the chip by two routes. The applet copies the bytes of the page to a linear
address (`Chip.pageAddress`, which `Applet.setDestination` stores), and the command that makes the
page permanent goes to a register of the page's plane (`Chip.planeForPage`, `Chip.register`), with
the number of the page on that plane as its argument (`FlashCommand.word`). Each route has a width
at which it would name another page without a word: a size is cut to 32 bits by `Word.ofSize`, an
argument to 16, and the register blocks of the planes lie `FlashController.planeStride` apart.

`Chip.Addressable` is what a row of the chip table has to fulfil for that not to happen. It is about
pages and controllers alone: RAM is not mentioned, the page need not be whole words, and flash may
reach the end of the address space, so a row can be addressable without being `Chip.Sound`. Nothing
is said about which chips there are. `Chip.brimful` meets every limit at once: its flash fills the
address space, and its planes have as many pages as an argument can tell apart.

Faithful means that nothing is confused. Two pages differ in their addresses, and also in the
register or the word of the command that writes them; no register of one plane is a register of
another; the flash of the pages is all of flash, cut without gap or overlap; and what a command word
says can be read off it again (`FlashCommand.decode?`).

Results:
* `FlashCommand.decode?_word`: a command word says what it was made of, for arguments of 16 bits.
* `Chip.Addressable.registerAddress_inj`: no two registers of a chip share an address.
* `Chip.Addressable.commitment_inj`: the register and the command word of a page determine it.
* `Chip.Paged.existsUnique_page_iff`: every byte of flash lies in exactly one page, and no other
  byte does.
* `Chip.Addressable.addressed`: both routes are faithful, and nothing overflows on them.
-/

namespace SamFlash

/-! ## Command words -/

namespace FlashCommand

/-- What a command word says: the command and its argument. A word without the key says nothing. -/
def decode? (w : Word) : Option (FlashCommand × Nat) :=
  if Target.keyOf w = FlashController.key then
    (all.find? fun cmd => cmd.code == Target.codeOf w).map fun cmd => (cmd, Target.argumentOf w)
  else none

theorem find?_code (cmd : FlashCommand) : (all.find? fun d => d.code == cmd.code) = some cmd := by
  cases cmd <;> decide

/-- **Command words** can be read back, as long as the argument has 16 bits. -/
theorem decode?_word (cmd : FlashCommand) {arg : Word} (ha : arg.toNat < 2 ^ 16) :
    decode? (cmd.word arg) = some (cmd, arg.toNat) := by
  rw [decode?, if_pos (keyOf_word cmd ha), codeOf_word cmd ha, argumentOf_word cmd ha, find?_code,
    Option.map_some]

end FlashCommand

namespace FlashController

/-- The offsets of the registers of a plane. -/
def offsets : List Word := [modeOffset, commandOffset, statusOffset, resultOffset]

theorem le_resultOffset_of_mem {offset : Word} (h : offset ∈ offsets) :
    offset.toNat ≤ resultOffset.toNat := by
  simp only [offsets, List.mem_cons, List.not_mem_nil, or_false] at h
  rcases h with rfl | rfl | rfl | rfl <;> decide

end FlashController

namespace Chip

/-- The register and the word that make a page permanent. -/
def commitment (c : Chip) (page : Nat) : Checked (Word × Word) := do
  let (plane, arg) ← c.planeForPage page
  let register ← c.register plane FlashController.commandOffset
  return (register, FlashCommand.eraseWritePage.word (Word.ofSize arg))

/-! ## Destinations -/

namespace Paged

variable {c : Chip} (h : c.Paged)
include h

theorem toNat_flashAddress_add {page gap : Nat} (hp : page + gap < c.pages) :
    (c.flashAddress (page + gap)).toNat = (c.flashAddress page).toNat + gap * c.pageSize := by
  rw [h.toNat_flashAddress hp, h.toNat_flashAddress (Nat.lt_of_le_of_lt (Nat.le_add_right ..) hp),
    Nat.add_mul, Nat.add_assoc]

/-- A byte lies in a page exactly when that page is its distance from the start of flash, divided by
the size of a page. -/
theorem mem_page_iff {page byte : Nat} (hp : page < c.pages) :
    ((c.flashAddress page).toNat ≤ byte ∧ byte < (c.flashAddress page).toNat + c.pageSize) ↔
      c.flashBase.toNat ≤ byte ∧ (byte - c.flashBase.toNat) / c.pageSize = page := by
  rw [h.toNat_flashAddress hp, Nat.div_eq_iff h.pageSize_pos]
  have := h.pageSize_pos
  omega

/-- **Pages tile flash**: the bytes of flash are those that lie in exactly one page. -/
theorem existsUnique_page_iff (byte : Nat) :
    (c.flashBase.toNat ≤ byte ∧ byte < c.flashBase.toNat + c.pageSize * c.pages) ↔
      ∃! page, page < c.pages ∧ (c.flashAddress page).toNat ≤ byte ∧
        byte < (c.flashAddress page).toNat + c.pageSize := by
  constructor
  · rintro ⟨low, high⟩
    have hp : (byte - c.flashBase.toNat) / c.pageSize < c.pages := by
      rw [Nat.div_lt_iff_lt_mul h.pageSize_pos, Nat.mul_comm]
      omega
    refine ⟨_, ⟨hp, (h.mem_page_iff hp).mpr ⟨low, rfl⟩⟩, ?_⟩
    rintro page ⟨hpage, inside⟩
    exact ((h.mem_page_iff hpage).mp inside).2.symm
  · rintro ⟨page, ⟨hp, low, high⟩, -⟩
    have inside := page_fits hp
    rw [Nat.mul_comm c.pages] at inside
    rw [h.toNat_flashAddress hp] at low high
    omega

end Paged

/-! ## The condition -/

/-- What a row of the chip table has to fulfil for its pages to be addressed. -/
structure Addressable (c : Chip) : Prop where
  one_or_two : c.planes = 1 ∨ c.planes = 2
  planes_dvd : c.planes ∣ c.pages
  pages_pos : 0 < c.pages
  argument_fits : c.pages / c.planes ≤ 2 ^ 16
  pageSize_pos : 0 < c.pageSize
  flash_fits : c.flashBase.toNat + c.pages * c.pageSize ≤ 2 ^ 32
  registers_fit : c.controllerBase.toNat + FlashController.planeStride.toNat +
    FlashController.resultOffset.toNat < 2 ^ 32

/-- Page addressing as it has to be: each route keeps the page, and every computation on it has a
result. -/
structure Addressed (c : Chip) : Prop where
  /-- A page has a plane and a number there, and the two give the page back. -/
  split : ∃ perPlane, c.pagesPerPlane = .ok perPlane ∧ ∀ page < c.pages, ∃ plane arg,
    c.planeForPage page = .ok (plane, arg) ∧ plane < c.planes ∧ arg < perPlane ∧
      plane * perPlane + arg = page
  /-- A page has a command register, and the word for it can be read back whole. -/
  committed : ∀ page < c.pages, ∃ plane arg register,
    c.planeForPage page = .ok (plane, arg) ∧
      c.register plane FlashController.commandOffset = .ok register ∧
      c.commitment page = .ok (register, FlashCommand.eraseWritePage.word (Word.ofSize arg)) ∧
      FlashCommand.decode? (FlashCommand.eraseWritePage.word (Word.ofSize arg)) =
        some (.eraseWritePage, arg)
  /-- No other page has the same register and the same word. -/
  commitment_inj : ∀ page < c.pages, ∀ other < c.pages,
    c.commitment page = c.commitment other → page = other
  /-- Every register of every plane has an address, and shares it with no other. -/
  registers : ∀ plane < c.planes, ∀ offset ∈ FlashController.offsets, ∃ register,
    c.register plane offset = .ok register ∧
      ∀ other < c.planes, ∀ offset' ∈ FlashController.offsets,
        c.register other offset' = .ok register → other = plane ∧ offset' = offset
  /-- The bytes of a page go where the page lies. -/
  destined : ∀ page < c.pages, ∃ destination, c.pageAddress page = .ok destination ∧
    destination.toNat = c.flashBase.toNat + page * c.pageSize
  /-- Two pages are as many page sizes apart as there are pages from one to the other. -/
  apart : ∀ page gap, page + gap < c.pages → ∃ near far,
    c.pageAddress page = .ok near ∧ c.pageAddress (page + gap) = .ok far ∧
      far.toNat = near.toNat + gap * c.pageSize
  /-- The pages cover the bytes of flash, each of them once, and nothing else. -/
  tiled : ∃ bytes, c.capacity = .ok bytes ∧ ∀ byte : Nat,
    (c.flashBase.toNat ≤ byte ∧ byte < c.flashBase.toNat + bytes) ↔
      ∃! page, page < c.pages ∧ ∃ destination, c.pageAddress page = .ok destination ∧
        destination.toNat ≤ byte ∧ byte < destination.toNat + c.pageSize

namespace Addressable

variable {c : Chip} (h : c.Addressable)
include h

theorem paged : c.Paged where
  pageSize_pos := h.pageSize_pos
  planes_pos := Nat.pos_of_ne_zero fun none => by
    rcases h.one_or_two with one | two <;> omega
  planes_dvd := Nat.mul_div_cancel' h.planes_dvd
  pages_pos := h.pages_pos
  argument_fits := h.argument_fits
  flash_fits := h.flash_fits

/-! ## Registers -/

section Registers

variable {plane : Nat} (hp : plane < c.planes) {offset : Word}
  (ho : offset ∈ FlashController.offsets)
include hp ho

theorem register_fits : c.controllerBase.toNat + plane * 0x200 + offset.toNat < 2 ^ 32 := by
  have fit := h.registers_fit
  have stride : FlashController.planeStride.toNat = 0x200 := rfl
  have last := FlashController.le_resultOffset_of_mem ho
  have two := h.one_or_two
  omega

theorem register_eq : c.register plane offset = .ok (c.registerAddress plane offset) :=
  Chip.register_eq (h.register_fits hp ho)

theorem toNat_registerAddress :
    (c.registerAddress plane offset).toNat =
      c.controllerBase.toNat + plane * 0x200 + offset.toNat :=
  Chip.toNat_registerAddress (h.register_fits hp ho)

/-- **No two registers** of a chip share an address. -/
theorem registerAddress_inj {other : Nat} (hq : other < c.planes) {offset' : Word}
    (ho' : offset' ∈ FlashController.offsets)
    (same : c.registerAddress other offset' = c.registerAddress plane offset) :
    other = plane ∧ offset' = offset := by
  have near := FlashController.le_resultOffset_of_mem ho
  have near' := FlashController.le_resultOffset_of_mem ho'
  have small : FlashController.resultOffset.toNat = 0xc := rfl
  have values := congrArg UInt32.toNat same
  rw [h.toNat_registerAddress hp ho, h.toNat_registerAddress hq ho'] at values
  have planes_eq : other = plane := by omega
  have offsets_eq : offset'.toNat = offset.toNat := by omega
  exact ⟨planes_eq, UInt32.toNat_inj.mp offsets_eq⟩

end Registers

/-! ## Commitments -/

theorem toNat_argument (page : Nat) :
    (Word.ofSize (c.pageOnPlane page)).toNat = c.pageOnPlane page := by
  have small := h.paged.pageOnPlane_lt page
  simp only [Word.ofSize, UInt32.toNat_ofNat']
  omega

theorem decode?_commitment (page : Nat) :
    FlashCommand.decode? (FlashCommand.eraseWritePage.word (Word.ofSize (c.pageOnPlane page))) =
      some (.eraseWritePage, c.pageOnPlane page) := by
  rw [FlashCommand.decode?_word _ ((h.toNat_argument page).symm ▸ h.paged.pageOnPlane_lt page),
    h.toNat_argument]

theorem commandRegister_eq {page : Nat} (hp : page < c.pages) :
    c.register (c.planeOf page) FlashController.commandOffset =
      .ok (c.registerAddress (c.planeOf page) FlashController.commandOffset) :=
  h.register_eq (h.paged.planeOf_lt hp) (by decide)

theorem commitment_eq {page : Nat} (hp : page < c.pages) :
    c.commitment page =
      .ok (c.registerAddress (c.planeOf page) FlashController.commandOffset,
        FlashCommand.eraseWritePage.word (Word.ofSize (c.pageOnPlane page))) := by
  simp only [commitment, h.paged.planeForPage_eq, h.commandRegister_eq hp, bind, Except.bind, pure,
    Except.pure]

/-- **The register and the word** of a page determine it. -/
theorem commitment_inj {page other : Nat} (hp : page < c.pages) (hq : other < c.pages)
    (same : c.commitment page = c.commitment other) : page = other := by
  rw [h.commitment_eq hp, h.commitment_eq hq, Except.ok.injEq, Prod.mk.injEq] at same
  obtain ⟨same_register, same_word⟩ := same
  have plane_eq : c.planeOf page = c.planeOf other :=
    (h.registerAddress_inj (h.paged.planeOf_lt hq) (by decide) (h.paged.planeOf_lt hp) (by decide)
      same_register).1
  have argument_eq : c.pageOnPlane page = c.pageOnPlane other := by
    have said := congrArg FlashCommand.decode? same_word
    rw [h.decode?_commitment, h.decode?_commitment, Option.some.injEq, Prod.mk.injEq] at said
    exact said.2
  rw [← c.planeOf_mul_add page, ← c.planeOf_mul_add other, plane_eq, argument_eq]

/-! ## Both routes -/

/-- **Page addressing is faithful** for every row of the table that one could add: on both routes
a page arrives as itself, and no computation on the way overflows. -/
theorem addressed : c.Addressed where
  split := by
    refine ⟨c.pages / c.planes, ?_, fun page hp => ⟨c.planeOf page, c.pageOnPlane page,
      h.paged.planeForPage_eq page, h.paged.planeOf_lt hp, h.paged.pageOnPlane_lt_perPlane page,
      c.planeOf_mul_add page⟩⟩
    exact Size.div_eq_ok_iff.mpr ⟨rfl, Nat.pos_iff_ne_zero.mp h.paged.planes_pos⟩
  committed page hp :=
    ⟨c.planeOf page, c.pageOnPlane page, _, h.paged.planeForPage_eq page, h.commandRegister_eq hp,
      h.commitment_eq hp, h.decode?_commitment page⟩
  commitment_inj _ hp _ hq same := h.commitment_inj hp hq same
  registers plane hp offset ho := by
    refine ⟨_, h.register_eq hp ho, fun other hq offset' ho' same => ?_⟩
    rw [h.register_eq hq ho', Except.ok.injEq] at same
    exact h.registerAddress_inj hp ho hq ho' same
  destined page hp := ⟨_, h.paged.pageAddress_eq hp, h.paged.toNat_flashAddress hp⟩
  apart page gap hp :=
    ⟨_, _, h.paged.pageAddress_eq (Nat.lt_of_le_of_lt (Nat.le_add_right ..) hp),
      h.paged.pageAddress_eq hp, h.paged.toNat_flashAddress_add hp⟩
  tiled := by
    refine ⟨_, h.paged.capacity_eq, fun byte => ?_⟩
    rw [h.paged.existsUnique_page_iff]
    refine existsUnique_congr fun page => and_congr_right fun hp => ?_
    rw [h.paged.pageAddress_eq hp]
    simp only [Except.ok.injEq, exists_eq_left']

end Addressable

/-- A row at which every limit is met: flash fills the address space, a plane has as many pages as
an argument can tell apart, and the last register ends below the last address. -/
def brimful : Chip where
  id := 0
  name := "brimful"
  flashBase := 0
  pages := 0x20000
  pageSize := 0x8000
  planes := 2
  lockRegions := 0
  ramUserBase := 0
  ramStackTop := 0
  controllerBase := 0xfffffdf3
  canBrownout := false

theorem brimful_addressable : brimful.Addressable where
  one_or_two := .inr rfl
  planes_dvd := by decide
  pages_pos := by decide
  argument_fits := by decide
  pageSize_pos := by decide
  flash_fits := by decide
  registers_fit := by decide

/-- At the limits the last page still has a register, a word and bytes of its own. -/
theorem brimful_addressed :
    brimful.Addressed ∧ brimful.planeForPage 0x1ffff = .ok (1, 0xffff) ∧
      brimful.commitment 0x1ffff = .ok (0xfffffff7, 0x5affff03) ∧
      brimful.pageAddress 0x1ffff = .ok 0xffff8000 :=
  ⟨Addressable.addressed brimful_addressable, rfl, rfl, rfl⟩

end Chip

end SamFlash
