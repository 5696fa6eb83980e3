import SamFlash.Proofs.Composition
import SamFlash.Proofs.Programming

/-!
# The numbers of a session

Addresses, page numbers, planes, counts and capacities are computed with words and sizes of a fixed
width. `Word.add`, `Word.mul` and the operations on sizes are exact, and an operation that needs one
of them stops if it has no result (`Link.exact`). `Word.ofSize` always has a result: a size that
does not fit in 32 bits loses its upper ones. A session cuts down the numbers of planes and of pages
on their plane, the offsets of pages in flash, the page size, a quarter of it, and the length of the
applet (`Chip.Converts`).

On a chip with a sound layout none of that shows. Every number that leaves the host, in an
operation, a diagnostic, a message about progress or a request for the image, is the one that
arithmetic without any limit gives. That is what `Request.Accurate` says of a request, with all
numbers as naturals: `Page.write` announces page `k` at the address of page `k`, `Applet.setSlot`
and `FlashController.writeRegister` store words where the parameter or register is (`Chip.Stores`),
`Image.read` asks for no more than a page, and the observer is told of no page that is not there.

Every operation of a session is composed of parts whose requests are accurate (`Link.Accurate`).
What follows from being composed therefore holds of all of them, which is how `Proofs.Faultless`
gets from here to whole calls: a part that needs an exact computation comes with the proof that the
computation has a result.

Results:
* `Chip.Sound.toNat_ofSize`: no size that is turned into a word loses bits.
* `Programmer.composed_findChip`: identification only reads the words that tell the chip.
* `FlashController.accurate_awaitReady`, `Workspace.accurate_setUp`, `Page.accurate_writeAll`,
  `Programmer.accurate_writing`, `Programmer.accurate_writeBootFlag`: the operations on a chip.
-/

namespace SamFlash

variable {ε α : Type}

/-! ## Places on a chip -/

namespace Chip

/-- The address of an applet parameter. -/
def slotAt (c : Chip) (offset : Nat) : Nat := c.ramUserBase.toNat + offset

/-- The address of a register of a plane's controller. -/
def registerAt (c : Chip) (plane offset : Nat) : Nat :=
  c.controllerBase.toNat + plane * 0x200 + offset

/-- The address of a page. -/
def pageAt (c : Chip) (page : Nat) : Nat := c.flashBase.toNat + page * c.pageSize

/-- The address of the staging buffer of a page. -/
def bufferAt (c : Chip) (page : Nat) : Nat := c.ramUserBase.toNat + 0x34 + page % 2 * c.pageSize

/-- A word that a session stores, and where. -/
inductive Stores (c : Chip) (addr value : Word) : Prop
  /-- How many words the applet copies. -/
  | words (place : addr.toNat = c.slotAt 0x30) (holds : 4 * value.toNat = c.pageSize)
  /-- The stack that the applet runs with. -/
  | stack (place : addr.toNat = c.slotAt 0x20) (holds : value = c.ramStackTop)
  /-- Where the applet is entered, with the bit that selects Thumb state. -/
  | entry (place : addr.toNat = c.slotAt 0x24) (holds : value.toNat = c.ramUserBase.toNat + 1)
  /-- Where the applet copies a page to. -/
  | destination (page : Nat) (lt : page < c.pages) (place : addr.toNat = c.slotAt 0x28)
      (holds : value.toNat = c.pageAt page)
  /-- Where the applet copies a page from. -/
  | source (page : Nat) (lt : page < c.pages) (place : addr.toNat = c.slotAt 0x2c)
      (holds : value.toNat = c.bufferAt page)
  /-- The mode of a plane. -/
  | mode (plane : Nat) (lt : plane < c.planes) (place : addr.toNat = c.registerAt plane 0x00)
      (holds : value = FlashController.programmingMode)
  /-- A command to a plane. -/
  | command (plane : Nat) (lt : plane < c.planes) (place : addr.toNat = c.registerAt plane 0x04)
      (cmd : FlashCommand) (arg : Word) (fits : arg.toNat < 2 ^ 16) (holds : value = cmd.word arg)

/-- The sizes that are turned into words in a session. -/
inductive Converts (c : Chip) : Nat → Prop
  | plane {plane : Nat} (lt : plane < c.planes) : Converts c plane
  | offset {page : Nat} (lt : page < c.pages) : Converts c (page * c.pageSize)
  | argument {page : Nat} (lt : page < c.pages) : Converts c (c.pageOnPlane page)
  | pageSize : Converts c c.pageSize
  | words : Converts c (c.pageSize / 4)
  | applet : Converts c Applet.code.length

theorem Sound.toNat_ofSize {c : Chip} (h : c.Sound) {n : Nat} (hn : c.Converts n) :
    (Word.ofSize n).toNat = n := by
  have fits : n < 2 ^ 32 := by
    have hflash := h.flash_fits
    have hram := h.ram_lt
    cases hn with
    | plane lt =>
      have := h.registers_fit
      omega
    | offset lt =>
      have := page_fits lt
      have := h.pageSize_pos
      omega
    | @argument page lt =>
      have := h.pageOnPlane_lt page
      omega
    | pageSize => omega
    | words => omega
    | applet => decide
  rw [Word.ofSize, UInt32.toNat_ofNat']
  exact Nat.mod_eq_of_lt fits

end Chip

/-! ## Accurate requests -/

/-- The numbers of a diagnostic are right for the chip. -/
def Diagnostic.Accurate (c : Chip) : Diagnostic → Prop
  | wordRead addr _ => ∃ plane, plane < c.planes ∧ addr.toNat = c.registerAt plane 0x08
  | wordWritten addr value => c.Stores addr value
  | blockWritten addr count => (addr = c.ramUserBase ∧ count = Applet.code.length) ∨
      ((∃ page, page < c.pages ∧ addr.toNat = c.bufferAt page) ∧ count = c.pageSize)
  | branched addr => addr.toNat = c.slotAt 0x20
  | appletLoading base => base = c.ramUserBase
  | appletWords value => 4 * value.toNat = c.pageSize
  | appletStack value => value = c.ramStackTop
  | appletSource value => ∃ page, page < c.pages ∧ value.toNat = c.bufferAt page
  | appletDestination value => ∃ page, page < c.pages ∧ value.toNat = c.pageAt page
  | appletRun => True
  | imageTooLarge size capacity => capacity = c.pageSize * c.pages ∧ capacity < size
  | imageEmpty => True
  | writing size pages _ => 0 < pages ∧ pages ≤ c.pages ∧ (pages - 1) * c.pageSize < size ∧
      size ≤ pages * c.pageSize
  | imageEnded read size => read < size
  | padding page count => page < c.pages ∧ 0 < count ∧ count ≤ c.pageSize
  | pageStaged page addr buffer =>
      page < c.pages ∧ addr.toNat = c.pageAt page ∧ buffer.toNat = c.bufferAt page
  | flashCommand plane cmd arg => plane < c.planes ∧ arg.toNat < 2 ^ 16 ∧
      (cmd = .eraseWritePage → plane * (c.pages / c.planes) + arg.toNat < c.pages)
  | lockError plane _ => plane < c.planes
  | commandTimeout plane _ => plane < c.planes
  | bootSource _ => True
  | settling _ => True
  | programmingComplete => True
  | _ => False

/-- The numbers that are told about progress are right for the chip. -/
def Progress.Accurate (c : Chip) : Progress → Prop
  | begin addr total => addr = c.flashBase ∧ 0 < total ∧ total ≤ c.pages
  | advance done => 0 < done ∧ done ≤ c.pages
  | finish => True

/-- The request is made in the work on the chip, and its numbers are right. -/
def Request.Accurate (o : Options) (c : Chip) : Request → Prop
  | log d => d.Accurate c
  | delay ms => ms = o.statusDelay ∨ ms = o.settleTime
  | progress p => p.Accurate c
  | image limit => 0 < limit ∧ limit ≤ c.pageSize
  | _ => False

/-- The request is made to identify the chip. -/
def Request.Identifies : Request → Prop
  | log (.wordRead addr _) => addr ∈ Monitor.identifyingAddresses
  | log .connecting => True
  | log (.armVector _) => True
  | log (.cortexVector _) => True
  | log (.chipUnknown _) => True
  | log (.chipFound _ _) => True
  | _ => False

namespace Link

/-- The operation is composed, and the requests of its work on the chip are accurate. -/
abbrev Accurate (o : Options) (c : Chip) (x : Link ε α) : Prop :=
  x.Composed o (Request.Accurate o c)

end Link

open Link

/-! ## Identification -/

theorem Monitor.composed_chipId {o : Options} :
    (chipId o : Link ε Word).Composed o Request.Identifies := by
  have word {addr : Word} (h : addr ∈ identifyingAddresses) :
      (readWord o addr : Link ε Word).Composed o Request.Identifies := .readWord fun _ => h
  refine (word (by decide)).next fun vector => ?_
  by_cases hv : isArmVector vector = true
  · simp only [if_pos hv]
    exact (Composed.log rfl trivial).next fun _ => word (by decide)
  · simp only [if_neg hv]
    refine (Composed.log rfl trivial).next fun _ => (word (by decide)).next fun id => ?_
    by_cases hz : id = 0
    · simp only [if_pos hz]
      exact word (by decide)
    · simp only [if_neg hz]
      exact .pure id

/-- **Identification** only reads the words that tell the chip. -/
theorem Programmer.composed_findChip {o : Options} :
    (findChip o : Link ε Chip).Composed o Request.Identifies := by
  refine (Composed.log rfl trivial).next fun _ => Composed.handshake.next fun _ =>
    Monitor.composed_chipId.next fun id => ?_
  cases Chip.lookup id with
  | none => exact (Composed.log rfl trivial).next fun _ => .fail trivial
  | some c => exact (Composed.log rfl trivial).next fun _ => .pure c

/-! ## Working with the flash controllers -/

namespace FlashController

variable {o : Options} {c : Chip} {stage : Stage}

theorem accurate_writeRegister (hc : c.Sound) {plane : Nat} (hp : plane < c.planes)
    {offset value : Word} (ho : offset.toNat < 0x200)
    (hs : c.Stores (c.registerAddress plane offset) value) :
    (writeRegister c plane offset value : Link ε Unit).Accurate o c :=
  Composed.exact_bind (hc.register_eq hp ho) (.writeWord hs)

theorem accurate_command (hc : c.Sound) {plane : Nat} (hp : plane < c.planes)
    {cmd : FlashCommand} {arg : Word} (fits : arg.toNat < 2 ^ 16)
    (exists_page : cmd = .eraseWritePage → plane * (c.pages / c.planes) + arg.toNat < c.pages) :
    (command c plane cmd arg : Link ε Unit).Accurate o c :=
  (Composed.log rfl ⟨hp, fits, exists_page⟩).next fun _ =>
    accurate_writeRegister hc hp (by decide)
      (.command plane hp (hc.toNat_registerAddress hp (by decide)) cmd arg fits rfl)

/-- The planes that a scan blames exist. -/
theorem plane_of_scanPlanes {left plane : Nat} {busy : Option Nat} (hp : plane + left ≤ c.planes)
    (hb : ∀ p, busy = some p → p < c.planes) {t : Transcript ε} {found : Option Nat}
    (h : Held (scanPlanes o c stage left plane busy) t (.ok found)) :
    ∀ p, found = some p → p < c.planes := by
  induction left generalizing plane busy t with
  | zero =>
    obtain rfl := Except.ok.inj (held_pure_iff.mp h).2
    exact hb
  | succ left ih =>
    obtain ⟨_, _, _, -, h₁, -⟩ := held_bind_ok h
    obtain ⟨status, _, _, -, h₂, -⟩ := held_bind_ok h₁
    by_cases hl : isLocked status = true
    · rw [if_pos hl] at h₂
      obtain ⟨_, _, hf, -⟩ := held_request_bind h₂
      exact absurd (held_fail_iff.mp hf).2 (by simp)
    · rw [if_neg hl] at h₂
      refine ih (by omega) (fun p e => ?_) h₂
      by_cases hr : (!isReady status && busy.isNone) = true
      · rw [if_pos hr] at e
        have := Option.some.inj e
        omega
      · rw [if_neg hr] at e
        exact hb p e

theorem accurate_scanPlanes (hc : c.Sound) (left plane : Nat) (busy : Option Nat)
    (hp : plane + left ≤ c.planes) :
    (scanPlanes o c stage left plane busy : Link ε _).Accurate o c := by
  induction left generalizing plane busy with
  | zero => exact .pure busy
  | succ left ih =>
    have lt : plane < c.planes := by omega
    refine Composed.exact_bind (hc.register_eq lt (by decide)) ?_
    refine (Composed.readWord fun _ => ⟨plane, lt, hc.toNat_registerAddress lt (by decide)⟩).next
      fun status => ?_
    by_cases hl : isLocked status = true
    · simp only [if_pos hl]
      exact (Composed.log rfl lt).next fun _ => .fail trivial
    · simp only [if_neg hl]
      exact ih (plane + 1) _ (by omega)

/-- The count of the rounds never overflows, since there are no more rounds than a word counts. -/
theorem accurate_pollRounds (hc : c.Sound) (left : Nat) (tried : Word) (busy : Option Nat)
    (ht : tried.toNat + left < UInt32.size) (hb : ∀ p, busy = some p → p < c.planes) :
    (pollRounds o c stage left tried busy : Link ε Unit).Accurate o c := by
  induction left generalizing tried busy with
  | zero =>
    have blamed : busy.getD 0 < c.planes := by
      cases busy with
      | none => exact hc.planes_pos
      | some p => exact hb p rfl
    exact (Composed.log rfl blamed).next fun _ => .fail trivial
  | succ left ih =>
    refine .bind (accurate_scanPlanes hc c.planes 0 none (by omega)) fun {_ found} hf => ?_
    have known := plane_of_scanPlanes (by omega) (by simp) hf
    by_cases hs : found.isSome = true
    · have counted : (tried + 1).toNat = tried.toNat + 1 := Word.toNat_add_of_lt (by
        show tried.toNat + 1 < _
        omega)
      simp only [if_pos hs]
      refine Composed.exact_bind (Word.add_eq_ok_iff.mpr counted) ?_
      by_cases hr : tried + 1 < o.statusRetries
      · simp only [if_pos hr]
        exact (Composed.delay (Or.inl rfl)).next fun _ => ih _ found (by omega) known
      · simp only [if_neg hr]
        exact ih _ found (by omega) known
    · simp only [if_neg hs]
      exact .pure ()

theorem accurate_awaitReady (hc : c.Sound) :
    (awaitReady o c stage : Link ε Unit).Accurate o c :=
  accurate_pollRounds hc _ 0 none (by simpa using o.statusRetries.toNat_lt_size) (by simp)

end FlashController

/-! ## The applet -/

namespace Applet

variable {o : Options} {c : Chip}

/-- A parameter is set, after a diagnostic about it. -/
theorem accurate_setSlot (hc : c.Sound) {d : Diagnostic}
    (hd : Exchange.operation? (ε := ε) ⟨.log d, ()⟩ = none) (ha : d.Accurate c) {offset : Word}
    (ho : offset.toNat ≤ 0x34) {value : Word} (hs : c.Stores (c.slotAddress offset) value) :
    (log d >>= fun _ => (on c).setSlot offset value : Link ε Unit).Accurate o c :=
  (Composed.log hd ha).next fun _ => Composed.exact_bind (hc.slot_eq ho) (.writeWord hs)

theorem accurate_setWords (hc : c.Sound) {value : Word} (h : 4 * value.toNat = c.pageSize) :
    ((on c).setWords value : Link ε Unit).Accurate o c :=
  accurate_setSlot (d := .appletWords value) hc rfl h (by decide)
    (.words (hc.toNat_slotAddress (by decide)) h)

theorem accurate_setStack (hc : c.Sound) :
    ((on c).setStack c.ramStackTop : Link ε Unit).Accurate o c :=
  accurate_setSlot (d := .appletStack c.ramStackTop) hc rfl rfl (by decide)
    (.stack (hc.toNat_slotAddress (by decide)) rfl)

theorem accurate_setSource (hc : c.Sound) {page : Nat} (hp : page < c.pages) {value : Word}
    (h : value.toNat = c.bufferAt page) : ((on c).setSource value : Link ε Unit).Accurate o c :=
  accurate_setSlot (d := .appletSource value) hc rfl ⟨page, hp, h⟩ (by decide)
    (.source page hp (hc.toNat_slotAddress (by decide)) h)

theorem accurate_setDestination (hc : c.Sound) {page : Nat} (hp : page < c.pages) {value : Word}
    (h : value.toNat = c.pageAt page) :
    ((on c).setDestination value : Link ε Unit).Accurate o c :=
  accurate_setSlot (d := .appletDestination value) hc rfl ⟨page, hp, h⟩ (by decide)
    (.destination page hp (hc.toNat_slotAddress (by decide)) h)

theorem accurate_load (c : Chip) : (load c.ramUserBase : Link ε Applet).Accurate o c := by
  have block : (Monitor.writeBlock c.ramUserBase code : Link ε Unit).Accurate o c :=
    .writeBlock (by decide) (Or.inl ⟨rfl, rfl⟩)
  have loading : (log (.appletLoading c.ramUserBase) : Link ε Unit).Accurate o c := .log rfl rfl
  exact loading.next fun _ => block.next fun _ => .pure _

theorem accurate_run (hc : c.Sound) : ((on c).run : Link ε Unit).Accurate o c := by
  refine (Composed.log rfl trivial).next fun _ => ?_
  refine Composed.exact_bind (hc.slot_eq (by decide)) (Composed.exact_bind (entry_eq hc) ?_)
  have entry : (c.ramUserBase + 1).toNat = c.ramUserBase.toNat + 1 :=
    hc.toNat_slotAddress (show (1 : Word).toNat ≤ 0x34 by decide)
  refine (Composed.writeWord (.entry (hc.toNat_slotAddress (by decide)) entry)).next fun _ => ?_
  exact Composed.exact_bind (hc.slot_eq (by decide)) (.go (hc.toNat_slotAddress (by decide)))

end Applet

namespace Workspace

variable {o : Options} {c : Chip}

theorem accurate_prepareFrom (hc : c.Sound) (left plane : Nat) (hp : plane + left ≤ c.planes) :
    (prepareFrom c left plane : Link ε Unit).Accurate o c := by
  induction left generalizing plane with
  | zero => exact .pure ()
  | succ left ih =>
    have lt : plane < c.planes := by omega
    exact (FlashController.accurate_writeRegister hc lt (by decide)
      (.mode plane lt (hc.toNat_registerAddress lt (by decide)) rfl)).next fun _ =>
        ih (plane + 1) (by omega)

theorem accurate_setUp (hc : c.Sound) : (setUp c : Link ε Workspace).Accurate o c := by
  have words : 4 * (Word.ofSize (c.pageSize / 4)).toNat = c.pageSize := by
    rw [hc.toNat_ofSize .words]
    have := hc.pageSize_words
    omega
  refine .bind (Applet.accurate_load c) fun {_ applet} hload => ?_
  obtain rfl : applet = Applet.on c := ((Applet.follows_load c).completes hload).2.2
  refine (Applet.accurate_setWords hc words).next fun _ => ?_
  refine (Applet.accurate_setStack hc).next fun _ => ?_
  refine (accurate_prepareFrom hc c.planes 0 (by omega)).next fun _ => ?_
  exact Composed.exact_bind (behind_eq hc) (Composed.exact_bind (buffers_eq hc) (.pure _))

end Workspace

/-! ## Pages -/

namespace Page

variable {o : Options} {c : Chip} {observed : Bool}

theorem accurate_write (hc : c.Sound) {page : Nat} (hp : page < c.pages) {data : List UInt8}
    (hd : data.length = c.pageSize) :
    (write o c (Workspace.ofPage c page) page data : Link ε Workspace).Accurate o c := by
  have fits : data.length < UInt32.size := hd ▸ hc.pageSize_lt
  have buffer : (Workspace.ofPage c page).buffers.current = c.bufferAddress page :=
    Chip.staging_eq c page
  have source : (c.bufferAddress page).toNat = c.bufferAt page := hc.toNat_bufferAddress page
  have destination : (c.flashAddress page).toNat = c.pageAt page := hc.toNat_flashAddress hp
  have argument : (Word.ofSize (c.pageOnPlane page)).toNat = c.pageOnPlane page :=
    hc.toNat_ofSize (.argument hp)
  have onPlane : c.planeOf page * (c.pages / c.planes) +
      (Word.ofSize (c.pageOnPlane page)).toNat < c.pages := by
    rw [argument, c.planeOf_mul_add]
    exact hp
  unfold write
  rw [if_neg (by omega)]
  simp only [buffer]
  refine Composed.exact_bind (hc.pageAddress_eq hp) ?_
  refine (Composed.log rfl ⟨hp, destination, source⟩).next fun _ => ?_
  refine (Composed.writeBlock fits (Or.inr ⟨⟨page, hp, source⟩, hd⟩)).next fun _ => ?_
  refine (Applet.accurate_setDestination hc hp destination).next fun _ => ?_
  refine (Applet.accurate_setSource hc hp source).next fun _ => ?_
  refine (FlashController.accurate_awaitReady hc).next fun _ =>
    (Applet.accurate_run hc).next fun _ => ?_
  refine Composed.exact_bind (hc.planeForPage_eq page) ?_
  refine (FlashController.accurate_command hc (hc.planeOf_lt hp) ?_ fun _ => onPlane).next
    fun _ => .pure _
  rw [argument]
  exact hc.pageOnPlane_lt page

theorem accurate_tell {p : Progress} (hp : p.Accurate c) :
    (tell observed p : Link ε Unit).Accurate o c := by
  unfold tell
  by_cases ho : observed = true
  · rw [if_pos ho]
    exact .progress hp
  · rw [if_neg ho]
    exact .pure ()

theorem accurate_next {size page read : Nat} (hp : page < c.pages) (hread : read ≤ size)
    (hsize : size < UInt64.size) :
    (next c size page read : Link ε (Nat × List UInt8)).Accurate o c := by
  have pieces : ∀ k, 0 < k → k ≤ c.pageSize → k ≤ size - read →
      (Request.image k).Accurate o c := fun k pos room _ => ⟨pos, room⟩
  refine .bind (.image pieces) fun {_ data} hdata => ?_
  obtain ⟨-, hspace, hlimit⟩ := (Image.took_read hdata).data data rfl
  have total : Size.add read data.length = .ok (read + data.length) :=
    Size.add_eq_ok_iff.mpr ⟨rfl, by omega⟩
  refine Composed.exact_bind total ?_
  by_cases hend : data.length < c.pageSize ∧ read + data.length < size
  · rw [if_pos hend]
    exact (Composed.log rfl hend.2).next fun _ => .fail trivial
  · rw [if_neg hend]
    by_cases hshort : data.length < c.pageSize
    · have lacks : Size.sub c.pageSize data.length = .ok (c.pageSize - data.length) :=
        Size.sub_eq_ok_iff.mpr ⟨rfl, by omega⟩
      have count : 0 < c.pageSize - data.length ∧ c.pageSize - data.length ≤ c.pageSize := by
        omega
      have padding : (Diagnostic.padding page (c.pageSize - data.length)).Accurate c :=
        ⟨hp, count⟩
      rw [if_pos hshort]
      exact Composed.exact_bind lacks ((Composed.log rfl padding).next fun _ => .pure _)
    · rw [if_neg hshort]
      exact .pure _

theorem accurate_writeAll (hc : c.Sound) {size left page read : Nat}
    (hrem : Remains c size left page read) :
    (writeAll o c size observed left page read (Workspace.ofPage c page) :
      Link ε Unit).Accurate o c := by
  induction left generalizing page read with
  | zero => exact .pure ()
  | succ left ih =>
    obtain ⟨hread, hlt⟩ := hrem.read_le
    have hpage : page < c.pages := by
      have := hrem.pages
      omega
    have hle := Nat.le_of_lt hlt
    refine .bind (accurate_next hpage hle hrem.fits) fun {t x} hx => ?_
    obtain ⟨hlen, rfl⟩ := (drew_next hle hrem.fits hx).page x rfl
    have full : (Image.padded c.pageSize t.taken).length = c.pageSize :=
      Image.padded_length (by omega)
    refine .bind (.during _ (accurate_write hc hpage full)) fun {u w} hw => ?_
    obtain rfl : w = Workspace.ofPage c (page + 1) :=
      ((commits_write hc hpage full).during_isAt.completes hw).2.2
    refine Composed.exact_bind (hc.nextPage_eq hpage) ?_
    refine (accurate_tell (p := .advance (page + 1)) ⟨Nat.succ_pos page, hpage⟩).next fun _ => ?_
    rw [hlen]
    exact ih hrem.next

end Page

/-! ## Calls -/

namespace Programmer

variable {o : Options} {c : Chip} {size : Nat} {observed : Bool}

theorem accurate_writeBootFlag (hc : c.Sound) (fromFlash : Bool) :
    (writeBootFlag o c fromFlash : Link ε Unit).Accurate o c := by
  have wait : (FlashController.awaitReady o c .bootFlag : Link ε Unit).Accurate o c :=
    FlashController.accurate_awaitReady hc
  have fits : c.bootFlagArgument.toNat < 2 ^ 16 := by
    unfold Chip.bootFlagArgument
    split <;> decide
  refine (Composed.log rfl trivial).next fun _ => ?_
  refine (Composed.during _ (wait.next fun _ => ?_)).next fun _ =>
    (Composed.log rfl trivial).next fun _ => .delay (Or.inr rfl)
  refine (FlashController.accurate_command hc hc.planes_pos fits fun h => ?_).next fun _ => wait
  cases fromFlash <;> exact absurd h (by decide)

theorem accurate_opening (hc : c.Sound) (hn : 0 < c.pagesFor size)
    (hs : size ≤ c.pages * c.pageSize) :
    (opening c size (c.pagesFor size) observed : Link ε Workspace).Accurate o c := by
  have hrem := remains_zero hc hs
  have room : c.pagesFor size ≤ c.pages := by simpa using hrem.pages
  have counted : (Diagnostic.writing size (c.pagesFor size) c.name).Accurate c :=
    ⟨hn, room, by simpa using hrem.short hn, by simpa using hrem.enough⟩
  exact (Composed.log rfl counted).next fun _ => (Workspace.accurate_setUp hc).next fun w =>
    (Page.accurate_tell (p := .begin c.flashBase _) ⟨rfl, hn, room⟩).next fun _ => .pure w

theorem accurate_closing (hc : c.Sound) {n : Nat} (hn : 0 < n) :
    (closing o c n observed : Link ε Unit).Accurate o c := by
  have ending : (Page.tell observed .finish >>= fun _ => Link.log .programmingComplete :
      Link ε Unit).Accurate o c :=
    (Page.accurate_tell (p := .finish) trivial).next fun _ => .log rfl trivial
  unfold closing
  by_cases hk : o.keepBootSource = true
  · simp only [if_pos hk]
    have last : Size.sub n 1 = .ok (n - 1) := Size.sub_eq_ok_iff.mpr ⟨rfl, hn⟩
    exact Composed.exact_bind last ((Composed.during _
      (FlashController.accurate_awaitReady hc)).next fun _ => ending)
  · simp only [if_neg hk]
    exact (accurate_writeBootFlag hc true).next fun _ => ending

/-- **What a program call does with the chip**, for an image of any size. -/
theorem accurate_writing (hc : c.Sound) (size : Nat) (observed : Bool) :
    (writing o c size observed : Link ε Unit).Accurate o c := by
  by_cases hs : c.pages * c.pageSize < size
  · rw [writing, pagesOf_eq_of_lt hc hs]
    have large : (Diagnostic.imageTooLarge size (c.pageSize * c.pages)).Accurate c :=
      ⟨rfl, by rwa [Nat.mul_comm]⟩
    refine .bind ((Composed.log rfl large).next fun _ => .fail trivial) fun {_ pages} h => ?_
    obtain ⟨_, _, hf, -⟩ := held_request_bind h
    exact absurd (held_fail_iff.mp hf).2 (by simp)
  by_cases hz : size = 0
  · subst hz
    rw [writing, pagesOf_eq hc (Nat.zero_le _), pure_bind, pagesFor_zero hc, if_pos rfl]
    exact .log rfl trivial
  have hle : size ≤ c.pages * c.pageSize := by omega
  have hn := pagesFor_pos hc (Nat.pos_of_ne_zero hz)
  rw [writing_eq hc (Nat.pos_of_ne_zero hz) hle, writePages_eq]
  refine .bind (accurate_opening hc hn hle) fun {_ w} hw => ?_
  obtain rfl := ((follows_opening hc _).completes hw).2.2
  exact (Page.accurate_writeAll hc (remains_zero hc hle)).next fun _ => accurate_closing hc hn

end Programmer

end SamFlash
