import SamFlash.Proofs.Pages
import SamFlash.Target.Model

/-!
# Replaying a script on the target

What the commands of a script do to the target. `Target.takeAll` takes the bytes of the stream as
they come and obeys every command that they complete. Setting up puts the applet and its constant
parameters in place and sets the mode of the planes. The commands of a page bring its bytes into a
staging buffer, set the two addresses and the entry, start the applet, which copies the bytes to the
latch, and move the latch to the page. Only the command words change flash, and only those that
erase and write a page.

A branch copies only if the applet is complete: its instructions, its entry and its stack have to be
in RAM where the branch goes, or nothing is copied (`Target.runsApplet`). A command word without the
key leaves flash alone (`FlashCommand.keyOf_word`: every word of the host has it).

What is stored is followed through the areas of RAM. A block to a buffer leaves the applet alone, a
word to a slot leaves the other slots and the buffers alone, and a word to a controller is not
stored in RAM at all; this rests on `Chip.Sound`. Commands that do not go to a command register
spare flash (`Target.Spares`), which is all that is needed of a script that is cut off.

Results:
* `Target.takeAll_eq`: taking a stream is obeying its commands.
* `Target.same_of_spares`: commands that are no flash commands leave flash alone.
* `Target.equipped_setUp`: after setting up the applet is in place.
* `Target.staged_load`: at the branch the parameters and the buffer are those of the page.
* `Target.obey_start`, `Target.obey_commit`: the branch brings the page to the latch, and the
  command word moves the latch to the page.
-/

namespace SamFlash

namespace FlashCommand

theorem code_lt (cmd : FlashCommand) : cmd.code.toNat < 2 ^ 8 := by
  cases cmd <;> decide

/-- A command word is the key, the argument and the code, side by side. -/
theorem toNat_word (cmd : FlashCommand) {arg : Word} (ha : arg.toNat < 2 ^ 16) :
    (cmd.word arg).toNat = (0x5a0000 + arg.toNat) * 2 ^ 8 + cmd.code.toNat := by
  have hmask : arg.toNat &&& UInt32.toNat 0xffff = arg.toNat := by
    rw [show UInt32.toNat 0xffff = 2 ^ 16 - 1 from rfl, Nat.and_two_pow_sub_one_eq_mod,
      Nat.mod_eq_of_lt ha]
  have harg : arg.toNat <<< (UInt32.toNat 8 % 32) % 2 ^ 32 = arg.toNat <<< 8 := by
    rw [show UInt32.toNat 8 % 32 = 8 from rfl, Nat.shiftLeft_eq]
    omega
  have hkey : UInt32.toNat 0x5a <<< (UInt32.toNat 24 % 32) % 2 ^ 32 = 0x5a <<< 24 := rfl
  have hlow : arg.toNat <<< 8 < 2 ^ 24 := by
    rw [Nat.shiftLeft_eq]
    omega
  have hall : 0x5a <<< 24 + arg.toNat <<< 8 = (0x5a0000 + arg.toNat) <<< 8 := by
    simp only [Nat.shiftLeft_eq]
    omega
  simp only [word, FlashController.key, UInt32.toNat_or, UInt32.toNat_shiftLeft, UInt32.toNat_and]
  rw [hmask, harg, hkey, ← Nat.shiftLeft_add_eq_or_of_lt hlow, hall,
    ← Nat.shiftLeft_add_eq_or_of_lt cmd.code_lt, Nat.shiftLeft_eq]

theorem keyOf_word (cmd : FlashCommand) {arg : Word} (ha : arg.toNat < 2 ^ 16) :
    Target.keyOf (cmd.word arg) = FlashController.key := by
  have hc := cmd.code_lt
  rw [← UInt32.toNat_inj, Target.keyOf, UInt32.toNat_shiftRight, toNat_word cmd ha,
    show UInt32.toNat 24 % 32 = 24 from rfl, Nat.shiftRight_eq_div_pow,
    show FlashController.key.toNat = 0x5a from rfl]
  omega

theorem codeOf_word (cmd : FlashCommand) {arg : Word} (ha : arg.toNat < 2 ^ 16) :
    Target.codeOf (cmd.word arg) = cmd.code := by
  have hc := cmd.code_lt
  rw [← UInt32.toNat_inj, Target.codeOf, UInt32.toNat_and, toNat_word cmd ha,
    show UInt32.toNat 0xff = 2 ^ 8 - 1 from rfl, Nat.and_two_pow_sub_one_eq_mod]
  omega

theorem argumentOf_word (cmd : FlashCommand) {arg : Word} (ha : arg.toNat < 2 ^ 16) :
    Target.argumentOf (cmd.word arg) = arg.toNat := by
  have hc := cmd.code_lt
  rw [Target.argumentOf, UInt32.toNat_and, UInt32.toNat_shiftRight, toNat_word cmd ha,
    show UInt32.toNat 0xffff = 2 ^ 16 - 1 from rfl, Nat.and_two_pow_sub_one_eq_mod,
    show UInt32.toNat 8 % 32 = 8 from rfl, Nat.shiftRight_eq_div_pow]
  omega

end FlashCommand

namespace Target

/-! ## Obeying commands -/

/-- Carries out commands in order. -/
def obeyAll (t : Target) (cs : List Command) : Target := cs.foldl obey t

theorem obeyAll_cons (t : Target) (cmd : Command) (cs : List Command) :
    t.obeyAll (cmd :: cs) = (t.obey cmd).obeyAll cs := rfl

theorem obeyAll_singleton (t : Target) (cmd : Command) : t.obeyAll [cmd] = t.obey cmd := rfl

theorem obeyAll_append (t : Target) (cs ds : List Command) :
    t.obeyAll (cs ++ ds) = (t.obeyAll cs).obeyAll ds :=
  List.foldl_append

/-- The commands that change nothing can be left out. -/
theorem obeyAll_filter (t : Target) (cs : List Command) :
    t.obeyAll (cs.filter Command.changes) = t.obeyAll cs := by
  induction cs generalizing t with
  | nil => rfl
  | cons cmd cs ih =>
    rw [List.filter_cons, obeyAll_cons, ← ih]
    cases cmd <;> rfl

theorem flashCommand_reader (t : Target) (r : Reader) (plane : Nat) (word : Word) :
    ({ t with reader := r } : Target).flashCommand plane word =
      { t.flashCommand plane word with reader := r } := by
  unfold flashCommand
  by_cases hword :
      keyOf word = FlashController.key ∧ codeOf word = FlashCommand.eraseWritePage.code
  · simp only [if_pos hword]
    rfl
  · simp only [if_neg hword]

/-- Commands do not depend on how far the stream is. -/
theorem obey_reader (t : Target) (r : Reader) (cmd : Command) :
    ({ t with reader := r } : Target).obey cmd = { t.obey cmd with reader := r } := by
  have hreg (addr left : Nat) : ({ t with reader := r } : Target).controllerRegister? addr left =
      t.controllerRegister? addr left := by
    induction left with
    | zero => rfl
    | succ left ih => simp only [controllerRegister?, ih]
  cases cmd with
  | binaryMode => rfl
  | readWord addr => rfl
  | writeBlock addr data => rfl
  | writeWord addr value =>
    simp only [obey, hreg]
    cases t.controllerRegister? addr.toNat t.chip.planes with
    | none => rfl
    | some x =>
      obtain ⟨plane, offset⟩ := x
      by_cases hcmd : offset = FlashController.commandOffset.toNat
      · simp only [if_pos hcmd, flashCommand_reader]
      · simp only [if_neg hcmd]
        split <;> rfl
  | go addr =>
    have hrun : ({ t with reader := r } : Target).runsApplet addr = t.runsApplet addr := rfl
    simp only [obey, hrun]
    split <;> rfl

/-- **Taking a stream** is obeying the commands that it spells. -/
theorem takeAll_eq (t : Target) (bs : List UInt8) :
    t.takeAll bs =
      { t.obeyAll (t.reader.feedAll bs).2 with reader := (t.reader.feedAll bs).1 } := by
  induction bs generalizing t with
  | nil => rfl
  | cons b bs ih =>
    have htake : t.take b =
        { t.obeyAll (t.reader.feed b).2.toList with reader := (t.reader.feed b).1 } := by
      unfold take
      cases hc : (t.reader.feed b).2 with
      | none => simp only [hc]; rfl
      | some cmd => simp only [hc, obey_reader]; rfl
    have hall (t : Target) (r : Reader) (cs : List Command) :
        ({ t with reader := r } : Target).obeyAll cs = { t.obeyAll cs with reader := r } := by
      induction cs generalizing t with
      | nil => rfl
      | cons cmd cs ih => rw [obeyAll_cons, obey_reader, ih, obeyAll_cons]
    show (t.take b).takeAll bs = _
    rw [ih, htake, Reader.feedAll_cons, obeyAll_append, hall]

/-! ## Where a word goes -/

theorem controllerRegister?_of_lt {t : Target} {addr : Nat}
    (h : addr < t.chip.controllerBase.toNat) (left : Nat) :
    t.controllerRegister? addr left = none := by
  induction left with
  | zero => rfl
  | succ left ih => rw [controllerRegister?, if_neg (by omega), ih]

theorem controllerRegister?_register {t : Target} {plane offset left : Nat} (hp : plane < left)
    (ho : offset < 16) :
    t.controllerRegister? (t.chip.controllerBase.toNat + plane * 0x200 + offset) left =
      some (plane, offset) := by
  have hs : FlashController.planeStride.toNat = 0x200 := rfl
  induction left with
  | zero => omega
  | succ left ih =>
    rw [controllerRegister?]
    by_cases hl : plane = left
    · subst hl
      simp only [hs]
      rw [if_pos (by omega)]
      congr 2
      omega
    · simp only [hs]
      rw [if_neg (by omega), ih (by omega)]

variable {t : Target} {c : Chip}

/-- A word below the controllers goes to RAM. -/
theorem obey_ram {addr : Word} (h : addr.toNat < t.chip.controllerBase.toNat) (value : Word) :
    t.obey (.writeWord addr value) = { t with ram := t.ram.store addr.toNat value.toBytes } := by
  simp only [obey, controllerRegister?_of_lt h]

/-- A parameter of the applet goes to RAM. -/
theorem obey_slot (hc : c.Sound) (ht : t.chip = c) {offset : Word} (ho : offset.toNat ≤ 0x34)
    (value : Word) :
    t.obey (.writeWord (c.slotAddress offset) value) =
      { t with ram := t.ram.store (c.ramUserBase.toNat + offset.toNat) value.toBytes } := by
  have haddr := hc.toNat_slotAddress ho
  have hlow := hc.ram_low
  have hpos := hc.pageSize_pos
  rw [obey_ram (by rw [ht, haddr]; omega), haddr]

theorem register?_eq (hc : c.Sound) (ht : t.chip = c) {plane : Nat} (hp : plane < c.planes)
    {offset : Word} (ho : offset.toNat < 16) :
    t.controllerRegister? (c.registerAddress plane offset).toNat t.chip.planes =
      some (plane, offset.toNat) := by
  rw [hc.toNat_registerAddress hp (by omega), ← ht]
  exact controllerRegister?_register (by rw [ht]; exact hp) ho

/-- A mode word goes to the plane's controller. -/
theorem obey_mode (hc : c.Sound) (ht : t.chip = c) {plane : Nat} (hp : plane < c.planes)
    (value : Word) :
    t.obey (.writeWord (c.registerAddress plane FlashController.modeOffset) value) =
      { t with mode := fun p => if p = plane then value else t.mode p } := by
  have h1 : ¬ FlashController.modeOffset.toNat = FlashController.commandOffset.toNat := by decide
  have hreg := register?_eq hc ht hp (show FlashController.modeOffset.toNat < 16 by decide)
  simp only [obey, hreg, if_neg h1, if_true]

/-- A command word goes to the plane's controller. -/
theorem obey_command (hc : c.Sound) (ht : t.chip = c) {plane : Nat} (hp : plane < c.planes)
    (value : Word) :
    t.obey (.writeWord (c.registerAddress plane FlashController.commandOffset) value) =
      t.flashCommand plane value := by
  have hreg := register?_eq hc ht hp (show FlashController.commandOffset.toNat < 16 by decide)
  simp only [obey, hreg, if_true]

/-! ## Commands that leave flash alone -/

/-- Flash, and the record of what was done to it, are the same. -/
structure Same (t t' : Target) : Prop where
  chip : t'.chip = t.chip
  flash : t'.flash = t.flash
  written : t'.written = t.written
  flashCommands : t'.flashCommands = t.flashCommands

theorem Same.refl (t : Target) : t.Same t := ⟨rfl, rfl, rfl, rfl⟩

theorem Same.trans {t t' t'' : Target} (h : t.Same t') (h' : t'.Same t'') : t.Same t'' :=
  ⟨h'.chip.trans h.chip, h'.flash.trans h.flash, h'.written.trans h.written,
    h'.flashCommands.trans h.flashCommands⟩

/-- On a target with the chip, the command leaves flash alone. -/
def Spares (c : Chip) (cmd : Command) : Prop := ∀ t : Target, t.chip = c → t.Same (t.obey cmd)

theorem spares_writeBlock (c : Chip) (addr : Word) (data : List UInt8) :
    Spares c (.writeBlock addr data) := fun _ _ => ⟨rfl, rfl, rfl, rfl⟩

theorem spares_go (c : Chip) (addr : Word) : Spares c (.go addr) := by
  intro t _
  simp only [obey]
  split
  · exact ⟨rfl, rfl, rfl, rfl⟩
  · exact ⟨rfl, rfl, rfl, rfl⟩

theorem spares_slot (hc : c.Sound) {offset : Word} (ho : offset.toNat ≤ 0x34) (value : Word) :
    Spares c (.writeWord (c.slotAddress offset) value) := by
  intro t ht
  rw [obey_slot hc ht ho]
  exact ⟨rfl, rfl, rfl, rfl⟩

theorem spares_mode (hc : c.Sound) {plane : Nat} (hp : plane < c.planes) (value : Word) :
    Spares c (.writeWord (c.registerAddress plane FlashController.modeOffset) value) := by
  intro t ht
  rw [obey_mode hc ht hp]
  exact ⟨rfl, rfl, rfl, rfl⟩

theorem same_of_spares {cs : List Command} (h : ∀ cmd ∈ cs, Spares c cmd) (ht : t.chip = c) :
    t.Same (t.obeyAll cs) := by
  induction cs generalizing t with
  | nil => exact .refl t
  | cons cmd cs ih =>
    have h1 := h cmd List.mem_cons_self t ht
    exact h1.trans (ih (fun x hx => h x (List.mem_cons_of_mem cmd hx)) (h1.chip.trans ht))

theorem spares_setUp (hc : c.Sound) : ∀ cmd ∈ Script.setUp c, Spares c cmd := by
  intro cmd hcmd
  rcases List.mem_append.mp hcmd with hcmd | hcmd
  · simp only [List.mem_cons, List.not_mem_nil, or_false] at hcmd
    rcases hcmd with rfl | rfl | rfl
    · exact spares_writeBlock c _ _
    · exact spares_slot hc (by decide) _
    · exact spares_slot hc (by decide) _
  · obtain ⟨plane, hp, rfl⟩ := List.mem_map.mp hcmd
    exact spares_mode hc (by simpa using hp) _

theorem spares_stage (hc : c.Sound) (page : Nat) (data : List UInt8) :
    ∀ cmd ∈ Script.stage c page data, Spares c cmd := by
  intro cmd hcmd
  simp only [Script.stage, Script.load, Script.start, List.cons_append, List.nil_append,
    List.mem_cons, List.not_mem_nil, or_false] at hcmd
  rcases hcmd with rfl | rfl | rfl | rfl | rfl
  · exact spares_writeBlock c _ _
  · exact spares_slot hc (by decide) _
  · exact spares_slot hc (by decide) _
  · exact spares_slot hc (by decide) _
  · exact spares_go c _

/-! ## The applet in place -/

/-- The applet is loaded, its constant parameters are set, and so is the mode of every plane. -/
structure Equipped (c : Chip) (ram : Memory) (mode : Nat → Word) : Prop where
  code : ram.load c.ramUserBase.toNat Applet.instructions.length = Applet.instructions
  stack : ram.word (c.ramUserBase.toNat + Applet.stackOffset.toNat) = c.ramStackTop
  words : ram.word (c.ramUserBase.toNat + Applet.wordsOffset.toNat) = Word.ofSize (c.pageSize / 4)
  mode : ∀ plane < c.planes, mode plane = FlashController.programmingMode

end Target

namespace Memory

/-- A range that a store does not meet keeps its word. -/
theorem word_store_disjoint {m : Memory} {addr i : Nat} {data : List UInt8}
    (h : i + 4 ≤ addr ∨ addr + data.length ≤ i) : (m.store addr data).word i = m.word i := by
  unfold word
  rw [load_store_disjoint h]

/-- The front of what was stored. -/
theorem load_store_take (m : Memory) (addr : Nat) {data : List UInt8} {n : Nat}
    (h : n ≤ data.length) : (m.store addr data).load addr n = data.take n := by
  have hall := load_store_self m addr data
  have htake : (m.store addr data).load addr n =
      ((m.store addr data).load addr data.length).take n := by
    unfold load
    rw [← List.map_take, List.take_range, Nat.min_eq_left h]
  rw [htake, hall]

/-- RAM when the applet and its constant parameters have been stored. -/
def equipped (m : Memory) (c : Chip) : Memory :=
  let loaded := m.store c.ramUserBase.toNat Applet.code
  let counted := loaded.store (c.ramUserBase.toNat + Applet.wordsOffset.toNat)
    (Word.ofSize (c.pageSize / 4)).toBytes
  counted.store (c.ramUserBase.toNat + Applet.stackOffset.toNat) c.ramStackTop.toBytes

/-- RAM when the bytes of a page and the parameters for it have been stored. -/
def loaded (m : Memory) (c : Chip) (page : Nat) (data : List UInt8) : Memory :=
  let filled := m.store (c.bufferAddress page).toNat data
  let aimed := filled.store (c.ramUserBase.toNat + Applet.destinationOffset.toNat)
    (c.flashAddress page).toBytes
  let sourced := aimed.store (c.ramUserBase.toNat + Applet.sourceOffset.toNat)
    (c.bufferAddress page).toBytes
  sourced.store (c.ramUserBase.toNat + Applet.resetOffset.toNat) (c.ramUserBase + 1).toBytes

end Memory

namespace Target

variable {t : Target} {c : Chip}

/-- The modes of the planes are set one after the other. -/
theorem obeyAll_modes (hc : c.Sound) (ht : t.chip = c) (value : Word) {first n : Nat}
    (hn : first + n ≤ c.planes) :
    t.obeyAll ((List.range' first n).map fun plane =>
        .writeWord (c.registerAddress plane FlashController.modeOffset) value) =
      { t with mode := fun p => if first ≤ p ∧ p < first + n then value else t.mode p } := by
  induction n generalizing t first with
  | zero =>
    have : (fun p => if first ≤ p ∧ p < first + 0 then value else t.mode p) = t.mode := by
      funext p
      rw [if_neg (by omega)]
    rw [this]
    rfl
  | succ n ih =>
    have rest := ih (t := { t with mode := fun p => if p = first then value else t.mode p }) ht
      (show first + 1 + n ≤ c.planes by omega)
    rw [List.range'_succ, List.map_cons, obeyAll_cons, obey_mode hc ht (by omega), rest]
    congr 1
    funext p
    show (if first + 1 ≤ p ∧ p < first + 1 + n then value
      else if p = first then value else t.mode p) = _
    by_cases hp : p = first
    · rw [if_neg (by omega), if_pos hp, if_pos (by omega)]
    · by_cases hr : first + 1 ≤ p ∧ p < first + 1 + n
      · rw [if_pos hr, if_pos (by omega)]
      · rw [if_neg hr, if_neg hp, if_neg (by omega)]

theorem obeyAll_setUp (hc : c.Sound) (ht : t.chip = c) :
    t.obeyAll (Script.setUp c) = { t with
      ram := t.ram.equipped c
      mode := fun p => if 0 ≤ p ∧ p < 0 + c.planes then FlashController.programmingMode
        else t.mode p } := by
  have load : t.obey (.writeBlock c.ramUserBase Applet.code) =
      { t with ram := t.ram.store c.ramUserBase.toNat Applet.code } := rfl
  have words (m : Memory) := obey_slot (t := { t with ram := m }) hc ht
    (show Applet.wordsOffset.toNat ≤ 0x34 by decide) (Word.ofSize (c.pageSize / 4))
  have stack (m : Memory) := obey_slot (t := { t with ram := m }) hc ht
    (show Applet.stackOffset.toNat ≤ 0x34 by decide) c.ramStackTop
  rw [Script.setUp, obeyAll_append, obeyAll_cons, obeyAll_cons, obeyAll_cons, load, words, stack]
  exact obeyAll_modes (t := { t with ram := t.ram.equipped c }) hc ht _ (by omega)

/-- **After setting up** the applet is in place. -/
theorem equipped_setUp (hc : c.Sound) (ht : t.chip = c) :
    Equipped c (t.obeyAll (Script.setUp c)).ram (t.obeyAll (Script.setUp c)).mode := by
  have hwords : Applet.wordsOffset.toNat = 0x30 := rfl
  have hstack : Applet.stackOffset.toNat = 0x20 := rfl
  have hcode : Applet.code.length = 0x34 := Applet.code_length
  have hlen : ∀ w : Word, w.toBytes.length = 4 := fun _ => rfl
  have hins : Applet.instructions.length = 0x20 := rfl
  rw [obeyAll_setUp hc ht]
  refine ⟨?_, ?_, ?_, fun plane hp => if_pos (by omega)⟩
  · rw [Memory.equipped, Memory.load_store_disjoint (by omega),
      Memory.load_store_disjoint (by omega), Memory.load_store_take _ _ (by decide)]
    rfl
  · exact Memory.word_store_toBytes _ _ _
  · rw [Memory.equipped, Memory.word_store_disjoint (by rw [hlen]; omega)]
    exact Memory.word_store_toBytes _ _ _

/-! ## A page on its way -/

/-- Everything that the applet needs to copy the bytes of a page is in place. -/
structure Staged (c : Chip) (page : Nat) (data : List UInt8) (ram : Memory)
    (mode : Nat → Word) : Prop extends Equipped c ram mode where
  reset : ram.word (c.ramUserBase.toNat + Applet.resetOffset.toNat) = c.ramUserBase + 1
  destination : ram.word (c.ramUserBase.toNat + Applet.destinationOffset.toNat) =
    c.flashAddress page
  source : ram.word (c.ramUserBase.toNat + Applet.sourceOffset.toNat) = c.bufferAddress page
  buffer : ram.load (c.bufferAddress page).toNat c.pageSize = data

theorem obeyAll_load (hc : c.Sound) (ht : t.chip = c) (page : Nat) (data : List UInt8) :
    t.obeyAll (Script.load c page data) = { t with ram := t.ram.loaded c page data } := by
  have block : t.obey (.writeBlock (c.bufferAddress page) data) =
      { t with ram := t.ram.store (c.bufferAddress page).toNat data } := rfl
  have destination (m : Memory) := obey_slot (t := { t with ram := m }) hc ht
    (show Applet.destinationOffset.toNat ≤ 0x34 by decide) (c.flashAddress page)
  have source (m : Memory) := obey_slot (t := { t with ram := m }) hc ht
    (show Applet.sourceOffset.toNat ≤ 0x34 by decide) (c.bufferAddress page)
  have reset (m : Memory) := obey_slot (t := { t with ram := m }) hc ht
    (show Applet.resetOffset.toNat ≤ 0x34 by decide) (c.ramUserBase + 1)
  rw [Script.load, obeyAll_cons, obeyAll_cons, obeyAll_cons, obeyAll_cons, block, destination,
    source, reset]
  rfl

theorem staged_loaded (hc : c.Sound) (page : Nat) {data : List UInt8}
    (hd : data.length = c.pageSize) {m : Memory} {mode : Nat → Word} (he : Equipped c m mode) :
    Staged c page data (m.loaded c page data) mode := by
  have hbuf := hc.toNat_bufferAddress page
  have hlen : ∀ w : Word, w.toBytes.length = 4 := fun _ => rfl
  have hins : Applet.instructions.length = 0x20 := rfl
  have hstack : Applet.stackOffset.toNat = 0x20 := rfl
  have hreset : Applet.resetOffset.toNat = 0x24 := rfl
  have hdst : Applet.destinationOffset.toNat = 0x28 := rfl
  have hsrc : Applet.sourceOffset.toNat = 0x2c := rfl
  have hwords : Applet.wordsOffset.toNat = 0x30 := rfl
  -- each store is read through the ones behind it, none of which it meets
  refine ⟨⟨?_, ?_, ?_, he.mode⟩, ?_, ?_, ?_, ?_⟩ <;> unfold Memory.loaded
  · rw [Memory.load_store_disjoint (by omega), Memory.load_store_disjoint (by omega),
      Memory.load_store_disjoint (by omega), Memory.load_store_disjoint (by omega), he.code]
  · rw [Memory.word_store_disjoint (by omega), Memory.word_store_disjoint (by omega),
      Memory.word_store_disjoint (by omega), Memory.word_store_disjoint (by omega), he.stack]
  · rw [Memory.word_store_disjoint (by rw [hlen]; omega),
      Memory.word_store_disjoint (by rw [hlen]; omega),
      Memory.word_store_disjoint (by rw [hlen]; omega), Memory.word_store_disjoint (by omega),
      he.words]
  · exact Memory.word_store_toBytes _ _ _
  · rw [Memory.word_store_disjoint (by rw [hlen]; omega),
      Memory.word_store_disjoint (by rw [hlen]; omega)]
    exact Memory.word_store_toBytes _ _ _
  · rw [Memory.word_store_disjoint (by rw [hlen]; omega)]
    exact Memory.word_store_toBytes _ _ _
  · rw [Memory.load_store_disjoint (by rw [hlen]; omega),
      Memory.load_store_disjoint (by rw [hlen]; omega),
      Memory.load_store_disjoint (by rw [hlen]; omega), ← hd]
    exact Memory.load_store_self _ _ _

/-- **Before the branch** the parameters and the buffer are those of the page. -/
theorem staged_load (hc : c.Sound) (ht : t.chip = c) (page : Nat) {data : List UInt8}
    (hd : data.length = c.pageSize) (he : Equipped c t.ram t.mode) :
    ∃ ram, t.obeyAll (Script.load c page data) = { t with ram := ram } ∧
      Staged c page data ram t.mode :=
  ⟨_, obeyAll_load hc ht page data, staged_loaded hc page hd he⟩

/-- The applet copies the bytes of the page to the latch. -/
theorem latch_copy (hc : c.Sound) (ht : t.chip = c) {page : Nat} (hp : page < c.pages)
    {data : List UInt8} (hs : Staged c page data t.ram t.mode) {i : Nat} (hi : i < c.pageSize) :
    t.copy.latch (c.flashBase.toNat + page * c.pageSize + i) = data[i]? := by
  have hlt := hc.ram_lt
  have hwords := hc.pageSize_words
  have hcount : 4 * (t.slot Applet.wordsOffset).toNat = c.pageSize := by
    rw [slot, ht, hs.words, Word.ofSize, UInt32.toNat_ofNat']
    omega
  have hdst : (t.slot Applet.destinationOffset).toNat =
      c.flashBase.toNat + page * c.pageSize := by
    rw [slot, ht, hs.destination, hc.toNat_flashAddress hp]
  have hsrc : t.slot Applet.sourceOffset = c.bufferAddress page := by
    rw [slot, ht, hs.source]
  have hbyte : data[i]? = some (t.ram ((c.bufferAddress page).toNat + i)) := by
    rw [← hs.buffer]
    simp [Memory.load, hi]
  simp only [copy, hcount, hdst, hsrc]
  rw [if_pos (by omega), hbyte, Nat.add_sub_cancel_left]

/-- **The branch** finds the applet complete, and copies the bytes of the page to the latch. -/
theorem obey_start (hc : c.Sound) (ht : t.chip = c) {page : Nat} (hp : page < c.pages)
    {data : List UInt8} (hs : Staged c page data t.ram t.mode) :
    ∃ latch branches, t.obey (Script.start c) =
        { t with latch := latch, branches := branches } ∧
      ∀ i < c.pageSize, latch (c.flashBase.toNat + page * c.pageSize + i) = data[i]? := by
  have hlt := hc.ram_lt
  have hreset : (c.ramUserBase + 1).toNat = c.ramUserBase.toNat + 1 :=
    Word.toNat_add_of_lt (by
      show c.ramUserBase.toNat + 1 < _
      rw [UInt32.size]
      omega)
  have hruns : t.runsApplet (c.slotAddress Applet.stackOffset) = true := by
    simp only [runsApplet, slot, ht, hs.code, hs.reset, hs.stack, hreset,
      hc.toNat_slotAddress (show Applet.stackOffset.toNat ≤ 0x34 by decide), beq_self_eq_true,
      Bool.and_self]
  let noted : Target :=
    { t with branches := (c.slotAddress Applet.stackOffset, true) :: t.branches }
  have hobey : t.obey (Script.start c) = noted.copy := by
    simp only [Script.start, obey, hruns, if_true, noted]
  exact ⟨noted.copy.latch, noted.branches, hobey,
    fun i hi => latch_copy (t := noted) hc ht hp hs hi⟩

/-- The number of a page on its plane fits in a command word. -/
theorem toNat_pageOnPlane (hc : c.Sound) (page : Nat) :
    (Word.ofSize (c.pageOnPlane page)).toNat = c.pageOnPlane page := by
  have := hc.pageOnPlane_lt page
  rw [Word.ofSize, UInt32.toNat_ofNat']
  omega

/-- The word that erases and writes a page. -/
def commitWord (c : Chip) (page : Nat) : Word :=
  FlashCommand.eraseWritePage.word (Word.ofSize (c.pageOnPlane page))

/-- **The commit** moves the latch to the page. -/
theorem obey_commit (hc : c.Sound) (ht : t.chip = c) {page : Nat} (hp : page < c.pages)
    {data : List UInt8} (hd : data.length = c.pageSize)
    (hl : ∀ i < c.pageSize, t.latch (c.flashBase.toNat + page * c.pageSize + i) = data[i]?) :
    ∃ latch, t.obey (Script.commit c page) = { t with
      latch := latch
      flash := t.flash.store (c.flashBase.toNat + page * c.pageSize) data
      flashCommands := (c.planeOf page, commitWord c page) :: t.flashCommands
      written := page :: t.written } := by
  have harg := toNat_pageOnPlane hc page
  have hlt : (Word.ofSize (c.pageOnPlane page)).toNat < 2 ^ 16 := by
    rw [harg]
    exact hc.pageOnPlane_lt page
  have hword : keyOf (commitWord c page) = FlashController.key ∧
      codeOf (commitWord c page) = FlashCommand.eraseWritePage.code :=
    ⟨FlashCommand.keyOf_word _ hlt, FlashCommand.codeOf_word _ hlt⟩
  have hpage : c.planeOf page * (c.pages / c.planes) + argumentOf (commitWord c page) = page := by
    rw [commitWord, FlashCommand.argumentOf_word _ hlt, harg]
    exact Chip.planeOf_mul_add c page
  have hobey : t.obey (Script.commit c page) =
      t.flashCommand (c.planeOf page) (commitWord c page) :=
    obey_command hc ht (hc.planeOf_lt hp) _
  have hflash : (fun i => if (c.flashBase.toNat + page * c.pageSize ≤ i &&
        i < c.flashBase.toNat + page * c.pageSize + c.pageSize : Bool) = true
      then (t.latch i).getD 0xff else t.flash i) =
      t.flash.store (c.flashBase.toNat + page * c.pageSize) data := by
    funext i
    by_cases hi : c.flashBase.toNat + page * c.pageSize ≤ i ∧
        i < c.flashBase.toNat + page * c.pageSize + c.pageSize
    · obtain ⟨j, rfl⟩ : ∃ j, i = c.flashBase.toNat + page * c.pageSize + j :=
        ⟨i - (c.flashBase.toNat + page * c.pageSize), by omega⟩
      have hj : j < c.pageSize := by omega
      rw [if_pos (by simpa using hi), hl j hj]
      simp [Memory.store, List.getElem?_eq_getElem (hd ▸ hj)]
    · rw [if_neg (by simpa using hi)]
      by_cases hlow : i < c.flashBase.toNat + page * c.pageSize
      · rw [Memory.store_of_lt hlow]
      · rw [Memory.store_of_ge (by omega)]
  rw [hobey, flashCommand]
  simp only [if_pos hword, commit, ht, hpage]
  rw [hflash]
  exact ⟨_, rfl⟩

end Target

end SamFlash
