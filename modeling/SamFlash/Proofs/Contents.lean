import SamFlash.Proofs.Replay

/-!
# What flash holds

After a number of pages flash holds the first bytes of the image, zeros behind its end up to the end
of the page, and is as it was everywhere else; the pages were written once each and in order.
`Target.Programmed` says this of two targets, the one before and the one behind.

It is proved page by page, with `Target.Reached` for where the target is between two of them: the
applet is in place with its constant parameters (`Target.Equipped`), and flash has the pages so far.
`Script.page` leads from one page to the next. Its block and its words spare flash, its branch fills
the latch from the staging buffer, and the one command word that goes to a controller moves the
latch to the page that it names. Flash, and the record of what was done to it, are therefore the
same anywhere inside a page but for that last command, which is why a call that is cut off leaves
whole pages behind.

What the host sends is not looked at here; that it sends these scripts is `Proofs.Programming`, and
the two are put together in `Proofs.Interruption` and `Proofs.EndToEnd`. A page of the image is
`Image.page`, the bytes that `Page.next` hands to `Page.write`.

Results:
* `Image.getElem?_page`: the bytes of a page are those of the image, and zeros behind its end.
* `Target.reached_pages`: the script of the first pages writes the first pages.
* `Target.part_of_page`: a part of the script of a page is all of it, or leaves flash alone.
* `Target.Reached.boot`: the boot flag leaves the pages alone.
-/

namespace SamFlash

theorem Image.getElem?_page {pageSize r : Nat} (bytes : List UInt8) (k : Nat) (hr : r < pageSize) :
    (page pageSize bytes k)[r]? = some ((bytes[k * pageSize + r]?).getD 0) := by
  have hlen : ((bytes.drop (k * pageSize)).take pageSize).length =
      min pageSize (bytes.length - k * pageSize) := by
    rw [List.length_take, List.length_drop]
  unfold page padded
  by_cases h : r < ((bytes.drop (k * pageSize)).take pageSize).length
  · have hb : k * pageSize + r < bytes.length := by omega
    rw [List.getElem?_append_left h, List.getElem?_take, if_pos hr, List.getElem?_drop,
      List.getElem?_eq_getElem hb]
    rfl
  · have hb : bytes.length ≤ k * pageSize + r := by omega
    rw [List.getElem?_append_right (Nat.le_of_not_lt h), List.getElem?_eq_none hb,
      List.getElem?_replicate, if_pos (by omega)]
    rfl

namespace Target

variable {t : Target} {c : Chip} {bytes : List UInt8}

/-- Between `before` and `after` exactly the first `n` pages of an image have been written, once
each and in ascending order. -/
structure Programmed (c : Chip) (bytes : List UInt8) (n : Nat) (before after : Target) : Prop where
  contents : ∀ i < n * c.pageSize, after.flash (c.flashBase.toNat + i) = (bytes[i]?).getD 0
  elsewhere : ∀ i, i < c.flashBase.toNat ∨ c.flashBase.toNat + n * c.pageSize ≤ i →
    after.flash i = before.flash i
  written : after.written = (List.range n).reverse ++ before.written

/-- The command words that write the first `n` pages, the latest first. -/
def commits (c : Chip) (n : Nat) : List (Nat × Word) :=
  ((List.range n).map fun k => (c.planeOf k, commitWord c k)).reverse

theorem commits_succ (c : Chip) (n : Nat) :
    commits c (n + 1) = (c.planeOf n, commitWord c n) :: commits c n := by
  simp [commits, List.range_succ]

theorem codeOf_commits (hc : c.Sound) {n : Nat} {x : Nat × Word} (hx : x ∈ commits c n) :
    codeOf x.2 = FlashCommand.eraseWritePage.code := by
  simp only [commits, List.mem_reverse, List.mem_map] at hx
  obtain ⟨k, -, rfl⟩ := hx
  refine FlashCommand.codeOf_word _ ?_
  rw [toNat_pageOnPlane hc]
  exact hc.pageOnPlane_lt k

/-- How far the target is when `n` pages are written and the next one may come. -/
structure Reached (c : Chip) (bytes : List UInt8) (n : Nat) (before after : Target) : Prop extends
    Programmed c bytes n before after, Equipped c after.ram after.mode where
  chip : after.chip = c
  flashCommands : after.flashCommands = commits c n ++ before.flashCommands

theorem reached_setUp (hc : c.Sound) (ht : t.chip = c) :
    Reached c bytes 0 t (t.obeyAll (Script.setUp c)) := by
  have same := same_of_spares (spares_setUp hc) ht
  refine ⟨⟨?_, ?_, same.written⟩, equipped_setUp hc ht, same.chip.trans ht, same.flashCommands⟩
  · intro i hi
    omega
  · intro i _
    rw [same.flash]

/-- **The commands of a page** write the page. -/
theorem Reached.page (hc : c.Sound) {n : Nat} (hn : n < c.pages) {before after : Target}
    (h : Reached c bytes n before after) :
    Reached c bytes (n + 1) before
      (after.obeyAll (Script.page c n (Image.page c.pageSize bytes n))) := by
  have hd := Image.length_page c.pageSize bytes n
  obtain ⟨ram, hload, hs⟩ := staged_load hc h.chip n hd h.toEquipped
  obtain ⟨latch, branches, hstart, hl⟩ :=
    obey_start (t := { after with ram := ram }) hc h.chip hn hs
  obtain ⟨latch', hcommit⟩ := obey_commit
    (t := { after with ram := ram, latch := latch, branches := branches }) hc h.chip hn hd hl
  have hall : after.obeyAll (Script.page c n (Image.page c.pageSize bytes n)) =
      { after with
        ram := ram
        latch := latch'
        branches := branches
        flash := after.flash.store (c.flashBase.toNat + n * c.pageSize)
          (Image.page c.pageSize bytes n)
        flashCommands := (c.planeOf n, commitWord c n) :: after.flashCommands
        written := n :: after.written } := by
    rw [Script.page, Script.stage, obeyAll_append, obeyAll_append, hload,
      obeyAll_singleton, obeyAll_singleton, hstart]
    exact hcommit
  rw [hall]
  refine ⟨⟨?_, ?_, ?_⟩, hs.toEquipped, h.chip, ?_⟩
  · intro i hi
    rw [Nat.succ_mul] at hi
    -- below the new page lie the old ones, and in it the bytes that were stored
    by_cases hlow : i < n * c.pageSize
    · show after.flash.store _ _ _ = _
      rw [Memory.store_of_lt (by omega), h.contents i hlow]
    · obtain ⟨r, rfl⟩ : ∃ r, i = n * c.pageSize + r := ⟨i - n * c.pageSize, by omega⟩
      have hbyte := Image.getElem?_page bytes n (show r < c.pageSize by omega)
      simp only [Memory.store, ← Nat.add_assoc, Nat.add_sub_cancel_left, hbyte]
      rw [if_pos (Nat.le_add_right _ _)]
      rfl
  · intro i hi
    rw [Nat.succ_mul] at hi
    rw [← h.elsewhere i (by omega)]
    rcases hi with hi | hi
    · exact Memory.store_of_lt (by omega)
    · exact Memory.store_of_ge (by omega)
  · show n :: after.written = _
    rw [h.written, List.range_succ, List.reverse_append]
    rfl
  · show _ :: after.flashCommands = _
    rw [h.flashCommands, commits_succ]
    rfl

/-- **The script of the first pages** writes the first pages. -/
theorem reached_pages (hc : c.Sound) (ht : t.chip = c) (bytes : List UInt8) {n : Nat}
    (hn : n ≤ c.pages) :
    Reached c bytes n t (t.obeyAll (Script.setUp c ++ Script.pages c bytes 0 n)) := by
  induction n with
  | zero =>
    rw [Script.pages_zero, List.append_nil]
    exact reached_setUp hc ht
  | succ n ih =>
    rw [Script.pages_concat, ← List.append_assoc, obeyAll_append]
    exact (ih (Nat.le_of_lt hn)).page hc hn

/-- What leaves flash alone leaves the pages written. -/
theorem Programmed.of_eq {n : Nat} {before after after' : Target}
    (h : Programmed c bytes n before after) (hf : after'.flash = after.flash)
    (hw : after'.written = after.written) : Programmed c bytes n before after' where
  contents := by
    rw [hf]
    exact h.contents
  elsewhere := by
    rw [hf]
    exact h.elsewhere
  written := hw.trans h.written

theorem Programmed.same {n : Nat} {before after after' : Target}
    (h : Programmed c bytes n before after) (hs : after.Same after') :
    Programmed c bytes n before after' :=
  h.of_eq hs.flash hs.written

/-- **A part of the script of a page** is all of it, or leaves flash alone. -/
theorem part_of_page (hc : c.Sound) {page : Nat} {data : List UInt8} {part : List Command}
    (hp : part <+: Script.page c page data) :
    part = Script.page c page data ∨ ∀ t : Target, t.chip = c → t.Same (t.obeyAll part) := by
  rcases List.prefix_concat_iff.mp hp with hp | hp
  · exact Or.inl hp
  · exact Or.inr fun t ht => same_of_spares
      (fun cmd hcmd => spares_stage hc page data cmd (hp.subset hcmd)) ht

/-- The boot flag is set without a change of flash. -/
theorem obeyAll_boot (hc : c.Sound) (ht : t.chip = c) (fromFlash : Bool) :
    ∃ word, t.obeyAll (Script.boot c fromFlash) =
      { t with flashCommands := (0, word) :: t.flashCommands } := by
  have harg : c.bootFlagArgument.toNat < 2 ^ 16 := by
    unfold Chip.bootFlagArgument
    split <;> decide
  have hcode (cmd : FlashCommand) (h : cmd.code ≠ FlashCommand.eraseWritePage.code) :
      t.flashCommand 0 (cmd.word c.bootFlagArgument) =
        { t with flashCommands := (0, cmd.word c.bootFlagArgument) :: t.flashCommands } := by
    have other : ¬ (keyOf (cmd.word c.bootFlagArgument) = FlashController.key ∧
        codeOf (cmd.word c.bootFlagArgument) = FlashCommand.eraseWritePage.code) :=
      fun e => h ((FlashCommand.codeOf_word cmd harg).symm.trans e.2)
    simp only [flashCommand, if_neg other]
  rw [Script.boot, obeyAll_singleton, obey_command hc ht hc.planes_pos]
  cases fromFlash with
  | false => exact ⟨_, hcode .clearGpnvmBit (by decide)⟩
  | true => exact ⟨_, hcode .setGpnvmBit (by decide)⟩

/-- Behind all pages the boot flag, or a part of its script, adds no more than command words. -/
theorem Reached.boot (hc : c.Sound) {n : Nat} {before after after' : Target}
    (h : Reached c bytes n before after) {fromFlash : Bool} {part : List Command}
    (hp : part <+: Script.boot c fromFlash) (hs : (after.obeyAll part).Same after') :
    Programmed c bytes n before after' ∧
      ∃ sent, after'.flashCommands = sent ++ before.flashCommands := by
  rcases List.prefix_cons_iff.mp hp with rfl | ⟨rest, rfl, hrest⟩
  · exact ⟨h.toProgrammed.same hs, _, hs.flashCommands.trans h.flashCommands⟩
  · obtain rfl := List.prefix_nil.mp hrest
    obtain ⟨word, hword⟩ := obeyAll_boot hc h.chip fromFlash
    rw [Script.boot] at hword
    rw [hword] at hs
    refine ⟨h.toProgrammed.of_eq hs.flash hs.written, (0, word) :: commits c n, ?_⟩
    rw [hs.flashCommands, List.cons_append, ← h.flashCommands]

end Target

end SamFlash
