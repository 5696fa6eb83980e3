import SamFlash.Proofs.Identification
import SamFlash.Proofs.Pages

/-!
# Program calls

A program call (`Programmer.program`) follows one script, which depends on the chip, on the options
and on the image (`Script.program`): the commands of `Workspace.setUp`, those of `Page.writeAll`,
and the boot flag unless the options keep the boot source. The image is what the call has taken of
its source, which is all of it if the call succeeds.

A call that fails stops in one of four places (`Halts`): before the first page, at a page, in the
last wait, or around the boot flag. The failure tells the place. Before the first page it has no
stage, since the chip was not found, the image is too large, or the link failed while the applet was
loaded; at a page it has the stage of this page, unless the bytes of the page could not be read, and
then nothing of the page is sent. At each place a first part of the script of that place is done,
and the part is only whole with an error if what failed is the flush behind its last command.

With the chip that the programmer knows the script is fixed from the start. Without it, the chip is
the one that the target reports, which has to be the one that is there (`Programmer.MayKnow` and
`Transcript.Reports`).

Results:
* `Programmer.completes_program`: a successful call follows `Script.program` and takes the image.
* `Programmer.halts_program`: a failed call stops in one of four places (`Halts`).
* `Programmer.effects_of_known`: with a known chip the script is that of this chip.
* `Programmer.finds_eq`: the chip of a call is the one that the target reports.
-/

namespace SamFlash

variable {ε : Type}

/-- The pages that an image takes. -/
def Chip.pagesFor (c : Chip) (size : Nat) : Nat := (size + c.pageSize - 1) / c.pageSize

namespace Script

/-- What a program call makes the monitor do. -/
def program (o : Options) (c : Chip) (bytes : List UInt8) (n : Nat) : List Command :=
  setUp c ++ (pages c bytes 0 n ++ if o.keepBootSource then [] else boot c true)

end Script

namespace Failure

/-- A failure of the link without a stage, an unknown chip, or an image that is too large. -/
def IsEarly (f : Failure ε) : Prop :=
  f.IsBareLink ∨ (∃ id, f = .error (.unknownChip id)) ∨
    ∃ size capacity, f = .error (.imageTooLarge size capacity)

end Failure

/-- Where a program call of `n` pages stops with the failure `f`. -/
inductive Halts (o : Options) (c : Chip) (bytes : List UInt8) (n : Nat) (t : Transcript ε)
    (f : Failure ε) : Prop
  /-- Before the first page. -/
  | early (sent : t.effects <+: Script.setUp c) (why : f.IsEarly)
  /-- At page `k`, of which `part` is done. -/
  | page (k : Nat) (part : List Command) (lt : k < n) (room : n ≤ c.pages)
      (sent : t.effects = Script.setUp c ++ (Script.pages c bytes 0 k ++ part))
      (cause : (part = [] ∧ (∃ kind, f = .error (.io kind)) ∧ t.taken.length / c.pageSize = k) ∨
        (part <+: Script.page c k (Image.page c.pageSize bytes k) ∧ f.IsAt (.page k) ∧
          (part = Script.page c k (Image.page c.pageSize bytes k) → t.EndsInFlush)))
  /-- Waiting for the last page. -/
  | last (keeps : o.keepBootSource = true) (pos : 0 < n) (room : n ≤ c.pages)
      (sent : t.effects = Script.setUp c ++ Script.pages c bytes 0 n)
      (why : f.IsAt (.page (n - 1)))
  /-- Around the boot flag, of which `part` is done. -/
  | boot (part : List Command) (sets : o.keepBootSource = false) (room : n ≤ c.pages)
      (sent : t.effects = Script.setUp c ++ (Script.pages c bytes 0 n ++ part))
      (within : part <+: Script.boot c true) (why : f.IsAt .bootFlag)

/-- Exchanges in front that give no command and take nothing of the image. -/
theorem Halts.append_left {o : Options} {c : Chip} {bytes : List UInt8} {n : Nat}
    {s t : Transcript ε} {f : Failure ε} (h : Halts o c bytes n t f) (hs : s.Completes [])
    (hk : s.taken = []) : Halts o c bytes n (s ++ t) f := by
  have he : (s ++ t).effects = t.effects := by
    rw [Transcript.effects_append hs.boundary, hs.effects, List.nil_append]
  have ht : (s ++ t).taken = t.taken := by
    rw [Transcript.taken_append, hk, List.nil_append]
  cases h with
  | early sent why => exact .early (he ▸ sent) why
  | page k part lt room sent cause =>
    refine .page k part lt room (he ▸ sent) ?_
    rw [ht]
    rcases cause with cause | ⟨hp, hat, late⟩
    · exact Or.inl cause
    · exact Or.inr ⟨hp, hat, fun e => (late e).append_left s⟩
  | last keeps pos room sent why => exact .last keeps pos room (he ▸ sent) why
  | boot part sets room sent within why => exact .boot part sets room (he ▸ sent) within why

/-- However a call stops, it has sent a first part of its script. -/
theorem Halts.prefix_program {o : Options} {c : Chip} {bytes : List UInt8} {n : Nat}
    {t : Transcript ε} {f : Failure ε} (h : Halts o c bytes n t f) :
    t.effects <+: Script.program o c bytes n := by
  unfold Script.program
  cases h with
  | early sent why => exact sent.trans (List.prefix_append _ _)
  | page k part lt room sent cause =>
    rw [sent]
    refine (List.prefix_append_right_inj _).mpr (List.IsPrefix.trans ?_ (List.prefix_append _ _))
    rcases cause with ⟨rfl, -⟩ | ⟨hp, -⟩
    · exact Script.pages_append_prefix lt List.nil_prefix
    · exact Script.pages_append_prefix lt hp
  | last keeps pos room sent why =>
    rw [sent]
    exact (List.prefix_append_right_inj _).mpr (List.prefix_append _ _)
  | boot part sets room sent within why =>
    rw [sent, sets]
    exact (List.prefix_append_right_inj _).mpr ((List.prefix_append_right_inj _).mpr within)

namespace Programmer

open Link

variable {o : Options} {c : Chip} {size : Nat} {observed : Bool} {image : List UInt8}

/-! ## The parts of a call -/

theorem follows_writeBootFlag (hc : c.Sound) (fromFlash : Bool) :
    (writeBootFlag o c fromFlash : Link ε Unit).Follows (Script.boot c fromFlash) (fun _ => True)
      (Failure.IsAt .bootFlag) := by
  have wait : (FlashController.awaitReady o c .bootFlag : Link ε Unit).Follows [] (fun _ => True)
      (Failure.IsNear .bootFlag) := FlashController.follows_awaitReady hc
  have flag (cmd : FlashCommand) (arg : Word) :
      (FlashController.command c 0 cmd arg : Link ε Unit).Follows _ (fun _ => True)
        (Failure.IsNear .bootFlag) :=
    (FlashController.follows_command hc hc.planes_pos cmd arg).mono (fun _ h => h)
      fun _ => Failure.IsBareLink.near
  refine (follows_log rfl).after fun _ => ?_
  refine (wait.after fun _ => (flag _ _).bind_cons fun _ _ => wait).during_isAt.bind_cons
    fun _ _ => ?_
  exact (follows_log rfl).after fun _ => follows_delay

theorem pagesOf_eq (hc : c.Sound) (h : size ≤ c.pages * c.pageSize) :
    (pagesOf c size : Link ε Nat) = pure (c.pagesFor size) := by
  have hf := hc.flash_fits
  have hp : c.pageSize ≤ c.pages * c.pageSize := Nat.le_mul_of_pos_left _ hc.pages_pos
  have hn : pageCount size c.pageSize = .ok (c.pagesFor size) :=
    pageCount_eq_ok hc.pageSize_pos (by rw [UInt64.size]; omega)
  unfold pagesOf
  rw [hc.capacity_eq, exact_ok, pure_bind, if_neg (by rw [Nat.mul_comm]; omega), hn, exact_ok]

theorem pagesOf_eq_of_lt (hc : c.Sound) (h : c.pages * c.pageSize < size) :
    (pagesOf c size : Link ε Nat) =
      Link.log (.imageTooLarge size (c.pageSize * c.pages)) >>= fun _ =>
        Link.fail (.imageTooLarge size (c.pageSize * c.pages)) := by
  unfold pagesOf
  rw [hc.capacity_eq, exact_ok, pure_bind, if_pos (by rw [Nat.mul_comm]; exact h)]

theorem follows_pagesOf_of_lt (hc : c.Sound) (h : c.pages * c.pageSize < size) :
    (pagesOf c size : Link ε Nat).Follows [] (fun _ => False) Failure.IsEarly := by
  rw [pagesOf_eq_of_lt hc h]
  exact (follows_log rfl).after fun _ => follows_fail (Or.inr (Or.inr ⟨_, _, rfl⟩))

/-- The pages of an image that fits are what remains before the first page. -/
theorem remains_zero (hc : c.Sound) (h : size ≤ c.pages * c.pageSize) :
    Page.Remains c size (c.pagesFor size) 0 0 := by
  have hpos := hc.pageSize_pos
  have hf := hc.flash_fits
  have hdiv := Nat.div_add_mod (size + c.pageSize - 1) c.pageSize
  have hmod := Nat.mod_lt (size + c.pageSize - 1) hpos
  have hmul : c.pageSize * c.pagesFor size = c.pagesFor size * c.pageSize := Nat.mul_comm _ _
  refine ⟨?_, fun _ => (Nat.zero_mul _).symm, ?_, ?_, ?_⟩
  · rw [Nat.zero_add]
    refine Nat.le_of_lt_succ ((Nat.div_lt_iff_lt_mul hpos).mpr ?_)
    rw [Nat.succ_mul]
    omega
  · intro hn
    have : c.pagesFor size * c.pageSize = (c.pagesFor size - 1) * c.pageSize + c.pageSize := by
      rw [← Nat.succ_mul]
      congr 1
      omega
    rw [Nat.zero_add]
    unfold Chip.pagesFor at *
    omega
  · rw [Nat.zero_add]
    unfold Chip.pagesFor at *
    omega
  · simp only [UInt64.size]
    omega

/-! ## Before and behind the pages -/

/-- What happens before the first page. -/
def opening (c : Chip) (size n : Nat) (observed : Bool) : Link ε Workspace := do
  Link.log (.writing size n c.name)
  let workspace ← Workspace.setUp c
  Page.tell observed (.begin c.flashBase n)
  return workspace

/-- What happens behind the last page. -/
def closing (o : Options) (c : Chip) (n : Nat) (observed : Bool) : Link ε Unit := do
  if o.keepBootSource then
    let last ← Link.exact (Size.sub n 1)
    Link.during (.page last) (FlashController.awaitReady o c (.page last))
  else
    writeBootFlag o c true
  Page.tell observed .finish
  Link.log .programmingComplete

theorem writePages_eq (n : Nat) :
    (writePages o c size n observed : Link ε Unit) =
      opening c size n observed >>= fun w =>
        Page.writeAll o c size observed n 0 0 w >>= fun _ => closing o c n observed := by
  simp only [writePages, opening, closing, bind_assoc, pure_bind]

theorem follows_opening (hc : c.Sound) (n : Nat) :
    (opening c size n observed : Link ε Workspace).Follows (Script.setUp c)
      (fun w => w = Workspace.ofPage c 0) Failure.IsBareLink := by
  rw [← List.append_nil (Script.setUp c)]
  refine (follows_log rfl).after fun _ => (Workspace.follows_setUp hc).bind fun w hw => ?_
  exact (Page.follows_tell observed _).after fun _ => follows_pure hw

theorem follows_closing_keep (hc : c.Sound) {n : Nat} (hn : 0 < n)
    (hk : o.keepBootSource = true) :
    (closing o c n observed : Link ε Unit).Follows [] (fun _ => True)
      (Failure.IsAt (.page (n - 1))) := by
  have hsub : Size.sub n 1 = .ok (n - 1) := Size.sub_eq_ok_iff.mpr ⟨rfl, hn⟩
  simp only [closing, if_pos hk]
  refine Follows.exact_bind hsub ?_
  refine (FlashController.follows_awaitReady hc).during_isAt.after fun _ => ?_
  exact (Page.follows_tell observed _).after fun _ => follows_log rfl

theorem follows_closing_boot (hc : c.Sound) {n : Nat} (hk : o.keepBootSource = false) :
    (closing o c n observed : Link ε Unit).Follows (Script.boot c true) (fun _ => True)
      (Failure.IsAt .bootFlag) := by
  simp only [closing, hk, Bool.false_eq_true, if_false]
  rw [← List.append_nil (Script.boot c true)]
  refine (follows_writeBootFlag hc true).bind fun _ _ => ?_
  exact (Page.follows_tell observed _).after fun _ => follows_log rfl

/-! ## A call that has the chip -/

/-- **A successful call** follows its script, and takes all bytes of the image. -/
theorem completes_writePages (hc : c.Sound) (hs : size ≤ c.pages * c.pageSize)
    (hn : 0 < c.pagesFor size) {t : Transcript ε} (ht : t.taken <+: image)
    (h : Link.Held (writePages o c size (c.pagesFor size) observed) t (.ok ())) :
    t.Completes (Script.program o c (image.take size) (c.pagesFor size)) ∧
      t.taken.length = size := by
  rw [writePages_eq] at h
  obtain ⟨w, s, u, h₁, h₂, rfl⟩ := Link.held_bind_ok h
  obtain ⟨_, v, z, h₃, h₄, rfl⟩ := Link.held_bind_ok h₂
  obtain ⟨cs, ks, rfl⟩ := (follows_opening hc _).completes h₁
  rw [Transcript.taken_append, Transcript.taken_append, ks, List.nil_append] at ht ⊢
  have hv (_ : 0 < c.pagesFor size) : v.taken <+: image.drop (0 * c.pageSize) := by
    rw [Nat.zero_mul]
    exact (List.prefix_append _ _).trans ht
  obtain ⟨cv, hlen⟩ := Page.held_writeAll_ok hc (remains_zero hc hs) hv h₃
  have cz : z.Completes (if o.keepBootSource then [] else Script.boot c true) ∧ z.taken = [] := by
    by_cases hk : o.keepBootSource = true
    · rw [if_pos hk]
      obtain ⟨cz, kz, -⟩ := (follows_closing_keep hc hn hk).completes h₄
      exact ⟨cz, kz⟩
    · rw [if_neg hk]
      obtain ⟨cz, kz, -⟩ := (follows_closing_boot hc (eq_false_of_ne_true hk)).completes h₄
      exact ⟨cz, kz⟩
  refine ⟨cs.append (cv.append cz.1), ?_⟩
  rw [cz.2, List.append_nil, hlen hn, Nat.sub_zero]

/-- **A failed call** stops in one of four places. -/
theorem halts_writePages (hc : c.Sound) (hs : size ≤ c.pages * c.pageSize)
    (hn : 0 < c.pagesFor size) {t : Transcript ε} {f : Failure ε} (ht : t.taken <+: image)
    (h : Link.Held (writePages o c size (c.pagesFor size) observed) t (.error f)) :
    Halts o c (image.take size) (c.pagesFor size) t f ∧
      t.course Reader.start <+: t.operations := by
  rw [writePages_eq] at h
  rcases Link.held_bind_iff.mp h with ⟨g, h₁, hr⟩ | ⟨w, s, u, h₁, h₂, rfl⟩
  · obtain rfl := Except.error.inj hr
    obtain ⟨b, -, hf⟩ := (follows_opening hc _).breaks h₁
    exact ⟨.early b.effects (Or.inl hf), b.course⟩
  obtain ⟨cs, ks, rfl⟩ := (follows_opening hc _).completes h₁
  rw [Transcript.taken_append, ks, List.nil_append] at ht
  have room : c.pagesFor size ≤ c.pages := by
    have := (remains_zero hc hs).pages
    omega
  have course {v : Transcript ε} (hv : v.course Reader.start <+: v.operations) :
      (s ++ v).course Reader.start <+: (s ++ v).operations := by
    rw [Transcript.course_append, cs.boundary, cs.course, Transcript.operations_append]
    exact (List.prefix_append_right_inj _).mpr hv
  have effects (v : Transcript ε) : (s ++ v).effects = Script.setUp c ++ v.effects := by
    rw [Transcript.effects_append cs.boundary, cs.effects]
  rcases Link.held_bind_iff.mp h₂ with ⟨g, h₃, hr⟩ | ⟨_, v, z, h₃, h₄, rfl⟩
  · obtain rfl := Except.error.inj hr
    have hu (_ : 0 < c.pagesFor size) : u.taken <+: image.drop (0 * c.pageSize) := by
      rwa [Nat.zero_mul]
    obtain ⟨k, part, hk, he, hco, cause⟩ :=
      Page.held_writeAll_error hc (remains_zero hc hs) hu h₃
    rw [Nat.zero_add] at cause
    refine ⟨.page k part hk room (by rw [effects, he]) ?_, course hco⟩
    rw [Transcript.taken_append, ks, List.nil_append]
    rcases cause with cause | ⟨hp, hat, late⟩
    · exact Or.inl cause
    · exact Or.inr ⟨hp, hat, fun e => (late e).append_left s⟩
  · have hv (_ : 0 < c.pagesFor size) : v.taken <+: image.drop (0 * c.pageSize) := by
      rw [Transcript.taken_append] at ht
      rw [Nat.zero_mul]
      exact (List.prefix_append _ _).trans ht
    have cv := (Page.held_writeAll_ok hc (remains_zero hc hs) hv h₃).1
    by_cases hk : o.keepBootSource = true
    · obtain ⟨b, -, hat⟩ := (follows_closing_keep hc hn hk).breaks h₄
      have hb := cv.breaks b
      refine ⟨.last hk hn room ?_ hat, course hb.course⟩
      rw [effects, Transcript.effects_append cv.boundary, cv.effects,
        List.prefix_nil.mp b.effects, List.append_nil]
    · have hk := eq_false_of_ne_true hk
      obtain ⟨b, -, hat⟩ := (follows_closing_boot hc hk).breaks h₄
      have hb := cv.breaks b
      refine ⟨.boot z.effects hk room ?_ b.effects hat, course hb.course⟩
      rw [effects, Transcript.effects_append cv.boundary, cv.effects]

/-! ## A call from its beginning -/

/-- The programmer knows that the chip is `c`, or it does not know the chip. -/
def MayKnow (p : Programmer) (c : Chip) : Prop := p.chip = none ∨ p.chip = some c

/-- The chip that is found is the one that the target reports. -/
theorem finds_eq {p : Programmer} {c' : Chip} {t : Transcript ε} (hc : c ∈ Chip.all)
    (hp : p.MayKnow c) (hr : t.MayReport c) (h : Finds o p t c') :
    c' = c ∧ t.Completes [] ∧ t.taken = [] := by
  rcases h with ⟨h, rfl⟩ | ⟨-, hf⟩
  · rcases hp with hp | hp
    · exact absurd (h.symm.trans hp) (by simp)
    · exact ⟨Option.some.inj (h.symm.trans hp), Transcript.quiet_nil.completes, rfl⟩
  · obtain ⟨hs, hk, -⟩ := (follows_findChip o).completes hf
    exact ⟨findChip_eq hc hr hf, hs, hk⟩

theorem pagesFor_zero (hc : c.Sound) : c.pagesFor 0 = 0 := by
  have := hc.pageSize_pos
  exact Nat.div_eq_of_lt (by omega)

theorem pagesFor_pos (hc : c.Sound) (hs : 0 < size) : 0 < c.pagesFor size :=
  Nat.div_pos (by omega) hc.pageSize_pos

/-- An image that is neither empty nor too large has its pages written. -/
theorem writing_eq (hc : c.Sound) (hpos : 0 < size) (hs : size ≤ c.pages * c.pageSize) :
    (writing o c size observed : Link ε Unit) =
      writePages o c size (c.pagesFor size) observed := by
  have hn := pagesFor_pos hc hpos
  rw [writing, pagesOf_eq hc hs, pure_bind, if_neg (by omega)]

/-- Nothing is sent for an image that is empty or too large, and only the empty one is fine. -/
theorem follows_writing_nil (hc : c.Sound) (hs : size = 0 ∨ c.pages * c.pageSize < size) :
    (writing o c size observed : Link ε Unit).Follows [] (fun _ => size = 0)
      Failure.IsEarly := by
  rcases hs with rfl | hs
  · rw [writing, pagesOf_eq hc (Nat.zero_le _), pure_bind, pagesFor_zero hc, if_pos rfl]
    exact (follows_log rfl).mono (fun _ _ => rfl) fun _ => id
  · have large : (writing o c size observed : Link ε Unit).Follows ([] ++ []) (fun _ => size = 0)
        Failure.IsEarly :=
      (follows_pagesOf_of_lt hc hs).bind fun _ h => absurd h id
    exact large

/-- **A successful call from its beginning** follows the script of the chip, and takes all bytes of
the image. -/
theorem completes_program {p q : Programmer} (hc : c ∈ Chip.all) (hp : p.MayKnow c)
    (hpos : 0 < size) (hs : size ≤ c.pages * c.pageSize) {t : Transcript ε}
    (hr : t.MayReport c) (ht : t.taken <+: image)
    (h : Held (program o size observed) p t (.ok ()) q) :
    t.Completes (Script.program o c (image.take size) (c.pagesFor size)) ∧
      t.taken.length = size := by
  have sound := Chip.sound_of_mem hc
  have hn := pagesFor_pos sound hpos
  rcases held_program h with ⟨_, -, -, e, -⟩ | ⟨c', s, u, hf, hw, rfl, -⟩
  · exact absurd e (by simp)
  obtain ⟨rfl, cs, ks⟩ := finds_eq hc hp hr.of_append hf
  rw [Transcript.taken_append, ks, List.nil_append] at ht ⊢
  rw [writing_eq sound hpos hs] at hw
  obtain ⟨cu, hlen⟩ := completes_writePages sound hs hn ht hw
  exact ⟨cs.append cu, hlen⟩

/-- **A failed call from its beginning** stops in one of four places. -/
theorem halts_program {p q : Programmer} (hc : c ∈ Chip.all) (hp : p.MayKnow c)
    {t : Transcript ε} {f : Failure ε} (hr : t.MayReport c) (ht : t.taken <+: image)
    (h : Held (program o size observed) p t (.error f) q) :
    Halts o c (image.take size) (c.pagesFor size) t f ∧
      t.course Reader.start <+: t.operations := by
  have sound := Chip.sound_of_mem hc
  rcases held_program h with ⟨g, -, hg, e, -⟩ | ⟨c', s, u, hf, hw, rfl, -⟩
  · obtain rfl := Except.error.inj e
    obtain ⟨b, -, hwhy⟩ := (follows_findChip o).breaks hg
    refine ⟨.early (b.effects.trans (List.nil_prefix)) ?_, b.course⟩
    rcases hwhy with hwhy | hwhy
    · exact Or.inl hwhy
    · exact Or.inr (Or.inl hwhy)
  obtain ⟨rfl, cs, ks⟩ := finds_eq hc hp hr.of_append hf
  rw [Transcript.taken_append, ks, List.nil_append] at ht
  suffices hu : Halts o c' (image.take size) (c'.pagesFor size) u f ∧
      u.course Reader.start <+: u.operations by
    refine ⟨hu.1.append_left cs ks, ?_⟩
    rw [Transcript.course_append, cs.boundary, cs.course, Transcript.operations_append]
    exact (List.prefix_append_right_inj _).mpr hu.2
  by_cases hs : 0 < size ∧ size ≤ c'.pages * c'.pageSize
  · have hn := pagesFor_pos sound hs.1
    rw [writing_eq sound hs.1 hs.2] at hw
    exact halts_writePages sound hs.2 hn ht hw
  · obtain ⟨b, -, hwhy⟩ := (follows_writing_nil sound (by omega)).breaks hw
    exact ⟨.early (b.effects.trans List.nil_prefix) hwhy, b.course⟩

/-- **A program call with a known chip** starts at the beginning: it loads the applet, and brings
the pages to flash from the first one on, as far as it comes. -/
theorem effects_of_known {p q : Programmer} (hc : c ∈ Chip.all) (hp : p.chip = some c)
    {t : Transcript ε} {r : Except (Failure ε) Unit}
    (h : Held (program o size observed) p t r q) :
    t.effects <+: Script.program o c (t.taken.take size) (c.pagesFor size) ∧
      (r = .ok () → 0 < size →
        t.effects = Script.program o c (t.taken.take size) (c.pagesFor size)) := by
  have sound := Chip.sound_of_mem hc
  rcases held_program h with ⟨_, hn, -⟩ | ⟨c', s, u, hf, hw, rfl, -⟩
  · exact absurd (hp.symm.trans hn) (by simp)
  obtain ⟨rfl, rfl⟩ : c = c' ∧ s = [] := by
    rcases hf with ⟨hk, rfl⟩ | ⟨hn, -⟩
    · exact ⟨Option.some.inj (hp.symm.trans hk), rfl⟩
    · exact absurd (hp.symm.trans hn) (by simp)
  rw [List.nil_append]
  by_cases hs : 0 < size ∧ size ≤ c.pages * c.pageSize
  · have hn := pagesFor_pos sound hs.1
    rw [writing_eq sound hs.1 hs.2] at hw
    cases r with
    | ok _ =>
      have done := (completes_writePages sound hs.2 hn List.prefix_rfl hw).1.effects
      exact ⟨done ▸ List.prefix_rfl, fun _ _ => done⟩
    | error f =>
      exact ⟨(halts_writePages sound hs.2 hn List.prefix_rfl hw).1.prefix_program, by simp⟩
  · have none : (writing o c size observed : Link ε Unit).Follows [] (fun _ => size = 0)
        Failure.IsEarly := follows_writing_nil sound (by omega)
    cases r with
    | ok _ =>
      obtain ⟨complete, -, rfl⟩ := none.completes hw
      exact ⟨by rw [complete.effects]; exact List.nil_prefix, fun _ h => absurd h (by omega)⟩
    | error f =>
      exact ⟨(none.breaks hw).1.effects.trans List.nil_prefix, by simp⟩

end Programmer

end SamFlash
