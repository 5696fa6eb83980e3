import SamFlash.Page
import SamFlash.Proofs.Follows

/-!
# The script of a program call

What a program call makes the monitor do depends on the chip and on the image alone: the applet and
what it needs for all pages, then six commands for every page, and in the end the boot flag. The
status of the flash controllers decides only how far the script comes.

The six commands of a page are those of `Page.write`: the block with its bytes, to the buffer whose
turn it is; the address that the applet copies to and the one it copies from; its entry, and the
branch that starts it (`Applet.run`); and the command that erases and writes the page
(`FlashController.command`). The waits in between only read. `Script.page` is split at the branch
and at the last command, since these are the places where something happens to the latch and to
flash.

Whether a page was committed can differ from what the host knows of it. If `Page.write` fails
although the whole script of the page is done, the last command was taken and the flush behind it
failed; this is the only way (`Link.Commits`). Behind a page that succeeded the workspace is that of
the next page: the same applet, and the other buffer (`Workspace.ofPage`), which is the invariant of
`Page.writeAll`.

Results:
* `Workspace.follows_setUp`: setting up follows `Script.setUp`, and gives the workspace of page 0.
* `Page.commits_write`: writing a page follows `Script.page` and gives the workspace of the next
  page; if it fails although the page was committed, the flush behind the commit failed.
-/

namespace SamFlash

variable {ε α β : Type}

/-! ## The commands -/

namespace Script

/-- The applet, its constant parameters and the programming mode of the planes. -/
def setUp (c : Chip) : List Command :=
  [.writeBlock c.ramUserBase Applet.code,
    .writeWord (c.slotAddress Applet.wordsOffset) (Word.ofSize (c.pageSize / 4)),
    .writeWord (c.slotAddress Applet.stackOffset) c.ramStackTop] ++
  (List.range' 0 c.planes).map fun plane =>
    .writeWord (c.registerAddress plane FlashController.modeOffset) FlashController.programmingMode

/-- The command that erases and writes a page. -/
def commit (c : Chip) (page : Nat) : Command :=
  .writeWord (c.registerAddress (c.planeOf page) FlashController.commandOffset)
    (FlashCommand.eraseWritePage.word (Word.ofSize (c.pageOnPlane page)))

/-- What brings the bytes of a page to its buffer, and the applet's parameters to their slots. -/
def load (c : Chip) (page : Nat) (data : List UInt8) : List Command :=
  [.writeBlock (c.bufferAddress page) data,
    .writeWord (c.slotAddress Applet.destinationOffset) (c.flashAddress page),
    .writeWord (c.slotAddress Applet.sourceOffset) (c.bufferAddress page),
    .writeWord (c.slotAddress Applet.resetOffset) (c.ramUserBase + 1)]

/-- The command that starts the applet. -/
def start (c : Chip) : Command := .go (c.slotAddress Applet.stackOffset)

/-- What brings the bytes of a page to the latch. -/
def stage (c : Chip) (page : Nat) (data : List UInt8) : List Command :=
  load c page data ++ [start c]

/-- What brings the bytes of a page to flash. -/
def page (c : Chip) (page : Nat) (data : List UInt8) : List Command :=
  stage c page data ++ [commit c page]

/-- What a flash controller is told to set or clear the boot flag. -/
def bootCommand (fromFlash : Bool) : FlashCommand :=
  if fromFlash then .setGpnvmBit else .clearGpnvmBit

/-- The command that sets or clears the boot flag. -/
def boot (c : Chip) (fromFlash : Bool) : List Command :=
  [.writeWord (c.registerAddress 0 FlashController.commandOffset)
    ((if fromFlash then FlashCommand.setGpnvmBit else .clearGpnvmBit).word c.bootFlagArgument)]

end Script

/-! ## Scripts that end in a flush -/

namespace Link

/-- The operation follows the script, and it fails after the last command of the script only by a
flush. -/
structure Commits (x : Link ε α) (script : List Command) (value : α → Prop)
    (failure : Failure ε → Prop) : Prop extends Follows x script value failure where
  nonempty : script ≠ []
  late : ∀ {t f}, Held x t (.error f) → t.effects = script → t.EndsInFlush

variable {x : Link ε α} {f : α → Link ε β} {cs ds : List Command} {v : α → Prop} {w : β → Prop}
  {bad bad' : Failure ε → Prop}

theorem Follows.commits_bind (hx : x.Follows cs v bad) (hd : ds ≠ [])
    (hf : ∀ a, v a → (f a).Commits ds w bad) : (x >>= f).Commits (cs ++ ds) w bad where
  toFollows := hx.bind fun a ha => (hf a ha).toFollows
  nonempty := fun h => hd (List.append_eq_nil_iff.mp h).2
  late := by
    intro t e h he
    rcases held_bind_iff.mp h with ⟨g, h₁, -⟩ | ⟨a, t₁, t₂, h₁, h₂, rfl⟩
    · obtain ⟨b, -⟩ := hx.breaks h₁
      have := he ▸ b.effects.length_le
      rw [List.length_append] at this
      exact absurd (List.length_eq_zero_iff.mp (by omega)) hd
    · obtain ⟨b, -, ha⟩ := hx.completes h₁
      rw [Transcript.effects_append b.boundary, b.effects] at he
      exact ((hf a ha).late h₂ (List.append_cancel_left he)).append_left t₁

theorem Follows.commits_cons {d : Command} (hx : x.Follows [d] v bad) (hd : ds ≠ [])
    (hf : ∀ a, v a → (f a).Commits ds w bad) : (x >>= f).Commits (d :: ds) w bad :=
  hx.commits_bind hd hf

theorem Follows.commits_after (hx : x.Follows [] (fun _ => True) bad)
    (hf : ∀ a, (f a).Commits ds w bad) (a : α) : (x >>= f).Commits ds w bad :=
  hx.commits_bind (hf a).nonempty fun a _ => hf a

theorem Commits.mono (h : x.Commits cs v bad) (hf : ∀ f, bad f → bad' f) :
    x.Commits cs v bad' where
  toFollows := h.toFollows.mono (fun _ ha => ha) hf
  nonempty := h.nonempty
  late := h.late

theorem Commits.exact_bind {c : Checked α} {a : α} (hc : c = .ok a) (h : (f a).Commits cs w bad) :
    (exact c >>= f).Commits cs w bad := by
  rw [hc, exact_ok, pure_bind]
  exact h

/-- Nothing can fail behind the last command. -/
theorem Commits.bind_pure {g : α → β} (h : x.Commits cs v bad) (hg : ∀ a, v a → w (g a)) :
    (x >>= fun a => pure (g a)).Commits cs w bad where
  toFollows := by
    rw [← List.append_nil cs]
    exact h.toFollows.bind fun a ha => follows_pure (hg a ha)
  nonempty := h.nonempty
  late := by
    intro t e ht he
    rcases held_bind_iff.mp ht with ⟨_, h₁, _⟩ | ⟨a, t₁, t₂, _, h₂, rfl⟩
    · exact h.late h₁ he
    · exact absurd (held_pure_iff.mp h₂).2 (by simp)

/-- A failure near a stage becomes one at the stage. -/
theorem Commits.during_isAt {s : Stage} (h : x.Commits cs v (Failure.IsNear s)) :
    (Link.during s x).Commits cs v (Failure.IsAt s) where
  toFollows := h.toFollows.during_isAt
  nonempty := h.nonempty
  late := by
    intro t f ht he
    obtain ⟨r, hr, e⟩ := held_during_iff.mp ht
    cases r with
    | ok b => exact absurd e (by simp)
    | error g => exact h.late hr he

end Link

open Link

theorem FlashController.commits_command {c : Chip} (hc : c.Sound) {plane : Nat}
    (hp : plane < c.planes) (cmd : FlashCommand) (arg : Word) :
    (command c plane cmd arg : Link ε Unit).Commits
      [.writeWord (c.registerAddress plane commandOffset) (cmd.word arg)] (fun _ => True)
      Failure.IsBareLink := by
  have hw : (Monitor.writeWord (c.registerAddress plane commandOffset) (cmd.word arg) :
      Link ε Unit).Commits _ (fun _ => True) Failure.IsBareLink :=
    ⟨Monitor.follows_writeWord _ _, by simp,
      fun ht he => Monitor.commits_writeWord ht (he ▸ by simp)⟩
  exact (follows_log rfl).commits_after
    (fun _ => Commits.exact_bind (hc.register_eq hp (by decide)) hw) ()

/-! ## The applet -/

namespace Applet

variable {c : Chip}

/-- The applet on a chip. -/
def on (c : Chip) : Applet := ⟨c.ramUserBase⟩

theorem code_fits : code.length < UInt32.size := by
  rw [code_length]
  decide

theorem follows_load (c : Chip) :
    (load c.ramUserBase : Link ε Applet).Follows [.writeBlock c.ramUserBase code]
      (fun a => a = on c) Failure.IsBareLink := by
  refine (follows_log rfl).after fun _ => ?_
  exact (Monitor.follows_writeBlock c.ramUserBase code_fits).bind_cons fun _ _ => follows_pure rfl

/-- A parameter is set, after a diagnostic about it. -/
theorem follows_setSlot (hc : c.Sound) {d : Diagnostic}
    (hd : Exchange.operation? (ε := ε) ⟨.log d, ()⟩ = none) {offset : Word}
    (ho : offset.toNat ≤ 0x34) (value : Word) :
    (log d >>= fun _ => (on c).setSlot offset value : Link ε Unit).Follows
      [.writeWord (c.slotAddress offset) value] (fun _ => True) Failure.IsBareLink :=
  (follows_log hd).after fun _ =>
    Follows.exact_bind (hc.slot_eq ho) (Monitor.follows_writeWord _ _)

theorem follows_setWords (hc : c.Sound) (value : Word) :
    ((on c).setWords value : Link ε Unit).Follows
      [.writeWord (c.slotAddress wordsOffset) value] (fun _ => True) Failure.IsBareLink :=
  follows_setSlot hc rfl (by decide) value

theorem follows_setStack (hc : c.Sound) (value : Word) :
    ((on c).setStack value : Link ε Unit).Follows
      [.writeWord (c.slotAddress stackOffset) value] (fun _ => True) Failure.IsBareLink :=
  follows_setSlot hc rfl (by decide) value

theorem follows_setSource (hc : c.Sound) (value : Word) :
    ((on c).setSource value : Link ε Unit).Follows
      [.writeWord (c.slotAddress sourceOffset) value] (fun _ => True) Failure.IsBareLink :=
  follows_setSlot hc rfl (by decide) value

theorem follows_setDestination (hc : c.Sound) (value : Word) :
    ((on c).setDestination value : Link ε Unit).Follows
      [.writeWord (c.slotAddress destinationOffset) value] (fun _ => True) Failure.IsBareLink :=
  follows_setSlot hc rfl (by decide) value

theorem entry_eq (hc : c.Sound) : (on c).entry = .ok (c.ramUserBase + 1) := by
  have start : Word.add (on c).base startOffset = .ok c.ramUserBase := by
    rw [Word.add_eq_ok_iff]
    rfl
  have thumb : Word.add c.ramUserBase 1 = .ok (c.ramUserBase + 1) :=
    hc.slot_eq (show (1 : Word).toNat ≤ 0x34 by decide)
  simp only [entry, start, bind, Except.bind, thumb]

theorem follows_run (hc : c.Sound) :
    ((on c).run : Link ε Unit).Follows
      [.writeWord (c.slotAddress resetOffset) (c.ramUserBase + 1), .go (c.slotAddress stackOffset)]
      (fun _ => True) Failure.IsBareLink := by
  refine (follows_log rfl).after fun _ => ?_
  refine Follows.exact_bind (hc.slot_eq (by decide)) ?_
  refine Follows.exact_bind (entry_eq hc) ?_
  refine (Monitor.follows_writeWord _ _).bind_cons fun _ _ => ?_
  exact Follows.exact_bind (hc.slot_eq (by decide)) (Monitor.follows_go _)

end Applet

/-! ## Setting up -/

namespace Workspace

variable {c : Chip}

/-- What is on the target when a page is about to be written. -/
def ofPage (c : Chip) (page : Nat) : Workspace where
  applet := Applet.on c
  buffers := ⟨c.bufferAddress 0, c.bufferAddress 1, page % 2 == 1⟩

theorem ofPage_succ (c : Chip) (page : Nat) :
    { ofPage c page with buffers := (ofPage c page).buffers.swap } = ofPage c (page + 1) := by
  unfold ofPage Staging.swap
  rcases Nat.mod_two_eq_zero_or_one page with h | h
  · have : (page + 1) % 2 = 1 := by omega
    simp [h, this]
  · have : (page + 1) % 2 = 0 := by omega
    simp [h, this]

theorem follows_prepareFrom (hc : c.Sound) (left plane : Nat) (hp : plane + left ≤ c.planes) :
    (prepareFrom c left plane : Link ε Unit).Follows
      ((List.range' plane left).map fun plane => .writeWord
        (c.registerAddress plane FlashController.modeOffset) FlashController.programmingMode)
      (fun _ => True) Failure.IsBareLink := by
  induction left generalizing plane with
  | zero => exact follows_pure trivial
  | succ left ih =>
    rw [List.range'_succ, List.map_cons]
    exact (FlashController.follows_writeRegister hc (by omega) (by decide) _).bind_cons
      fun _ _ => ih (plane + 1) (by omega)

theorem behind_eq (hc : c.Sound) :
    Word.add (Applet.on c).base Applet.size = .ok (c.bufferAddress 0) := by
  rw [Word.add_eq_ok_iff, hc.toNat_bufferAddress]
  simp [Applet.on, Applet.size, Applet.code_length, Word.ofSize]

theorem buffers_eq (hc : c.Sound) :
    Staging.ofBase (c.bufferAddress 0) c.pageSize = .ok (ofPage c 0).buffers := by
  have hs := hc.ram_lt
  have second : Word.add (c.bufferAddress 0) (Word.ofSize c.pageSize) =
      .ok (c.bufferAddress 1) := by
    rw [Word.add_eq_ok_iff, hc.toNat_bufferAddress, hc.toNat_bufferAddress]
    simp only [Word.ofSize, UInt32.toNat_ofNat']
    omega
  simp only [Staging.ofBase, second, bind, Except.bind, pure, Except.pure]
  rfl

/-- **Setting up** follows its script and gives the workspace of the first page. -/
theorem follows_setUp (hc : c.Sound) :
    (setUp c : Link ε Workspace).Follows (Script.setUp c) (fun w => w = ofPage c 0)
      Failure.IsBareLink := by
  unfold Script.setUp
  refine (Applet.follows_load c).bind_cons fun applet ha => ?_
  subst ha
  refine (Applet.follows_setWords hc _).bind_cons fun _ _ => ?_
  refine (Applet.follows_setStack hc _).bind_cons fun _ _ => ?_
  have last : (exact (Word.add (Applet.on c).base Applet.size) >>= fun behind =>
      exact (Staging.ofBase behind c.pageSize) >>= fun buffers =>
        pure ⟨Applet.on c, buffers⟩ : Link ε Workspace).Follows [] (fun w => w = ofPage c 0)
      Failure.IsBareLink :=
    Follows.exact_bind (behind_eq hc) (Follows.exact_bind (buffers_eq hc) (follows_pure rfl))
  have := (follows_prepareFrom (ε := ε) hc c.planes 0 (by omega)).bind fun _ _ => last
  rwa [List.append_nil] at this

end Workspace

/-! ## A page -/

namespace Page

variable {o : Options} {c : Chip} {page : Nat} {data : List UInt8}

/-- **Writing a page** follows its script, and gives the workspace of the next page. -/
theorem commits_write (hc : c.Sound) (hp : page < c.pages) (hd : data.length = c.pageSize) :
    (write o c (Workspace.ofPage c page) page data : Link ε Workspace).Commits
      (Script.page c page data) (fun w => w = Workspace.ofPage c (page + 1))
      (Failure.IsNear (.page page)) := by
  have near {x : Link ε Unit} {cs : List Command}
      (h : x.Follows cs (fun _ => True) Failure.IsBareLink) :
      x.Follows cs (fun _ => True) (Failure.IsNear (.page page)) :=
    h.mono (fun _ h => h) fun _ => Failure.IsBareLink.near
  have fits : data.length < UInt32.size := hd ▸ hc.pageSize_lt
  have buffer : (Workspace.ofPage c page).buffers.current = c.bufferAddress page :=
    Chip.staging_eq c page
  unfold write Script.page Script.stage Script.load Script.start
  rw [if_neg (by omega)]
  simp only [buffer]
  refine Commits.exact_bind (hc.pageAddress_eq hp) ?_
  refine (follows_log rfl).commits_after (fun _ => ?_) ()
  refine (near (Monitor.follows_writeBlock _ fits)).commits_cons (by simp) fun _ _ => ?_
  refine (near (Applet.follows_setDestination hc _)).commits_cons (by simp) fun _ _ => ?_
  refine (near (Applet.follows_setSource hc _)).commits_cons (by simp) fun _ _ => ?_
  refine (FlashController.follows_awaitReady hc).commits_after (fun _ => ?_) ()
  refine (near (Applet.follows_run hc)).commits_bind (by simp) fun _ _ => ?_
  refine Commits.exact_bind (hc.planeForPage_eq page) ?_
  refine ((FlashController.commits_command hc (hc.planeOf_lt hp) _ _).mono
    fun _ => Failure.IsBareLink.near).bind_pure fun _ _ => ?_
  exact Workspace.ofPage_succ c page

end Page

end SamFlash
