import SamFlash.Proofs.MonitorMemory
import SamFlash.Proofs.Seamless
import SamFlash.Proofs.Stages

/-!
# What the observer is told

A program call tells its observer that writing begins, how many pages have been written, and that it
is done (`Page.tell` in `Programmer.writePages` and `Page.writeAll`). This is about which of that is
told, and when: with every time that the observer is told something goes what has been done before
it (`Transcript.Tells`), and for each kind of progress that is fixed (`Programmer.Due`). Writing
begins when `Workspace.setUp` is through and nothing has been asked of the image. A page counts as
written when the command that writes it has been flushed, which is the last thing that is done
before the observer hears of it; whether the controller has carried the command out is not known by
then.

The call is done when a wait behind the last page has ended with a round in which every plane was
ready. If the boot source is kept, that is the wait for the last page; otherwise the boot flag has
been set before it, and has had its time to settle behind it.

Nothing is told while the chip is identified, checked or set up, while bytes of the image are read,
or while a page is sent; these operations move bytes, note what they do, and pause
(`Link.Discreet`). A call that stops on the way has told of the pages that it has written, and of
nothing else; an observer that hears nothing at all is one of a call that did not find the chip,
refused the image, had none to write, or could not set up the chip (`Programmer.Unheard`).

Results:
* `Transcript.Tells.append`: what is told in two pieces, one after the other.
* `Workspace.discreet_setUp`, `Page.discreet_write`, `FlashController.discreet_awaitReady`: nothing
  is told.
* `Page.told_writeAll`: the pages, one after the other.
* `Programmer.told_closing`, `Programmer.told_pages`, `Programmer.told_writePages`: the end, what
  comes before it, and all of it.
* `Programmer.told_program`: a program call.
* **`Programmer.observer_is_told`**: a program call in a session.
-/

namespace SamFlash

variable {ε α β : Type} {o : Options}

/-! ## Operations that tell nothing -/

/-- A diagnostic or a pause. -/
def Request.IsNote : Request → Prop
  | log _ => True
  | delay _ => True
  | _ => False

theorem Transcript.progress_eq_nil {t : Transcript ε} (h : ∀ x ∈ t, ∀ p, x.request ≠ .progress p) :
    t.progress = [] := by
  refine List.filterMap_eq_nil_iff.mpr fun x hx => ?_
  obtain ⟨q, a⟩ := x
  cases q with
  | progress p => exact absurd rfl (h _ hx p)
  | _ => rfl

namespace Link

/-- The operation moves bytes, notes what it does and pauses, and that is all. -/
abbrev Discreet (o : Options) (x : Link ε α) : Prop := x.Consists o Request.IsNote

variable {x : Link ε α} {P : Request → Prop}

theorem Discreet.unread (h : x.Discreet o) {t : Transcript ε} {r : Except (Failure ε) α}
    (ht : Held x t r) : t.Unread := by
  rintro y hy limit hq
  have := (h.exchanges ht).requests y hy
  rw [hq] at this
  exact this.elim id id

theorem Consists.untold (h : x.Consists o P) (hP : ∀ p, ¬ P (.progress p)) {t : Transcript ε}
    {r : Except (Failure ε) α} (ht : Held x t r) : t.progress = [] := by
  refine Transcript.progress_eq_nil fun y hy p hq => ?_
  have := (h.exchanges ht).requests y hy
  rw [hq] at this
  exact this.elim (hP p) id

theorem consists_exact (c : Checked α) : (exact c : Link ε α).Consists o P where
  exchanges := by
    intro t r h
    cases c with
    | ok a => exact (consists_pure a).exchanges h
    | error e =>
      obtain ⟨rfl, -⟩ := Dialogue.held_done_iff.mp h
      exact .nil

theorem Consists.during (h : x.Consists o P) (stage : Stage) :
    (Link.during stage x).Consists o P where
  exchanges ht := by
    obtain ⟨_, hr, -⟩ := held_during_iff.mp ht
    exact h.exchanges hr

/-- If the operation succeeds, the last thing that it does is `y`. -/
structure Ends (x : Link ε α) (y : Link ε Unit) : Prop where
  last : ∀ {t a}, Held x t (.ok a) → ∃ s u, t = s ++ u ∧ Held y u (.ok ())

theorem Ends.after {f : α → Link ε β} {y : Link ε Unit} (h : ∀ a, (f a).Ends y) :
    (x >>= f).Ends y where
  last ht := by
    obtain ⟨a, t₁, t₂, -, h₂, rfl⟩ := held_bind_ok ht
    obtain ⟨s, u, rfl, hu⟩ := (h a).last h₂
    exact ⟨t₁ ++ s, u, (List.append_assoc t₁ s u).symm, hu⟩

theorem ends_bind_pure {y : Link ε Unit} (b : β) : (y >>= fun _ => pure b : Link ε β).Ends y where
  last ht := by
    obtain ⟨_, t₁, t₂, h₁, h₂, rfl⟩ := held_bind_ok ht
    obtain ⟨rfl, -⟩ := held_pure_iff.mp h₂
    exact ⟨[], t₁, List.append_nil t₁, h₁⟩

theorem Ends.during {y : Link ε Unit} (h : x.Ends y) (stage : Stage) :
    (Link.during stage x).Ends y where
  last ht := by
    obtain ⟨r, hr, e⟩ := held_during_iff.mp ht
    cases r with
    | error g => exact absurd e (by simp)
    | ok a => exact h.last hr

theorem discreet_log (d : Diagnostic) : (log d : Link ε Unit).Discreet o :=
  consists_request trivial

end Link

open Link

namespace FlashController

variable {c : Chip} {stage : Stage}

theorem discreet_writeRegister (plane : Nat) (offset value : Word) :
    (writeRegister c plane offset value : Link ε Unit).Discreet o :=
  (consists_exact _).bind fun _ => (Composed.writeWord trivial).consists

theorem discreet_command (plane : Nat) (cmd : FlashCommand) (arg : Word) :
    (command c plane cmd arg : Link ε Unit).Discreet o :=
  (discreet_log _).bind fun _ => discreet_writeRegister plane _ _

theorem discreet_scanPlanes (left plane : Nat) (busy : Option Nat) :
    (scanPlanes o c stage left plane busy : Link ε _).Discreet o := by
  induction left generalizing plane busy with
  | zero => exact consists_pure busy
  | succ left ih =>
    refine (consists_exact _).bind fun _ => ?_
    refine (Composed.readWord fun _ => trivial).consists.bind fun status => ?_
    by_cases hl : isLocked status = true
    · simp only [if_pos hl]
      exact (discreet_log _).bind fun _ => consists_fail _
    · simp only [if_neg hl]
      exact ih _ _

theorem discreet_pollRounds (left : Nat) (tried : Word) (busy : Option Nat) :
    (pollRounds o c stage left tried busy : Link ε Unit).Discreet o := by
  induction left generalizing tried busy with
  | zero => exact (discreet_log _).bind fun _ => consists_fail _
  | succ left ih =>
    refine (discreet_scanPlanes _ _ _).bind fun busy => ?_
    by_cases hb : busy.isSome = true
    · simp only [if_pos hb]
      refine (consists_exact _).bind fun tried => ?_
      by_cases ht : tried < o.statusRetries
      · simp only [if_pos ht]
        exact (consists_request trivial).bind fun _ => ih _ _
      · simp only [if_neg ht]
        exact (consists_pure ()).bind fun _ => ih _ _
    · simp only [if_neg hb]
      exact consists_pure ()

theorem discreet_awaitReady : (awaitReady o c stage : Link ε Unit).Discreet o :=
  discreet_pollRounds _ _ _

/-- A command that has been given has been flushed. -/
theorem flushes_command (plane : Nat) (cmd : FlashCommand) (arg : Word) :
    (command c plane cmd arg : Link ε Unit).Flushes :=
  .after fun _ => .after fun _ => .after fun _ => .after fun _ => flushes_flush

end FlashController

namespace Applet

variable {a : Applet}

theorem discreet_setSlot {d : Diagnostic} (slot value : Word) :
    (log d >>= fun _ => a.setSlot slot value : Link ε Unit).Discreet o :=
  (discreet_log _).bind fun _ => (consists_exact _).bind fun _ =>
    (Composed.writeWord trivial).consists

theorem discreet_run : (a.run : Link ε Unit).Discreet o := by
  refine (discreet_log _).bind fun _ => (consists_exact _).bind fun _ =>
    (consists_exact _).bind fun _ => ?_
  exact (Composed.writeWord trivial).consists.bind fun _ => (consists_exact _).bind fun _ =>
    (Composed.go trivial).consists

end Applet

namespace Workspace

variable {c : Chip}

theorem discreet_prepareFrom (left plane : Nat) :
    (prepareFrom c left plane : Link ε Unit).Discreet o := by
  induction left generalizing plane with
  | zero => exact consists_pure ()
  | succ left ih =>
    exact (FlashController.discreet_writeRegister _ _ _).bind fun _ => ih _

theorem discreet_setUp : (setUp c : Link ε Workspace).Discreet o := by
  have load : (Applet.load c.ramUserBase : Link ε Applet).Discreet o :=
    (discreet_log _).bind fun _ =>
      (Composed.writeBlock Applet.code_fits trivial).consists.bind fun _ => consists_pure _
  refine load.bind fun _ => (Applet.discreet_setSlot _ _).bind fun _ =>
    (Applet.discreet_setSlot _ _).bind fun _ => ?_
  exact (discreet_prepareFrom _ _).bind fun _ => (consists_exact _).bind fun _ =>
    (consists_exact _).bind fun _ => consists_pure _

end Workspace

namespace Page

variable {c : Chip} {observed : Bool} {page : Nat} {data : List UInt8}

theorem discreet_write (fits : data.length < UInt32.size) (w : Workspace) :
    (write o c w page data : Link ε Workspace).Discreet o := by
  unfold write
  by_cases hp : c.pages ≤ page
  · rw [if_pos hp]
    exact consists_fail _
  rw [if_neg hp]
  refine (consists_exact _).bind fun addr => (discreet_log _).bind fun _ =>
    (Composed.writeBlock fits trivial).consists.bind fun _ => ?_
  refine (Applet.discreet_setSlot _ _).bind fun _ => (Applet.discreet_setSlot _ _).bind fun _ =>
    FlashController.discreet_awaitReady.bind fun _ => Applet.discreet_run.bind fun _ => ?_
  exact (consists_exact _).bind fun _ => (FlashController.discreet_command _ _ _).bind fun _ =>
    consists_pure _

/-- Reading a page tells nothing. -/
theorem untold_next {size read : Nat} {t : Transcript ε}
    {r : Except (Failure ε) (Nat × List UInt8)} (h : Held (next c size page read) t r) :
    t.progress = [] := by
  have consists : (next c size page read : Link ε _).Consists {} fun q => ∀ p, q ≠ .progress p := by
    refine (Composed.image fun _ _ _ _ => by simp).consists.bind fun data => ?_
    refine (consists_exact _).bind fun read => ?_
    by_cases hend : data.length < c.pageSize ∧ read < size
    · rw [if_pos hend]
      exact (consists_request (by simp)).bind fun _ => consists_fail _
    rw [if_neg hend]
    by_cases hshort : data.length < c.pageSize
    · simp only [if_pos hshort]
      exact (consists_exact _).bind fun _ => (consists_request (by simp)).bind fun _ =>
        consists_pure _
    · simp only [if_neg hshort]
      exact (consists_pure ()).bind fun _ => consists_pure _
  exact consists.untold (fun p h => h p rfl) h

/-- The last thing that is done to a page is to give the command that writes it. -/
theorem ends_write (hc : c.Sound) (hp : page < c.pages) (w : Workspace) :
    (write o c w page data : Link ε Workspace).Ends (FlashController.command c (c.planeOf page)
      .eraseWritePage (Word.ofSize (c.pageOnPlane page))) := by
  unfold write
  rw [if_neg (by omega)]
  refine .after fun _ => .after fun _ => .after fun _ => .after fun _ => .after fun _ =>
    .after fun _ => .after fun _ => ?_
  rw [hc.planeForPage_eq, exact_ok, pure_bind]
  exact ends_bind_pure _

/-- The observer is told. -/
theorem held_tell {step : Progress} {t : Transcript ε} {r : Except (Failure ε) Unit}
    (h : Held (tell true step) t r) : t = [⟨.progress step, ()⟩] ∧ r = .ok () := by
  obtain ⟨_, rfl, rfl⟩ := held_request_iff.mp h
  exact ⟨rfl, rfl⟩

end Page

/-! ## When something is told -/

/-- Whenever the observer is told something, it is due after everything that has been done: `front`,
and the exchanges before it. -/
def Transcript.Tells (due : Transcript ε → Progress → Prop) (t front : Transcript ε) : Prop :=
  ∀ v x w, t = v ++ ⟨.progress x, ()⟩ :: w → due (front ++ v) x

namespace Transcript

variable {due : Transcript ε → Progress → Prop} {front s t : Transcript ε} {x : Progress}

theorem progress_cons_progress (x : Progress) (t : Transcript ε) :
    progress (⟨.progress x, ()⟩ :: t) = x :: t.progress := rfl

/-- Telling adds no command. -/
theorem Completes.tell {script : List Command} (h : t.Completes script) (x : Progress) :
    Completes (t ++ [⟨.progress x, ()⟩]) script := by
  have told : Completes [(⟨.progress x, ()⟩ : Exchange ε)] [] := completes_nil rfl rfl
  have both := h.append told
  rwa [List.append_nil] at both

theorem taken_tell (t : Transcript ε) (x : Progress) :
    taken (t ++ [⟨.progress x, ()⟩]) = t.taken := by
  rw [taken_append]
  exact List.append_nil _

theorem Tells.of_untold (h : t.progress = []) : t.Tells due front := by
  rintro v x w rfl
  rw [progress_append, progress_cons_progress] at h
  exact absurd h (by simp)

/-- **Two pieces**, one after the other. -/
theorem Tells.append (hs : s.Tells due front) (ht : t.Tells due (front ++ s)) :
    (s ++ t).Tells due front := by
  intro v x w e
  rcases List.append_eq_append_iff.mp e with ⟨v', rfl, rest⟩ | ⟨w', rfl, rest⟩
  · rw [← List.append_assoc]
    exact ht v' x w rest
  · cases w' with
    | nil =>
      have := ht [] x w rest.symm
      rwa [List.append_nil, List.append_nil] at this
    | cons y w' =>
      obtain ⟨rfl, -⟩ := List.cons.inj rest
      exact hs v x w' rfl

/-- Something is told, and then there is more. -/
theorem Tells.cons (h : due front x) (ht : t.Tells due (front ++ [⟨.progress x, ()⟩])) :
    Tells due (⟨.progress x, ()⟩ :: t) front := by
  refine Tells.append (s := [⟨.progress x, ()⟩]) ?_ ht
  intro v y w e
  cases v with
  | nil =>
    obtain rfl : x = y := Request.progress.inj (congrArg Exchange.request (List.cons.inj e).1)
    rwa [List.append_nil]
  | cons z v => exact absurd (congrArg List.length e) (by simp)

end Transcript

namespace Programmer

variable {c : Chip} {size : Nat} {image : List UInt8} {t front : Transcript ε}
  {r : Except (Failure ε) Unit}

/-- When the observer is told what, in writing an image of which the bytes are `bytes`: after which
exchanges, counted from where the call has its chip. -/
inductive Due (o : Options) (c : Chip) (size : Nat) (bytes : List UInt8) :
    Transcript ε → Progress → Prop
  /-- The chip has been set up, and nothing has been asked of the image. -/
  | begin {front : Transcript ε} {w : Workspace}
      (prepared : Link.Held (preparation c size) front (.ok w))
      (sent : front.Completes (Script.setUp c)) (unread : front.Unread) :
      Due o c size bytes front (.begin c.flashBase (c.pagesFor size))
  /-- Page `k` has been written, which is the last thing that has been done: the command is out and
  has been flushed. Nothing has been taken of the image behind this page. -/
  | advance {front given : Transcript ε} (k : Nat) (lt : k < c.pagesFor size)
      (sent : (front ++ given).Completes (Script.setUp c ++ Script.pages c bytes 0 (k + 1)))
      (took : (front ++ given).taken.length = min ((k + 1) * c.pageSize) size)
      (command : Link.Held (FlashController.command c (c.planeOf k) .eraseWritePage
        (Word.ofSize (c.pageOnPlane k))) given (.ok ()))
      (flushed : given.Flushed) : Due o c size bytes (front ++ given) (.advance (k + 1))
  /-- The last page has been waited for: the status has been read, until every plane was ready and
  none told of a locked page. -/
  | waited {front wait : Transcript ε} {reads round : List Operation}
      (keeps : o.keepBootSource = true)
      (sent : front.Completes (Script.setUp c ++ Script.pages c bytes 0 (c.pagesFor size)))
      (waits : Link.Held (FlashController.awaitReady o c (.page (c.pagesFor size - 1))) wait
        (.ok ()))
      (read : wait.operations = reads ++ round) (all : ∀ op ∈ reads, op.IsRead)
      (ready : c.ReadyRound round) : Due o c size bytes (front ++ wait) .finish
  /-- The boot flag has been set, which was the last command; then every plane was ready and none told
  of a locked page, and the flag has had time to settle. -/
  | switched {front change : Transcript ε} (switches : o.keepBootSource = false)
      (sent : front.Completes (Script.setUp c ++ Script.pages c bytes 0 (c.pagesFor size)))
      (changed : Link.Held (changeFlag o c true) change (.ok ()))
      (selected : c.SelectsLast .setGpnvmBit change.operations) :
      Due o c size bytes (front ++ (⟨.log (.bootSource true), ()⟩ :: (change ++
        [⟨.log (.settling o.settleTime), ()⟩, ⟨.delay o.settleTime, ()⟩]))) .finish

end Programmer

namespace Page

variable {c : Chip} {size left page read : Nat} {image : List UInt8} {t front : Transcript ε}
  {r : Except (Failure ε) Unit}

/-- **One page** is read, written and told, unless it is the last that is done. -/
theorem told_page (hc : c.Sound) (hrem : Remains c size (left + 1) page read)
    (ht : t.taken <+: image.drop (page * c.pageSize))
    (h : Held (writeAll o c size true (left + 1) page read (Workspace.ofPage c page)) t r) :
    (t.progress = [] ∧ ∃ f, r = .error f) ∨
      ∃ s given u, t = s ++ (given ++ ⟨.progress (.advance (page + 1)), ()⟩ :: u) ∧
        (s ++ given).progress = [] ∧
        (s ++ given).Completes
          (Script.page c page (Image.page c.pageSize (image.take size) page)) ∧
        (s ++ given).taken.length = min c.pageSize (size - read) ∧
        Held (FlashController.command c (c.planeOf page) .eraseWritePage
          (Word.ofSize (c.pageOnPlane page))) given (.ok ()) ∧
        Held (writeAll o c size true left (page + 1) (read + min c.pageSize (size - read))
          (Workspace.ofPage c (page + 1))) u r := by
  obtain ⟨hread, hlt⟩ := hrem.read_le
  have hpage : page < c.pages := by
    have := hrem.pages
    omega
  rcases held_bind_iff.mp h with ⟨f, h₁, rfl⟩ | ⟨⟨read', data⟩, s₁, t₁, h₁, h₂, rfl⟩
  · exact Or.inl ⟨untold_next h₁, f, rfl⟩
  obtain ⟨ho, ha, hok, -⟩ := drew_next (Nat.le_of_lt hlt) hrem.fits h₁
  obtain ⟨hlen, hx⟩ := hok _ rfl
  obtain ⟨rfl, rfl⟩ := Prod.mk.inj hx
  have hdata : Image.padded c.pageSize s₁.taken =
      Image.page c.pageSize (image.take size) page := by
    refine Image.page_of_taken ?_ (by rw [hlen, hread])
    rw [Transcript.taken_append] at ht
    exact (List.prefix_append _ _).trans ht
  rw [hdata, hlen] at h₂
  have full := Image.length_page c.pageSize (image.take size) page
  have fits : (Image.page c.pageSize (image.take size) page).length < UInt32.size :=
    full.trans_lt hc.pageSize_lt
  have untold {s : Transcript ε} {r : Except (Failure ε) Workspace}
      (h : Held (during (.page page) (write o c (Workspace.ofPage c page) page
        (Image.page c.pageSize (image.take size) page))) s r) : (s₁ ++ s).progress = [] := by
    rw [Transcript.progress_append, untold_next h₁,
      ((discreet_write fits _).during _).untold (fun _ => id) h]
    rfl
  rcases held_bind_iff.mp h₂ with ⟨f, h₃, rfl⟩ | ⟨w, s₂, t₂, h₃, h₄, rfl⟩
  · exact Or.inl ⟨untold h₃, f, rfl⟩
  obtain ⟨done, none, rfl⟩ := (commits_write hc hpage full).during_isAt.completes h₃
  obtain ⟨s₃, given, rfl, hgiven⟩ := ((ends_write hc hpage _).during _).last h₃
  rw [hc.nextPage_eq hpage, exact_ok, pure_bind] at h₄
  rcases held_bind_iff.mp h₄ with ⟨f, h₅, -⟩ | ⟨_, s₄, u, h₅, h₆, rfl⟩
  · exact absurd (held_tell h₅).2 (by simp)
  obtain ⟨rfl, -⟩ := held_tell h₅
  refine Or.inr ⟨s₁ ++ s₃, given, u, by simp only [List.append_assoc, List.singleton_append],
    ?_, ?_, ?_, hgiven, h₆⟩
  · rw [List.append_assoc]
    exact untold h₃
  · rw [List.append_assoc]
    exact (Transcript.completes_nil ho ha).append done
  · rw [List.append_assoc, Transcript.taken_append, none, List.append_nil, hlen]

/-- **All pages**, one after the other: each is told when it is due. -/
theorem told_writeAll (hc : c.Sound) (hrem : Remains c size left page read)
    (whole : page + left = c.pagesFor size)
    (ht : 0 < left → t.taken <+: image.drop (page * c.pageSize))
    (sent : front.Completes (Script.setUp c ++ Script.pages c (image.take size) 0 page))
    (took : front.taken.length = read)
    (h : Held (writeAll o c size true left page read (Workspace.ofPage c page)) t r) :
    t.Tells (Programmer.Due o c size (image.take size)) front ∧
      ∃ j ≤ left, t.progress = (List.range' page j).map (fun k => .advance (k + 1)) ∧
        (r = .ok () → j = left ∧ (front ++ t).Completes
          (Script.setUp c ++ Script.pages c (image.take size) 0 (page + left))) := by
  induction left generalizing page read t front with
  | zero =>
    obtain ⟨rfl, -⟩ := held_pure_iff.mp h
    refine ⟨Transcript.Tells.of_untold rfl, 0, Nat.le_refl 0, rfl, fun _ => ⟨rfl, ?_⟩⟩
    rw [List.append_nil]
    exact sent
  | succ left ih =>
    have ht := ht (Nat.succ_pos left)
    rcases told_page hc hrem ht h with ⟨untold, f, rfl⟩ |
      ⟨s, given, u, rfl, untold, done, hlen, hgiven, hu⟩
    · exact ⟨Transcript.Tells.of_untold untold, 0, Nat.zero_le _, untold, by simp⟩
    obtain ⟨hread, hlt⟩ := hrem.read_le
    have lt : page < c.pagesFor size := by omega
    have sent' : ((front ++ s) ++ given).Completes
        (Script.setUp c ++ Script.pages c (image.take size) 0 (page + 1)) := by
      rw [Script.pages_concat, ← List.append_assoc, List.append_assoc front]
      exact sent.append done
    have took' : ((front ++ s) ++ given).taken.length =
        read + min c.pageSize (size - read) := by
      rw [List.append_assoc, Transcript.taken_append, List.length_append, took, hlen]
    have due : Programmer.Due o c size (image.take size) ((front ++ s) ++ given)
        (.advance (page + 1)) := by
      refine .advance page lt sent' ?_ hgiven ((FlashController.flushes_command _ _ _).last hgiven)
      rw [took', hread, Nat.succ_mul]
      omega
    have rest (hl : 0 < left) : Transcript.taken u <+: image.drop ((page + 1) * c.pageSize) := by
      rw [← List.append_assoc] at ht
      exact (taken_rest hrem ht hlen hl).2
    obtain ⟨tells, j, hj, progress, completes⟩ := ih hrem.next (by omega) rest
      (sent'.tell _) ((congrArg List.length (Transcript.taken_tell _ _)).trans took') hu
    refine ⟨?_, j + 1, by omega, ?_, fun hr => ?_⟩
    · rw [← List.append_assoc]
      refine Transcript.Tells.append (Transcript.Tells.of_untold untold) ?_
      rw [← List.append_assoc]
      exact Transcript.Tells.cons due tells
    · rw [← List.append_assoc, Transcript.progress_append, untold,
        Transcript.progress_cons_progress, progress, List.range'_succ]
      rfl
    · obtain ⟨same, all⟩ := completes hr
      refine ⟨by omega, ?_⟩
      rw [show page + (left + 1) = page + 1 + left by omega]
      simpa only [List.append_assoc, List.singleton_append] using all

end Page

namespace Programmer

variable {c : Chip} {size : Nat} {image : List UInt8} {p q : Programmer} {t front : Transcript ε}
  {r : Except (Failure ε) Unit}

/-- Nothing is told while the boot flag is changed, and after that it has time to settle. -/
theorem held_writeBootFlag {fromFlash : Bool}
    (h : Link.Held (writeBootFlag o c fromFlash) t r) :
    t.progress = [] ∧ (r = .ok () → ∃ change, Link.Held (changeFlag o c fromFlash) change (.ok ()) ∧
      t = ⟨.log (.bootSource fromFlash), ()⟩ :: (change ++
        [⟨.log (.settling o.settleTime), ()⟩, ⟨.delay o.settleTime, ()⟩])) := by
  have discreet : (changeFlag o c fromFlash : Link ε Unit).Discreet o :=
    FlashController.discreet_awaitReady.bind fun _ =>
      (FlashController.discreet_command _ _ _).bind fun _ => FlashController.discreet_awaitReady
  have settle : (Link.log (.settling o.settleTime) >>= fun _ => Link.delay o.settleTime :
      Link ε Unit).Discreet o := (discreet_log _).bind fun _ => consists_request trivial
  have whole : (writeBootFlag o c fromFlash : Link ε Unit) =
      Link.log (.bootSource fromFlash) >>= fun _ =>
        during .bootFlag (changeFlag o c fromFlash) >>= fun _ =>
          Link.log (.settling o.settleTime) >>= fun _ => Link.delay o.settleTime := rfl
  rw [whole] at h
  refine ⟨((discreet_log _).bind fun _ => (discreet.during _).bind fun _ => settle).untold
    (fun _ => id) h, ?_⟩
  rintro rfl
  obtain ⟨_, u, hu, rfl⟩ := held_request_bind h
  obtain ⟨_, change, v, h₁, h₂, rfl⟩ := Link.held_bind_ok hu
  obtain ⟨_, w, h₃, rfl⟩ := held_request_bind h₂
  obtain ⟨_, rfl, -⟩ := held_request_iff.mp h₃
  obtain ⟨r', hr, e⟩ := held_during_iff.mp h₁
  cases r' with
  | error g => exact absurd e (by simp)
  | ok _ => exact ⟨change, hr, rfl⟩

/-- The end of the call tells that it is done. -/
theorem held_ending (h : Link.Held (Page.tell true .finish >>= fun _ =>
      Link.log .programmingComplete) t r) :
    t = [⟨.progress .finish, ()⟩, ⟨.log .programmingComplete, ()⟩] ∧ r = .ok () := by
  rcases Link.held_bind_iff.mp h with ⟨f, h₁, -⟩ | ⟨_, s, u, h₁, h₂, rfl⟩
  · exact absurd (Page.held_tell h₁).2 (by simp)
  · obtain ⟨rfl, -⟩ := Page.held_tell h₁
    obtain ⟨_, rfl, rfl⟩ := held_request_iff.mp h₂
    exact ⟨rfl, rfl⟩

/-- **The end** is told when it is due, unless the call fails. -/
theorem told_closing (hc : c.Sound) (hn : 0 < c.pagesFor size)
    (sent : front.Completes (Script.setUp c ++ Script.pages c image 0 (c.pagesFor size)))
    (h : Link.Held (closing o c (c.pagesFor size) true) t r) :
    t.Tells (Due o c size image) front ∧
      ((t.progress = [] ∧ ∃ f, r = .error f) ∨
        (r = .ok () ∧ t.progress = [.finish] ∧
          ∃ v, t = v ++ [⟨.progress .finish, ()⟩, ⟨.log .programmingComplete, ()⟩])) := by
  -- what is due is told behind `v`, and that is all
  have finish {v : Transcript ε} (untold : v.progress = [])
      (due : Due o c size image (front ++ v) .finish) :
      Transcript.Tells (Due o c size image)
        (v ++ [⟨.progress .finish, ()⟩, ⟨.log .programmingComplete, ()⟩]) front ∧
      Transcript.progress (v ++ [⟨.progress .finish, ()⟩,
        (⟨.log .programmingComplete, ()⟩ : Exchange ε)]) = [.finish] := by
    refine ⟨.append (.of_untold untold) (.cons due (.of_untold rfl)), ?_⟩
    rw [Transcript.progress_append, untold]
    rfl
  by_cases hk : o.keepBootSource = true
  · have last : Size.sub (c.pagesFor size) 1 = .ok (c.pagesFor size - 1) :=
      Size.sub_eq_ok_iff.mpr ⟨rfl, hn⟩
    simp only [closing, if_pos hk, last, exact_ok, pure_bind] at h
    have untold {s : Transcript ε} {r : Except (Failure ε) Unit} (h : Link.Held (during
        (.page (c.pagesFor size - 1)) (FlashController.awaitReady o c
          (.page (c.pagesFor size - 1)))) s r) : s.progress = [] :=
      (FlashController.discreet_awaitReady.during _).untold (fun _ => id) h
    rcases Link.held_bind_iff.mp h with ⟨f, h₁, rfl⟩ | ⟨_, v, u, h₁, h₂, rfl⟩
    · exact ⟨.of_untold (untold h₁), Or.inl ⟨untold h₁, f, rfl⟩⟩
    · obtain ⟨rfl, rfl⟩ := held_ending h₂
      obtain ⟨r', hr, e⟩ := held_during_iff.mp h₁
      cases r' with
      | error g => exact absurd e (by simp)
      | ok _ =>
        obtain ⟨reads, round, read, all, ready⟩ := FlashController.reads_awaitReady hc hr
        obtain ⟨tells, told⟩ := finish (untold h₁) (.waited hk sent hr read all ready)
        exact ⟨tells, Or.inr ⟨rfl, told, v, rfl⟩⟩
  · have hk := eq_false_of_ne_true hk
    simp only [closing, hk, Bool.false_eq_true, if_false] at h
    rcases Link.held_bind_iff.mp h with ⟨f, h₁, rfl⟩ | ⟨_, v, u, h₁, h₂, rfl⟩
    · have untold := (held_writeBootFlag h₁).1
      exact ⟨.of_untold untold, Or.inl ⟨untold, f, rfl⟩⟩
    · obtain ⟨rfl, rfl⟩ := held_ending h₂
      obtain ⟨untold, changed⟩ := held_writeBootFlag h₁
      obtain ⟨change, hchange, rfl⟩ := changed rfl
      have selected := Plan.runs_boot ((plans_changeFlag hc true).runs hchange).1
      obtain ⟨tells, told⟩ := finish untold (.switched hk sent hchange selected)
      exact ⟨tells, Or.inr ⟨rfl, told, _, rfl⟩⟩

/-- What the observer has been told when `j` pages have been written. -/
def account (c : Chip) (size j : Nat) : List Progress :=
  .begin c.flashBase (c.pagesFor size) :: (List.range j).map fun k => .advance (k + 1)

/-- What the observer hears of the writing of an image, from the setup on. -/
inductive Heard (c : Chip) (size : Nat) (t : Transcript ε) : Except (Failure ε) Unit → Prop
  /-- The call fails behind `j` pages, and that it fails is not told. -/
  | stopped {f : Failure ε} (j : Nat) (le : j ≤ c.pagesFor size)
      (told : t.progress = account c size j) : Heard c size t (.error f)
  /-- The call succeeds, with all pages, and that is the last thing that is told or done. -/
  | finished {v : Transcript ε} (told : t.progress = account c size (c.pagesFor size) ++ [.finish])
      (last : t = v ++ [⟨.progress .finish, ()⟩, ⟨.log .programmingComplete, ()⟩]) :
      Heard c size t (.ok ())

theorem discreet_preparation : (preparation c size : Link ε Workspace).Discreet o :=
  (discreet_log _).bind fun _ => Workspace.discreet_setUp

theorem follows_preparation (hc : c.Sound) :
    (preparation c size : Link ε Workspace).Follows (Script.setUp c)
      (fun w => w = Workspace.ofPage c 0) Failure.IsBareLink :=
  (follows_log rfl).after fun _ => Workspace.follows_setUp hc

/-- The chip is set up, and then the observer is told that the pages begin. -/
theorem writePages_preparation (observed : Bool) :
    (writePages o c size (c.pagesFor size) observed : Link ε Unit) =
      preparation c size >>= fun w =>
        Page.tell observed (.begin c.flashBase (c.pagesFor size)) >>= fun _ =>
          Page.writeAll o c size observed (c.pagesFor size) 0 0 w >>= fun _ =>
            closing o c (c.pagesFor size) observed := by
  simp only [writePages_eq, opening, preparation, bind_assoc, pure_bind]

/-- Before the pages begin there may be more of which nothing is told. -/
theorem Heard.append_left {s : Transcript ε} (h : Heard c size t r) (untold : s.progress = []) :
    Heard c size (s ++ t) r := by
  have same : (s ++ t).progress = t.progress := by
    rw [Transcript.progress_append, untold]
    rfl
  cases h with
  | stopped j le told => exact .stopped j le (same.trans told)
  | @finished v told last =>
    exact .finished (v := s ++ v) (same.trans told) (by rw [last, List.append_assoc])

/-- From the first page on, everything is told when it is due. -/
theorem told_pages (hc : c.Sound) (hs : size ≤ c.pages * c.pageSize) (hn : 0 < c.pagesFor size)
    (hi : t.taken <+: image)
    (sent : front.Completes (Script.setUp c ++ Script.pages c (image.take size) 0 0))
    (took : front.taken.length = 0)
    (h : Link.Held (Page.writeAll o c size true (c.pagesFor size) 0 0 (Workspace.ofPage c 0) >>=
      fun _ => closing o c (c.pagesFor size) true) t r) :
    t.Tells (Due o c size (image.take size)) front ∧
      Heard c size (⟨.progress (.begin c.flashBase (c.pagesFor size)), ()⟩ :: t) r := by
  have image_left {v : Transcript ε} (hv : v <+: t) (_ : 0 < c.pagesFor size) :
      v.taken <+: image.drop (0 * c.pageSize) := by
    obtain ⟨z, rfl⟩ := hv
    rw [Transcript.taken_append] at hi
    rw [Nat.zero_mul]
    exact (List.prefix_append _ _).trans hi
  rcases Link.held_bind_iff.mp h with ⟨f, h₁, rfl⟩ | ⟨_, v, z, h₁, h₂, rfl⟩
  · obtain ⟨tells, j, hj, progress, -⟩ := Page.told_writeAll hc (remains_zero hc hs)
      (Nat.zero_add _) (image_left List.prefix_rfl) sent took h₁
    refine ⟨tells, .stopped j hj ?_⟩
    rw [Transcript.progress_cons_progress, progress, ← List.range_eq_range', account]
  · obtain ⟨tells, j, -, progress, written⟩ := Page.told_writeAll hc (remains_zero hc hs)
      (Nat.zero_add _) (image_left (List.prefix_append v z)) sent took h₁
    obtain ⟨rfl, done⟩ := written rfl
    rw [Nat.zero_add] at done
    obtain ⟨ends, outcome⟩ := told_closing hc hn done h₂
    refine ⟨tells.append ends, ?_⟩
    rcases outcome with ⟨none, f, rfl⟩ | ⟨rfl, finish, w, rfl⟩
    · refine .stopped (c.pagesFor size) (Nat.le_refl _) ?_
      rw [Transcript.progress_cons_progress, Transcript.progress_append, progress, none,
        List.append_nil, ← List.range_eq_range', account]
    · refine .finished (v := ⟨.progress (.begin c.flashBase (c.pagesFor size)), ()⟩ :: (v ++ w))
        ?_ (by rw [List.cons_append, List.append_assoc])
      rw [Transcript.progress_cons_progress, Transcript.progress_append, progress, finish,
        ← List.range_eq_range', account, List.cons_append]

/-- **The pages of an image**, with what comes before and behind them: everything is told when it is
due, and nothing before the chip has been set up. -/
theorem told_writePages (hc : c.Sound) (hs : size ≤ c.pages * c.pageSize)
    (hn : 0 < c.pagesFor size) (hi : t.taken <+: image)
    (h : Link.Held (writePages o c size (c.pagesFor size) true) t r) :
    (t.progress = [] ∧ ∃ f, r = .error f ∧ Link.Held (preparation c size) t (.error f)) ∨
      (Heard c size t r ∧ t.Tells (Due o c size (image.take size)) []) := by
  have discreet : (preparation c size : Link ε Workspace).Discreet o := discreet_preparation
  rw [writePages_preparation] at h
  rcases Link.held_bind_iff.mp h with ⟨f, h₁, rfl⟩ | ⟨w, s, u, h₁, h₂, rfl⟩
  · exact Or.inl ⟨discreet.untold (fun _ => id) h₁, f, rfl, h₁⟩
  right
  obtain ⟨sent, none, rfl⟩ := (follows_preparation hc).completes h₁
  have untold := discreet.untold (fun _ => id) h₁
  have due : Due o c size (image.take size) s (.begin c.flashBase (c.pagesFor size)) :=
    .begin h₁ sent (discreet.unread h₁)
  rcases Link.held_bind_iff.mp h₂ with ⟨f, h₃, -⟩ | ⟨_, b, u, h₃, h₄, rfl⟩
  · exact absurd (Page.held_tell h₃).2 (by simp)
  obtain ⟨rfl, -⟩ := Page.held_tell h₃
  have taken : u.taken <+: image := by
    rw [Transcript.taken_append, none] at hi
    exact hi
  have sent' : Transcript.Completes
      (s ++ [⟨.progress (.begin c.flashBase (c.pagesFor size)), ()⟩])
      (Script.setUp c ++ Script.pages c (image.take size) 0 0) := by
    rw [Script.pages_zero, List.append_nil]
    exact sent.tell _
  have took : (Transcript.taken
      (s ++ [⟨.progress (.begin c.flashBase (c.pagesFor size)), ()⟩])).length = 0 := by
    rw [Transcript.taken_tell, none]
    rfl
  obtain ⟨tells, heard⟩ := told_pages hc hs hn taken sent' took h₄
  refine ⟨heard.append_left untold, .append (.of_untold untold) ?_⟩
  rw [List.nil_append]
  exact .cons due tells

/-- Why the observer of a program call hears nothing. -/
inductive Unheard (o : Options) (size : Nat) (p : Programmer) (t : Transcript ε) :
    Except (Failure ε) Unit → Prop
  /-- The chip is not found. -/
  | undetected {f : Failure ε} (new : p.chip = none)
      (lost : Link.Held (findChip o) t (.error f)) : Unheard o size p t (.error f)
  /-- The image is empty. -/
  | empty {c : Chip} {s : Transcript ε} (found : Finds o p s c) (zero : size = 0)
      (exchanges : t = s ++ [⟨.log .imageEmpty, ()⟩]) : Unheard o size p t (.ok ())
  /-- The image is too large. -/
  | tooLarge {c : Chip} {s : Transcript ε} (found : Finds o p s c)
      (large : c.pages * c.pageSize < size)
      (exchanges : t = s ++ [⟨.log (.imageTooLarge size (c.pageSize * c.pages)), ()⟩]) :
      Unheard o size p t (.error (.error (.imageTooLarge size (c.pageSize * c.pages))))
  /-- The chip cannot be set up. -/
  | unprepared {c : Chip} {s u : Transcript ε} {f : Failure ε} (found : Finds o p s c)
      (exchanges : t = s ++ u) (lost : Link.Held (preparation c size) u (.error f)) :
      Unheard o size p t (.error f)

theorem Finds.untold {c : Chip} {s : Transcript ε} (h : Finds o p s c) : s.progress = [] := by
  rcases h with ⟨-, rfl⟩ | ⟨-, hf⟩
  · rfl
  · exact composed_findChip.consists.untold (fun _ => id) hf

theorem Unheard.untold (h : Unheard o size p t r) : t.progress = [] := by
  cases h with
  | undetected new lost => exact composed_findChip.consists.untold (fun _ => id) lost
  | empty found zero exchanges =>
    rw [exchanges, Transcript.progress_append, found.untold]
    rfl
  | tooLarge found large exchanges =>
    rw [exchanges, Transcript.progress_append, found.untold]
    rfl
  | unprepared found exchanges lost =>
    rw [exchanges, Transcript.progress_append, found.untold,
      (discreet_preparation (o := o)).untold (fun _ => id) lost]
    rfl

/-- **A program call** tells nothing, for one of four reasons, or everything when it is due. -/
theorem told_program (hp : p.Knows) (hi : t.taken <+: image)
    (h : Held (program o size true) p t r q) :
    Unheard o size p t r ∨
      ∃ c s u, Finds o p s c ∧ t = s ++ u ∧ Heard c size u r ∧
        u.Tells (Due o c size (image.take size)) [] := by
  rcases held_program h with ⟨f, new, lost, rfl, -⟩ | ⟨c, s, u, found, works, rfl, -, -⟩
  · exact Or.inl (.undetected new lost)
  have sound := Chip.sound_of_mem (keeps_finds (c := c) hp found).2
  by_cases hs : c.pages * c.pageSize < size
  · obtain ⟨rfl, rfl⟩ := held_writing_tooLarge sound hs works
    exact Or.inl (.tooLarge found hs rfl)
  by_cases hz : size = 0
  · subst hz
    obtain ⟨rfl, rfl⟩ := held_writing_empty sound works
    exact Or.inl (.empty found rfl rfl)
  have pos : 0 < size := Nat.pos_of_ne_zero hz
  have le : size ≤ c.pages * c.pageSize := by omega
  have none : s.taken = [] := by
    rcases found with ⟨-, rfl⟩ | ⟨-, hf⟩
    · rfl
    · exact (follows_findChip o).untaken hf
  rw [writing_eq sound pos le] at works
  rw [Transcript.taken_append, none] at hi
  rcases told_writePages sound le (pagesFor_pos sound pos) hi works with
    ⟨-, f, rfl, lost⟩ | ⟨heard, tells⟩
  · exact Or.inl (.unprepared found rfl lost)
  · exact Or.inr ⟨c, s, u, found, rfl, heard, tells⟩

theorem Heard.told {c : Chip} (h : Heard c size t r) : t.progress ≠ [] := by
  cases h with
  | stopped j le told => simp [told, account]
  | finished told last => simp [told, account]

/-- **What the observer of a program call is told, and when.** Whatever the session has been and
whatever the target, the port, the reader and the options do: the observer hears nothing exactly if
the chip is not found, the image is empty or too large, or the chip cannot be set up. Otherwise it
hears that writing begins, and how many pages it takes; then of the pages that have been written,
one after the other; and that the call is done if and only if it succeeds, with all pages written.

The beginning is told when the chip has been set up and before the image is asked for anything. A
page is told when the command that writes it has been flushed, with nothing in between. The end is
told when every plane has been seen ready behind the last command, which is that of the last page or
the one for the boot flag, and the flag has settled; and nothing is done behind it. -/
theorem observer_is_told {vs : List (Turn ε)} (session : History o {} vs p)
    (hi : t.taken <+: image) (h : Held (program o size true) p t r q) :
    (t.progress = [] ↔ Unheard o size p t r) ∧
      (t.progress ≠ [] → ∃ c s u, Finds o p s c ∧ t = s ++ u ∧ s.progress = [] ∧
        Heard c size u r ∧ u.Tells (Due o c size (image.take size)) []) := by
  have knows := (session.lawful Programmer.atRest_new).1.knows
  rcases told_program knows hi h with unheard | ⟨c, s, u, found, rfl, heard, tells⟩
  · exact ⟨⟨fun _ => unheard, Unheard.untold⟩, fun told => absurd unheard.untold told⟩
  · refine ⟨⟨fun untold => ?_, Unheard.untold⟩,
      fun _ => ⟨c, s, u, found, rfl, found.untold, heard, tells⟩⟩
    rw [Transcript.progress_append, found.untold] at untold
    exact absurd untold heard.told

/-- A call that finds the chip, and nothing of its image. -/
def unfed : Turn Unit :=
  .ofRun (Bench.steady Bench.part) (Bench.fresh []) {} (.program 1 false) {}

set_option maxRecDepth 100000 in
theorem after_unfed : unfed.after = ⟨.failed, some Bench.part⟩ := by
  cbv

/-- The call, made again with its image and an observer. -/
def fed : Dialogue Unit (Except (Failure Unit) Unit × Programmer) :=
  (program {} 1 true).run ⟨.failed, some Bench.part⟩

/-- Its exchanges. -/
def fedExchanges : Transcript Unit := fed.transcript (Bench.steady Bench.part) (Bench.fresh [7])

set_option maxRecDepth 100000 in
theorem progress_fedExchanges :
    fedExchanges.progress = [.begin 0x80000 1, .advance 1, .finish] := by
  cbv

set_option maxRecDepth 100000 in
theorem result_fed :
    (fed.run (Bench.steady Bench.part) (Bench.fresh [7])).1.1 = .ok () := by
  cbv

/-- An image of one page, in a session whose last call failed. -/
theorem observer_is_told_again :
    fedExchanges.progress = [.begin 0x80000 1, .advance 1, .finish] ∧
      ∃ c s u, Finds {} ⟨.failed, some Bench.part⟩ s c ∧ fedExchanges = s ++ u ∧
        s.progress = [] ∧ Heard c 1 u (.ok ()) ∧ u.Tells (Due {} c 1 [7]) [] := by
  have session : History {} {} [unfed] ⟨.failed, some Bench.part⟩ := by
    rw [← after_unfed]
    exact .cons (Turn.held_ofRun _ _ _ _ _) (.nil _)
  have held : Held (program {} 1 true) ⟨.failed, some Bench.part⟩ fedExchanges
      (fed.run (Bench.steady Bench.part) (Bench.fresh [7])).1.1
      (fed.run (Bench.steady Bench.part) (Bench.fresh [7])).1.2 :=
    Dialogue.Held.of_run _ fed _
  rw [result_fed] at held
  have image : fedExchanges.taken <+: [7] := Bench.taken_device _ fed (Bench.fresh [7])
  have told := progress_fedExchanges
  exact ⟨told, (observer_is_told session image held).2 (by rw [told]; simp)⟩

end Programmer

end SamFlash
