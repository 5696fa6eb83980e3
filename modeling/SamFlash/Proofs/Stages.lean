import SamFlash.Proofs.Checks
import SamFlash.Proofs.History

/-!
# Where a call fails, and what its error says

A port call that fails ends the call that makes it, so there is at most one in all exchanges, and it
comes last; a receive that gives up comes last too, except that the monitor may leave out its
acknowledgement (`Transcript.Fails`). The error of a call repeats what the port said, or how many
bytes were expected and received, and an operation around it adds nothing but its stage, once
(`Link.during`, `Error.during`).

Before the chip is set up for an image no stage is added: the error is a bare failure of the link,
or one of the two checks failed. From there on every error that is not about the image carries a
stage: the page that was being written, the last page while it was waited for, or the change of the
boot flag. The image is read outside of any stage, so an image that ends early or cannot be read is
reported as it is.

`Programmer.Stops` puts the place and the error side by side, one constructor for each place in
`Programmer.writePages` where a call can fail: the size is checked, the chip is set up, bytes of a
page are read, a page is written, the last page is waited for, the boot flag is changed. Each has
what was done before, and the operation that failed with its exchanges, so the stage can be compared
with what has really happened; a failure in `Page.write` has had a part of the script of its page
done.

Results:
* `Error.Reported.during`: the stage that is added first stays.
* `Link.Composed.blames`: a composed operation fails with the error of the call that failed.
* `Page.stuck_writeAll`, `Programmer.stops_writing`: where the writing of an image stops.
* `Programmer.Stops.kind`: what kind of error this makes.
* **`error_tells_stage`**: where any call stops, with its error.
-/

namespace SamFlash

variable {ε α β : Type} {o : Options}

/-! ## Calls that fail -/

/-- What the port failed with. -/
def Exchange.portError? : Exchange ε → Option ε
  | ⟨.write _, attempts⟩ =>
    match attempts.settle with
    | .ok _ => none
    | .error e => some e
  | ⟨.flush, attempts⟩ =>
    match attempts.settle with
    | .ok _ => none
    | .error e => some e
  | ⟨.read, .failed e⟩ => some e
  | _ => none

/-- The error of the last call in the exchanges, without any stage. The port worked until then. -/
inductive Transcript.Fails (o : Options) : Transcript ε → Error ε → Prop
  /-- The port fails. -/
  | port {s : Transcript ε} {x : Exchange ε} {e : ε} (before : ∀ y ∈ s, y.Undisturbed)
      (failed : x.portError? = some e) : Fails o (s ++ [x]) (.serial e)
  /-- A receive gives up with the bytes that it has. -/
  | silence {s t : Transcript ε} {expected : Nat} (before : ∀ y ∈ s ++ t, y.Undisturbed)
      (gaveUp : Dialogue.Held (Link.receive o expected) t
        ⟨t.received, some (.responseTimeout expected t.received.length)⟩) :
      Fails o (s ++ t) (.responseTimeout expected t.received.length)
  /-- No call fails; there is something wrong with the chip, the image or the flash. -/
  | finding {t : Transcript ε} {e : Error ε} (before : ∀ y ∈ t, y.Undisturbed)
      (finding : e.IsFinding) : Fails o t e

theorem Transcript.Fails.append_left {s t : Transcript ε} {e : Error ε} (h : t.Fails o e)
    (hs : ∀ y ∈ s, y.Undisturbed) : (s ++ t).Fails o e := by
  cases h with
  | port before failed =>
    rw [← List.append_assoc]
    exact .port (List.forall_mem_append.mpr ⟨hs, before⟩) failed
  | silence before gaveUp =>
    rw [← List.append_assoc]
    refine .silence ?_ gaveUp
    rw [List.append_assoc]
    exact List.forall_mem_append.mpr ⟨hs, before⟩
  | finding before finding => exact .finding (List.forall_mem_append.mpr ⟨hs, before⟩) finding

/-- The failure is the error, perhaps with a stage added. -/
def Error.Reported (e : Error ε) (f : Failure ε) : Prop :=
  f = .error e ∨ ∃ stage, f = .error (e.during stage)

namespace Error.Reported

variable {e : Error ε} {f : Failure ε} {stage : Stage}

/-- **No stage is replaced** by the one of an operation around it. -/
theorem during (h : e.Reported f) (stage : Stage) : e.Reported (f.during stage) := by
  rcases h with rfl | ⟨first, rfl⟩
  · exact Or.inr ⟨stage, rfl⟩
  · exact Or.inr ⟨first, congrArg Failure.error (during_during first stage e)⟩

/-- A failure without a stage is the error itself. -/
theorem eq_of_untagged {e' : Error ε} (h : e.Reported (.error e')) (he : e'.stage? = none) :
    e' = e := by
  rcases h with h | ⟨stage, h⟩
  · exact Failure.error.inj h
  · obtain rfl := Failure.error.inj h
    cases e <;> first | rfl | exact absurd he (by simp [Error.during, stage?])

/-- A failure at a stage is the error with this stage. -/
theorem eq_during (h : e.Reported f) (hf : f.IsAt stage) : f = .error (e.during stage) := by
  obtain ⟨e', rfl, at_stage⟩ := hf
  rcases h with h | ⟨first, h⟩
  · obtain rfl := Failure.error.inj h
    cases e' <;> first | rfl | exact absurd at_stage (by simp [stage?])
  · obtain rfl := Failure.error.inj h
    cases e <;> simp_all [Error.during, stage?]

end Error.Reported

namespace Link

/-- The operation succeeds only if the port works, and otherwise repeats the error of the call that
failed. -/
structure Blames (o : Options) (x : Link ε α) : Prop where
  works : ∀ {t a}, Held x t (.ok a) → ∀ y ∈ t, y.Undisturbed
  fails : ∀ {t f}, Held x t (.error f) → ∃ e, t.Fails o e ∧ e.Reported f

variable {x : Link ε α} {f : α → Link ε β}

theorem Blames.bind_held (hx : x.Blames o) (hf : ∀ {t a}, Held x t (.ok a) → (f a).Blames o) :
    (x >>= f).Blames o where
  works := by
    intro t b h
    obtain ⟨a, t₁, t₂, h₁, h₂, rfl⟩ := held_bind_ok h
    exact List.forall_mem_append.mpr ⟨hx.works h₁, (hf h₁).works h₂⟩
  fails := by
    intro t g h
    rcases held_bind_iff.mp h with ⟨g', h₁, hr⟩ | ⟨a, t₁, t₂, h₁, h₂, rfl⟩
    · obtain rfl := Except.error.inj hr
      exact hx.fails h₁
    · obtain ⟨e, he, reported⟩ := (hf h₁).fails h₂
      exact ⟨e, he.append_left (hx.works h₁), reported⟩

theorem Blames.bind (hx : x.Blames o) (hf : ∀ a, (f a).Blames o) : (x >>= f).Blames o :=
  hx.bind_held fun {_ a} _ => hf a

theorem blames_pure (a : α) : (pure a : Link ε α).Blames o where
  works h := by
    obtain ⟨rfl, -⟩ := held_pure_iff.mp h
    exact fun _ hy => absurd hy List.not_mem_nil
  fails h := absurd (held_pure_iff.mp h).2 (by simp)

theorem blames_fail {e : Error ε} (he : e.IsFinding) : (fail e : Link ε α).Blames o where
  works h := absurd (held_fail_iff.mp h).2 (by simp)
  fails h := by
    obtain ⟨rfl, hr⟩ := held_fail_iff.mp h
    obtain rfl := Except.error.inj hr
    exact ⟨e, .finding (fun _ hy => absurd hy List.not_mem_nil) he, Or.inl rfl⟩

/-- A request that is no call of the port. -/
theorem blames_request {q : Request} (hq : ∀ a : q.Answer ε, Exchange.Undisturbed ⟨q, a⟩) :
    (request q : Link ε (q.Answer ε)).Blames o where
  works h := by
    obtain ⟨a, rfl, -⟩ := held_request_iff.mp h
    exact List.forall_mem_singleton.mpr (hq a)
  fails h := by
    obtain ⟨_, -, hr⟩ := held_request_iff.mp h
    exact absurd hr (by simp)

theorem blames_log (d : Diagnostic) : (log d : Link ε Unit).Blames o :=
  blames_request fun _ => trivial

/-- A port operation that has to settle. -/
theorem blames_settled {q : Request} {settle : q.Answer ε → Except ε Unit}
    (works : ∀ a, settle a = .ok () → Exchange.Undisturbed ⟨q, a⟩)
    (fails : ∀ a e, settle a = .error e → Exchange.portError? ⟨q, a⟩ = some e) :
    (request q >>= fun a => settled (settle a) : Link ε Unit).Blames o where
  works := by
    intro t _ h
    obtain ⟨a, rfl, hr⟩ := held_request_settled h
    cases hs : settle a with
    | ok _ => exact List.forall_mem_singleton.mpr (works a hs)
    | error e => exact absurd hr (by simp [hs])
  fails := by
    intro t f h
    obtain ⟨a, rfl, hr⟩ := held_request_settled h
    cases hs : settle a with
    | ok _ => exact absurd hr (by simp [hs])
    | error e =>
      rw [hs] at hr
      obtain rfl := Except.error.inj hr
      exact ⟨.serial e, .port (s := []) (fun _ hy => absurd hy List.not_mem_nil) (fails a e hs),
        Or.inl rfl⟩

theorem blames_flush : (flush : Link ε Unit).Blames o :=
  blames_settled (q := .flush) (fun _ hs => hs) fun a e hs => by
    simp only [Exchange.portError?, hs]

theorem blames_send (bs : List UInt8) : (send bs : Link ε Unit).Blames o := by
  induction bs with
  | nil => exact blames_pure ()
  | cons b bs ih =>
    rw [send_cons]
    refine (blames_settled (q := .write b) (fun _ hs => hs) fun a e hs => ?_).bind fun _ => ih
    simp only [Exchange.portError?, hs]

/-- How a receive ends, and with what bytes. -/
theorem Receiving.ends {total left : Nat} {elapsed : Word} {taken : List UInt8}
    {t : Transcript ε} {c : Reception ε} (h : Receiving o total left elapsed taken t c) :
    c.bytes = taken.reverse ++ t.received ∧
      ((∀ y ∈ t, y.Undisturbed) ∧
          (c.error = none ∨ c.error = some (.responseTimeout total c.bytes.length)) ∨
        ∃ e, c.error = some (.serial e) ∧ t.Fails o (.serial e)) := by
  induction h with
  | full =>
    exact ⟨(List.append_nil _).symm, Or.inl ⟨fun _ hy => absurd hy List.not_mem_nil, Or.inl rfl⟩⟩
  | byte b _ ih =>
    obtain ⟨bytes, ends⟩ := ih
    refine ⟨?_, ?_⟩
    · rw [bytes, List.reverse_cons, List.append_assoc]
      rfl
    · rcases ends with ⟨works, error⟩ | ⟨e, error, fails⟩
      · exact Or.inl ⟨List.forall_mem_cons.mpr ⟨trivial, works⟩, error⟩
      · refine Or.inr ⟨e, error, fails.append_left (s := [_]) ?_⟩
        exact List.forall_mem_singleton.mpr trivial
  | failed e =>
    exact ⟨(List.append_nil _).symm, Or.inr ⟨e, rfl,
      .port (s := []) (fun _ hy => absurd hy List.not_mem_nil) rfl⟩⟩
  | wait _ _ ih =>
    obtain ⟨bytes, ends⟩ := ih
    refine ⟨bytes, ?_⟩
    rcases ends with ⟨works, error⟩ | ⟨e, error, fails⟩
    · exact Or.inl ⟨List.forall_mem_cons.mpr ⟨trivial, List.forall_mem_cons.mpr ⟨trivial, works⟩⟩,
        error⟩
    · refine Or.inr ⟨e, error, fails.append_left (s := [_, _]) ?_⟩
      exact List.forall_mem_cons.mpr ⟨trivial, List.forall_mem_singleton.mpr trivial⟩
  | gaveUp _ =>
    refine ⟨(List.append_nil _).symm, Or.inl ⟨?_, Or.inr (by simp)⟩⟩
    exact List.forall_mem_cons.mpr ⟨trivial, List.forall_mem_singleton.mpr trivial⟩

/-- A receive that falls short says why. -/
theorem ends_receive {n : Nat} {t : Transcript ε} {c : Reception ε}
    (h : Dialogue.Held (receive o n) t c) :
    ((∀ y ∈ t, y.Undisturbed) ∧
        (c.error = none ∨ c.error = some (.responseTimeout n t.received.length)) ∨
      ∃ e, c.error = some (.serial e)) ∧ ∀ e, c.error = some e → t.Fails o e := by
  obtain ⟨bytes, ends⟩ := (receiving_of_held h).ends
  rw [List.reverse_nil, List.nil_append] at bytes
  rw [bytes] at ends
  refine ⟨ends.imp_right fun ⟨e, error, _⟩ => ⟨e, error⟩, fun e he => ?_⟩
  rcases ends with ⟨works, none | late⟩ | ⟨e', error, fails⟩
  · exact absurd (none.symm.trans he) (by simp)
  · obtain rfl := Option.some.inj (late.symm.trans he)
    refine .silence (s := []) works ?_
    obtain ⟨cb, ce⟩ := c
    obtain rfl : cb = t.received := bytes
    obtain rfl : ce = _ := late
    exact h
  · obtain rfl := Option.some.inj (error.symm.trans he)
    exact fails

theorem blames_receiveExactly (n : Nat) :
    (receiveExactly o n : Link ε (List UInt8)).Blames o where
  works := by
    intro t a h
    obtain ⟨c, hc, hr⟩ := held_receiveExactly_iff.mp h
    rcases (ends_receive hc).1 with ⟨works, -⟩ | ⟨e, error⟩
    · exact works
    · exact absurd hr (by simp [whole, error])
  fails := by
    intro t f h
    obtain ⟨c, hc, hr⟩ := held_receiveExactly_iff.mp h
    unfold whole at hr
    split at hr
    · exact absurd hr (by simp)
    · rename_i e error
      obtain rfl := Except.error.inj hr
      exact ⟨e, (ends_receive hc).2 e error, Or.inl rfl⟩

/-- The change to binary mode does not mind a missing acknowledgement. -/
theorem blames_handshake : (handshake o : Link ε Unit).Blames o := by
  have awaited : (ExceptT.lift (receive o Command.acknowledgementLength) >>= acknowledged :
      Link ε Unit).Blames o := by
    constructor
    · intro t a h
      obtain ⟨ack, t₁, t₂, hack, h₂, rfl⟩ := held_lift_bind h
      rcases (ends_receive hack).1 with ⟨works, error⟩ | ⟨e, error⟩
      · refine List.forall_mem_append.mpr ⟨works, ?_⟩
        rcases error with none | late
        · simp only [acknowledged, none] at h₂
          exact (blames_pure (o := o) ()).works h₂
        · simp only [acknowledged, late] at h₂
          exact (blames_log (o := o) _).works h₂
      · simp only [acknowledged, error] at h₂
        exact absurd (held_fail_iff.mp h₂).2 (by simp)
    · intro t f h
      obtain ⟨ack, t₁, t₂, hack, h₂, rfl⟩ := held_lift_bind h
      obtain ⟨how, why⟩ := ends_receive hack
      rcases how with ⟨-, none | late⟩ | ⟨e, error⟩
      · simp only [acknowledged, none] at h₂
        exact absurd (held_pure_iff.mp h₂).2 (by simp)
      · simp only [acknowledged, late] at h₂
        exact absurd (held_request_iff.mp h₂) (by simp)
      · simp only [acknowledged, error] at h₂
        obtain ⟨rfl, hr⟩ := held_fail_iff.mp h₂
        obtain rfl := Except.error.inj hr
        rw [List.append_nil]
        exact ⟨.serial e, why _ error, Or.inl rfl⟩
  rw [handshake_eq]
  exact (blames_log _).bind fun _ =>
    ((blames_send _).bind fun _ => blames_flush).bind fun _ => awaited

/-- Reading the image is no call of the port. -/
theorem blames_read (space limit : Nat) : (Image.read space limit : Link ε _).Blames o := by
  have quiet {t : Transcript ε} {r : Except (Failure ε) (List UInt8)}
      (h : Held (Image.read space limit) t r) : ∀ y ∈ t, y.Undisturbed := by
    replace h := Image.reading_of_held h
    induction h with
    | full _ => exact fun _ hy => absurd hy List.not_mem_nil
    | failed => exact List.forall_mem_singleton.mpr trivial
    | ended => exact List.forall_mem_singleton.mpr trivial
    | piece _ _ _ _ _ _ _ ih => exact List.forall_mem_cons.mpr ⟨trivial, ih⟩
  refine ⟨quiet, fun h => ?_⟩
  obtain ⟨kind, rfl⟩ := ((Image.took_read h).failure _ rfl).1
  exact ⟨.io kind, .finding (quiet h) trivial, Or.inl rfl⟩

theorem Blames.during (h : x.Blames o) (stage : Stage) : (Link.during stage x).Blames o where
  works := by
    intro t a ht
    obtain ⟨r, hr, e⟩ := held_during_iff.mp ht
    cases r with
    | error g => exact absurd e (by simp)
    | ok b => exact h.works hr
  fails := by
    intro t f ht
    obtain ⟨r, hr, e⟩ := held_during_iff.mp ht
    cases r with
    | ok b => exact absurd e (by simp)
    | error g =>
      obtain rfl := Except.error.inj e
      obtain ⟨e, fails, reported⟩ := h.fails hr
      exact ⟨e, fails, reported.during stage⟩

/-- **A composed operation** fails with the error of the call that failed. -/
theorem Composed.blames {P : Request → Prop} (h : x.Composed o P) : x.Blames o := by
  have header (c : Command) : (send c.header >>= fun _ => flush : Link ε Unit).Blames o :=
    (blames_send _).bind fun _ => blames_flush
  induction h with
  | pure a => exact blames_pure a
  | fail finding => exact blames_fail finding
  | log _ _ => exact blames_log _
  | delay _ => exact blames_request fun _ => trivial
  | progress _ => exact blames_request fun _ => trivial
  | image _ => exact blames_read _ _
  | handshake => exact blames_handshake
  | readWord _ =>
    exact (blames_send _).bind fun _ => (blames_receiveExactly 4).bind fun _ =>
      (blames_log _).bind fun _ => blames_pure _
  | writeWord _ => exact (blames_log _).bind fun _ => header _
  | writeBlock _ _ =>
    exact (blames_log _).bind fun _ => (blames_send _).bind fun _ =>
      blames_flush.bind fun _ => (blames_send _).bind fun _ => blames_flush
  | go _ => exact (blames_log _).bind fun _ => header _
  | during stage _ ih => exact ih.during stage
  | bind _ _ ih₁ ih₂ => exact ih₁.bind_held ih₂

end Link

/-! ## Where the pages stop -/

namespace Page

open Link

variable {c : Chip} {size : Nat} {observed : Bool}

/-- What stops a page, with the failure that this comes to. -/
inductive Stuck (o : Options) (c : Chip) (size page read : Nat) (t : Transcript ε) :
    Failure ε → Prop
  /-- Its bytes cannot be read. -/
  | reading {kind : IoKind}
      (read_page : Held (next c size page read) t (.error (.error (.io kind)))) :
      Stuck o c size page read t (.error (.io kind))
  /-- It cannot be written. -/
  | writing {u v : Transcript ε} {data : List UInt8} {total : Nat} {f : Failure ε}
      (drew : Held (next c size page read) u (.ok (total, data)))
      (full : data.length = c.pageSize)
      (write_page : Held (during (.page page) (write o c (Workspace.ofPage c page) page data)) v
        (.error f))
      (exchanges : t = u ++ v) : Stuck o c size page read t f

/-- Telling the observer does not fail. -/
theorem told {step : Progress} {t : Transcript ε} {r : Except (Failure ε) Unit}
    (h : Held (tell observed step) t r) : r = .ok () := by
  have tells : (tell observed step : Link ε Unit).Follows [] (fun _ => True) (fun _ => False) :=
    follows_tell observed step
  cases r with
  | ok _ => rfl
  | error f => exact (tells.breaks h).2.2.elim

/-- **If the writing of pages stops**, it stops at one of them, with all pages before it written. -/
theorem stuck_writeAll (hc : c.Sound) {left page read : Nat} (hrem : Remains c size left page read)
    {t : Transcript ε} {f : Failure ε}
    (h : Held (writeAll o c size observed left page read (Workspace.ofPage c page)) t
      (.error f)) :
    ∃ k s u, k < left ∧ t = s ++ u ∧
      Held (writeAll o c size observed k page read (Workspace.ofPage c page)) s (.ok ()) ∧
      Stuck o c size (page + k) ((page + k) * c.pageSize) u f := by
  induction left generalizing page read t with
  | zero => exact absurd (held_pure_iff.mp h).2 (by simp)
  | succ left ih =>
    obtain ⟨rfl, hlt⟩ := hrem.read_le
    have hpage : page < c.pages := by
      have := hrem.pages
      omega
    rcases held_bind_iff.mp h with ⟨g, h₁, hr⟩ | ⟨⟨total, data⟩, s₁, t₁, h₁, h₂, rfl⟩
    · obtain rfl := Except.error.inj hr
      obtain ⟨⟨kind, rfl⟩, -⟩ := (drew_next (Nat.le_of_lt hlt) hrem.fits h₁).failure _ rfl
      exact ⟨0, [], t, Nat.succ_pos left, rfl, held_pure_iff.mpr ⟨rfl, rfl⟩, .reading h₁⟩
    obtain ⟨hlen, hx⟩ := (drew_next (Nat.le_of_lt hlt) hrem.fits h₁).page _ rfl
    have full : data.length = c.pageSize := by
      obtain ⟨-, rfl⟩ := Prod.mk.inj hx
      exact Image.padded_length (by omega)
    have first {s₂ : Transcript ε} {w : Workspace} {k : Nat} {s₃ u : Transcript ε}
        {r : Except (Failure ε) Unit}
        (h₃ : Held (during (.page page) (write o c (Workspace.ofPage c page) page data)) s₂ (.ok w))
        (h₄ : Held (tell observed (.advance (page + 1))) s₃ (.ok ()))
        (h₅ : Held (writeAll o c size observed k (page + 1) total w) u r) :
        Held (writeAll o c size observed (k + 1) page (page * c.pageSize)
          (Workspace.ofPage c page)) (s₁ ++ (s₂ ++ (s₃ ++ u))) r := by
      refine held_bind_iff.mpr (Or.inr ⟨(total, data), s₁, _, h₁, ?_, rfl⟩)
      refine held_bind_iff.mpr (Or.inr ⟨w, s₂, _, h₃, ?_, rfl⟩)
      rw [hc.nextPage_eq hpage, exact_ok, pure_bind]
      exact held_bind_iff.mpr (Or.inr ⟨(), s₃, u, h₄, h₅, rfl⟩)
    rcases held_bind_iff.mp h₂ with ⟨g, h₃, hr⟩ | ⟨w, s₂, t₂, h₃, h₄, rfl⟩
    · obtain rfl := Except.error.inj hr
      exact ⟨0, [], s₁ ++ t₁, Nat.succ_pos left, rfl, held_pure_iff.mpr ⟨rfl, rfl⟩,
        .writing h₁ full h₃ rfl⟩
    obtain rfl := ((commits_write hc hpage full).during_isAt.completes h₃).2.2
    rw [hc.nextPage_eq hpage, exact_ok, pure_bind] at h₄
    rcases held_bind_iff.mp h₄ with ⟨g, h₅, -⟩ | ⟨_, s₃, t₃, h₅, h₆, rfl⟩
    · exact absurd (told h₅) (by simp)
    have next : Remains c size left (page + 1) total := by
      obtain ⟨rfl, -⟩ := Prod.mk.inj hx
      rw [hlen]
      exact hrem.next
    obtain ⟨k, s, u, hk, rfl, written, stuck⟩ := ih next h₆
    refine ⟨k + 1, s₁ ++ (s₂ ++ (s₃ ++ s)), u, by omega, by simp, first h₃ h₅ written, ?_⟩
    have shift : page + (k + 1) = page + 1 + k := by omega
    rwa [shift]

end Page

/-! ## Where a program call stops -/

namespace Programmer

open Link

variable {c : Chip} {size : Nat} {observed : Bool}

/-- What is done before there can be progress. -/
def preparation (c : Chip) (size : Nat) : Link ε Workspace :=
  Link.log (.writing size (c.pagesFor size) c.name) >>= fun _ => Workspace.setUp c

/-- The chip has been set up, and the first `k` pages have been written. -/
def Reaches (o : Options) (c : Chip) (size : Nat) (observed : Bool) (k : Nat)
    (t : Transcript ε) : Prop :=
  Link.Held (opening c size (c.pagesFor size) observed >>= fun w =>
    Page.writeAll o c size observed k 0 0 w) t (.ok ())

/-- The operation fails at the stage, and the error is `cause` with the stage. -/
structure FailsAt (x : Link ε α) (stage : Stage) (t : Transcript ε) (cause : Error ε) : Prop where
  held : Link.Held (during stage x) t (.error (.error (cause.during stage)))
  staged : (cause.during stage).stage? = some stage

/-- Where the writing of an image stops, with the error `cause` of the call that failed, and what is
reported of it. -/
inductive Stops (o : Options) (c : Chip) (size : Nat) (observed : Bool) (cause : Error ε) :
    Transcript ε → Error ε → Prop
  /-- There is no room in flash. -/
  | checking (large : c.pages * c.pageSize < size)
      (refused : cause = .imageTooLarge size (c.pageSize * c.pages)) :
      Stops o c size observed cause [⟨.log (.imageTooLarge size (c.pageSize * c.pages)), ()⟩] cause
  /-- The chip is being set up. -/
  | settingUp {t : Transcript ε}
      (unprepared : Link.Held (preparation c size) t (.error (.error cause)))
      (bare : cause.IsBareLink) : Stops o c size observed cause t cause
  /-- The bytes of page `k` are being read. -/
  | reading {s u : Transcript ε} {kind : IoKind} (k : Nat) (lt : k < c.pagesFor size)
      (before : Reaches o c size observed k s)
      (read_page : Link.Held (Page.next c size k (k * c.pageSize)) u (.error (.error (.io kind))))
      (unread : cause = .io kind) : Stops o c size observed cause (s ++ u) cause
  /-- Page `k` is being written: some of its commands are sent. -/
  | writing {s u v : Transcript ε} {data : List UInt8} {total : Nat} (k : Nat)
      (lt : k < c.pagesFor size) (before : Reaches o c size observed k s)
      (drew : Link.Held (Page.next c size k (k * c.pageSize)) u (.ok (total, data)))
      (unwritten : FailsAt (Page.write o c (Workspace.ofPage c k) k data) (.page k) v cause)
      (sent : v.Breaks (Script.page c k data)) :
      Stops o c size observed cause (s ++ (u ++ v)) (cause.during (.page k))
  /-- The last page is waited for. -/
  | waiting {s u : Transcript ε} (keeps : o.keepBootSource = true)
      (before : Reaches o c size observed (c.pagesFor size) s)
      (unready : FailsAt (FlashController.awaitReady o c (.page (c.pagesFor size - 1)))
        (.page (c.pagesFor size - 1)) u cause) :
      Stops o c size observed cause (s ++ u) (cause.during (.page (c.pagesFor size - 1)))
  /-- The boot flag is being changed. -/
  | switching {s u : Transcript ε} (switches : o.keepBootSource = false)
      (before : Reaches o c size observed (c.pagesFor size) s)
      (unchanged : FailsAt (changeFlag o c true) .bootFlag u cause) :
      Stops o c size observed cause (s ++ ⟨.log (.bootSource true), ()⟩ :: u)
        (cause.during .bootFlag)

variable {cause : Error ε} {f : Failure ε}

theorem failsAt_of_held {x : Link ε α} {stage : Stage} {t : Transcript ε}
    (reported : cause.Reported f) (at_stage : f.IsAt stage)
    (h : Link.Held (during stage x) t (.error f)) :
    f = .error (cause.during stage) ∧ FailsAt x stage t cause := by
  obtain rfl := reported.eq_during at_stage
  obtain ⟨e, he, staged⟩ := at_stage
  obtain rfl := Failure.error.inj he
  exact ⟨rfl, h, staged⟩

/-- The error of a failure that has no stage. -/
theorem eq_of_bare (reported : cause.Reported f) (bare : f.IsBareLink) :
    f = .error cause ∧ cause.IsBareLink := by
  cases f with
  | fault _ => exact absurd bare id
  | error e =>
    obtain rfl : e = cause := reported.eq_of_untagged (by
      cases e <;> first | rfl | exact absurd bare (by simp [Failure.IsBareLink, Error.IsBareLink]))
    exact ⟨rfl, bare⟩

/-- **A change of the boot flag** fails at its stage. -/
theorem stops_writeBootFlag (hc : c.Sound) {fromFlash : Bool} {t : Transcript ε}
    (reported : cause.Reported f) (h : Link.Held (writeBootFlag o c fromFlash) t (.error f)) :
    f = .error (cause.during .bootFlag) ∧ ∃ u, t = ⟨.log (.bootSource fromFlash), ()⟩ :: u ∧
      FailsAt (changeFlag o c fromFlash) .bootFlag u cause := by
  have at_stage := ((follows_writeBootFlag hc fromFlash).breaks h).2.2
  obtain ⟨_, u, hu, rfl⟩ := held_request_bind h
  have hu : Link.Held (during .bootFlag (changeFlag o c fromFlash) >>= fun _ =>
      Link.log (.settling o.settleTime) >>= fun _ => Link.delay o.settleTime) u (.error f) := hu
  rcases Link.held_bind_iff.mp hu with ⟨g, h₁, hr⟩ | ⟨_, _, u₂, -, h₂, -⟩
  · obtain rfl := Except.error.inj hr
    obtain ⟨hf, fails⟩ := failsAt_of_held reported at_stage h₁
    exact ⟨hf, u, rfl, fails⟩
  · obtain ⟨_, _, h₃, -⟩ := held_request_bind h₂
    exact absurd (held_request_iff.mp h₃) (by simp)

theorem stops_closing (hc : c.Sound) {n : Nat} (hn : 0 < n) {t : Transcript ε}
    (reported : cause.Reported f) (h : Link.Held (closing o c n observed) t (.error f)) :
    (o.keepBootSource = true ∧ f = .error (cause.during (.page (n - 1))) ∧
        FailsAt (FlashController.awaitReady o c (.page (n - 1))) (.page (n - 1)) t cause) ∨
      (o.keepBootSource = false ∧ f = .error (cause.during .bootFlag) ∧
        ∃ u, t = ⟨.log (.bootSource true), ()⟩ :: u ∧
          FailsAt (changeFlag o c true) .bootFlag u cause) := by
  -- nothing can fail behind the wait or the change
  have ends {t : Transcript ε} {g : Failure ε}
      (h : Link.Held (Page.tell observed .finish >>= fun _ => Link.log .programmingComplete) t
        (.error g)) : False := by
    rcases Link.held_bind_iff.mp h with ⟨g', h₁, -⟩ | ⟨_, _, _, -, h₂, -⟩
    · exact absurd (Page.told h₁) (by simp)
    · obtain ⟨_, -, hr⟩ := Link.held_request_iff.mp h₂
      exact absurd hr (by simp)
  by_cases hk : o.keepBootSource = true
  · have at_stage := ((follows_closing_keep hc hn hk).breaks h).2.2
    have last : Size.sub n 1 = .ok (n - 1) := Size.sub_eq_ok_iff.mpr ⟨rfl, hn⟩
    simp only [closing, if_pos hk, last, exact_ok, pure_bind] at h
    rcases Link.held_bind_iff.mp h with ⟨g, h₁, hr⟩ | ⟨_, _, _, -, h₂, -⟩
    · obtain rfl := Except.error.inj hr
      exact Or.inl ⟨hk, failsAt_of_held reported at_stage h₁⟩
    · exact absurd h₂ ends
  · simp only [closing, if_neg hk] at h
    rcases Link.held_bind_iff.mp h with ⟨g, h₁, hr⟩ | ⟨_, _, _, -, h₂, -⟩
    · obtain rfl := Except.error.inj hr
      exact Or.inr ⟨eq_false_of_ne_true hk, stops_writeBootFlag hc reported h₁⟩
    · exact absurd h₂ ends

theorem stops_writePages (hc : c.Sound) (hs : size ≤ c.pages * c.pageSize)
    (hn : 0 < c.pagesFor size) {t : Transcript ε} (reported : cause.Reported f)
    (h : Link.Held (writePages o c size (c.pagesFor size) observed) t (.error f)) :
    ∃ e, f = .error e ∧ Stops o c size observed cause t e := by
  rw [writePages_eq] at h
  rcases Link.held_bind_iff.mp h with ⟨g, h₁, hr⟩ | ⟨w, s, u, h₁, h₂, rfl⟩
  · obtain rfl := Except.error.inj hr
    obtain ⟨rfl, bare⟩ := eq_of_bare reported ((follows_opening hc _).breaks h₁).2.2
    refine ⟨cause, rfl, .settingUp ?_ bare⟩
    -- what is told behind the preparation does not fail
    have opened : (opening c size (c.pagesFor size) observed : Link ε Workspace) =
        preparation c size >>= fun w =>
          Page.tell observed (.begin c.flashBase (c.pagesFor size)) >>= fun _ => pure w := by
      simp only [opening, preparation, bind_assoc]
    rw [opened] at h₁
    rcases Link.held_bind_iff.mp h₁ with ⟨g, h₂, hr⟩ | ⟨w, _, _, -, h₂, -⟩
    · obtain rfl := Except.error.inj hr
      exact h₂
    · have told : (Page.tell observed (.begin c.flashBase (c.pagesFor size)) >>= fun _ => pure w :
          Link ε Workspace).Follows [] (fun _ => True) (fun _ => False) :=
        (Page.follows_tell observed _).after fun _ => follows_pure trivial
      exact absurd (told.breaks h₂).2.2 id
  obtain rfl := ((follows_opening hc _).completes h₁).2.2
  have hrem := remains_zero hc hs
  rcases Link.held_bind_iff.mp h₂ with ⟨g, h₃, hr⟩ | ⟨_, v, z, h₃, h₄, rfl⟩
  · obtain rfl := Except.error.inj hr
    obtain ⟨k, s', u', hk, rfl, written, stuck⟩ := Page.stuck_writeAll hc hrem h₃
    have before : Reaches o c size observed k (s ++ s') :=
      Link.held_bind_iff.mpr (Or.inr ⟨_, s, s', h₁, written, rfl⟩)
    rw [Nat.zero_add] at stuck
    rw [← List.append_assoc]
    cases stuck with
    | @reading kind read_page =>
      obtain rfl : .io kind = cause := reported.eq_of_untagged rfl
      exact ⟨_, rfl, .reading k hk before read_page rfl⟩
    | writing drew full write_page exchanges =>
      subst exchanges
      have lt : k < c.pages := by
        have := hrem.pages
        omega
      obtain ⟨sent, -, at_stage⟩ := (Page.commits_write hc lt full).during_isAt.breaks write_page
      obtain ⟨rfl, unwritten⟩ := failsAt_of_held reported at_stage write_page
      exact ⟨_, rfl, .writing k hk before drew unwritten sent⟩
  · have before : Reaches o c size observed (c.pagesFor size) (s ++ v) :=
      Link.held_bind_iff.mpr (Or.inr ⟨_, s, v, h₁, h₃, rfl⟩)
    rw [← List.append_assoc]
    rcases stops_closing hc hn reported h₄ with ⟨hk, rfl, unready⟩ | ⟨hk, rfl, u, rfl, unchanged⟩
    · exact ⟨_, rfl, .waiting hk before unready⟩
    · exact ⟨_, rfl, .switching hk before unchanged⟩

/-- **If the writing of an image stops**, it does so in one of six places. -/
theorem stops_writing (hc : c.Sound) {t : Transcript ε} (reported : cause.Reported f)
    (h : Link.Held (writing o c size observed) t (.error f)) :
    ∃ e, f = .error e ∧ Stops o c size observed cause t e := by
  by_cases hs : c.pages * c.pageSize < size
  · obtain ⟨rfl, hr⟩ := held_writing_tooLarge hc hs h
    obtain rfl := Except.error.inj hr
    obtain rfl := reported.eq_of_untagged rfl
    exact ⟨_, rfl, .checking hs rfl⟩
  have hle : size ≤ c.pages * c.pageSize := by omega
  by_cases hz : size = 0
  · subst hz
    exact absurd (held_writing_empty hc h).2 (by simp)
  · have hpos : 0 < size := by omega
    rw [writing_eq hc hpos hle] at h
    exact stops_writePages hc hle (pagesFor_pos hc hpos) reported h

/-! ## Before and behind the preparation -/

/-- The chip has been set up for the image. -/
def Prepared (c : Chip) (size : Nat) (t : Transcript ε) : Prop :=
  ∃ s u w, t = s ++ u ∧ Link.Held (preparation c size) s (.ok w)

theorem Prepared.append {t : Transcript ε} (h : Prepared c size t) (u : Transcript ε) :
    Prepared c size (t ++ u) := by
  obtain ⟨s, v, w, rfl, hs⟩ := h
  exact ⟨s, v ++ u, w, List.append_assoc s v u, hs⟩

theorem Reaches.prepared {k : Nat} {t : Transcript ε} (h : Reaches o c size observed k t) :
    Prepared c size t := by
  obtain ⟨_, s, u, hs, -, rfl⟩ := Link.held_bind_ok h
  have hs : Link.Held (Link.log (.writing size (c.pagesFor size) c.name) >>= fun _ =>
      Workspace.setUp c >>= fun w =>
        Page.tell observed (.begin c.flashBase (c.pagesFor size)) >>= fun _ => pure w) s (.ok _) :=
    hs
  rw [← bind_assoc] at hs
  obtain ⟨w, s₁, s₂, h₁, -, rfl⟩ := Link.held_bind_ok hs
  exact ⟨s₁, s₂ ++ u, w, List.append_assoc s₁ s₂ u, h₁⟩

end Programmer

/-- A dialogue stops in one place of what is asked and answered. -/
theorem Dialogue.Held.unique_of_prefix {x : Dialogue ε α} {s u t : Transcript ε} {a b : α}
    (h : Held x s a) (h' : Held x u b) (hs : s <+: t) (hu : u <+: t) : u = s ∧ b = a := by
  rcases List.prefix_or_prefix_of_prefix hs hu with ⟨v, rfl⟩ | ⟨v, rfl⟩
  · obtain ⟨rfl, hb⟩ := h.unique h'
    exact ⟨List.append_nil s, hb⟩
  · obtain ⟨rfl, hb⟩ := h'.unique h
    exact ⟨(List.append_nil u).symm, hb.symm⟩

namespace Error

/-- The error is one of those that need no stage: the chip has not been set up when it comes. -/
def IsPreparatory : Error ε → Prop
  | serial _ => True
  | responseTimeout .. => True
  | unknownChip _ => True
  | imageTooLarge .. => True
  | _ => False

theorem IsBareLink.isPreparatory {e : Error ε} (h : e.IsBareLink) : e.IsPreparatory := by
  cases e <;> first | exact trivial | exact absurd h id

end Error

namespace Programmer

open Link

variable {c : Chip} {size : Nat} {observed : Bool} {cause e : Error ε} {t : Transcript ε}

/-- **The kind of error** tells whether the chip had been set up. -/
theorem Stops.kind (h : Stops o c size observed cause t e) :
    (¬ Prepared c size t ∧ e.IsPreparatory) ∨
      (Prepared c size t ∧ ((∃ stage, e.stage? = some stage) ∨ ∃ kind, e = .io kind)) := by
  cases h with
  | checking large refused =>
    refine Or.inl ⟨?_, by rw [refused]; exact trivial⟩
    rintro ⟨s, u, w, hsu, hs⟩
    obtain ⟨_, _, -, rfl⟩ := held_request_bind hs
    have head := congrArg (fun t => t.head?.map Exchange.request) hsu
    exact absurd head (by simp)
  | settingUp unprepared bare =>
    refine Or.inl ⟨?_, bare.isPreparatory⟩
    rintro ⟨s, u, w, rfl, hs⟩
    exact absurd (Dialogue.Held.unique hs unprepared).2 (by simp)
  | reading k lt before read_page unread =>
    exact Or.inr ⟨before.prepared.append _, Or.inr ⟨_, unread⟩⟩
  | writing k lt before drew unwritten sent =>
    exact Or.inr ⟨before.prepared.append _, Or.inl ⟨_, unwritten.staged⟩⟩
  | waiting keeps before unready =>
    exact Or.inr ⟨before.prepared.append _, Or.inl ⟨_, unready.staged⟩⟩
  | switching switches before unchanged =>
    exact Or.inr ⟨before.prepared.append _, Or.inl ⟨_, unchanged.staged⟩⟩

end Programmer

/-! ## Calls of a programmer -/

namespace Turn

open Programmer

variable {v : Turn ε} {cause e : Error ε}

/-- The call has got past its preparation: the chip has been set up for the image, or it is known
and its boot flag is to be changed. -/
def Prepared (o : Options) (v : Turn ε) : Prop :=
  ∃ c s u, v.Gets o s c ∧ v.exchanges = s ++ u ∧
    match v.task with
    | .identify => False
    | .program size _ => Programmer.Prepared c size u
    | .setBootSource _ => True

/-- Where a call stops, with the error `cause` of what failed in it, and what is reported of it. -/
inductive Stops (o : Options) (v : Turn ε) (cause : Error ε) : Error ε → Prop
  /-- The chip is being identified. -/
  | identifying (looks : v.task.Looks v.before)
      (lost : Link.Held (findChip o) v.exchanges (.error (.error cause)))
      (kind : cause.IsBareLink ∨ ∃ id, cause = .unknownChip id) : Stops o v cause cause
  /-- An image is being written. -/
  | programming {c : Chip} {size : Nat} {observed : Bool} {s u : Transcript ε} {e : Error ε}
      (task : v.task = .program size observed) (gets : v.Gets o s c)
      (exchanges : v.exchanges = s ++ u) (stops : Programmer.Stops o c size observed cause u e) :
      Stops o v cause e
  /-- The boot flag is being changed. -/
  | switching {c : Chip} {fromFlash : Bool} {s u : Transcript ε}
      (task : v.task = .setBootSource fromFlash) (gets : v.Gets o s c)
      (exchanges : v.exchanges = s ++ ⟨.log (.bootSource fromFlash), ()⟩ :: u)
      (unchanged : FailsAt (changeFlag o c fromFlash) .bootFlag u cause) :
      Stops o v cause (cause.during .bootFlag)

/-- A call gets one chip, in one way. -/
theorem Gets.unique {s s' u u' : Transcript ε} {c c' : Chip} (h : v.Gets o s c)
    (h' : v.Gets o s' c') (hu : v.exchanges = s ++ u) (hu' : v.exchanges = s' ++ u') :
    c' = c ∧ u' = u := by
  rcases h with ⟨looks, hf⟩ | ⟨known, hk, rfl⟩ <;>
    rcases h' with ⟨looks', hf'⟩ | ⟨known', hk', rfl⟩
  · obtain ⟨rfl, hc⟩ := hf.unique_of_prefix hf' ⟨u, hu.symm⟩ ⟨u', hu'.symm⟩
    exact ⟨Except.ok.inj hc, List.append_cancel_left (hu'.symm.trans hu)⟩
  · exact absurd looks known'
  · exact absurd looks' known
  · exact ⟨Option.some.inj (hk'.symm.trans hk), hu'.symm.trans hu⟩

/-- **The kind of error** tells whether the call had got past its preparation. -/
theorem Stops.kind (h : v.Stops o cause e) :
    (¬ v.Prepared o ∧ e.IsPreparatory) ∨
      (v.Prepared o ∧ ((∃ stage, e.stage? = some stage) ∨
        (∃ size observed, v.task = .program size observed) ∧ ∃ kind, e = .io kind)) := by
  cases h with
  | identifying looks lost kind =>
    refine Or.inl ⟨?_, ?_⟩
    · rintro ⟨c, s, u, gets, exchanges, -⟩
      rcases gets with ⟨-, hf⟩ | ⟨known, -⟩
      · rw [exchanges] at lost
        exact absurd (Dialogue.Held.unique hf lost).2 (by simp)
      · exact known looks
    · rcases kind with bare | ⟨id, rfl⟩
      · exact bare.isPreparatory
      · exact trivial
  | programming task gets exchanges stops =>
    rcases stops.kind with ⟨unprepared, early⟩ | ⟨prepared, late⟩
    · refine Or.inl ⟨?_, early⟩
      rintro ⟨c', s', u', gets', exchanges', prepared⟩
      obtain ⟨rfl, rfl⟩ := gets.unique gets' exchanges exchanges'
      rw [task] at prepared
      exact unprepared prepared
    · refine Or.inr ⟨⟨_, _, _, gets, exchanges, ?_⟩, ?_⟩
      · rw [task]
        exact prepared
      · exact late.imp_right fun io => ⟨⟨_, _, task⟩, io⟩
  | switching task gets exchanges unchanged =>
    refine Or.inr ⟨⟨_, _, _, gets, exchanges, ?_⟩, Or.inl ⟨_, unchanged.staged⟩⟩
    rw [task]
    exact trivial

/-- **A failed call** stops in one place, with the error of the last thing that it did. -/
theorem Held.stops (h : v.Held o) (hp : v.before.Knows) {f : Failure ε}
    (hf : v.result = .error f) :
    ∃ cause e, f = .error e ∧ v.exchanges.Fails o cause ∧ v.Stops o cause e := by
  cases h.course with
  | lost g looks asked result _ =>
    obtain rfl := Except.error.inj (hf.symm.trans result)
    obtain ⟨cause, fails, reported⟩ := composed_findChip.blames.fails asked
    rcases ((follows_findChip o).breaks asked).2.2 with bare | ⟨id, rfl⟩
    · obtain ⟨rfl, bare⟩ := eq_of_bare reported bare
      exact ⟨cause, cause, rfl, fails, .identifying looks asked (Or.inl bare)⟩
    · obtain rfl := reported.eq_of_untagged rfl
      exact ⟨_, _, rfl, fails, .identifying looks asked (Or.inr ⟨id, rfl⟩)⟩
  | worked c s u gets work exchanges _ _ =>
    rw [hf] at work
    have mem := gets.mem hp
    have sound := Chip.sound_of_mem mem
    obtain ⟨cause, fails, reported⟩ := (Task.accurate_work mem v.task).blames.fails work
    have calm : ∀ y ∈ s, y.Undisturbed := by
      rcases gets with ⟨-, found⟩ | ⟨-, -, rfl⟩
      · exact composed_findChip.blames.works found
      · exact fun _ hy => absurd hy List.not_mem_nil
    replace fails := fails.append_left calm
    rw [← exchanges] at fails
    cases task : v.task with
    | identify =>
      rw [task] at work
      exact absurd (Link.held_pure_iff.mp work).2 (by simp)
    | program size observed =>
      rw [task] at work
      obtain ⟨e, rfl, stops⟩ := stops_writing sound reported work
      exact ⟨cause, e, rfl, fails, .programming task gets exchanges stops⟩
    | setBootSource fromFlash =>
      rw [task] at work
      obtain ⟨rfl, u, rfl, unchanged⟩ := stops_writeBootFlag sound reported work
      exact ⟨cause, _, rfl, fails, .switching task gets exchanges unchanged⟩

end Turn

/-- **The stage of an error** tells where the call stopped. Whatever the targets, the ports and the
readers do: a call that fails does so with an error, and the port worked until the end of its
exchanges. What is wrong there is the cause: the port failed with that, a receive gave up with so
many bytes, or nothing failed and a check did. What is reported is the cause, with the stage of the
place where the call stopped and no other.

Before a chip is set up for an image, and in every identification, that is one of four errors and
has no stage. Behind that it has a stage, unless the image could not be read. -/
theorem error_tells_stage {v : Turn ε} (h : v.Held o) (hp : v.before.Knows) {f : Failure ε}
    (hf : v.result = .error f) :
    ∃ cause e, f = .error e ∧ v.exchanges.Fails o cause ∧ v.Stops o cause e ∧
      (¬ v.Prepared o → e.IsPreparatory) ∧
      (v.Prepared o → (∃ stage, e.stage? = some stage) ∨
        (∃ size observed, v.task = .program size observed) ∧ ∃ kind, e = .io kind) := by
  obtain ⟨cause, e, rfl, fails, stops⟩ := h.stops hp hf
  refine ⟨cause, e, rfl, fails, stops, fun unprepared => ?_, fun prepared => ?_⟩
  · exact (stops.kind.resolve_right fun late => unprepared late.1).2
  · exact (stops.kind.resolve_left fun early => early.1 prepared).2

/-- The device, whose port breaks at a flush after so many that work. -/
def Device.breaking {σ : Type} (d : Device σ ε) (e : ε) : Device (σ × Nat) ε where
  answer
    | .flush, (s, 0) => (.failed e, s, 0)
    | .flush, (s, n + 1) => ((d.answer .flush s).1, (d.answer .flush s).2, n)
    | q, (s, n) => ((d.answer q s).1, (d.answer q s).2, n)

namespace Turn

/-- An image of one byte is written with a port that breaks behind the page's first block. -/
def broken : Turn IoKind :=
  ofRun ((Bench.steady Bench.part).breaking .brokenPipe) (Bench.fresh [7], 8) {} (.program 1 false)
    acquainted

set_option maxRecDepth 100000 in
theorem broken_goes :
    broken.result = .error (.error (.transfer (.page 0) .brokenPipe)) := by
  cbv

end Turn

/-- The port error is reported, with the page. -/
theorem error_tells_stage_broken :
    ∃ cause, Turn.broken.exchanges.Fails {} cause ∧
      Turn.broken.Stops {} cause (.transfer (.page 0) .brokenPipe) := by
  have knows : Turn.broken.before.Knows := by
    rintro c hc
    obtain rfl := Option.some.inj hc
    decide
  obtain ⟨cause, e, he, fails, stops, -⟩ :=
    error_tells_stage (Turn.held_ofRun _ _ _ _ _) knows Turn.broken_goes
  obtain rfl := Failure.error.inj he
  exact ⟨cause, fails, stops⟩

end SamFlash
