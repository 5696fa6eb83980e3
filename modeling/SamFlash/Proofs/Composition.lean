import SamFlash.Proofs.Identification
import SamFlash.Proofs.Pages

/-!
# What operations are made of

All that a session does on the link is put together from a few parts: the four operations of the
monitor (`Monitor.readWord`, `Monitor.writeWord`, `Monitor.writeBlock`, `Monitor.go`), the change to
binary mode (`Link.handshake`), reads of the image (`Image.read`), and pauses, diagnostics and
progress in between. An operation is `Link.Composed` of such parts if it can be built from them by
doing one after the other and by adding stages to failures, and if no computation in it is without a
result. What holds of every part, and survives being put together, then holds of the operation; it
is proved by induction on how the operation is composed, once for all operations.

The predicate `P` is over the requests that a composed operation makes by itself. The ones that move
bytes are always the same (`Request.IsTransfer`): bytes put on the port, flushes, looks, and the
diagnostics that go with them. Within those, pauses have one place only, behind a look of
`Link.receiveFrom` that found nothing (`Transcript.Consists`).

This is what `Proofs.Accuracy` proves of the operations on a chip, and what `Proofs.InStep`,
`Proofs.Timing`, `Proofs.Stages` and `Proofs.OnTheWire` use of them: there a fact about all
operations has one case for each part, and none for `Page.write` or `FlashController.awaitReady`.

Results:
* `Link.Composed.mono`: operations compose under a weaker predicate.
* `Link.Composed.ordinary`: a composed operation fails with an error, and never because a page does
  not exist.
* `Link.Composed.consists`: its exchanges are transfers and what `P` allows; a transfer pauses
  behind looks in vain and nowhere else.
* `Link.length_received_lt`: a receive never has more bytes than it has room for.
-/

namespace SamFlash

variable {ε α β : Type}

/-! ## Failures -/

/-- An error, and not that a page is out of range. -/
def Failure.IsOrdinary : Failure ε → Prop
  | error (.pageOutOfRange ..) => False
  | error _ => True
  | fault _ => False

/-- An error that is a finding about the chip, the image or the flash. -/
def Error.IsFinding : Error ε → Prop
  | unknownChip _ => True
  | imageTooLarge .. => True
  | flashLock .. => True
  | flashCommandTimeout .. => True
  | io _ => True
  | _ => False

namespace Failure

theorem isOrdinary_of_isFinding {e : Error ε} (h : e.IsFinding) : (error e).IsOrdinary := by
  cases e <;> first | exact trivial | exact absurd h id

theorem IsBareLink.isOrdinary {f : Failure ε} (h : f.IsBareLink) : f.IsOrdinary := by
  cases f with
  | fault _ => exact absurd h id
  | error e => cases e <;> first | exact trivial | exact absurd h id

theorem IsOrdinary.isError {f : Failure ε} (h : f.IsOrdinary) : ∃ e, f = .error e := by
  cases f with
  | error e => exact ⟨e, rfl⟩
  | fault _ => exact absurd h id

theorem isOrdinary_during (stage : Stage) (f : Failure ε) :
    (f.during stage).IsOrdinary ↔ f.IsOrdinary := by
  cases f with
  | fault _ => rfl
  | error e => cases e <;> rfl

end Failure

/-! ## Requests -/

/-- Moving bytes over the link: putting them on the port, looking for them, and saying that they did
not come. -/
def Request.IsTransfer (o : Options) : Request → Prop
  | write _ => True
  | flush => True
  | read => True
  | delay ms => ms = o.pollDelay
  | log .binaryModeRequested => True
  | log (.acknowledgementMissing received) => received < Command.acknowledgementLength
  | log (.receiveTimeout received expected) => received < expected ∧ expected ≤ 4
  | _ => False

/-- The pauses are `rests`, and besides them the ones that a receive makes behind a look in vain. -/
inductive Transcript.Rests (o : Options) : Transcript ε → List Word → Prop
  | nil : Rests o [] []
  | poll {t : Transcript ε} {rests : List Word} (later : Rests o t rests) :
      Rests o (⟨.read, .notReady⟩ :: ⟨.delay o.pollDelay, ()⟩ :: t) rests
  | pause {t : Transcript ε} {rests : List Word} (ms : Word) (later : Rests o t rests) :
      Rests o (⟨.delay ms, ()⟩ :: t) (ms :: rests)
  | other {x : Exchange ε} {t : Transcript ε} {rests : List Word} (none : x.pause? = none)
      (later : Rests o t rests) : Rests o (x :: t) rests

/-- What the exchanges are made of: what `P` allows, and transfers, which pause behind looks in vain
and nowhere else. -/
inductive Transcript.Consists (o : Options) (P : Request → Prop) : Transcript ε → Prop
  | nil : Consists o P []
  | asked {x : Exchange ε} {t : Transcript ε} (allowed : P x.request) (later : Consists o P t) :
      Consists o P (x :: t)
  | moved {x : Exchange ε} {t : Transcript ε} (transfer : x.request.IsTransfer o)
      (unpaused : x.pause? = none) (later : Consists o P t) : Consists o P (x :: t)
  | polled {t : Transcript ε} (later : Consists o P t) :
      Consists o P (⟨.read, .notReady⟩ :: ⟨.delay o.pollDelay, ()⟩ :: t)

namespace Transcript

variable {o : Options} {P : Request → Prop} {s t : Transcript ε}

theorem Rests.append {l m : List Word} (hs : s.Rests o l) (ht : t.Rests o m) :
    (s ++ t).Rests o (l ++ m) := by
  induction hs with
  | nil => exact ht
  | poll _ ih => exact .poll ih
  | pause ms _ ih => exact .pause ms ih
  | other none _ ih => exact .other none ih

namespace Consists

theorem append (hs : s.Consists o P) (ht : t.Consists o P) : (s ++ t).Consists o P := by
  induction hs with
  | nil => exact ht
  | asked allowed _ ih => exact .asked allowed ih
  | moved transfer unpaused _ ih => exact .moved transfer unpaused ih
  | polled _ ih => exact .polled ih

theorem requests (h : t.Consists o P) : ∀ x ∈ t, P x.request ∨ x.request.IsTransfer o := by
  induction h with
  | nil => exact fun _ hx => absurd hx List.not_mem_nil
  | asked allowed _ ih => exact List.forall_mem_cons.mpr ⟨Or.inl allowed, ih⟩
  | moved transfer _ _ ih => exact List.forall_mem_cons.mpr ⟨Or.inr transfer, ih⟩
  | polled _ ih =>
    exact List.forall_mem_cons.mpr ⟨Or.inr trivial, List.forall_mem_cons.mpr ⟨Or.inr rfl, ih⟩⟩

/-- Where nothing that is allowed pauses, all pauses are behind looks in vain. -/
theorem rests (h : t.Consists o P) (hP : ∀ ms, ¬ P (.delay ms)) : t.Rests o [] := by
  induction h with
  | nil => exact .nil
  | @asked x _ allowed _ ih =>
    have unpaused : x.pause? = none := by
      obtain ⟨q, a⟩ := x
      cases q with
      | delay ms => exact absurd allowed (hP ms)
      | _ => rfl
    exact .other unpaused ih
  | moved _ unpaused _ ih => exact .other unpaused ih
  | polled _ ih => exact .poll ih

end Consists

end Transcript

namespace Link

/-! ## What the exchanges consist of -/

/-- The exchanges of the operation are transfers, and what `P` allows. -/
structure Consists (o : Options) (P : Request → Prop) (x : Link ε α) : Prop where
  exchanges : ∀ {t r}, Held x t r → t.Consists o P

variable {o : Options} {P : Request → Prop} {x : Link ε α} {f : α → Link ε β}

theorem Consists.bind_held (hx : x.Consists o P)
    (hf : ∀ {t a}, Held x t (.ok a) → (f a).Consists o P) : (x >>= f).Consists o P where
  exchanges := by
    intro t r h
    rcases held_bind_iff.mp h with ⟨e, h₁, -⟩ | ⟨a, t₁, t₂, h₁, h₂, rfl⟩
    · exact hx.exchanges h₁
    · exact (hx.exchanges h₁).append ((hf h₁).exchanges h₂)

theorem Consists.bind (hx : x.Consists o P) (hf : ∀ a, (f a).Consists o P) :
    (x >>= f).Consists o P :=
  hx.bind_held fun {_ a} _ => hf a

theorem consists_pure (a : α) : (pure a : Link ε α).Consists o P where
  exchanges h := by
    obtain ⟨rfl, -⟩ := held_pure_iff.mp h
    exact .nil

theorem consists_fail (e : Error ε) : (fail e : Link ε α).Consists o P where
  exchanges h := by
    obtain ⟨rfl, -⟩ := held_fail_iff.mp h
    exact .nil

theorem consists_request {q : Request} (hq : P q) :
    (request q : Link ε (q.Answer ε)).Consists o P where
  exchanges h := by
    obtain ⟨_, rfl, -⟩ := held_request_iff.mp h
    exact .asked hq .nil

/-- A diagnostic about a transfer. -/
theorem consists_log {d : Diagnostic} (hd : (Request.log d).IsTransfer o) :
    (log d : Link ε Unit).Consists o P where
  exchanges h := by
    obtain ⟨_, rfl, -⟩ := held_request_iff.mp h
    exact .moved hd rfl .nil

/-- A port operation that has to settle. -/
theorem consists_settled {q : Request} (hq : q.IsTransfer o)
    (unpaused : ∀ a : q.Answer ε, Exchange.pause? ⟨q, a⟩ = none)
    {settle : q.Answer ε → Except ε Unit} :
    (request q >>= fun a => settled (settle a) : Link ε Unit).Consists o P where
  exchanges h := by
    obtain ⟨a, rfl, -⟩ := held_request_settled h
    exact .moved hq (unpaused a) .nil

theorem consists_flush : (flush : Link ε Unit).Consists o P :=
  consists_settled (q := .flush) trivial fun _ => rfl

theorem consists_send (bs : List UInt8) : (send bs : Link ε Unit).Consists o P := by
  induction bs with
  | nil => exact consists_pure ()
  | cons b bs ih =>
    rw [send_cons]
    exact (consists_settled (q := .write b) trivial fun _ => rfl).bind fun _ => ih

/-- A receive of at most four bytes moves bytes, and one that gives up in time lacks some. -/
theorem Receiving.consists {total left : Nat} {elapsed : Word} {taken : List UInt8}
    {t : Transcript ε} {c : Reception ε} (h : Receiving o total left elapsed taken t c)
    (hl : taken.length + left = total) (ht : total ≤ 4) :
    t.Consists o P ∧
      ∀ expected received, c.error = some (.responseTimeout expected received) →
        received < total := by
  induction h with
  | full => exact ⟨.nil, by simp⟩
  | byte b _ ih =>
    obtain ⟨consists, short⟩ := ih (by rw [List.length_cons]; omega)
    exact ⟨.moved trivial rfl consists, short⟩
  | failed e => exact ⟨.moved trivial rfl .nil, by simp⟩
  | wait _ _ ih =>
    obtain ⟨consists, short⟩ := ih hl
    exact ⟨.polled consists, short⟩
  | @gaveUp left _ taken _ =>
    have lacks : taken.length < total := by omega
    refine ⟨.moved trivial rfl (.moved ⟨lacks, ht⟩ rfl .nil), fun expected received he => ?_⟩
    obtain ⟨-, rfl⟩ := Error.responseTimeout.inj (Option.some.inj he)
    exact lacks

theorem consists_receive {n : Nat} (hn : n ≤ 4) {t : Transcript ε} {c : Reception ε}
    (h : Dialogue.Held (receive o n) t c) :
    t.Consists o P ∧
      ∀ expected received, c.error = some (.responseTimeout expected received) → received < n :=
  (receiving_of_held h).consists (Nat.zero_add n) hn

theorem consists_receiveExactly {n : Nat} (hn : n ≤ 4) :
    (receiveExactly o n : Link ε (List UInt8)).Consists o P where
  exchanges h := by
    obtain ⟨c, hc, -⟩ := held_receiveExactly_iff.mp h
    exact (consists_receive hn hc).1

/-- The change to binary mode moves bytes, also if its acknowledgement is missing. -/
theorem consists_handshake : (handshake o : Link ε Unit).Consists o P := by
  have awaited : (ExceptT.lift (receive o Command.acknowledgementLength) >>= acknowledged :
      Link ε Unit).Consists o P := by
    constructor
    intro t r h
    obtain ⟨ack, t₁, t₂, hack, h₂, rfl⟩ := held_lift_bind h
    obtain ⟨consists, short⟩ := consists_receive (by decide) hack
    refine consists.append ?_
    unfold acknowledged at h₂
    split at h₂
    · exact (consists_pure ()).exchanges h₂
    · rename_i expected received he
      exact (consists_log (d := .acknowledgementMissing received)
        (short expected received he)).exchanges h₂
    · exact (consists_fail _).exchanges h₂
  rw [handshake_eq]
  exact (consists_log (d := .binaryModeRequested) trivial).bind fun _ =>
    ((consists_send _).bind fun _ => consists_flush).bind fun _ => awaited

theorem Receiving.length_received_le {n left : Nat} {elapsed : Word} {taken : List UInt8}
    {t : Transcript ε} {c : Reception ε} (h : Receiving o n left elapsed taken t c) :
    t.received.length ≤ left := by
  induction h with
  | full => exact Nat.le_refl 0
  | byte b _ ih => exact Nat.succ_le_succ ih
  | failed e => exact Nat.zero_le _
  | wait _ _ ih => exact ih
  | gaveUp _ => exact Nat.zero_le _

/-- A receive has no more bytes than it has room for, so there is room when one comes. -/
theorem length_received_lt {n : Nat} {s u : Transcript ε} {b : UInt8} {c : Reception ε}
    (h : Dialogue.Held (receive o n) (s ++ ⟨.read, .byte b⟩ :: u) c) : s.received.length < n := by
  have whole := (receiving_of_held h).length_received_le
  have one : Transcript.received (⟨.read, .byte b⟩ :: u) = b :: u.received := rfl
  rw [Transcript.received_append, one, List.length_append, List.length_cons] at whole
  omega

/-! ## Composition -/

/-- The operation is put together from the parts that a session is made of. `P` allows every
request that is made besides the transfers; a diagnostic among them is about no operation. -/
inductive Composed (o : Options) (P : Request → Prop) : {α : Type} → Link ε α → Prop where
  | pure {α : Type} (a : α) : Composed o P (Pure.pure a : Link ε α)
  | fail {α : Type} {e : Error ε} (finding : e.IsFinding) : Composed o P (Link.fail e : Link ε α)
  | log {d : Diagnostic} (silent : Exchange.operation? (ε := ε) ⟨.log d, ()⟩ = none)
      (allowed : P (.log d)) : Composed o P (Link.log d : Link ε Unit)
  | delay {ms : Word} (allowed : P (.delay ms)) : Composed o P (Link.delay ms : Link ε Unit)
  | progress {p : Progress} (allowed : P (.progress p)) :
      Composed o P (request (.progress p) : Link ε Unit)
  | image {space limit : Nat} (allowed : ∀ k, 0 < k → k ≤ space → k ≤ limit → P (.image k)) :
      Composed o P (Image.read space limit : Link ε (List UInt8))
  | handshake : Composed o P (Link.handshake o : Link ε Unit)
  | readWord {addr : Word} (allowed : ∀ value, P (.log (.wordRead addr value))) :
      Composed o P (Monitor.readWord o addr : Link ε Word)
  | writeWord {addr value : Word} (allowed : P (.log (.wordWritten addr value))) :
      Composed o P (Monitor.writeWord addr value : Link ε Unit)
  | writeBlock {addr : Word} {data : List UInt8} (fits : data.length < UInt32.size)
      (allowed : P (.log (.blockWritten addr data.length))) :
      Composed o P (Monitor.writeBlock addr data : Link ε Unit)
  | go {addr : Word} (allowed : P (.log (.branched addr))) :
      Composed o P (Monitor.go addr : Link ε Unit)
  | during {α : Type} {x : Link ε α} (stage : Stage) (part : Composed o P x) :
      Composed o P (Link.during stage x)
  | bind {α β : Type} {x : Link ε α} {f : α → Link ε β} (first : Composed o P x)
      (second : ∀ {t a}, Held x t (.ok a) → Composed o P (f a)) : Composed o P (x >>= f)

namespace Composed

variable {P Q : Request → Prop}

theorem mono (h : Composed o P x) (hpq : ∀ q, P q → Q q) : Composed o Q x := by
  induction h with
  | pure a => exact .pure a
  | fail finding => exact .fail finding
  | log silent allowed => exact .log silent (hpq _ allowed)
  | delay allowed => exact .delay (hpq _ allowed)
  | progress allowed => exact .progress (hpq _ allowed)
  | image allowed => exact .image fun k pos room wanted => hpq _ (allowed k pos room wanted)
  | handshake => exact .handshake
  | readWord allowed => exact .readWord fun value => hpq _ (allowed value)
  | writeWord allowed => exact .writeWord (hpq _ allowed)
  | writeBlock fits allowed => exact .writeBlock fits (hpq _ allowed)
  | go allowed => exact .go (hpq _ allowed)
  | during stage _ ih => exact .during stage ih
  | bind _ _ ih₁ ih₂ => exact .bind ih₁ ih₂

/-- One operation after another, whatever the first one gives. -/
theorem next (hx : Composed o P x) (hf : ∀ a, Composed o P (f a)) : Composed o P (x >>= f) :=
  .bind hx fun {_ a} _ => hf a

/-- A computation that has a result. -/
theorem exact_bind {c : Checked α} {a : α} (hc : c = .ok a) (h : Composed o P (f a)) :
    Composed o P (exact c >>= f) := by
  rw [hc, exact_ok, pure_bind]
  exact h

/-- **A failure** of a composed operation is an error, and not that a page is out of range. -/
theorem ordinary (h : Composed o P x) {t : Transcript ε} {e : Failure ε}
    (ht : Held x t (.error e)) : e.IsOrdinary := by
  induction h generalizing t e with
  | pure a => exact absurd (held_pure_iff.mp ht).2 (by simp)
  | fail finding =>
    obtain rfl := Except.error.inj (held_fail_iff.mp ht).2
    exact Failure.isOrdinary_of_isFinding finding
  | log _ _ => exact absurd (held_request_iff.mp ht) (by simp)
  | delay _ => exact absurd (held_request_iff.mp ht) (by simp)
  | progress _ => exact absurd (held_request_iff.mp ht) (by simp)
  | image _ =>
    obtain ⟨kind, rfl⟩ := ((Image.took_read ht).failure e rfl).1
    exact trivial
  | handshake => exact ((follows_handshake o).breaks ht).2.2.isOrdinary
  | readWord _ => exact ((Monitor.follows_readWord o _).breaks ht).2.2.isOrdinary
  | writeWord _ => exact ((Monitor.follows_writeWord _ _).breaks ht).2.2.isOrdinary
  | writeBlock fits _ => exact ((Monitor.follows_writeBlock _ fits).breaks ht).2.2.isOrdinary
  | go _ => exact ((Monitor.follows_go _).breaks ht).2.2.isOrdinary
  | during stage _ ih =>
    obtain ⟨r, hr, he⟩ := held_during_iff.mp ht
    cases r with
    | ok a => exact absurd he (by simp)
    | error g =>
      obtain rfl := Except.error.inj he
      exact (Failure.isOrdinary_during stage g).mpr (ih hr)
  | bind _ _ ih₁ ih₂ =>
    rcases held_bind_iff.mp ht with ⟨g, h₁, he⟩ | ⟨a, t₁, t₂, h₁, h₂, rfl⟩
    · obtain rfl := Except.error.inj he
      exact ih₁ h₁
    · exact ih₂ h₁ h₂

/-- **The exchanges** of a composed operation are transfers, and what `P` allows. -/
theorem consists (h : Composed o P x) : x.Consists o P := by
  have header (c : Command) : (send c.header >>= fun _ => flush : Link ε Unit).Consists o P :=
    (consists_send _).bind fun _ => consists_flush
  induction h with
  | pure a => exact consists_pure a
  | fail _ => exact consists_fail _
  | log _ allowed => exact consists_request allowed
  | delay allowed => exact consists_request allowed
  | progress allowed => exact consists_request allowed
  | image allowed =>
    constructor
    intro t r ht
    replace ht := Image.reading_of_held ht
    induction ht with
    | full _ => exact .nil
    | failed room wanted =>
      exact .asked (allowed _ (by omega) (by omega) (by omega)) .nil
    | ended room wanted =>
      exact .asked (allowed _ (by omega) (by omega) (by omega)) .nil
    | piece room wanted _ _ _ _ _ ih =>
      exact .asked (allowed _ (by omega) (by omega) (by omega))
        (ih fun k pos hs hl => allowed k pos (by omega) (by omega))
  | handshake => exact consists_handshake
  | readWord allowed =>
    exact (consists_send _).bind fun _ => (consists_receiveExactly (by decide)).bind fun _ =>
      (consists_request (allowed _)).bind fun _ => consists_pure _
  | writeWord allowed => exact (consists_request allowed).bind fun _ => header _
  | writeBlock _ allowed =>
    exact (consists_request allowed).bind fun _ => (consists_send _).bind fun _ =>
      consists_flush.bind fun _ => (consists_send _).bind fun _ => consists_flush
  | go allowed => exact (consists_request allowed).bind fun _ => header _
  | during stage _ ih =>
    constructor
    intro t r ht
    obtain ⟨r', hr, -⟩ := held_during_iff.mp ht
    exact ih.exchanges hr
  | bind _ _ ih₁ ih₂ => exact ih₁.bind_held ih₂

/-- **The requests** of a composed operation are allowed by `P`, or move bytes over the link. -/
theorem asks (h : Composed o P x) {t : Transcript ε} {r : Except (Failure ε) α}
    (ht : Held x t r) : ∀ x ∈ t, P x.request ∨ x.request.IsTransfer o :=
  (h.consists.exchanges ht).requests

/-- A request that is neither is not made. -/
theorem unasked (h : Composed o P x) {q : Request} (hP : ¬ P q) (hq : ¬ q.IsTransfer o)
    {t : Transcript ε} {r : Except (Failure ε) α} (ht : Held x t r) : ∀ y ∈ t, y.request ≠ q := by
  rintro y hy rfl
  exact (h.asks ht y hy).elim hP hq

end Composed

end Link

end SamFlash
