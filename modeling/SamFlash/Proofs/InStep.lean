import SamFlash.Proofs.Accuracy
import SamFlash.Proofs.Line
import SamFlash.Proofs.PlannedCalls

/-!
# Host and monitor in step

Host and monitor are in step when the line between them is idle: the monitor is between two commands
and has nothing to say that the host has not heard. An operation of the link keeps them in step if,
from an idle line, every word that it reads is the word that the monitor sent for it, and the line
is idle again behind it, unless the link itself failed. Other failures, of the image or of the flash
controller, must not come in the middle of a command or of a reply: `FlashController.scanPlanes`
refuses a status only when it has read all of it, and `Page.next` asks for the image only when the
page before is out.

A read is in step however late its reply is, since a reply that is not there in time is a failure of
the link (`Error.IsLink`, at whatever stage). The change to binary mode is different:
`Link.handshake` goes on without its acknowledgement, so the acknowledgement must not be late. A
monitor that leaves it out is in step as well, as its reply is empty then.

Of the parts of a session only these two receive anything; writes, blocks and branches are answered
by nothing, and the rest does not touch the line (`Transcript.Still`). So the statement about all
operations is an induction on how an operation is composed.

Results:
* `Link.InStep.bind`: operations in a row are in step if each of them is.
* `Monitor.inStep_readWord`, `Monitor.inStep_writeWord`, `Monitor.inStep_writeBlock`,
  `Monitor.inStep_go`: the operations of the monitor are in step.
* `Link.inStep_handshake`: so is the change to binary mode, if its acknowledgement is not late.
* `Link.Composed.inStep`: so is every operation that a session is made of.
-/

namespace SamFlash

variable {ε α β : Type}

/-! ## Failures of the link -/

/-- A failure of the port or a reply that did not come in time, at whatever stage. -/
def Error.IsLink : Error ε → Prop
  | serial _ => True
  | responseTimeout .. => True
  | transfer .. => True
  | transferTimeout .. => True
  | _ => False

namespace Failure

/-- A failure of the port or a reply that did not come in time, at whatever stage. -/
def IsLink : Failure ε → Prop
  | error e => e.IsLink
  | fault _ => False

theorem IsBareLink.isLink {f : Failure ε} (h : f.IsBareLink) : f.IsLink := by
  cases f with
  | fault _ => exact absurd h id
  | error e => cases e <;> first | exact trivial | exact absurd h id

theorem isLink_during (stage : Stage) (f : Failure ε) : (f.during stage).IsLink ↔ f.IsLink := by
  cases f with
  | fault _ => rfl
  | error e => cases e <;> rfl

end Failure

/-- The link did not fail. -/
def Link.Unbroken (r : Except (Failure ε) α) : Prop := ∀ f, r = .error f → ¬ f.IsLink

theorem Link.unbroken_ok (a : α) : Unbroken (.ok a : Except (Failure ε) α) :=
  fun _ h => absurd h (by simp)

/-! ## Operations in step -/

/-- Every word that is read is the word that the monitor sent for it. -/
def Transcript.Faithful (m : Manner) (t : Transcript ε) : Prop :=
  ∀ addr value, .read addr value ∈ t.operations → m.holds addr value

namespace Transcript

variable {m : Manner} {s t : Transcript ε}

theorem faithful_of_none (h : t.operations = []) : t.Faithful m := by
  intro addr value hr
  rw [h] at hr
  exact absurd hr List.not_mem_nil

theorem Faithful.append (hs : s.Faithful m) (ht : t.Faithful m) : (s ++ t).Faithful m := by
  intro addr value hr
  rw [operations_append] at hr
  rcases List.mem_append.mp hr with hr | hr
  · exact hs addr value hr
  · exact ht addr value hr

/-- Nothing is sent or received, and no word is read. -/
structure Still (t : Transcript ε) : Prop where
  accepted : t.accepted = []
  received : t.received = []
  reads : ∀ addr value, .read addr value ∉ t.operations

theorem still_nil : Still ([] : Transcript ε) := ⟨rfl, rfl, fun _ _ h => absurd h List.not_mem_nil⟩

end Transcript

/-- Exchanges of which nothing goes through leave the line idle. -/
theorem Line.Idle.still {m : Manner} {o : Options} {l l' : Line} {t : Transcript ε} (hl : l.Idle)
    (ht : t.Still) (hs : l.Serves m o t l') : l'.Idle := by
  obtain ⟨hreader, got, hq, hgot⟩ := Line.queue_of_unsent hs ht.accepted
  obtain rfl : got = [] := List.map_eq_nil_iff.mp (hgot.trans ht.received)
  exact ⟨hreader.trans hl.reader, by rw [← hl.queue, hq, List.nil_append]⟩

namespace Link

/-- The operation keeps host and monitor in step. -/
structure InStep (m : Manner) (o : Options) (x : Link ε α) : Prop where
  keeps : ∀ {t r} {l l' : Line}, Held x t r → l.Serves m o t l' → l.Idle →
    t.Faithful m ∧ (Unbroken r → l'.Idle)

variable {m : Manner} {o : Options} {x : Link ε α} {f : α → Link ε β}

/-- Operations in a row, where the second one may rely on what the first one gives. -/
theorem InStep.bind_held (hx : x.InStep m o)
    (hf : ∀ {t a}, Held x t (.ok a) → (f a).InStep m o) : (x >>= f).InStep m o where
  keeps := by
    intro t r l l' h hs hl
    rcases held_bind_iff.mp h with ⟨e, h₁, rfl⟩ | ⟨a, t₁, t₂, h₁, h₂, rfl⟩
    · obtain ⟨faithful, idle⟩ := hx.keeps h₁ hs hl
      exact ⟨faithful, fun hu => idle fun f hf => hu f (by rw [Except.error.inj hf])⟩
    · obtain ⟨mid, hs₁, hs₂⟩ := Line.serves_append_iff.mp hs
      obtain ⟨faithful, idle⟩ := hx.keeps h₁ hs₁ hl
      obtain ⟨faithful', idle'⟩ := (hf h₁).keeps h₂ hs₂ (idle (unbroken_ok a))
      exact ⟨faithful.append faithful', idle'⟩

/-- **Operations in a row.** -/
theorem InStep.bind (hx : x.InStep m o) (hf : ∀ a, (f a).InStep m o) : (x >>= f).InStep m o :=
  hx.bind_held fun {_ a} _ => hf a

theorem InStep.during (hx : x.InStep m o) (stage : Stage) : (Link.during stage x).InStep m o where
  keeps := by
    intro t r l l' h hs hl
    obtain ⟨r', h', rfl⟩ := held_during_iff.mp h
    obtain ⟨faithful, idle⟩ := hx.keeps h' hs hl
    refine ⟨faithful, fun hu => idle ?_⟩
    rintro f rfl hf
    exact hu (f.during stage) rfl ((f.isLink_during stage).mpr hf)

/-- An operation of which nothing goes through. -/
theorem inStep_of_still (h : ∀ {t r}, Held x t r → t.Still) : x.InStep m o where
  keeps := by
    intro t r l l' hx hs hl
    have still := h hx
    exact ⟨fun addr value hr => absurd hr (still.reads addr value), fun _ => hl.still still hs⟩

theorem inStep_pure (a : α) : (pure a : Link ε α).InStep m o :=
  inStep_of_still fun h => by
    obtain ⟨rfl, -⟩ := held_pure_iff.mp h
    exact Transcript.still_nil

theorem inStep_fail (e : Error ε) : (fail e : Link ε α).InStep m o :=
  inStep_of_still fun h => by
    obtain ⟨rfl, -⟩ := held_fail_iff.mp h
    exact Transcript.still_nil

theorem inStep_request {q : Request} (hq : ∀ a : q.Answer ε, Transcript.Still [⟨q, a⟩]) :
    (request q : Link ε _).InStep m o :=
  inStep_of_still fun h => by
    obtain ⟨a, rfl, -⟩ := held_request_iff.mp h
    exact hq a

/-- A diagnostic that is not about a word that was read. -/
theorem inStep_note {d : Diagnostic}
    (hd : ∀ addr value, Exchange.operation? (ε := ε) ⟨.log d, ()⟩ ≠ some (.read addr value)) :
    (log d : Link ε Unit).InStep m o :=
  inStep_request fun _ => ⟨rfl, rfl, fun addr value h => by
    obtain ⟨x, hx, he⟩ := List.mem_filterMap.mp h
    rw [List.mem_singleton.mp hx] at he
    exact hd addr value he⟩

/-- A diagnostic about no operation. -/
theorem inStep_log {d : Diagnostic} (hd : Exchange.operation? (ε := ε) ⟨.log d, ()⟩ = none) :
    (log d : Link ε Unit).InStep m o :=
  inStep_note fun _ _ => by simp [hd]

theorem inStep_delay (ms : Word) : (delay ms : Link ε Unit).InStep m o :=
  inStep_request fun _ => ⟨rfl, rfl, fun _ _ h => absurd h List.not_mem_nil⟩

/-! ## Sending -/

/-- Nothing is received. -/
structure Mute (x : Link ε α) : Prop where
  received : ∀ {t r}, Held x t r → t.received = []

theorem Mute.bind (hx : x.Mute) (hf : ∀ a, (f a).Mute) : (x >>= f).Mute where
  received := by
    intro t r h
    rcases held_bind_iff.mp h with ⟨e, h₁, -⟩ | ⟨a, t₁, t₂, h₁, h₂, rfl⟩
    · exact hx.received h₁
    · rw [Transcript.received_append, hx.received h₁, (hf a).received h₂]
      rfl

theorem mute_flush : (flush : Link ε Unit).Mute where
  received h := by
    obtain ⟨a, rfl, -⟩ := held_request_settled h
    rfl

theorem mute_send (bs : List UInt8) : (send bs : Link ε Unit).Mute := by
  induction bs with
  | nil =>
    constructor
    intro t r h
    obtain ⟨rfl, -⟩ := held_pure_iff.mp h
    rfl
  | cons b bs ih =>
    have byte : (request (.write b) >>= fun a => settled a.settle : Link ε Unit).Mute := by
      constructor
      intro t r h
      obtain ⟨a, rfl, -⟩ := held_request_settled h
      rfl
    rw [send_cons]
    exact byte.bind fun _ => ih

/-- Sending a command that is not answered. -/
theorem Sends.inStep {x : Link ε Unit} {c : Command} (h : x.Sends c.wire) (hx : x.Mute)
    (hc : c.payload.length < UInt32.size) (hn : ∀ reply, c.Reply reply → reply = []) :
    x.InStep m o where
  keeps := by
    intro t r l l' ht hs hl
    cases r with
    | error f =>
      obtain ⟨plain, bare, -⟩ := h.breaks ht
      exact ⟨Transcript.faithful_of_none plain.operations_eq,
        fun hu => absurd bare.isLink (hu f rfl)⟩
    | ok a =>
      obtain ⟨plain, ha⟩ := h.completes ht
      obtain ⟨hreader, reply, hq, hreply⟩ := Line.queue_of_wire hl hs ha (hx.received ht) hc
      rw [hn reply hreply.1] at hq
      exact ⟨Transcript.faithful_of_none plain.operations_eq, fun _ => ⟨hreader, hq⟩⟩

/-! ## Receiving -/

/-- A reply that was received whole is the reply. -/
theorem eq_of_receiveExactly {cmd : Command} {reply bytes : List UInt8} {l l' : Line}
    {t : Transcript ε} (hq : l.queue = Manner.labelled cmd reply)
    (h : Held (receiveExactly o reply.length) t (.ok bytes)) (hs : l.Serves m o t l') :
    bytes = reply ∧ l'.reader = l.reader ∧ l'.queue = [] := by
  obtain ⟨⟨-, sent⟩, -⟩ := held_receiveExactly h
  obtain ⟨c, hc, hw⟩ := held_receiveExactly_iff.mp h
  obtain ⟨hbytes, hlen⟩ := (receiving_of_held hc).received
  have herr : c.error = none ∧ c.bytes = bytes := by
    unfold whole at hw
    split at hw
    · rename_i he
      exact ⟨he, (Except.ok.inj hw).symm⟩
    · exact absurd hw (by simp)
  obtain ⟨hreader, got, hgot, hreceived⟩ := Line.queue_of_unsent hs sent
  have all : (got ++ l'.queue).length = got.length := by
    rw [← hgot, hq, Manner.labelled, List.length_map, ← hlen herr.1, ← hreceived, List.length_map]
  have empty : l'.queue = [] := by
    rw [List.length_append] at all
    exact List.length_eq_zero_iff.mp (by omega)
  refine ⟨?_, hreader, empty⟩
  rw [← herr.2, hbytes, ← hreceived, List.reverse_nil, List.nil_append,
    ← List.append_nil got, ← empty, ← hgot, hq, Manner.snd_labelled]

end Link

namespace Monitor

open Link

variable {m : Manner} {o : Options}

/-- **A word that was read** is the word that the monitor sent for it. -/
theorem inStep_readWord (addr : Word) : (readWord o addr : Link ε Word).InStep m o where
  keeps := by
    intro t r l l' h hs hl
    cases r with
    | error f =>
      have bare := (follows_readWord o addr).breaks h
      rcases held_readWord h with ⟨_, -, none⟩ | ⟨_, hr, -⟩
      · exact ⟨Transcript.faithful_of_none none, fun hu => absurd bare.2.2.isLink (hu f rfl)⟩
      · exact absurd hr (by simp)
    | ok value =>
      have noted := held_readWord_ok h
      obtain ⟨_, t₁, t₂, h₁, h₂, rfl⟩ := held_bind_ok h
      obtain ⟨bytes, u₁, u₂, h₃, h₄, rfl⟩ := held_bind_ok h₂
      obtain ⟨_, v, h₅, rfl⟩ := held_request_bind h₄
      obtain ⟨rfl, hv⟩ := held_pure_iff.mp h₅
      obtain ⟨mid, hs₁, hs₂⟩ := Line.serves_append_iff.mp hs
      obtain ⟨mid', hs₃, hs₄⟩ := Line.serves_append_iff.mp hs₂
      have sent := ((sends_send _).completes h₁).2
      rw [← Command.wire_eq_header (c := .readWord addr) rfl] at sent
      obtain ⟨hreader, reply, hq, hreply, holds⟩ :=
        Line.queue_of_wire hl hs₁ sent ((mute_send _).received h₁) (Nat.two_pow_pos 32)
      have hlen : reply.length = 4 := hreply
      obtain ⟨rfl, hreader', hq'⟩ := eq_of_receiveExactly hq (hlen.symm ▸ h₃) hs₃
      obtain rfl : l' = mid' := Line.serves_singleton.mp hs₄
      refine ⟨fun addr' value' hr => ?_, fun _ => ⟨hreader'.trans hreader, hq'⟩⟩
      rw [noted, List.mem_singleton] at hr
      obtain ⟨rfl, rfl⟩ := Operation.read.inj hr
      rw [Except.ok.inj hv]
      exact holds _ rfl

/-- A command that is announced and sent. -/
theorem inStep_noted {d : Diagnostic} {c : Command} {x : Link ε Unit} (h : x.Sends c.wire)
    (hx : x.Mute) (hc : c.payload.length < UInt32.size) (hn : ∀ reply, c.Reply reply → reply = [])
    (hd : ∀ addr value, Exchange.operation? (ε := ε) ⟨.log d, ()⟩ ≠ some (.read addr value)) :
    (log d >>= fun _ => x).InStep m o :=
  (inStep_note hd).bind fun _ => h.inStep hx hc hn

theorem mute_header (c : Command) : (send c.header >>= fun _ => flush : Link ε Unit).Mute :=
  (mute_send _).bind fun _ => mute_flush

theorem inStep_writeWord (addr value : Word) :
    (writeWord addr value : Link ε Unit).InStep m o :=
  inStep_noted (sends_wire (c := .writeWord addr value) rfl) (mute_header _)
    (Nat.two_pow_pos 32) (fun _ h => h) fun _ _ => by simp [Exchange.operation?]

theorem inStep_go (addr : Word) : (go addr : Link ε Unit).InStep m o :=
  inStep_noted (sends_wire (c := .go addr) rfl) (mute_header _) (Nat.two_pow_pos 32)
    (fun _ h => h) fun _ _ => by simp [Exchange.operation?]

theorem inStep_writeBlock (addr : Word) {data : List UInt8} (h : data.length < UInt32.size) :
    (writeBlock addr data : Link ε Unit).InStep m o := by
  have mute : (send (Command.writeBlock addr data).header >>= fun _ => flush >>= fun _ =>
      send data >>= fun _ => flush : Link ε Unit).Mute :=
    (mute_send _).bind fun _ => mute_flush.bind fun _ => (mute_send _).bind fun _ => mute_flush
  exact inStep_noted (sends_block addr data) mute h (fun _ h => h)
    fun _ _ => by simp [Exchange.operation?]

end Monitor

/-! ## Identification -/

namespace Link

variable {m : Manner} {o : Options}

/-- An acknowledgement that is not late has been received when the host stops waiting for it. -/
theorem queue_of_acknowledged {reply : List UInt8} {l l' : Line} {t : Transcript ε}
    {ack : Reception ε} (hm : ¬ m.late .binaryMode)
    (hq : l.queue = Manner.labelled .binaryMode reply)
    (hlen : reply.length ≤ Command.acknowledgementLength)
    (h : Dialogue.Held (receive o Command.acknowledgementLength) t ack)
    (hs : l.Serves m o t l')
    (hack : ack.error = none ∨ ∃ expected received,
      ack.error = some (.responseTimeout expected received)) :
    l'.reader = l.reader ∧ l'.queue = [] := by
  obtain ⟨⟨-, sent⟩, -⟩ := (receiving_of_held h).quiet
  obtain ⟨hreader, got, hgot, hreceived⟩ := Line.queue_of_unsent hs sent
  refine ⟨hreader, ?_⟩
  rcases hack with herr | ⟨expected, received, herr⟩
  · have hall := (receiving_of_held h).received.2 herr
    have hcount := congrArg List.length hgot
    rw [← hreceived, List.length_map] at hall
    rw [hq, Manner.labelled, List.length_map, List.length_append] at hcount
    exact List.length_eq_zero_iff.mp (by omega)
  · cases hrest : l'.queue with
    | nil => rfl
    | cons e rest =>
      have late := (receiving_of_held h).late hs (Nat.zero_le _) herr e (by rw [hrest]; rfl)
      have mem : e ∈ Manner.labelled .binaryMode reply := by
        rw [← hq, hgot, hrest]
        simp
      rw [Manner.fst_of_mem_labelled mem] at late
      exact absurd late hm

/-- **The change to binary mode** is in step if its acknowledgement is not late; it may be
missing. -/
theorem inStep_handshake (hm : ¬ m.late .binaryMode) :
    (handshake o : Link ε Unit).InStep m o := by
  have asks : (send Command.binaryMode.header >>= fun _ => flush : Link ε Unit).Sends
      Command.binaryMode.wire := Monitor.sends_wire (c := .binaryMode) rfl
  rw [handshake_eq]
  refine (inStep_log rfl).bind fun _ => ⟨?_⟩
  intro t r l l' h hs hl
  rcases held_bind_iff.mp h with ⟨f, h₁, rfl⟩ | ⟨_, t₁, t₂, h₁, h₂, rfl⟩
  · obtain ⟨plain, bare, -⟩ := asks.breaks h₁
    exact ⟨Transcript.faithful_of_none plain.operations_eq,
      fun hu => absurd bare.isLink (hu f rfl)⟩
  obtain ⟨mid, hs₁, hs₂⟩ := Line.serves_append_iff.mp hs
  obtain ⟨plain, sent⟩ := asks.completes h₁
  obtain ⟨hreader, reply, hq, hreply, -⟩ :=
    Line.queue_of_wire hl hs₁ sent ((Monitor.mute_header _).received h₁) (Nat.two_pow_pos 32)
  obtain ⟨ack, u₁, u₂, hack, h₄, rfl⟩ := held_lift_bind h₂
  obtain ⟨mid', hs₃, hs₄⟩ := Line.serves_append_iff.mp hs₂
  obtain ⟨quiet, bare⟩ := (receiving_of_held hack).quiet
  have idle (he : ack.error = none ∨ ∃ expected received,
      ack.error = some (.responseTimeout expected received)) : mid'.Idle := by
    obtain ⟨hreader', empty⟩ := queue_of_acknowledged hm hq hreply hack hs₃ he
    exact ⟨hreader'.trans hreader, empty⟩
  suffices hrest : u₂.Faithful m ∧ (Unbroken r → l'.Idle) from
    ⟨(Transcript.faithful_of_none plain.operations_eq).append
      ((Transcript.faithful_of_none quiet.1.operations_eq).append hrest.1), hrest.2⟩
  unfold acknowledged at h₄
  cases herr : ack.error with
  | none =>
    rw [herr] at h₄
    exact (inStep_pure ()).keeps h₄ hs₄ (idle (Or.inl herr))
  | some e =>
    rw [herr] at h₄
    have hbare := bare e herr
    cases e with
    | responseTimeout expected received =>
      exact (inStep_log rfl).keeps h₄ hs₄
        (idle (Or.inr ⟨_, _, herr⟩))
    | serial e =>
      obtain ⟨rfl, rfl⟩ := held_fail_iff.mp h₄
      exact ⟨Transcript.faithful_of_none rfl, fun hu => absurd trivial (hu _ rfl)⟩
    | _ => exact absurd hbare id

end Link

/-! ## All operations -/

/-- Reading the image does not touch the line. -/
theorem Image.still_read {space limit : Nat} {t : Transcript ε}
    {r : Except (Failure ε) (List UInt8)} (h : Link.Held (read space limit) t r) : t.Still := by
  obtain ⟨noted, sent, -, -⟩ := took_read h
  refine ⟨sent, ?_, fun addr value hr => by rw [noted] at hr; exact absurd hr List.not_mem_nil⟩
  clear noted sent
  replace h := reading_of_held h
  induction h with
  | piece _ _ _ _ _ _ _ ih => exact ih
  | _ => rfl

/-- **A composed operation** is in step, if the acknowledgement of binary mode is not late. -/
theorem Link.Composed.inStep {m : Manner} {o : Options} {P : Request → Prop} {x : Link ε α}
    (h : x.Composed o P) (hm : ¬ m.late .binaryMode) : x.InStep m o := by
  induction h with
  | pure a => exact inStep_pure a
  | fail _ => exact inStep_fail _
  | log silent _ => exact inStep_log silent
  | delay _ => exact inStep_delay _
  | progress _ => exact inStep_request fun _ => ⟨rfl, rfl, fun _ _ h => absurd h List.not_mem_nil⟩
  | image _ => exact inStep_of_still Image.still_read
  | handshake => exact inStep_handshake hm
  | readWord _ => exact Monitor.inStep_readWord _
  | writeWord _ => exact Monitor.inStep_writeWord _ _
  | writeBlock fits _ => exact Monitor.inStep_writeBlock _ fits
  | go _ => exact Monitor.inStep_go _
  | during stage _ ih => exact ih.during stage
  | bind _ _ ih₁ ih₂ => exact ih₁.bind_held ih₂

/-- **Identification** is in step if the acknowledgement of binary mode is not late. -/
theorem Programmer.inStep_findChip {m : Manner} {o : Options} (hm : ¬ m.late .binaryMode) :
    (findChip o : Link ε Chip).InStep m o :=
  composed_findChip.inStep hm

end SamFlash
