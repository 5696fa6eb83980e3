import SamFlash.Proofs.Layout
import SamFlash.Proofs.Sends

/-!
# Following a script

A script is a list of commands that change the target. An operation of the link follows a script
(`Link.Follows`) if it gives the port exactly these commands when it succeeds, and a first part of
them when it fails; reads of words are not part of a script. Scripts of operations in a row are the
scripts in a row, so the script of a whole call is put together like the call itself.

Both ways to end count from a command boundary. An operation that succeeds stops at one
(`Transcript.Completes`), and one that fails may leave the first bytes of a command with the port
(`Transcript.Breaks`): what the port has taken then reads as the commands before that one. With the
script goes what is known of the value and of the failure, and an operation that follows a script
takes nothing of the image.

For `Monitor.writeWord`, `Monitor.writeBlock` and `Monitor.go` the script is their one command. They
put its text on the port, flush, and for a block put its bytes and flush again; the command is
complete with its last byte, so an operation that fails behind that byte failed in the flush. That
is the case in which a command is carried out although its operation failed, and it has to be told
from the others wherever something is counted (`Monitor.commits_writeWord`).

Results:
* `Link.Follows.bind`: an operation that follows a script and goes on with one that follows another
  follows the two together.
* `Monitor.follows_readWord`, `Monitor.follows_writeWord`, `Monitor.follows_writeBlock`,
  `Monitor.follows_go`: the monitor's operations follow their one command.
* `Monitor.commits_writeWord`: a word that was stored although its operation failed was stored
  before the flush that failed.
-/

namespace SamFlash

variable {ε α β : Type}

/-! ## Exchanges around a command -/

namespace Transcript

variable {t : Transcript ε} {c : Command}

theorem Quiet.completes (h : t.Quiet) : t.Completes [] := completes_nil h.1.operations_eq h.2

theorem taken_append_nil {s t : Transcript ε} (hs : s.taken = []) (ht : t.taken = []) :
    (s ++ t).taken = [] := by
  rw [taken_append, hs, ht, List.append_nil]

theorem Quiet.taken_eq (h : t.Quiet) : t.taken = [] := h.1.taken_eq

/-- The exchanges that send a command which only asks for something. -/
theorem Plain.completes_asking (h : t.Plain) (hc : c.payload.length < UInt32.size)
    (ho : c.operation? = none) (hs : c.changes = false) (ha : t.accepted = c.wire) :
    t.Completes [] where
  boundary := by rw [ha, Reader.feedAll_wire c hc]
  effects := by
    simp only [effects, commands, ha, Reader.feedAll_wire c hc, List.filter_cons, hs]
    rfl
  course := by
    rw [h.course_eq, h.operations_eq, ha, Reader.feedAll_wire c hc]
    simp only [List.filterMap_cons, ho, List.filterMap_nil]

theorem Plain.breaks_asking (h : t.Plain) (hc : c.payload.length < UInt32.size)
    (ho : c.operation? = none) (hs : c.changes = false) (ha : t.accepted <+: c.wire) :
    t.Breaks [] := by
  have hp := Reader.commands_of_prefix hc ha
  refine ⟨?_, ?_⟩
  · have := hp.filter Command.changes
    simpa only [effects, commands, List.filter_cons, hs, List.filter_nil, Bool.false_eq_true,
      if_false] using this
  · rw [h.course_eq, h.operations_eq]
    have := hp.filterMap Command.operation?
    simpa only [List.filterMap_cons, ho, List.filterMap_nil] using this

/-- The exchange announces the command: its operation is noted, and nothing else happens. -/
structure Announces (x : Exchange ε) (c : Command) : Prop where
  operation_eq : x.operation? = c.operation?
  changes_eq : c.changes = true
  value_eq : x.value? = none
  accepted_eq : x.accepted? = none
  taken_eq : x.taken = []

variable {x : Exchange ε}

theorem Announces.taken_cons (h : Announces x c) (ht : t.Plain) : taken (x :: t) = [] := by
  have : taken (x :: t) = x.taken ++ taken t := List.flatMap_cons
  rw [this, h.taken_eq, ht.taken_eq]
  rfl

theorem Announces.course_cons (h : Announces x c) (ht : t.Plain) :
    course Reader.start (x :: t) =
      (Reader.start.feedAll t.accepted).2.filterMap Command.operation? := by
  rw [course, h.accepted_eq, h.value_eq, ht.course_eq]
  rfl

theorem Announces.operations_cons (h : Announces x c) (ht : t.Plain) :
    operations (x :: t) = c.operation?.toList := by
  have : operations (x :: t) = x.operation?.toList ++ operations t := by
    simp only [operations, List.filterMap_cons]
    cases x.operation? <;> rfl
  rw [this, ht.operations_eq, h.operation_eq, List.append_nil]

theorem Announces.accepted_cons (h : Announces x c) : accepted (x :: t) = accepted t := by
  rw [Transcript.accepted_cons, h.accepted_eq]
  rfl

/-- The exchanges that announce a command and send it. -/
theorem Announces.completes (h : Announces x c) (hc : c.payload.length < UInt32.size)
    (ht : t.Plain) (ha : t.accepted = c.wire) : Completes (x :: t) [c] where
  boundary := by rw [h.accepted_cons, ha, Reader.feedAll_wire c hc]
  effects := by
    simp only [effects, commands, h.accepted_cons, ha, Reader.feedAll_wire c hc,
      List.filter_cons, h.changes_eq, List.filter_nil, if_true]
  course := by
    rw [h.course_cons ht, h.operations_cons ht, ha, Reader.feedAll_wire c hc]
    cases ho : c.operation? <;> simp [ho]

theorem Announces.breaks (h : Announces x c) (hc : c.payload.length < UInt32.size)
    (ht : t.Plain) (ha : t.accepted <+: c.wire) : Breaks (x :: t) [c] := by
  have hp := Reader.commands_of_prefix hc ha
  refine ⟨?_, ?_⟩
  · have := hp.filter Command.changes
    simpa only [effects, commands, h.accepted_cons, List.filter_cons, h.changes_eq, List.filter_nil,
      if_true] using this
  · rw [h.course_cons ht, h.operations_cons ht]
    have := hp.filterMap Command.operation?
    cases ho : c.operation? <;> simpa [ho] using this

end Transcript

/-! ## Operations -/

namespace Link

/-- The operation follows the script; `value` holds of what it gives and `failure` of how it
fails. -/
structure Follows (x : Link ε α) (script : List Command) (value : α → Prop)
    (failure : Failure ε → Prop) : Prop where
  completes : ∀ {t a}, Held x t (.ok a) → t.Completes script ∧ t.taken = [] ∧ value a
  breaks : ∀ {t f}, Held x t (.error f) → t.Breaks script ∧ t.taken = [] ∧ failure f

variable {x : Link ε α} {f : α → Link ε β} {cs ds : List Command} {v : α → Prop} {w : β → Prop}
  {bad bad' : Failure ε → Prop}

theorem Follows.mono {v' : α → Prop} (h : x.Follows cs v bad) (hv : ∀ a, v a → v' a)
    (hf : ∀ f, bad f → bad' f) : x.Follows cs v' bad' where
  completes ht := ⟨(h.completes ht).1, (h.completes ht).2.1, hv _ (h.completes ht).2.2⟩
  breaks ht := ⟨(h.breaks ht).1, (h.breaks ht).2.1, hf _ (h.breaks ht).2.2⟩

/-- An operation that follows a script takes nothing of the image. -/
theorem Follows.untaken (h : x.Follows cs v bad) {t : Transcript ε} {r : Except (Failure ε) α}
    (ht : Held x t r) : t.taken = [] := by
  cases r with
  | ok a => exact (h.completes ht).2.1
  | error f => exact (h.breaks ht).2.1

/-- **Scripts in a row.** -/
theorem Follows.bind (hx : x.Follows cs v bad) (hf : ∀ a, v a → (f a).Follows ds w bad) :
    (x >>= f).Follows (cs ++ ds) w bad where
  completes := by
    intro t b h
    rcases held_bind_iff.mp h with ⟨e, -, hr⟩ | ⟨a, t₁, t₂, h₁, h₂, rfl⟩
    · exact absurd hr (by simp)
    · obtain ⟨c₁, k₁, ha⟩ := hx.completes h₁
      obtain ⟨c₂, k₂, hb⟩ := (hf a ha).completes h₂
      exact ⟨c₁.append c₂, Transcript.taken_append_nil k₁ k₂, hb⟩
  breaks := by
    intro t e h
    rcases held_bind_iff.mp h with ⟨g, h₁, hr⟩ | ⟨a, t₁, t₂, h₁, h₂, rfl⟩
    · obtain rfl := Except.error.inj hr
      obtain ⟨b, k, he⟩ := hx.breaks h₁
      exact ⟨b.mono (List.prefix_append cs ds), k, he⟩
    · obtain ⟨c₁, k₁, ha⟩ := hx.completes h₁
      obtain ⟨b, k₂, he⟩ := (hf a ha).breaks h₂
      exact ⟨c₁.breaks b, Transcript.taken_append_nil k₁ k₂, he⟩

theorem Follows.bind_cons {d : Command} (hx : x.Follows [d] v bad)
    (hf : ∀ a, v a → (f a).Follows ds w bad) : (x >>= f).Follows (d :: ds) w bad :=
  hx.bind hf

theorem Follows.during {s : Stage} (h : x.Follows cs v bad) :
    (Link.during s x).Follows cs v fun f => ∃ g, bad g ∧ f = g.during s where
  completes := by
    intro t a ht
    obtain ⟨r, hr, e⟩ := held_during_iff.mp ht
    cases r with
    | error g => exact absurd e (by simp)
    | ok b =>
      obtain rfl := Except.ok.inj e
      exact h.completes hr
  breaks := by
    intro t f ht
    obtain ⟨r, hr, e⟩ := held_during_iff.mp ht
    cases r with
    | ok b => exact absurd e (by simp)
    | error g =>
      obtain rfl := Except.error.inj e
      obtain ⟨b, k, hg⟩ := h.breaks hr
      exact ⟨b, k, g, hg, rfl⟩

theorem follows_pure {a : α} (h : v a) : (pure a : Link ε α).Follows [] v bad where
  completes := by
    intro t b ht
    obtain ⟨rfl, e⟩ := held_pure_iff.mp ht
    obtain rfl := Except.ok.inj e
    exact ⟨Transcript.quiet_nil.completes, rfl, h⟩
  breaks ht := absurd (held_pure_iff.mp ht).2 (by simp)

theorem follows_fail {e : Error ε} (h : bad (.error e)) :
    (fail e : Link ε α).Follows [] v bad where
  completes ht := absurd (held_fail_iff.mp ht).2 (by simp)
  breaks := by
    intro t f ht
    obtain ⟨rfl, hr⟩ := held_fail_iff.mp ht
    obtain rfl := Except.error.inj hr
    exact ⟨Transcript.quiet_nil.completes.toBreaks, rfl, h⟩

/-- A request that is no operation and touches neither the port nor the image. -/
theorem follows_request {q : Request} (hq : ∀ a : q.Answer ε, Transcript.Quiet [⟨q, a⟩]) :
    (request q : Link ε _).Follows [] (fun _ => True) bad where
  completes := by
    intro t a ht
    obtain ⟨a, rfl, -⟩ := held_request_iff.mp ht
    exact ⟨(hq a).completes, (hq a).taken_eq, trivial⟩
  breaks := by
    intro t f ht
    obtain ⟨a, -, hr⟩ := held_request_iff.mp ht
    exact absurd hr (by simp)

/-- A diagnostic about no operation. -/
theorem follows_log {d : Diagnostic} (hd : Exchange.operation? (ε := ε) ⟨.log d, ()⟩ = none) :
    (log d : Link ε Unit).Follows [] (fun _ => True) bad :=
  follows_request fun _ => Transcript.quiet_nil.cons hd rfl rfl

theorem follows_delay {ms : Word} : (delay ms : Link ε Unit).Follows [] (fun _ => True) bad :=
  follows_request fun _ => Transcript.quiet_nil.cons rfl rfl rfl

/-- Sending a command that only asks for something. -/
theorem Sends.follows_asking {x : Link ε Unit} {c : Command} (h : x.Sends c.wire)
    (hc : c.payload.length < UInt32.size) (ho : c.operation? = none) (hs : c.changes = false) :
    x.Follows [] (fun _ => True) Failure.IsBareLink where
  completes := by
    intro t a ht
    obtain ⟨p, ha⟩ := h.completes ht
    exact ⟨p.completes_asking hc ho hs ha, p.taken_eq, trivial⟩
  breaks := by
    intro t f ht
    obtain ⟨p, hf, ha, -⟩ := h.breaks ht
    exact ⟨p.breaks_asking hc ho hs ha, p.taken_eq, hf⟩

/-- Sending a command that has been noted. -/
theorem Sends.follows_noted {x : Link ε Unit} {c : Command} {d : Diagnostic} (h : x.Sends c.wire)
    (hc : c.payload.length < UInt32.size)
    (hd : Transcript.Announces (ε := ε) ⟨.log d, ()⟩ c) :
    (log d >>= fun _ => x).Follows [c] (fun _ => True) Failure.IsBareLink where
  completes := by
    intro t a ht
    obtain ⟨_, u, hu, rfl⟩ := held_request_bind ht
    obtain ⟨p, ha⟩ := h.completes hu
    exact ⟨hd.completes hc p ha, hd.taken_cons p, trivial⟩
  breaks := by
    intro t f ht
    obtain ⟨_, u, hu, rfl⟩ := held_request_bind ht
    obtain ⟨p, hf, ha, -⟩ := h.breaks hu
    exact ⟨hd.breaks hc p ha, hd.taken_cons p, hf⟩

theorem follows_receiveExactly (o : Options) (n : Nat) :
    (receiveExactly o n : Link ε _).Follows [] (fun _ => True) Failure.IsBareLink where
  completes := by
    intro t a ht
    obtain ⟨q, -⟩ := held_receiveExactly ht
    exact ⟨q.completes, q.taken_eq, trivial⟩
  breaks := by
    intro t f ht
    obtain ⟨q, hf⟩ := held_receiveExactly ht
    exact ⟨q.completes.toBreaks, q.taken_eq, hf f rfl⟩

/-- A failure near a stage becomes one at the stage. -/
theorem Follows.during_isAt {s : Stage} (h : x.Follows cs v (Failure.IsNear s)) :
    (Link.during s x).Follows cs v (Failure.IsAt s) := by
  refine h.during.mono (fun _ ha => ha) ?_
  rintro _ ⟨g, hg, rfl⟩
  exact hg.during

/-- A computation that is known to succeed. -/
theorem Follows.exact_bind {c : Checked α} {a : α} (hc : c = .ok a) (h : (f a).Follows cs w bad) :
    (exact c >>= f).Follows cs w bad := by
  rw [hc, exact_ok, pure_bind]
  exact h

/-- An exchange in front that is not part of any script. -/
theorem Follows.after (hx : x.Follows [] (fun _ => True) bad) (hf : ∀ a, (f a).Follows cs w bad) :
    (x >>= f).Follows cs w bad :=
  hx.bind fun a _ => hf a

end Link

/-! ## The monitor's operations -/

namespace Monitor

open Link

theorem follows_readWord (o : Options) (addr : Word) :
    (readWord o addr : Link ε Word).Follows [] (fun _ => True) Failure.IsBareLink := by
  have hs : (send (Command.readWord addr).header : Link ε Unit).Sends
      (Command.readWord addr).wire := by
    rw [Command.wire_eq_header rfl]
    exact sends_send _
  refine (hs.follows_asking (Nat.two_pow_pos 32) rfl rfl).after fun _ => ?_
  refine (follows_receiveExactly o 4).after fun bytes => ?_
  have read (value : Word) : (log (.wordRead addr value) : Link ε Unit).Follows []
      (fun _ => True) Failure.IsBareLink := by
    constructor
    · intro t a ht
      obtain ⟨_, rfl, -⟩ := held_request_iff.mp ht
      exact ⟨⟨rfl, rfl, rfl⟩, rfl, trivial⟩
    · intro t f ht
      obtain ⟨_, -, hr⟩ := held_request_iff.mp ht
      exact absurd hr (by simp)
  exact (read _).after fun _ => follows_pure trivial

theorem sends_header (c : Command) :
    (send c.header >>= fun _ => flush : Link ε Unit).Sends c.header := by
  have := (sends_send (ε := ε) c.header).bind sends_flush
  rwa [List.append_nil] at this

theorem sends_wire {c : Command} (h : c.payload = []) :
    (send c.header >>= fun _ => flush : Link ε Unit).Sends c.wire := by
  rw [Command.wire_eq_header h]
  exact sends_header c

theorem follows_writeWord (addr value : Word) :
    (writeWord addr value : Link ε Unit).Follows [.writeWord addr value] (fun _ => True)
      Failure.IsBareLink :=
  (sends_wire (c := .writeWord addr value) rfl).follows_noted (Nat.two_pow_pos 32)
    ⟨rfl, rfl, rfl, rfl, rfl⟩

theorem follows_go (addr : Word) :
    (go addr : Link ε Unit).Follows [.go addr] (fun _ => True) Failure.IsBareLink :=
  (sends_wire (c := .go addr) rfl).follows_noted (Nat.two_pow_pos 32)
    ⟨rfl, rfl, rfl, rfl, rfl⟩

/-- A block goes out in two pieces, each with a flush behind it. -/
theorem sends_block (addr : Word) (data : List UInt8) :
    (send (Command.writeBlock addr data).header >>= fun _ => flush >>= fun _ =>
      send data >>= fun _ => flush : Link ε Unit).Sends (Command.writeBlock addr data).wire := by
  have hs := (sends_header (ε := ε) (.writeBlock addr data)).bind
    ((sends_send data).bind sends_flush)
  rw [List.append_nil] at hs
  simp only [bind_assoc] at hs
  exact hs

theorem follows_writeBlock (addr : Word) {data : List UInt8} (h : data.length < UInt32.size) :
    (writeBlock addr data : Link ε Unit).Follows [.writeBlock addr data] (fun _ => True)
      Failure.IsBareLink :=
  (sends_block addr data).follows_noted h ⟨rfl, rfl, rfl, rfl, rfl⟩

/-- A word that was stored by an operation that failed: the flush behind it failed. -/
theorem commits_writeWord {addr value : Word} {t : Transcript ε} {f : Failure ε}
    (h : Held (writeWord addr value) t (.error f)) (he : t.effects ≠ []) : t.EndsInFlush := by
  obtain ⟨_, t₂, h₂, rfl⟩ := held_request_bind h
  obtain ⟨-, -, ha, last⟩ := (sends_header (.writeWord addr value)).breaks h₂
  refine (last ?_).append_left _
  -- a command without its last byte is no command yet
  obtain ⟨rest, hr⟩ := ha
  cases rest with
  | nil => rw [← hr, List.append_nil]
  | cons b rest =>
    refine absurd ?_ he
    have hp : t₂.accepted ++ [b] <+: (Command.writeWord addr value).header :=
      ⟨rest, by rw [← hr, List.append_assoc]; rfl⟩
    have := Reader.commands_of_header_lt (c := .writeWord addr value) (Nat.two_pow_pos 32) hp
    show (Reader.start.feedAll (Transcript.accepted ([_] ++ t₂))).2.filter _ = []
    rw [Transcript.accepted_append]
    show (Reader.start.feedAll t₂.accepted).2.filter _ = []
    rw [this]
    rfl

end Monitor

/-! ## Working with the flash controllers -/

namespace FlashController

open Link

variable {o : Options} {c : Chip} {stage : Stage}

theorem follows_scanPlanes (hc : c.Sound) (left plane : Nat) (busy : Option Nat)
    (hp : plane + left ≤ c.planes) :
    (scanPlanes o c stage left plane busy : Link ε _).Follows [] (fun _ => True)
      (Failure.IsNear stage) := by
  induction left generalizing plane busy with
  | zero => exact follows_pure trivial
  | succ left ih =>
    refine Follows.exact_bind (hc.register_eq (by omega) (by decide)) ?_
    refine ((Monitor.follows_readWord o _).mono (fun _ h => h)
      fun _ => Failure.IsBareLink.near).after ?_
    intro status
    by_cases hl : isLocked status = true
    · simp only [if_pos hl]
      exact (follows_log rfl).after fun _ => follows_fail (Or.inr ⟨_, rfl, rfl⟩)
    · simp only [if_neg hl]
      exact ih (plane + 1) _ (by omega)

theorem follows_pollRounds (hc : c.Sound) (left : Nat) (tried : Word) (busy : Option Nat)
    (ht : tried.toNat + left < UInt32.size) :
    (pollRounds o c stage left tried busy : Link ε Unit).Follows [] (fun _ => True)
      (Failure.IsNear stage) := by
  induction left generalizing tried busy with
  | zero => exact (follows_log rfl).after fun _ => follows_fail (Or.inr ⟨_, rfl, rfl⟩)
  | succ left ih =>
    refine (follows_scanPlanes hc c.planes 0 none (by omega)).after ?_
    intro found
    by_cases hb : found.isSome = true
    · have h1 : (tried + 1).toNat = tried.toNat + 1 := Word.toNat_add_of_lt (by
        show tried.toNat + 1 < _
        omega)
      simp only [if_pos hb]
      refine Follows.exact_bind (Word.add_eq_ok_iff.mpr h1) ?_
      by_cases hr : tried + 1 < o.statusRetries
      · simp only [if_pos hr]
        exact follows_delay.after fun _ => ih (tried + 1) found (by omega)
      · simp only [if_neg hr]
        exact ih (tried + 1) found (by omega)
    · simp only [if_neg hb]
      exact follows_pure trivial

/-- Waiting gives no command. -/
theorem follows_awaitReady (hc : c.Sound) :
    (awaitReady o c stage : Link ε Unit).Follows [] (fun _ => True) (Failure.IsNear stage) :=
  follows_pollRounds hc _ 0 none (by
    have := o.statusRetries.toNat_lt_size
    simpa using this)

theorem follows_writeRegister (hc : c.Sound) {plane : Nat} (hp : plane < c.planes)
    {offset : Word} (ho : offset.toNat < 0x200) (value : Word) :
    (writeRegister c plane offset value : Link ε Unit).Follows
      [.writeWord (c.registerAddress plane offset) value] (fun _ => True) Failure.IsBareLink :=
  Follows.exact_bind (hc.register_eq hp ho) (Monitor.follows_writeWord _ _)

theorem follows_command (hc : c.Sound) {plane : Nat} (hp : plane < c.planes)
    (cmd : FlashCommand) (arg : Word) :
    (command c plane cmd arg : Link ε Unit).Follows
      [.writeWord (c.registerAddress plane commandOffset) (cmd.word arg)] (fun _ => True)
      Failure.IsBareLink :=
  (follows_log rfl).after fun _ => follows_writeRegister hc hp (by decide) _

end FlashController

end SamFlash
