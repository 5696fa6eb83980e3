import SamFlash.Proofs.History

/-!
# Conduct and timing

What a target does is one thing, and when it does it another. A `Conduct` is the first one alone:
which bytes the port takes, which commands are answered, with what, where the port fails, and what
the image gives. Around a conduct there are many timings. A port may not be ready any number of
times before it takes a byte or flushes; a look for a byte may find nothing although one is there,
as long as the host is patient; and where the host asks for binary mode, a target that is in it
already may leave out the acknowledgement.

How far the host's patience goes is a matter of its options. `Link.receiveFrom` adds up its pauses
and gives up at a look in vain once they have reached the response timeout, so a number of looks in
vain is survived that depends on the timeout and the pause alone (`Options.patience`).

The liberty to leave out the acknowledgement has a price. `Link.handshake` takes whatever two bytes
come next for the acknowledgement, so it may only be left out where the host does wait for it and
nothing else is there to be read (`Station.mayOmit`): no reply of an earlier command that failed, no
failure of the flush in between, and not in the middle of a block. Elsewhere the two bytes are not
made up for, and a target that sends them is not the same as one that does not.

A `Station` is a target in the middle of a session, and `Station.Serves` is a transcript with it, in
any timing.

Results:
* `Options.lt_patience_iff`: how many looks in vain the host's timer allows.
* `Conduct.serves_device`: a prompt target, or a slow one, is one of the timings.
* `Conduct.hosts_session`: the same of the calls that are made of it.
-/

namespace SamFlash

variable {σ ε α : Type}

/-! ## Patience -/

/-- How often a receive may find nothing and still go on. -/
def Options.patience (o : Options) : Nat :=
  (o.responseTimeout.toNat + max o.pollDelay.toNat 1 - 1) / max o.pollDelay.toNat 1

theorem Options.lt_patience_iff (o : Options) (k : Nat) :
    k < o.patience ↔ k * max o.pollDelay.toNat 1 < o.responseTimeout.toNat := by
  have pos : 0 < max o.pollDelay.toNat 1 := by omega
  unfold patience
  rw [← Nat.succ_le_iff, Nat.le_div_iff_mul_le pos, Nat.succ_mul]
  omega

/-! ## Conduct -/

/-- What a target, its port and the images do, time left aside. -/
structure Conduct (σ ε : Type) where
  /-- A call begins. -/
  begin : Task → σ → σ
  /-- A byte is put on the port. -/
  put : UInt8 → σ → Except ε Unit × σ
  /-- Written bytes are waited for. -/
  flush : σ → Except ε Unit × σ
  /-- A command is complete; the reply to it, where reading any byte of it may fail instead. -/
  reply : Command → σ → List (Except ε UInt8) × σ
  /-- Bytes of the image are asked for. -/
  draw : (limit : Nat) → σ → Delivery limit × σ

/-- A target in the middle of a session. -/
structure Station (σ ε : Type) where
  state : σ
  /-- How far the monitor is in the stream. -/
  reader : Reader
  /-- What the host has still to read. -/
  queue : List (Except ε UInt8)
  /-- How often the host has looked in vain since it wrote. -/
  misses : Nat
  /-- The host is asking for binary mode. -/
  asked : Bool

/-- The diagnostic with which the host begins to ask for binary mode. -/
def Diagnostic.asks : Diagnostic → Bool
  | binaryModeRequested => true
  | _ => false

namespace Station

variable (w : Conduct σ ε) (o : Options)

/-- The port has taken a byte, and what it completes is answered. -/
def hears (s : Station σ ε) (b : UInt8) : Station σ ε :=
  match s.reader.feed b with
  | (reader, none) => ⟨(w.put b s.state).2, reader, s.queue, 0, s.asked⟩
  | (reader, some cmd) =>
    ⟨(w.reply cmd (w.put b s.state).2).2, reader,
      s.queue ++ (w.reply cmd (w.put b s.state).2).1, 0, s.asked⟩

/-- The byte completes the request for binary mode, the host waits for its two bytes with nothing
else to be read, and gets that far. -/
def mayOmit (s : Station σ ε) (b : UInt8) : Bool :=
  s.asked && s.queue.isEmpty && (s.reader.feed b).2 == some .binaryMode &&
    match (s.hears w b).queue, (w.flush (s.hears w b).state).1 with
    | [.ok _, .ok _], .ok _ => true
    | _, _ => false

/-- What becomes of the station when the port has taken a byte. -/
def Heard (s : Station σ ε) (b : UInt8) (s' : Station σ ε) : Prop :=
  s' = s.hears w b ∨ (s.mayOmit w b = true ∧ s' = { s.hears w b with queue := [] })

/-- The station takes part in an exchange, in some time. -/
def Takes (s : Station σ ε) : Exchange ε → Station σ ε → Prop
  | ⟨.write b, attempts⟩, s' =>
    attempts.settle = (w.put b s.state).1 ∧
      match (w.put b s.state).1 with
      | .ok _ => s.Heard w b s'
      | .error _ => s' = ⟨(w.put b s.state).2, s.reader, s.queue, 0, false⟩
  | ⟨.flush, attempts⟩, s' =>
    attempts.settle = (w.flush s.state).1 ∧
      s' = ⟨(w.flush s.state).2, s.reader, s.queue, 0, false⟩
  | ⟨.read, .byte b⟩, s' => s.queue = .ok b :: s'.queue ∧ s' = { s with queue := s'.queue }
  | ⟨.read, .failed e⟩, s' => s.queue = .error e :: s'.queue ∧ s' = { s with queue := s'.queue }
  | ⟨.read, .notReady⟩, s' =>
    (s.queue = [] ∨ s.misses < o.patience) ∧ s' = { s with misses := s.misses + 1 }
  | ⟨.image limit, d⟩, s' =>
    d.settle = (w.draw limit s.state).1.settle ∧ s' = { s with state := (w.draw limit s.state).2 }
  | ⟨.log d, _⟩, s' => s' = { s with asked := d.asks }
  | _, s' => s' = s

/-- The station takes part in the exchanges, and is `s'` in the end. -/
def Serves : Station σ ε → Transcript ε → Station σ ε → Prop
  | s, [], s' => s' = s
  | s, x :: t, s' => ∃ mid, s.Takes w o x mid ∧ mid.Serves t s'

/-- A call is made. -/
def attends (s : Station σ ε) (task : Task) : Station σ ε :=
  { s with state := w.begin task s.state }

/-- The station takes part in the calls, and is `s'` in the end. -/
def Hosts : Station σ ε → List (Turn ε) → Station σ ε → Prop
  | s, [], s' => s' = s
  | s, v :: vs, s' => ∃ mid, (s.attends w v.task).Serves w o v.exchanges mid ∧ mid.Hosts vs s'

variable {w o} {s s' s'' : Station σ ε}

theorem serves_append_iff {t u : Transcript ε} :
    s.Serves w o (t ++ u) s'' ↔ ∃ s', s.Serves w o t s' ∧ s'.Serves w o u s'' := by
  induction t generalizing s with
  | nil =>
    constructor
    · exact fun h => ⟨s, rfl, h⟩
    · rintro ⟨_, rfl, h⟩
      exact h
  | cons x t ih =>
    constructor
    · rintro ⟨mid, hx, h⟩
      obtain ⟨s', hs, ht⟩ := ih.mp h
      exact ⟨s', ⟨mid, hx, hs⟩, ht⟩
    · rintro ⟨s', ⟨mid, hx, hs⟩, ht⟩
      exact ⟨mid, hx, ih.mpr ⟨s', hs, ht⟩⟩

theorem serves_singleton {x : Exchange ε} : s.Serves w o [x] s' ↔ s.Takes w o x s' := by
  constructor
  · rintro ⟨mid, hx, rfl⟩
    exact hx
  · exact fun h => ⟨s', h, rfl⟩

end Station

/-! ## One of the timings -/

/-- How a target times what it does. -/
structure Pace where
  /-- How often the port is not ready before it takes a byte or flushes. -/
  blocks : Nat
  /-- How often the host looks in vain before a reply. -/
  lag : Nat
  /-- Leave out the acknowledgement of binary mode where that is possible. -/
  mute : Bool

/-- So many attempts in vain, and then the outcome. -/
def Attempts.after (outcome : Except ε Unit) : Nat → Attempts ε
  | 0 =>
    match outcome with
    | .ok _ => accepted
    | .error e => failed e
  | n + 1 => notReady (after outcome n)

theorem Attempts.settle_after (outcome : Except ε Unit) (n : Nat) :
    (after outcome n).settle = outcome := by
  induction n with
  | zero => cases outcome <;> rfl
  | succ n ih => exact ih

namespace Conduct

/-- A target of this conduct that keeps this pace. -/
def device (w : Conduct σ ε) (pace : Pace) : Device (Station σ ε) ε where
  answer
    | .write b, s =>
      match (w.put b s.state).1 with
      | .ok u =>
        (.after (.ok u) pace.blocks,
          if pace.mute && s.mayOmit w b then { s.hears w b with queue := [] } else s.hears w b)
      | .error e =>
        (.after (.error e) pace.blocks, ⟨(w.put b s.state).2, s.reader, s.queue, 0, false⟩)
    | .flush, s =>
      (.after (w.flush s.state).1 pace.blocks, ⟨(w.flush s.state).2, s.reader, s.queue, 0, false⟩)
    | .read, s =>
      if s.misses < pace.lag then (.notReady, { s with misses := s.misses + 1 })
      else
        match s.queue with
        | [] => (.notReady, { s with misses := s.misses + 1 })
        | .ok b :: queue => (.byte b, { s with queue := queue })
        | .error e :: queue => (.failed e, { s with queue := queue })
    | .delay _, s => ((), s)
    | .log d, s => ((), { s with asked := d.asks })
    | .progress _, s => ((), s)
    | .image limit, s => ((w.draw limit s.state).1, { s with state := (w.draw limit s.state).2 })
    | .openPort _, s => (.ok (), s)
    | .configure _, s => (.ok (), s)
    | .openImage _, s => (.ok 0, s)

variable {w : Conduct σ ε} {o : Options} {pace : Pace}

/-- One answer of the device. -/
theorem takes_device (hl : pace.lag ≤ o.patience) (s : Station σ ε) (q : Request) :
    s.Takes w o ⟨q, ((w.device pace).answer q s).1⟩ ((w.device pace).answer q s).2 := by
  cases q with
  | write b =>
    unfold Station.Takes device
    cases hput : (w.put b s.state).1 with
    | error e => exact ⟨by simp only [hput, Attempts.settle_after], by simp only [hput]⟩
    | ok u =>
      refine ⟨by simp only [hput, Attempts.settle_after], ?_⟩
      by_cases hm : (pace.mute && s.mayOmit w b) = true
      · simp only [hput, if_pos hm]
        exact Or.inr ⟨(Bool.and_eq_true_iff.mp hm).2, rfl⟩
      · simp only [hput, if_neg hm]
        exact Or.inl rfl
  | flush => exact ⟨Attempts.settle_after _ _, rfl⟩
  | read =>
    unfold Station.Takes device
    by_cases hm : s.misses < pace.lag
    · simp only [if_pos hm]
      exact ⟨Or.inr (Nat.lt_of_lt_of_le hm hl), trivial⟩
    · simp only [if_neg hm]
      cases hq : s.queue with
      | nil => exact ⟨Or.inl rfl, rfl⟩
      | cons item queue => cases item <;> simp
  | image limit => exact ⟨rfl, rfl⟩
  | delay ms => exact rfl
  | log d => exact rfl
  | progress p => exact rfl
  | openPort path => exact rfl
  | configure line => exact rfl
  | openImage path => exact rfl

/-- **A target that keeps its pace** serves whatever dialogue is held with it, if it is not slower
than the host is patient. -/
theorem serves_device (hl : pace.lag ≤ o.patience) (x : Dialogue ε α) (s : Station σ ε) :
    s.Serves w o (x.transcript (w.device pace) s) (x.run (w.device pace) s).2 := by
  induction x generalizing s with
  | done a => rfl
  | ask q next ih => exact ⟨_, takes_device hl s q, ih _ _⟩

/-- The calls of a programmer, made of the device one after the other. -/
def session (w : Conduct σ ε) (pace : Pace) (o : Options) :
    Programmer → Station σ ε → List Task → List (Turn ε)
  | _, _, [] => []
  | p, s, task :: tasks =>
    let v := Turn.ofRun (w.device pace) (s.attends w task) o task p
    v :: session w pace o v.after
      (Dialogue.run (w.device pace) (task.call o p) (s.attends w task)).2 tasks

theorem history_session (w : Conduct σ ε) (pace : Pace) (o : Options) (p : Programmer)
    (s : Station σ ε) (tasks : List Task) :
    ∃ q, History o p (w.session pace o p s tasks) q := by
  induction tasks generalizing p s with
  | nil => exact ⟨p, .nil p⟩
  | cons task tasks ih =>
    obtain ⟨q, rest⟩ := ih _ _
    exact ⟨q, .cons (Turn.held_ofRun _ _ _ _ _) rest⟩

theorem hosts_session (hl : pace.lag ≤ o.patience) (p : Programmer) (s : Station σ ε)
    (tasks : List Task) : ∃ u, s.Hosts w o (w.session pace o p s tasks) u := by
  induction tasks generalizing p s with
  | nil => exact ⟨s, rfl⟩
  | cons task tasks ih =>
    obtain ⟨u, rest⟩ := ih _ _
    exact ⟨u, _, serves_device hl _ _, rest⟩

theorem tasks_session (p : Programmer) (s : Station σ ε) (tasks : List Task) :
    (w.session pace o p s tasks).map Turn.task = tasks := by
  induction tasks generalizing p s with
  | nil => rfl
  | cons task tasks ih => exact congrArg (task :: ·) (ih _ _)

end Conduct

end SamFlash
