import SamFlash.Proofs.Sends

/-!
# A serial line with delays

Between the host and the monitor, replies take time. A reply byte is in the queue of the line from
the moment the monitor has its command until the host receives it; a look at the line may find
nothing although the queue is not empty. How long that may go on is a matter of the `Manner` of the
monitor: a reply is there before the time for it is over, unless it may be late. A late byte stays
in the queue and none is lost. Every byte of the queue is kept with the command that it answers,
which is what the host cannot see: `Link.receiveFrom` takes the next byte, whatever command it is a
reply to.

Time is what the host has paused since the port last took a byte, in milliseconds, where a pause of
zero counts as one, as on the timer of a receive. A reply to a read has four bytes, low byte first,
of a word that the manner allows at the address; binary mode is acknowledged with at most two bytes;
nothing else is answered.

Unlike a `Bench`, a line may refuse a byte, fail to be read, and be late; and nothing is said about
the image. A byte that was refused is lost, and the command that it was part of is not complete
then. A `Rig` is a line with a target in it that stalls for a while, on which the fixed inputs of
other modules are held.

Results:
* `Line.serves_append_iff`: a line serves two transcripts in a row one after the other.
* `Line.serves_conserves`: what was queued and what was replied is what was received and what is
  queued.
* `Rig.serves_device`: a device with a line in it serves whatever is held with it.
-/

namespace SamFlash

variable {ε : Type}

/-- How a monitor answers. -/
structure Manner where
  /-- A word that is read at the address may have this value. -/
  holds : (addr value : Word) → Prop
  /-- The reply to the command may come when the host has given up. -/
  late : Command → Prop

namespace Manner

variable {m : Manner}

/-- The monitor may reply to the command with these bytes. -/
def Reply (m : Manner) (reply : List UInt8) (cmd : Command) : Prop :=
  cmd.Reply reply ∧ ∀ addr, cmd = .readWord addr → m.holds addr (Word.ofBytes reply)

/-- The bytes, each with the command that it answers. -/
def labelled (cmd : Command) (reply : List UInt8) : List (Command × UInt8) :=
  reply.map fun b => (cmd, b)

theorem snd_labelled (cmd : Command) (reply : List UInt8) :
    (labelled cmd reply).map Prod.snd = reply := by
  rw [labelled, List.map_map]
  exact List.map_id reply

theorem fst_of_mem_labelled {cmd : Command} {reply : List UInt8} {e : Command × UInt8}
    (h : e ∈ labelled cmd reply) : e.1 = cmd := by
  obtain ⟨b, -, rfl⟩ := List.mem_map.mp h
  rfl

/-- The monitor may reply to the commands, one after the other, with these bytes. -/
def Replies (m : Manner) : List Command → List (Command × UInt8) → Prop
  | [], replies => replies = []
  | cmd :: rest, replies =>
    ∃ reply more, replies = labelled cmd reply ++ more ∧ m.Reply reply cmd ∧ Replies m rest more

theorem Replies.append {cs ds : List Command} {xs ys : List (Command × UInt8)}
    (h : m.Replies cs xs) (h' : m.Replies ds ys) : m.Replies (cs ++ ds) (xs ++ ys) := by
  induction cs generalizing xs with
  | nil =>
    obtain rfl : xs = [] := h
    exact h'
  | cons cmd cs ih =>
    obtain ⟨reply, more, rfl, hreply, hmore⟩ := h
    exact ⟨reply, more ++ ys, List.append_assoc _ more ys, hreply, ih hmore⟩

theorem replies_singleton {cmd : Command} {replies : List (Command × UInt8)} :
    m.Replies [cmd] replies ↔ ∃ reply, replies = labelled cmd reply ∧ m.Reply reply cmd := by
  constructor
  · rintro ⟨reply, more, rfl, hreply, rfl⟩
    exact ⟨reply, List.append_nil _, hreply⟩
  · rintro ⟨reply, rfl, hreply⟩
    exact ⟨reply, [], (List.append_nil _).symm, hreply, rfl⟩

end Manner

/-- What is between the host and the monitor. -/
structure Line where
  /-- How far the monitor is in the stream. -/
  reader : Reader
  /-- The bytes of replies that the host has not received, with the commands they answer. -/
  queue : List (Command × UInt8)
  /-- The pauses since the last byte was taken, in milliseconds. -/
  waited : Nat
  deriving DecidableEq, Repr

namespace Line

/-- A look may find nothing. -/
def MayWait (m : Manner) (o : Options) (l : Line) : Prop :=
  ∀ e, l.queue.head? = some e → m.late e.1 ∨ l.waited < o.responseTimeout.toNat

/-- The line takes part in an exchange. A byte that the port refused is lost. -/
def Takes (m : Manner) (o : Options) (l : Line) : Exchange ε → Line → Prop
  | ⟨.write byte, attempts⟩, l' =>
    match attempts.settle with
    | .ok _ => ∃ replies, m.Replies (l.reader.feed byte).2.toList replies ∧
        l' = ⟨(l.reader.feed byte).1, l.queue ++ replies, 0⟩
    | .error _ => l' = l
  | ⟨.read, .byte byte⟩, l' => ∃ cmd, l.queue = (cmd, byte) :: l'.queue ∧
      l' = { l with queue := l'.queue }
  | ⟨.read, .notReady⟩, l' => l.MayWait m o ∧ l' = l
  | ⟨.delay ms, _⟩, l' => l' = { l with waited := l.waited + max ms.toNat 1 }
  | _, l' => l' = l

/-- The line takes part in the exchanges, and is `l'` in the end. -/
def Serves (m : Manner) (o : Options) : Line → Transcript ε → Line → Prop
  | l, [], l' => l' = l
  | l, x :: t, l' => ∃ mid, l.Takes m o x mid ∧ mid.Serves m o t l'

/-- No command is under way and no reply outstanding. -/
structure Idle (l : Line) : Prop where
  reader : l.reader = Reader.start
  queue : l.queue = []

variable {m : Manner} {o : Options} {l l' l'' : Line}

theorem serves_append_iff {s t : Transcript ε} :
    l.Serves m o (s ++ t) l'' ↔ ∃ l', l.Serves m o s l' ∧ l'.Serves m o t l'' := by
  induction s generalizing l with
  | nil =>
    constructor
    · exact fun h => ⟨l, rfl, h⟩
    · rintro ⟨_, rfl, h⟩
      exact h
  | cons x s ih =>
    constructor
    · rintro ⟨mid, hx, h⟩
      obtain ⟨l', hs, ht⟩ := ih.mp h
      exact ⟨l', ⟨mid, hx, hs⟩, ht⟩
    · rintro ⟨l', ⟨mid, hx, hs⟩, ht⟩
      exact ⟨mid, hx, ih.mpr ⟨l', hs, ht⟩⟩

theorem serves_singleton {x : Exchange ε} : l.Serves m o [x] l' ↔ l.Takes m o x l' := by
  constructor
  · rintro ⟨mid, hx, rfl⟩
    exact hx
  · exact fun h => ⟨l', h, rfl⟩

/-! ## Nothing is lost -/

/-- What exchanges with these bytes accepted and these bytes received do to a line. -/
structure Conserves (m : Manner) (l : Line) (accepted received : List UInt8) (l' : Line) :
    Prop where
  reader : l'.reader = (l.reader.feedAll accepted).1
  queue : ∃ replies got, m.Replies (l.reader.feedAll accepted).2 replies ∧
    l.queue ++ replies = got ++ l'.queue ∧ got.map Prod.snd = received

/-- An exchange that puts nothing through. -/
theorem conserves_nil (h : l'.reader = l.reader) (hq : l'.queue = l.queue) :
    l.Conserves m [] [] l' :=
  ⟨h, [], [], rfl, by rw [hq, List.append_nil, List.nil_append], rfl⟩

theorem Conserves.append {xs ys bs cs : List UInt8} (h : l.Conserves m xs bs l')
    (h' : l'.Conserves m ys cs l'') : l.Conserves m (xs ++ ys) (bs ++ cs) l'' where
  reader := by rw [Reader.feedAll_append, h'.reader, h.reader]
  queue := by
    obtain ⟨replies, got, hr, hq, rfl⟩ := h.queue
    obtain ⟨replies', got', hr', hq', rfl⟩ := h'.queue
    rw [h.reader] at hr'
    rw [Reader.feedAll_append]
    refine ⟨replies ++ replies', got ++ got', hr.append hr', ?_, List.map_append⟩
    rw [← List.append_assoc, hq, List.append_assoc, hq', List.append_assoc]

theorem Takes.conserves {x : Exchange ε} (h : l.Takes m o x l') :
    l.Conserves m x.accepted?.toList x.received?.toList l' := by
  obtain ⟨q, a⟩ := x
  cases q with
  | write byte =>
    simp only [Takes] at h
    simp only [Exchange.accepted?, Exchange.received?]
    cases hs : a.settle with
    | error e =>
      rw [hs] at h
      obtain rfl := h
      exact conserves_nil rfl rfl
    | ok u =>
      rw [hs] at h
      obtain ⟨replies, hr, rfl⟩ := h
      refine ⟨rfl, replies, [], ?_, rfl, rfl⟩
      rw [Option.toList_some, Reader.feedAll_cons, Reader.feedAll_nil, List.append_nil]
      exact hr
  | read =>
    cases a with
    | byte byte =>
      obtain ⟨cmd, hq, h⟩ := h
      refine ⟨by rw [h]; rfl, [], [(cmd, byte)], rfl, ?_, rfl⟩
      rw [List.append_nil, hq]
      rfl
    | notReady =>
      obtain ⟨-, rfl⟩ := h
      exact conserves_nil rfl rfl
    | failed e =>
      obtain rfl := h
      exact conserves_nil rfl rfl
  | delay ms =>
    obtain rfl := h
    exact conserves_nil rfl rfl
  | flush => exact conserves_nil (congrArg Line.reader h) (congrArg Line.queue h)
  | log d => exact conserves_nil (congrArg Line.reader h) (congrArg Line.queue h)
  | progress p => exact conserves_nil (congrArg Line.reader h) (congrArg Line.queue h)
  | image limit => exact conserves_nil (congrArg Line.reader h) (congrArg Line.queue h)
  | openPort path => exact conserves_nil (congrArg Line.reader h) (congrArg Line.queue h)
  | configure line => exact conserves_nil (congrArg Line.reader h) (congrArg Line.queue h)
  | openImage path => exact conserves_nil (congrArg Line.reader h) (congrArg Line.queue h)

theorem received_cons (x : Exchange ε) (t : Transcript ε) :
    Transcript.received (x :: t) = x.received?.toList ++ Transcript.received t := by
  unfold Transcript.received
  rw [List.filterMap_cons]
  cases x.received? <;> rfl

/-- **Nothing is lost.** What was queued and what was replied is what was received and what is
queued. -/
theorem serves_conserves {t : Transcript ε} (h : l.Serves m o t l') :
    l.Conserves m t.accepted t.received l' := by
  induction t generalizing l with
  | nil =>
    obtain rfl := h
    exact conserves_nil rfl rfl
  | cons x t ih =>
    obtain ⟨mid, hx, ht⟩ := h
    rw [Transcript.accepted_cons, received_cons]
    exact hx.conserves.append (ih ht)

/-- Exchanges that send nothing only shorten the queue. -/
theorem queue_of_unsent {t : Transcript ε} (h : l.Serves m o t l') (ha : t.accepted = []) :
    l'.reader = l.reader ∧ ∃ got, l.queue = got ++ l'.queue ∧ got.map Prod.snd = t.received := by
  obtain ⟨hr, replies, got, hreplies, hq, hgot⟩ := serves_conserves h
  rw [ha] at hr hreplies
  obtain rfl : replies = [] := hreplies
  exact ⟨hr, got, by rwa [List.append_nil] at hq, hgot⟩

/-- A command sent to an idle line in full leaves only its reply in the queue. -/
theorem queue_of_wire {t : Transcript ε} {cmd : Command} (hl : l.Idle) (h : l.Serves m o t l')
    (ha : t.accepted = cmd.wire) (hr : t.received = []) (hc : cmd.payload.length < UInt32.size) :
    l'.reader = Reader.start ∧
      ∃ reply, l'.queue = Manner.labelled cmd reply ∧ m.Reply reply cmd := by
  obtain ⟨hreader, replies, got, hreplies, hq, hgot⟩ := serves_conserves h
  rw [hl.reader, ha, Reader.feedAll_wire cmd hc] at hreader hreplies
  obtain ⟨reply, rfl, hreply⟩ := Manner.replies_singleton.mp hreplies
  obtain rfl : got = [] := List.map_eq_nil_iff.mp (hgot.trans hr)
  rw [hl.queue, List.nil_append, List.nil_append] at hq
  exact ⟨hreader, reply, hq.symm, hreply⟩

end Line

/-! ## Receiving -/

namespace Link

/-- What a receive has is what came, and it has all if nothing kept it short. -/
theorem Receiving.received {o : Options} {total left : Nat} {elapsed : Word}
    {taken : List UInt8} {t : Transcript ε} {c : Reception ε}
    (h : Receiving o total left elapsed taken t c) :
    c.bytes = taken.reverse ++ t.received ∧ (c.error = none → t.received.length = left) := by
  induction h with
  | full => exact ⟨(List.append_nil _).symm, fun _ => rfl⟩
  | @byte left elapsed taken t c b _ ih =>
    have hr : Transcript.received (⟨.read, .byte b⟩ :: t) = b :: t.received := rfl
    rw [hr, ih.1]
    exact ⟨by simp, fun hc => by rw [List.length_cons, ih.2 hc]⟩
  | failed e => exact ⟨(List.append_nil _).symm, by simp⟩
  | wait _ _ ih => exact ih
  | gaveUp _ => exact ⟨(List.append_nil _).symm, by simp⟩

/-- **A receive that gave up in time** has waited as long as the line may make it wait: what is left
at the front of the queue may be late. -/
theorem Receiving.late {m : Manner} {o : Options} {total left : Nat} {elapsed : Word}
    {taken : List UInt8} {t : Transcript ε} {c : Reception ε} {l l' : Line}
    (h : Receiving o total left elapsed taken t c) (hs : l.Serves m o t l')
    (he : elapsed.toNat ≤ l.waited) {expected received : Nat}
    (hc : c.error = some (.responseTimeout expected received)) :
    ∀ e, l'.queue.head? = some e → m.late e.1 := by
  induction h generalizing l with
  | full => exact absurd hc (by simp)
  | byte b _ ih =>
    obtain ⟨mid, ⟨cmd, -, hmid⟩, hs⟩ := hs
    exact ih hs (by rw [hmid]; exact he) hc
  | failed e => exact absurd hc (by simp)
  | wait _ _ ih =>
    obtain ⟨mid, ⟨-, rfl⟩, mid', hd, hs⟩ := hs
    refine ih hs ?_ hc
    rw [hd, Word.toNat_addSaturating, Word.toNat_max_one]
    exact Nat.le_trans (Nat.min_le_left _ _) (Nat.add_le_add_right he _)
  | gaveUp late =>
    obtain ⟨mid, ⟨hwait, rfl⟩, mid', hd, rfl⟩ := hs
    obtain rfl : l' = mid := hd
    -- the line has waited at least as long as the host counted, so its time is over too
    refine fun e hq => (hwait e hq).resolve_right fun hw => late ?_
    rw [UInt32.lt_iff_toNat_lt]
    omega

end Link

/-! ## A line as a device -/

/-- A line with a target that stalls, and with an image. -/
structure Rig where
  line : Line
  /-- How many looks find nothing although a reply is there. -/
  stall : Nat
  /-- The bytes of the image that the host has not taken. -/
  rest : List UInt8
  deriving DecidableEq, Repr

namespace Rig

/-- What a monitor replies that finds these words, and acknowledges with these bytes. -/
def reply (ack : List UInt8) (words : Word → Word) : Command → List UInt8
  | .binaryMode => ack
  | .readWord addr => (words addr).toBytes
  | _ => []

/-- The replies to the commands, one after the other. -/
def replies (ack : List UInt8) (words : Word → Word) (cmds : List Command) :
    List (Command × UInt8) :=
  cmds.flatMap fun cmd => Manner.labelled cmd (reply ack words cmd)

/-- A target that stalls for a while and then answers everything at once. -/
def device (ack : List UInt8) (words : Word → Word) : Device Rig ε where
  answer
    | .write byte, s =>
      (.accepted, { s with line :=
        ⟨(s.line.reader.feed byte).1,
          s.line.queue ++ replies ack words (s.line.reader.feed byte).2.toList, 0⟩ })
    | .flush, s => (.accepted, s)
    | .read, s =>
      match s.line.queue, s.stall with
      | [], _ => (.notReady, s)
      | _ :: _, n + 1 => (.notReady, { s with stall := n })
      | e :: queue, 0 => (.byte e.2, { s with line := { s.line with queue := queue } })
    | .delay ms, s =>
      ((), { s with line := { s.line with waited := s.line.waited + max ms.toNat 1 } })
    | .log _, s => ((), s)
    | .progress _, s => ((), s)
    | .image limit, s =>
      (.bytes (s.rest.take limit) (List.length_take_le limit s.rest),
        { s with rest := s.rest.drop limit })
    | .openPort _, s => (.ok (), s)
    | .configure _, s => (.ok (), s)
    | .openImage _, s => (.ok s.rest.length, s)

/-- A rig at rest. -/
def fresh (stall : Nat) (image : List UInt8) : Rig := ⟨⟨Reader.start, [], 0⟩, stall, image⟩

theorem idle_fresh (stall : Nat) (image : List UInt8) : (fresh stall image).line.Idle := ⟨rfl, rfl⟩

/-- The manner of a monitor that holds these words. -/
def manner (words : Word → Word) (late : Command → Prop) : Manner where
  holds addr value := value = words addr
  late := late

variable {ack : List UInt8} {words : Word → Word} {late : Command → Prop} {o : Options}

theorem reply_reply (hack : ack.length ≤ Command.acknowledgementLength) (cmd : Command) :
    (manner words late).Reply (reply ack words cmd) cmd := by
  cases cmd with
  | binaryMode => exact ⟨hack, by simp⟩
  | readWord addr =>
    refine ⟨rfl, fun addr' h => ?_⟩
    obtain rfl := Command.readWord.inj h
    exact Word.ofBytes_toBytes (words addr)
  | writeWord => exact ⟨rfl, by simp⟩
  | writeBlock => exact ⟨rfl, by simp⟩
  | go => exact ⟨rfl, by simp⟩

theorem replies_replies (hack : ack.length ≤ Command.acknowledgementLength)
    (cmds : List Command) : (manner words late).Replies cmds (replies ack words cmds) := by
  induction cmds with
  | nil => rfl
  | cons cmd rest ih => exact ⟨_, _, List.flatMap_cons, reply_reply hack cmd, ih⟩

/-- The rig stalls only in front of bytes that may be late. -/
def Patient (ack : List UInt8) (words : Word → Word) (late : Command → Prop) (s : Rig) : Prop :=
  s.stall = 0 ∨ ((∀ cmd, reply ack words cmd ≠ [] → late cmd) ∧ ∀ e ∈ s.line.queue, late e.1)

theorem late_of_mem_replies (h : ∀ cmd, reply ack words cmd ≠ [] → late cmd)
    {cmds : List Command} {e : Command × UInt8} (he : e ∈ replies ack words cmds) : late e.1 := by
  obtain ⟨cmd, -, hmem⟩ := List.mem_flatMap.mp he
  rw [Manner.fst_of_mem_labelled hmem]
  refine h cmd fun hr => ?_
  rw [hr] at hmem
  exact absurd hmem (by simp [Manner.labelled])

/-- One answer of the device. -/
theorem takes_device (hack : ack.length ≤ Command.acknowledgementLength) {s : Rig}
    (hs : s.Patient ack words late) (q : Request) :
    s.line.Takes (ε := ε) (manner words late) o ⟨q, ((device ack words).answer q s).1⟩
        ((device (ε := ε) ack words).answer q s).2.line ∧
      ((device (ε := ε) ack words).answer q s).2.Patient ack words late := by
  cases q with
  | write byte =>
    refine ⟨⟨_, replies_replies hack _, rfl⟩, hs.imp_right fun h => ⟨h.1, fun e he => ?_⟩⟩
    rcases List.mem_append.mp he with he | he
    · exact h.2 e he
    · exact late_of_mem_replies h.1 he
  | read =>
    cases hq : s.line.queue with
    | nil =>
      simp only [device, hq]
      exact ⟨⟨fun e he => by rw [hq] at he; exact absurd he (by simp), rfl⟩, hs⟩
    | cons e queue =>
      cases hn : s.stall with
      | zero =>
        simp only [device, hq, hn]
        exact ⟨⟨e.1, hq, rfl⟩, Or.inl rfl⟩
      | succ n =>
        obtain ⟨hall, hqueue⟩ := hs.resolve_left (by omega)
        simp only [device, hq, hn]
        refine ⟨⟨fun e' he => Or.inl ?_, rfl⟩, Or.inr ⟨hall, hqueue⟩⟩
        exact hqueue e' (List.mem_of_mem_head? he)
  | flush => exact ⟨rfl, hs⟩
  | delay ms => exact ⟨rfl, hs⟩
  | log d => exact ⟨rfl, hs⟩
  | progress p => exact ⟨rfl, hs⟩
  | image limit => exact ⟨rfl, hs⟩
  | openPort path => exact ⟨rfl, hs⟩
  | configure line => exact ⟨rfl, hs⟩
  | openImage path => exact ⟨rfl, hs⟩

/-- **The line of the device serves** whatever dialogue is held with it. -/
theorem serves_device {α : Type} (hack : ack.length ≤ Command.acknowledgementLength)
    (x : Dialogue ε α) {s : Rig} (hs : s.Patient ack words late) :
    s.line.Serves (manner words late) o (x.transcript (device ack words) s)
      (x.run (device ack words) s).2.line := by
  induction x generalizing s with
  | done a => rfl
  | ask q next ih =>
    obtain ⟨takes, patient⟩ := takes_device hack hs q
    exact ⟨_, takes, ih _ patient⟩

end Rig

end SamFlash
