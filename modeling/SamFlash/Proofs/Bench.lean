import SamFlash.Proofs.Held
import SamFlash.Proofs.Wire

/-!
# A bench

A target on a bench that works: the port takes every byte and every flush, every reply is there
before the time for it is over, and the source of the image has as many bytes as it promised.
Nothing is said about what the replies tell. When no command is under way and no reply is
outstanding, the bench is idle.

A `Bench` is what the host can see of that: how far the monitor is in the stream, which reply bytes
are still to be received, and how many bytes of the image are left. `Bench.Takes` says of every
exchange whether a bench takes part in it, and what is left of the bench behind it. A write or flush
may find the port not ready any number of times before it succeeds; a look may find nothing while no
byte is outstanding or the time for it is not over; a request for the image may be interrupted, and
gives at least one byte while there are any. The monitor replies with at most two bytes to a request
for binary mode, with four bytes to a read, and to nothing else (`Command.Reply`).

This is the place where calls succeed. `Link.Thrives` and the plans of `Proofs.Plan` are about an
idle bench, and the fixed inputs of other modules are held with `Bench.device`, whose replies come
at once from a table of words (`Bench.steadyWords`: the chip, ready planes, and nothing else).

Results:
* `Bench.serves_append_iff`: a bench serves two transcripts in a row one after the other.
* `Bench.Sent.append`: what sending two pieces does to the bench.
* `Bench.serves_device`: a device that answers everything at once is a bench.
* `Bench.taken_device`: whatever is held with that device takes the first bytes of the image.
-/

namespace SamFlash

variable {ε : Type}

/-- What the host can see of the target and of the image. -/
structure Bench where
  /-- How far the monitor is in the stream. -/
  reader : Reader
  /-- The bytes of replies that the host has not received. -/
  pending : List UInt8
  /-- The pauses since the last byte was taken, in milliseconds. -/
  waited : Nat
  /-- The bytes of the image that the host has not taken. -/
  rest : List UInt8

/-- The monitor may reply to the command with these bytes. -/
def Command.Reply (reply : List UInt8) : Command → Prop
  | binaryMode => reply.length ≤ acknowledgementLength
  | readWord _ => reply.length = 4
  | writeWord .. => reply = []
  | writeBlock .. => reply = []
  | go _ => reply = []

/-- The monitor may reply to the commands, one after the other, with these bytes. -/
def Command.Replies : List Command → List UInt8 → Prop
  | [], reply => reply = []
  | cmd :: rest, reply => ∃ first more, reply = first ++ more ∧ cmd.Reply first ∧ Replies rest more

theorem Command.Replies.append {cs ds : List Command} {xs ys : List UInt8} (h : Replies cs xs)
    (h' : Replies ds ys) : Replies (cs ++ ds) (xs ++ ys) := by
  induction cs generalizing xs with
  | nil =>
    obtain rfl : xs = [] := h
    exact h'
  | cons cmd cs ih =>
    obtain ⟨first, more, rfl, hfirst, hmore⟩ := h
    exact ⟨first, more ++ ys, List.append_assoc first more ys, hfirst, ih hmore⟩

theorem Command.replies_singleton {cmd : Command} {reply : List UInt8} :
    Replies [cmd] reply ↔ cmd.Reply reply := by
  constructor
  · rintro ⟨first, more, rfl, hfirst, rfl⟩
    rwa [List.append_nil]
  · exact fun h => ⟨reply, [], (List.append_nil reply).symm, h, rfl⟩

namespace Bench

/-- The bench takes part in an exchange. -/
def Takes (o : Options) (b : Bench) : Exchange ε → Bench → Prop
  | ⟨.write byte, attempts⟩, b' => attempts.settle = .ok () ∧ ∃ reply,
      Command.Replies (b.reader.feed byte).2.toList reply ∧
        b' = { b with
          reader := (b.reader.feed byte).1, pending := b.pending ++ reply, waited := 0 }
  | ⟨.flush, attempts⟩, b' => attempts.settle = .ok () ∧ b' = b
  | ⟨.read, .byte byte⟩, b' => b.pending = byte :: b'.pending ∧
      b' = { b with pending := b'.pending }
  | ⟨.read, .notReady⟩, b' => (b.pending = [] ∨ b.waited < o.responseTimeout.toNat) ∧ b' = b
  | ⟨.read, .failed _⟩, _ => False
  | ⟨.delay ms, _⟩, b' => b' = { b with waited := b.waited + max ms.toNat 1 }
  | ⟨.image limit, delivery⟩, b' => ∃ data, delivery.settle = .ok data ∧
      b.rest = data.val ++ b'.rest ∧ (data.val = [] → limit = 0 ∨ b.rest = []) ∧
        b' = { b with rest := b'.rest }
  | _, b' => b' = b

/-- The bench takes part in the exchanges, and is `b'` in the end. -/
def Serves (o : Options) : Bench → Transcript ε → Bench → Prop
  | b, [], b' => b' = b
  | b, x :: t, b' => ∃ mid, b.Takes o x mid ∧ mid.Serves o t b'

/-- No command is under way and no reply outstanding. -/
structure Idle (b : Bench) : Prop where
  reader : b.reader = Reader.start
  pending : b.pending = []

variable {o : Options} {b b' b'' : Bench}

theorem serves_append_iff {s t : Transcript ε} :
    b.Serves o (s ++ t) b'' ↔ ∃ b', b.Serves o s b' ∧ b'.Serves o t b'' := by
  induction s generalizing b with
  | nil =>
    constructor
    · exact fun h => ⟨b, rfl, h⟩
    · rintro ⟨_, rfl, h⟩
      exact h
  | cons x s ih =>
    constructor
    · rintro ⟨mid, hx, h⟩
      obtain ⟨b', hs, ht⟩ := ih.mp h
      exact ⟨b', ⟨mid, hx, hs⟩, ht⟩
    · rintro ⟨b', ⟨mid, hx, hs⟩, ht⟩
      exact ⟨mid, hx, ih.mpr ⟨b', hs, ht⟩⟩

theorem serves_singleton {x : Exchange ε} : b.Serves o [x] b' ↔ b.Takes o x b' := by
  constructor
  · rintro ⟨mid, hx, rfl⟩
    exact hx
  · exact fun h => ⟨b', h, rfl⟩

/-- The image is what an exchange takes of it, and what is left. -/
theorem takes_rest {x : Exchange ε} (h : b.Takes o x b') : b.rest = x.taken ++ b'.rest := by
  obtain ⟨q, a⟩ := x
  cases q with
  | write byte =>
    obtain ⟨-, reply, -, rfl⟩ := h
    rfl
  | flush =>
    obtain ⟨-, rfl⟩ := h
    rfl
  | read =>
    cases a with
    | byte byte =>
      rw [h.2]
      rfl
    | notReady =>
      rw [h.2]
      rfl
    | failed e => exact absurd h id
  | image limit =>
    obtain ⟨data, settles, rest, -⟩ := h
    simp only [Exchange.taken, settles]
    exact rest
  | delay ms =>
    rw [show b' = _ from h]
    rfl
  | _ =>
    rw [show b' = b from h]
    rfl

theorem serves_rest {t : Transcript ε} (h : b.Serves o t b') : b.rest = t.taken ++ b'.rest := by
  induction t generalizing b with
  | nil =>
    rw [show b' = b from h]
    rfl
  | cons x t ih =>
    obtain ⟨mid, takes, serves⟩ := h
    rw [takes_rest takes, ih serves, Transcript.taken, Transcript.taken, List.flatMap_cons,
      List.append_assoc]

/-! ## Sending -/

/-- What sending bytes does to the bench. -/
structure Sent (b : Bench) (bs : List UInt8) (b' : Bench) : Prop where
  reader : b'.reader = (b.reader.feedAll bs).1
  pending : ∃ reply, Command.Replies (b.reader.feedAll bs).2 reply ∧
    b'.pending = b.pending ++ reply
  rest : b'.rest = b.rest

theorem sent_nil (b : Bench) : b.Sent [] b := ⟨rfl, ⟨[], rfl, (List.append_nil _).symm⟩, rfl⟩

theorem Sent.append {xs ys : List UInt8} (h : b.Sent xs b') (h' : b'.Sent ys b'') :
    b.Sent (xs ++ ys) b'' where
  reader := by rw [Reader.feedAll_append, h'.reader, h.reader]
  pending := by
    obtain ⟨reply, hr, hp⟩ := h.pending
    obtain ⟨reply', hr', hp'⟩ := h'.pending
    rw [h.reader] at hr'
    rw [Reader.feedAll_append]
    exact ⟨reply ++ reply', hr.append hr', by rw [hp', hp, List.append_assoc]⟩
  rest := h'.rest.trans h.rest

/-- A command sent to an idle bench in full leaves only its reply outstanding. -/
theorem Sent.wire {cmd : Command} (h : b.Sent cmd.wire b') (hb : b.Idle)
    (hc : cmd.payload.length < UInt32.size) :
    b'.reader = Reader.start ∧ cmd.Reply b'.pending ∧ b'.rest = b.rest := by
  have hr := h.reader
  obtain ⟨reply, hreply, hp⟩ := h.pending
  rw [hb.reader, Reader.feedAll_wire cmd hc] at hr hreply
  rw [hb.pending, List.nil_append] at hp
  exact ⟨hr, hp ▸ Command.replies_singleton.mp hreply, h.rest⟩

/-! ## A bench as a device -/

/-- What a monitor replies that always finds these words. -/
def replyTo (words : Word → Word) : Option Command → List UInt8
  | some .binaryMode => [0x0a, 0x0d]
  | some (.readWord addr) => (words addr).toBytes
  | _ => []

/-- A bench that answers everything at once. -/
def device (words : Word → Word) : Device Bench ε where
  answer
    | .write byte, b =>
      (.accepted, { b with
        reader := (b.reader.feed byte).1
        pending := b.pending ++ replyTo words (b.reader.feed byte).2
        waited := 0 })
    | .flush, b => (.accepted, b)
    | .read, b =>
      match b.pending with
      | [] => (.notReady, b)
      | byte :: rest => (.byte byte, { b with pending := rest })
    | .delay ms, b => ((), { b with waited := b.waited + max ms.toNat 1 })
    | .log _, b => ((), b)
    | .progress _, b => ((), b)
    | .image limit, b =>
      (.bytes (b.rest.take limit) (List.length_take_le limit b.rest),
        { b with rest := b.rest.drop limit })
    | .openPort _, b => (.ok (), b)
    | .configure _, b => (.ok (), b)
    | .openImage _, b => (.ok b.rest.length, b)

/-- The words of a target with the chip `c` that is always ready. -/
def steadyWords (c : Chip) (addr : Word) : Word :=
  if addr = Monitor.sam3ChipIdAddress then c.id else FlashController.readyBit

/-- A bench with such a target. -/
def steady (c : Chip) : Device Bench ε := device (steadyWords c)

/-- A SAM3X8E. -/
def part : Chip := Chip.sam3x8 0x285e0a60 "ATSAM3X8E"

/-- A bench at rest, with the bytes of an image. -/
def fresh (image : List UInt8) : Bench := ⟨Reader.start, [], 0, image⟩

theorem replies_replyTo (words : Word → Word) (cmd : Option Command) :
    Command.Replies cmd.toList (replyTo words cmd) := by
  cases cmd with
  | none => rfl
  | some cmd =>
    refine Command.replies_singleton.mpr ?_
    cases cmd with
    | binaryMode => exact Nat.le_refl 2
    | readWord => rfl
    | writeWord => rfl
    | writeBlock => rfl
    | go => rfl

theorem takes_device (words : Word → Word) (q : Request) (b : Bench) :
    b.Takes o ⟨q, ((device (ε := ε) words).answer q b).1⟩
      ((device (ε := ε) words).answer q b).2 := by
  cases q with
  | write byte => exact ⟨rfl, _, replies_replyTo words _, rfl⟩
  | flush => exact ⟨rfl, rfl⟩
  | read =>
    cases hp : b.pending with
    | nil =>
      simp only [device, hp]
      exact ⟨Or.inl hp, rfl⟩
    | cons byte rest =>
      simp only [device, hp]
      exact ⟨hp, rfl⟩
  | image limit =>
    refine ⟨⟨b.rest.take limit, List.length_take_le limit b.rest⟩, rfl, ?_, ?_, rfl⟩
    · exact (List.take_append_drop limit b.rest).symm
    · exact List.take_eq_nil_iff.mp
  | delay ms => rfl
  | log d => rfl
  | progress p => rfl
  | openPort path => rfl
  | configure line => rfl
  | openImage path => rfl

/-- **The device serves** whatever dialogue is held with it. -/
theorem serves_device {α : Type} (words : Word → Word) (x : Dialogue ε α) (b : Bench) :
    b.Serves o (x.transcript (device words) b) (x.run (device words) b).2 := by
  induction x generalizing b with
  | done a => rfl
  | ask q next ih => exact ⟨((device words).answer q b).2, takes_device words q b, ih _ _⟩

/-- Whatever dialogue is held with the device, it takes the first bytes of the image. -/
theorem taken_device {α : Type} (words : Word → Word) (x : Dialogue ε α) (b : Bench) :
    Transcript.taken (x.transcript (device words) b) <+: b.rest := by
  rw [serves_rest (serves_device (o := {}) words x b)]
  exact List.prefix_append _ _

end Bench

end SamFlash
