import SamFlash.Command
import SamFlash.Dialogue
import SamFlash.Options

/-!
# The serial link

Sending bytes and filling a buffer with those that come back. A write or flush is tried until the
port is ready. A receive looks for bytes until its buffer is full, and writes each one behind those
that came before it. It pauses after every look that finds none; the pauses of one receive add up on
a timer, a pause of zero milliseconds counting as one, and a look that finds nothing once the timer
has reached the response timeout gives up.

An operation of the link is a `Link`: a dialogue whose result is a value or a `Failure`.

Results:
* `Reception.fill_set`: a byte that is written behind those that came before it is one of those that
  fill the buffer.
* `Reception.fill_length`: what was received fills the front of a buffer and keeps its length.
-/

namespace SamFlash

/-- A dialogue that gives a value or a failure. -/
abbrev Link (ε α : Type) := ExceptT (Failure ε) (Dialogue ε) α

/-- What a receive came to: the bytes that arrived, and the error that ended it, if it fell
short. -/
structure Reception (ε : Type) where
  bytes : List UInt8
  error : Option (Error ε)
  deriving DecidableEq, Repr

namespace Reception

variable {ε : Type}

/-- A buffer whose front is overwritten by the received bytes. -/
def fill (r : Reception ε) (buffer : List UInt8) : List UInt8 :=
  r.bytes ++ buffer.drop r.bytes.length

theorem fill_length (r : Reception ε) (buffer : List UInt8) (h : r.bytes.length ≤ buffer.length) :
    (r.fill buffer).length = buffer.length := by
  simp only [fill, List.length_append, List.length_drop]
  omega

/-- The front of a buffer fills it with what is there. -/
theorem fill_take (buffer : List UInt8) (n : Nat) (e : Option (Error ε)) :
    (⟨buffer.take n, e⟩ : Reception ε).fill buffer = buffer := by
  simp only [fill, List.length_take]
  rcases Nat.le_total n buffer.length with h | h
  · rw [Nat.min_eq_left h, List.take_append_drop]
  · rw [Nat.min_eq_right h, List.take_of_length_le h, List.drop_length, List.append_nil]

/-- What is written among the received bytes is overwritten by them. -/
theorem fill_set (r : Reception ε) (buffer : List UInt8) {n : Nat} (b : UInt8)
    (h : n < r.bytes.length) : r.fill (buffer.set n b) = r.fill buffer := by
  rw [fill, fill, List.drop_set_of_lt h]

end Reception

namespace Link

variable {ε α β : Type}

/-- A single request, which cannot fail by itself. -/
def request (r : Request) : Link ε (r.Answer ε) :=
  ExceptT.mk (Dialogue.ask r fun a => .done (.ok a))

/-- Ends with an error. -/
def fail (e : Error ε) : Link ε α := ExceptT.mk (.done (.error (.error e)))

/-- The value of an exact computation; a fault ends the operation. -/
def exact (c : Checked α) : Link ε α :=
  match c with
  | .ok a => ExceptT.mk (.done (.ok a))
  | .error f => ExceptT.mk (.done (.error (.fault f)))

/-- Reports a diagnostic. -/
def log (d : Diagnostic) : Link ε Unit := request (.log d)

/-- Lets time pass. -/
def delay (ms : Word) : Link ε Unit := request (.delay ms)

/-- Adds a stage to the link failures of an operation. -/
def during (stage : Stage) (x : Link ε α) : Link ε α :=
  ExceptT.mk (x.run.bind fun r => .done (r.mapError (·.during stage)))

/-! ## Sending -/

/-- The outcome of a port operation that had to settle. -/
def settled : Except ε Unit → Link ε Unit
  | .ok _ => ExceptT.mk (.done (.ok ()))
  | .error e => fail (.serial e)

/-- Sends the bytes in order, each as soon as the port takes it. -/
def send : List UInt8 → Link ε Unit
  | [] => ExceptT.mk (.done (.ok ()))
  | b :: bs => do
    let attempts ← request (.write b)
    settled attempts.settle
    send bs

/-- Waits until all written bytes have left. -/
def flush : Link ε Unit := do
  let attempts ← request .flush
  settled attempts.settle

/-! ## Receiving -/

/-- Fills the rest of a buffer that has `received` bytes in it, with the timer at `elapsed`. Gives the
buffer as it is in the end, and what the receive came to. -/
def receiveFrom (o : Options) (buffer : List UInt8) (received : Nat) (elapsed : Word) :
    Dialogue ε (List UInt8 × Reception ε) :=
  if _room : received < buffer.length then
    .ask .read fun sample =>
      match sample with
      | .byte b => receiveFrom o (buffer.set received b) (received + 1) elapsed
      | .failed e => .done (buffer, ⟨buffer.take received, some (.serial e)⟩)
      | .notReady =>
        if _h : elapsed < o.responseTimeout then
          .ask (.delay o.pollDelay) fun _ =>
            receiveFrom o buffer received (Word.addSaturating elapsed (max o.pollDelay 1))
        else
          .ask (.log (.receiveTimeout received buffer.length)) fun _ =>
            .done (buffer,
              ⟨buffer.take received, some (.responseTimeout buffer.length received)⟩)
  else .done (buffer, ⟨buffer.take received, none⟩)
termination_by (buffer.length - received, UInt32.size - elapsed.toNat)
decreasing_by
  · apply Prod.Lex.left
    rw [List.length_set]
    omega
  · apply Prod.Lex.right
    have pos : (0 : Word) < max o.pollDelay 1 := by
      have : (1 : Word) ≤ max o.pollDelay 1 := by
        show (1 : Word) ≤ if o.pollDelay ≤ 1 then 1 else o.pollDelay
        split
        · exact UInt32.le_refl _
        · rename_i h
          exact UInt32.le_of_lt (UInt32.not_le.mp h)
      exact UInt32.lt_of_lt_of_le (by decide) this
    have := Word.lt_addSaturating _h pos
    have := (Word.addSaturating elapsed (max o.pollDelay 1)).toNat_lt_size
    omega

/-- Fills a buffer, or as much of it as comes in time. -/
def receiveInto (o : Options) (buffer : List UInt8) : Dialogue ε (List UInt8 × Reception ε) :=
  receiveFrom o buffer 0 0

/-- Receives `n` bytes, or as many as come in time, into a buffer of zeros. -/
def receive (o : Options) (n : Nat) : Dialogue ε (Reception ε) :=
  (receiveInto o (List.replicate n 0)).bind fun r => .done r.2

/-- Receives exactly `n` bytes. -/
def receiveExactly (o : Options) (n : Nat) : Link ε (List UInt8) :=
  ExceptT.mk ((receive o n).bind fun r =>
    match r.error with
    | none => .done (.ok r.bytes)
    | some e => .done (.error (.error e)))

/-! ## Binary mode -/

/-- Puts the monitor into binary mode. It acknowledges with two bytes, whatever they are; a monitor
that is in binary mode already may leave them out. -/
def handshake (o : Options) : Link ε Unit := do
  log .binaryModeRequested
  send Command.binaryMode.header
  flush
  let ack ← ExceptT.lift (receive o Command.acknowledgementLength)
  match ack.error with
  | none => pure ()
  | some (.responseTimeout _ received) => log (.acknowledgementMissing received)
  | some e => fail e

end Link

end SamFlash
