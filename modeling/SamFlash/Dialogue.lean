import SamFlash.Diagnostic

/-!
# Dialogues

Everything the library does to the world is a request with an answer: put a byte on the port, wait,
take a few bytes of the image, tell a listener something. A `Dialogue` is a program over these
requests, as a tree: it is finished with a result, or it asks and continues with whatever is
answered. The tree says which requests are made and in what order, for every possible way to answer
them; a `Device` is one such way.

A port operation may have to be tried again and again until the port is ready, and reading the
image may be interrupted any number of times. The answers to those requests are therefore finite
lists of refusals with an outcome at their end, and `Attempts.settle` and `Delivery.settle` take
them to that outcome.

Results:
* `Dialogue.bind_assoc` and its kin: dialogues form a lawful monad.
* `Dialogue.run_bind`: running a sequence is running its parts one after the other.
* `Dialogue.Held.of_run`: what a device is asked, with what it answers, is a transcript of the
  dialogue; `Dialogue.held_bind_iff` splits the transcript of a sequence.
-/

namespace SamFlash

/-! ## Answers -/

/-- What trying to write or flush comes to, attempt by attempt. -/
inductive Attempts (ε : Type) where
  | accepted
  | failed (e : ε)
  | notReady (later : Attempts ε)
  deriving DecidableEq, Repr

/-- Tries until the port is ready. -/
def Attempts.settle {ε : Type} : Attempts ε → Except ε Unit
  | accepted => .ok ()
  | failed e => .error e
  | notReady later => later.settle

/-- What one look at the receiving side of the port gives. -/
inductive Sample (ε : Type) where
  | byte (b : UInt8)
  | notReady
  | failed (e : ε)
  deriving DecidableEq, Repr

/-- What asking for up to `limit` bytes of the image comes to, attempt by attempt. No bytes at all
means that the image is at its end. -/
inductive Delivery (limit : Nat) where
  | bytes (data : List UInt8) (within : data.length ≤ limit)
  | failed (kind : IoKind) (lasting : kind ≠ .interrupted)
  | interrupted (later : Delivery limit)

/-- Asks again after every interruption. -/
def Delivery.settle {limit : Nat} : Delivery limit → Except IoKind { d : List UInt8 // d.length ≤ limit }
  | bytes data within => .ok ⟨data, within⟩
  | failed kind _ => .error kind
  | interrupted later => later.settle

/-- A failure of the operating system: its text and its number. -/
structure SystemFault where
  text : String
  code : Nat
  deriving DecidableEq, Repr

/-- How a serial line is set up. -/
structure LineSettings where
  baud : Nat
  dataBits : Nat
  stopBits : Nat
  parity : Bool
  hardwareFlow : Bool
  softwareFlow : Bool
  deriving DecidableEq, Repr

/-- What someone watching the progress is told. -/
inductive Progress where
  /-- `total` pages from `addr` on are about to be written. -/
  | begin (addr : Word) (total : Nat)
  /-- So many pages have been handed to the flash controller. -/
  | advance (pages : Nat)
  /-- All is done. -/
  | finish
  deriving DecidableEq, Repr

/-! ## Requests -/

/-- What a dialogue can ask. -/
inductive Request where
  /-- Put a byte on the port. -/
  | write (b : UInt8)
  /-- Wait until all written bytes have left. -/
  | flush
  /-- Look for a received byte. -/
  | read
  /-- Let some milliseconds pass. -/
  | delay (ms : Word)
  /-- Take note of a diagnostic. -/
  | log (d : Diagnostic)
  /-- Take note of progress. -/
  | progress (p : Progress)
  /-- Give up to `limit` further bytes of the image. -/
  | image (limit : Nat)
  /-- Open a serial port. -/
  | openPort (path : String)
  /-- Set up the line of the opened port. -/
  | configure (line : LineSettings)
  /-- Open an image file and say how many bytes it has. -/
  | openImage (path : String)
  deriving DecidableEq, Repr

/-- The answers that a request can have. -/
@[reducible] def Request.Answer (ε : Type) : Request → Type
  | write _ => Attempts ε
  | flush => Attempts ε
  | read => Sample ε
  | delay _ => Unit
  | log _ => Unit
  | progress _ => Unit
  | image limit => Delivery limit
  | openPort _ => Except SystemFault Unit
  | configure _ => Except SystemFault Unit
  | openImage _ => Except SystemFault Nat

/-- A program over requests. -/
inductive Dialogue (ε : Type) (α : Type) where
  | done (a : α)
  | ask (r : Request) (next : r.Answer ε → Dialogue ε α)

namespace Dialogue

variable {ε α β γ σ : Type}

/-- Continues a dialogue with its result. -/
def bind : Dialogue ε α → (α → Dialogue ε β) → Dialogue ε β
  | done a, f => f a
  | ask r next, f => ask r fun a => (next a).bind f

instance : Monad (Dialogue ε) where
  pure := done
  bind := bind

/-- A single request. -/
def request (r : Request) : Dialogue ε (r.Answer ε) := ask r done

theorem bind_done (x : Dialogue ε α) : x.bind done = x := by
  induction x with
  | done a => rfl
  | ask r next ih => simp only [bind, ih]

theorem bind_assoc (x : Dialogue ε α) (f : α → Dialogue ε β) (g : β → Dialogue ε γ) :
    (x.bind f).bind g = x.bind fun a => (f a).bind g := by
  induction x with
  | done a => rfl
  | ask r next ih => simp only [bind, ih]

instance : LawfulMonad (Dialogue ε) :=
  LawfulMonad.mk' (Dialogue ε) bind_done (fun _ _ => rfl) bind_assoc

/-! ## Devices -/

end Dialogue

/-- A way to answer every request, with a state that the answers may depend on. -/
structure Device (σ ε : Type) where
  answer : (r : Request) → σ → r.Answer ε × σ

namespace Dialogue

variable {ε α β σ : Type}

/-- Holds the dialogue with a device. -/
def run (d : Device σ ε) : Dialogue ε α → σ → α × σ
  | done a, s => (a, s)
  | ask r next, s => run d (next (d.answer r s).1) (d.answer r s).2

/-- Holds the dialogue in a monad that can answer. -/
@[specialize] def interpret {m : Type → Type} [Monad m] (answer : (r : Request) → m (r.Answer ε)) :
    Dialogue ε α → m α
  | done a => pure a
  | ask r next => do
    let a ← answer r
    interpret answer (next a)

theorem run_bind (d : Device σ ε) (x : Dialogue ε α) (f : α → Dialogue ε β) (s : σ) :
    run d (x.bind f) s = run d (f (run d x s).1) (run d x s).2 := by
  induction x generalizing s with
  | done a => rfl
  | ask r next ih => exact ih _ _

/-! ## Transcripts -/

end Dialogue

/-- A request with the answer it was given. -/
structure Exchange (ε : Type) where
  request : Request
  answer : request.Answer ε

namespace Dialogue

variable {ε α β σ : Type}

/-- `Held x t a`: the dialogue `x` can be held with the exchanges `t`, in order, and then has the
result `a`. -/
inductive Held : Dialogue ε α → List (Exchange ε) → α → Prop where
  | done (a : α) : Held (.done a) [] a
  | ask {r : Request} {next : r.Answer ε → Dialogue ε α} {t : List (Exchange ε)} {b : α}
      (a : r.Answer ε) (rest : Held (next a) t b) : Held (.ask r next) (⟨r, a⟩ :: t) b

/-- The exchanges of a dialogue held with a device. -/
def transcript (d : Device σ ε) : Dialogue ε α → σ → List (Exchange ε)
  | done _, _ => []
  | ask r next, s =>
    ⟨r, (d.answer r s).1⟩ :: transcript d (next (d.answer r s).1) (d.answer r s).2

theorem transcript_bind (d : Device σ ε) (x : Dialogue ε α) (f : α → Dialogue ε β) (s : σ) :
    transcript d (x.bind f) s =
      transcript d x s ++ transcript d (f (run d x s).1) (run d x s).2 := by
  induction x generalizing s with
  | done a => rfl
  | ask r next ih => exact congrArg (List.cons _) (ih _ _)

theorem Held.of_run (d : Device σ ε) (x : Dialogue ε α) (s : σ) :
    Held x (transcript d x s) (run d x s).1 := by
  induction x generalizing s with
  | done a => exact Held.done a
  | ask r next ih => exact Held.ask _ (ih _ _)

theorem held_done_iff {a b : α} {t : List (Exchange ε)} :
    Held (.done a) t b ↔ t = [] ∧ b = a := by
  constructor
  · rintro ⟨⟩
    exact ⟨rfl, rfl⟩
  · rintro ⟨rfl, rfl⟩
    exact Held.done _

theorem held_bind_iff {x : Dialogue ε α} {f : α → Dialogue ε β} {t : List (Exchange ε)} {b : β} :
    Held (x.bind f) t b ↔ ∃ a t₁ t₂, Held x t₁ a ∧ Held (f a) t₂ b ∧ t = t₁ ++ t₂ := by
  constructor
  · intro h
    induction x generalizing t with
    | done a => exact ⟨a, [], t, Held.done a, h, rfl⟩
    | ask r next ih =>
      cases h with
      | ask ans rest =>
        obtain ⟨a, t₁, t₂, h₁, h₂, rfl⟩ := ih ans rest
        exact ⟨a, _, t₂, Held.ask ans h₁, h₂, rfl⟩
  · rintro ⟨a, t₁, t₂, h₁, h₂, rfl⟩
    induction h₁ with
    | done a => exact h₂
    | ask ans _ ih => exact Held.ask ans (ih h₂)

end Dialogue

end SamFlash
