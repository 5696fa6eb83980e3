import SamFlash.FlashController.Access
import SamFlash.Proofs.Held
import SamFlash.Proofs.Wire

/-!
# Operations in a transcript

What the monitor is made to do, seen from both ends. The host notes every operation: a word when it
has been read, a word, a block or a branch before its first byte is sent. These notes are the
diagnostics of `Monitor.readWord`, `Monitor.writeWord`, `Monitor.writeBlock` and `Monitor.go`, so
they come in the order in which the host does things, also when an operation fails on the way. On
the wire an operation shows when it is done: a word when it has been read, the others when the port
has taken the last byte of their command. `operations` is the host's view and `course` the one on
the wire; `effects` are the commands that the port has taken and that can change the target.

The views differ within a command and agree between two of them. An operation that comes to its end
leads from one command boundary to another, and the wire shows what the host has noted
(`Transcript.Completes`); one that fails shows the first part of that (`Transcript.Breaks`). Both
are stated with the script of commands that is to be given, and both are put together piece by
piece.

A property of operations in their order is `Throughout`: it holds of each of them, given the
operations before it. The discipline of flash commands and the use of the staging buffers are of
this kind.

Results:
* `Transcript.course_append`: the course of two transcripts in a row.
* `Transcript.Completes.append`, `Transcript.Completes.breaks`: from one command boundary to the
  next, and from a boundary to a failure.
* `Throughout.concat`: what holds at every operation, with one more operation.
-/

namespace SamFlash

variable {ε α β : Type}

/-! ## Operations -/

/-- Something that the monitor is made to do. -/
inductive Operation where
  /-- The word at an address is read. -/
  | read (addr value : Word)
  /-- A word is stored. -/
  | write (addr value : Word)
  /-- A block of bytes is stored. -/
  | store (addr : Word) (length : Nat)
  /-- The code at an address is run. -/
  | branch (addr : Word)
  deriving DecidableEq, Repr

/-- The operation that a command asks for, if nothing has to come back for it. -/
def Command.operation? : Command → Option Operation
  | binaryMode => none
  | readWord _ => none
  | writeWord addr value => some (.write addr value)
  | writeBlock addr data => some (.store addr data.length)
  | go addr => some (.branch addr)

/-- The command can change what is on the target. -/
def Command.changes : Command → Bool
  | binaryMode => false
  | readWord _ => false
  | writeWord .. => true
  | writeBlock .. => true
  | go _ => true

namespace Exchange

/-- The operation that the host notes. -/
def operation? : Exchange ε → Option Operation
  | ⟨.log (.wordRead addr value), _⟩ => some (.read addr value)
  | ⟨.log (.wordWritten addr value), _⟩ => some (.write addr value)
  | ⟨.log (.blockWritten addr length), _⟩ => some (.store addr length)
  | ⟨.log (.branched addr), _⟩ => some (.branch addr)
  | _ => none

/-- The word that has been read. -/
def value? : Exchange ε → Option Operation
  | ⟨.log (.wordRead addr value), _⟩ => some (.read addr value)
  | _ => none

theorem value?_of_operation? {x : Exchange ε} (h : x.operation? = none) : x.value? = none := by
  unfold value?
  split
  · exact absurd h (by simp [operation?])
  · rfl

end Exchange

namespace Transcript

/-- The operations of the host, in order. -/
def operations (t : Transcript ε) : List Operation := t.filterMap Exchange.operation?

/-- The commands that the port was given in full and that can change the target. -/
def effects (t : Transcript ε) : List Command := t.commands.filter Command.changes

/-- The operations as they are done on the wire, in order, with the reader at `r`. -/
def course : Reader → Transcript ε → List Operation
  | _, [] => []
  | r, x :: t =>
    match x.accepted? with
    | some b => ((r.feed b).2.bind Command.operation?).toList ++ course (r.feed b).1 t
    | none => x.value?.toList ++ course r t

theorem operations_append (s t : Transcript ε) :
    operations (s ++ t) = operations s ++ operations t :=
  List.filterMap_append

theorem accepted_cons (x : Exchange ε) (t : Transcript ε) :
    accepted (x :: t) = x.accepted?.toList ++ accepted t := by
  unfold accepted
  rw [List.filterMap_cons]
  cases x.accepted? <;> rfl

theorem course_append (r : Reader) (s t : Transcript ε) :
    course r (s ++ t) = course r s ++ course (r.feedAll s.accepted).1 t := by
  induction s generalizing r with
  | nil => rfl
  | cons x s ih =>
    rw [List.cons_append, course, course, accepted_cons]
    cases h : x.accepted? with
    | none => simp only [ih, List.append_assoc, Option.toList_none, List.nil_append]
    | some b =>
      simp only [ih, List.append_assoc, Option.toList_some, List.cons_append, List.nil_append,
        Reader.feedAll_cons]

/-! ## Exchanges that are no operation -/

/-- No operation is noted and nothing of the image is taken. -/
def Plain (t : Transcript ε) : Prop := ∀ x ∈ t, x.operation? = none ∧ x.taken = []

theorem Plain.append {s t : Transcript ε} (hs : s.Plain) (ht : t.Plain) : (s ++ t).Plain := by
  intro x hx
  rcases List.mem_append.mp hx with hx | hx
  · exact hs x hx
  · exact ht x hx

theorem Plain.taken_eq {t : Transcript ε} (h : t.Plain) : t.taken = [] :=
  List.flatMap_eq_nil_iff.mpr fun x hx => (h x hx).2

/-- Where no operation is noted, the course is that of the commands that are completed. -/
theorem course_of_unnoted {t : Transcript ε} (h : t.operations = []) (r : Reader) :
    t.course r = (r.feedAll t.accepted).2.filterMap Command.operation? := by
  induction t generalizing r with
  | nil => rfl
  | cons x t ih =>
    have hall := List.filterMap_eq_nil_iff.mp h
    have hx := Exchange.value?_of_operation? (hall x List.mem_cons_self)
    have ih := ih (List.filterMap_eq_nil_iff.mpr fun y hy => hall y (List.mem_cons_of_mem x hy))
    rw [course, accepted_cons]
    cases hb : x.accepted? with
    | none => simp only [hx, ih, Option.toList_none, List.nil_append]
    | some b =>
      simp only [ih, Option.toList_some, List.cons_append, List.nil_append, Reader.feedAll_cons,
        List.filterMap_append]
      cases (r.feed b).2 with
      | none => rfl
      | some c => cases hc : c.operation? <;> simp [hc]

theorem Plain.operations_eq {t : Transcript ε} (h : t.Plain) : t.operations = [] :=
  List.filterMap_eq_nil_iff.mpr fun x hx => (h x hx).1

theorem Plain.course_eq {t : Transcript ε} (h : t.Plain) (r : Reader) :
    t.course r = (r.feedAll t.accepted).2.filterMap Command.operation? :=
  course_of_unnoted h.operations_eq r

/-! ## From boundary to boundary -/

/-- From one command boundary to another: the commands of the script are given in full, and the wire
shows what the host notes. -/
structure Completes (t : Transcript ε) (script : List Command) : Prop where
  boundary : (Reader.start.feedAll t.accepted).1 = Reader.start
  effects : t.effects = script
  course : t.course Reader.start = t.operations

/-- From a command boundary to anywhere: first commands of the script are given in full, and the
wire shows the first of what the host notes. -/
structure Breaks (t : Transcript ε) (script : List Command) : Prop where
  effects : t.effects <+: script
  course : t.course Reader.start <+: t.operations

variable {s t : Transcript ε} {cs ds : List Command}

theorem effects_append (h : (Reader.start.feedAll s.accepted).1 = Reader.start) :
    (s ++ t).effects = s.effects ++ t.effects := by
  unfold effects
  rw [commands_append, h, List.filter_append]
  rfl

theorem boundary_append (h : (Reader.start.feedAll s.accepted).1 = Reader.start) :
    (Reader.start.feedAll (s ++ t).accepted).1 = (Reader.start.feedAll t.accepted).1 := by
  rw [accepted_append, Reader.feedAll_append, h]

theorem Completes.append (hs : s.Completes cs) (ht : t.Completes ds) :
    (s ++ t).Completes (cs ++ ds) where
  boundary := (boundary_append hs.boundary).trans ht.boundary
  effects := by rw [effects_append hs.boundary, hs.effects, ht.effects]
  course := by rw [course_append, hs.boundary, hs.course, ht.course, operations_append]

theorem Completes.breaks (hs : s.Completes cs) (ht : t.Breaks ds) :
    (s ++ t).Breaks (cs ++ ds) where
  effects := by
    rw [effects_append hs.boundary, hs.effects]
    exact (List.prefix_append_right_inj cs).mpr ht.effects
  course := by
    rw [course_append, hs.boundary, hs.course, operations_append]
    exact (List.prefix_append_right_inj _).mpr ht.course

theorem Breaks.mono (h : t.Breaks cs) (hp : cs <+: ds) : t.Breaks ds :=
  ⟨h.effects.trans hp, h.course⟩

/-- Exchanges that note nothing and send nothing complete nothing. -/
theorem completes_nil (h : t.operations = []) (ha : t.accepted = []) : t.Completes [] where
  boundary := by rw [ha]; rfl
  effects := by unfold effects commands; rw [ha]; rfl
  course := by rw [course_of_unnoted h, h, ha]; rfl

theorem Completes.toBreaks (h : t.Completes cs) : t.Breaks cs where
  effects := h.effects ▸ List.prefix_rfl
  course := h.course ▸ List.prefix_rfl

end Transcript

/-! ## At every operation -/

/-- Every operation stands to the operations before it as `P` says. -/
def Throughout (P : List Operation → Operation → Prop) (es : List Operation) : Prop :=
  ∀ front op back, es = front ++ op :: back → P front op

section Throughout

variable {P : List Operation → Operation → Prop} {es ops : List Operation}

theorem throughout_nil : Throughout P [] := by
  intro front op back h
  exact absurd h (by simp)

/-- One more operation. -/
theorem Throughout.concat (h : Throughout P es) {op : Operation} (hop : P es op) :
    Throughout P (es ++ [op]) := by
  intro front op' back he
  rcases List.eq_nil_or_concat back with rfl | ⟨back, last, rfl⟩
  · obtain ⟨rfl, hx⟩ := List.append_inj' he rfl
    obtain ⟨rfl, -⟩ := List.cons.inj hx
    exact hop
  · rw [List.concat_eq_append, ← List.cons_append, ← List.append_assoc] at he
    exact h front op' back (List.append_inj' he rfl).1

theorem Throughout.of_prefix (h : Throughout P es) (hp : ops <+: es) : Throughout P ops := by
  obtain ⟨rest, rfl⟩ := hp
  rintro front op back rfl
  exact h front op (back ++ rest) (by rw [List.append_assoc, List.cons_append])

end Throughout

end SamFlash
