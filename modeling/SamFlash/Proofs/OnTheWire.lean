import SamFlash.Proofs.History
import SamFlash.Proofs.InStep

/-!
# The discipline on the wire

`Disciplined` is about the operations that the host notes, and the host notes a command before its
first byte is sent. Here the same is said of what the port has taken: a word, a block or a branch
counts when the last byte of its command has been accepted, and a word that is read when its bytes
have come back (`Transcript.course`). This is what a flash controller sees.

The two views agree from one command boundary to the next. An operation that is put together from
the parts of a session (`Link.Composed`: handshake, reads and writes of the monitor, pieces of the
image, diagnostics and pauses) starts at a boundary and stops at one whenever the link did not fail,
and if the link failed in the middle of a command the wire shows what the host has noted but for
that command. So `Programmer.identify`, `Programmer.program` and `Programmer.setBootSource` inherit
the discipline, a prefix of a disciplined list being disciplined.

A call that breaks off in the middle of a command leaves its first bytes with the monitor, and what
the next call sends is read as the rest of it. A history is therefore followed on the wire up to the
end of the first such call: all calls but the last have to be `Turn.Whole`. Success, a locked page,
a busy plane, an image that cannot be read and an unknown chip leave a call whole; a port that fails
while bytes are written may not.

Results:
* `Link.Composed.shown`, `Turn.Held.shown`: what the wire shows of an operation and of a call,
  whether they come to their end or are broken off (`Transcript.Shown`).
* `Turn.Held.whole`: a call whose link did not fail stops between two commands.
* `Turn.Held.keeps_on_wire`, `History.keeps_on_wire`: one call keeps the discipline on the wire, and
  so do calls in a row.
* **`flash_discipline_on_wire`**: every history keeps it, up to a call that is broken off.
-/

namespace SamFlash

variable {ε α : Type} {o : Options} {c : Chip} {x : Link ε α} {P : Request → Prop}

/-! ## Operations between boundaries -/

/-- What the wire shows of exchanges that start at a command boundary and come to `r`: the first of
what the host notes, and if the link did not fail all of it, up to another boundary. -/
structure Transcript.Shown (t : Transcript ε) (r : Except (Failure ε) α) : Prop where
  breaks : ∃ script, t.Breaks script
  completes : Link.Unbroken r → ∃ script, t.Completes script

namespace Transcript.Shown

variable {β : Type} {s t : Transcript ε} {r : Except (Failure ε) α}

theorem of_completes {script : List Command} (h : t.Completes script) : t.Shown r :=
  ⟨⟨script, h.toBreaks⟩, fun _ => ⟨script, h⟩⟩

/-- A part that neither notes nor sends anything stays where it is. -/
theorem of_still (silent : t.operations = []) (unsent : t.accepted = []) : t.Shown r :=
  of_completes (completes_nil silent unsent)

/-- A failure is one of whatever was to come. -/
theorem of_error {f : Failure ε} (h : t.Shown (.error f : Except (Failure ε) β)) :
    t.Shown (.error f : Except (Failure ε) α) where
  breaks := h.breaks
  completes unbroken := h.completes fun g hg => unbroken g (by rw [Except.error.inj hg])

/-- What follows a success starts at the boundary where that one has stopped. -/
theorem append {a : β} (first : s.Shown (.ok a : Except (Failure ε) β)) (second : t.Shown r) :
    (s ++ t).Shown r := by
  obtain ⟨cs, done⟩ := first.completes (Link.unbroken_ok a)
  obtain ⟨ds, broken⟩ := second.breaks
  refine ⟨⟨cs ++ ds, done.breaks broken⟩, fun unbroken => ?_⟩
  obtain ⟨es, done'⟩ := second.completes unbroken
  exact ⟨cs ++ es, done.append done'⟩

end Transcript.Shown

namespace Link

open Transcript.Shown

/-- An operation that follows a script, however it goes. -/
theorem Follows.shown {script : List Command} {value : α → Prop}
    (hx : x.Follows script value Failure.IsBareLink) {t : Transcript ε}
    {r : Except (Failure ε) α} (ht : Held x t r) : t.Shown r := by
  cases r with
  | ok a => exact of_completes (hx.completes ht).1
  | error f =>
    obtain ⟨broken, -, link⟩ := hx.breaks ht
    exact ⟨⟨script, broken⟩, fun unbroken => absurd link.isLink (unbroken f rfl)⟩

/-- **What the wire shows of a composed operation**: the first of what the host notes, and all of it
if the link did not fail. -/
theorem Composed.shown (h : Composed o P x) {t : Transcript ε} {r : Except (Failure ε) α}
    (ht : Held x t r) : t.Shown r := by
  induction h generalizing t with
  | pure a =>
    obtain ⟨rfl, -⟩ := held_pure_iff.mp ht
    exact of_still rfl rfl
  | fail _ =>
    obtain ⟨rfl, -⟩ := held_fail_iff.mp ht
    exact of_still rfl rfl
  | log silent _ =>
    obtain ⟨_, rfl, -⟩ := held_request_iff.mp ht
    exact of_still (by simp [Transcript.operations, silent]) rfl
  | delay _ =>
    obtain ⟨_, rfl, -⟩ := held_request_iff.mp ht
    exact of_still rfl rfl
  | progress _ =>
    obtain ⟨_, rfl, -⟩ := held_request_iff.mp ht
    exact of_still rfl rfl
  | image _ =>
    have took := Image.took_read ht
    exact of_still took.operations took.accepted
  | handshake => exact (follows_handshake o).shown ht
  | readWord _ => exact (Monitor.follows_readWord o _).shown ht
  | writeWord _ => exact (Monitor.follows_writeWord _ _).shown ht
  | writeBlock fits _ => exact (Monitor.follows_writeBlock _ fits).shown ht
  | go _ => exact (Monitor.follows_go _).shown ht
  | during stage _ ih =>
    obtain ⟨r', hr, rfl⟩ := held_during_iff.mp ht
    refine ⟨(ih hr).breaks, fun unbroken => (ih hr).completes ?_⟩
    -- a failure of the link is one at every stage
    rintro f rfl link
    exact unbroken _ rfl ((Failure.isLink_during stage f).mpr link)
  | bind _ _ ih₁ ih₂ =>
    rcases held_bind_iff.mp ht with ⟨f, h₁, rfl⟩ | ⟨a, t₁, t₂, h₁, h₂, rfl⟩
    · exact of_error (ih₁ h₁)
    · exact (ih₁ h₁).append (ih₂ h₁ h₂)

end Link

/-! ## Calls -/

/-- The call stops between two commands of those that the port has taken. -/
def Turn.Whole (v : Turn ε) : Prop :=
  (Reader.start.feedAll v.exchanges.accepted).1 = Reader.start

namespace Turn

open Link Transcript.Shown

variable {v : Turn ε}

/-- **What the wire shows of a call**, like that of the operations that it consists of. -/
theorem Held.shown (h : v.Held o) (hp : v.before.Knows) : v.exchanges.Shown v.result := by
  cases h.course with
  | lost f _ asked result _ =>
    rw [result]
    exact of_error (Programmer.composed_findChip.shown asked)
  | worked c s u gets work exchanges _ _ =>
    have found : s.Shown (.ok c : Except (Failure ε) Chip) := by
      rcases gets with ⟨-, asked⟩ | ⟨-, -, rfl⟩
      · exact Programmer.composed_findChip.shown asked
      · exact of_still rfl rfl
    rw [exchanges]
    exact found.append ((Task.accurate_work (gets.mem hp) v.task).shown work)

/-- A call whose link did not fail stops between two commands. -/
theorem Held.whole (h : v.Held o) (hp : v.before.Knows) (unbroken : Unbroken v.result) :
    v.Whole := by
  obtain ⟨_, done⟩ := (h.shown hp).completes unbroken
  exact done.boundary

/-- **One call keeps the discipline on the wire.** -/
theorem Held.keeps_on_wire (h : v.Held o) (hp : v.before.Knows) (hc : c ∈ Chip.all) :
    Keeps c (v.exchanges.course Reader.start) (v.task.Flashes ∧ v.result = .ok ()) ∧
      v.after.Knows := by
  obtain ⟨keeps, knows⟩ := Task.keeps hc hp h
  obtain ⟨_, broken⟩ := (h.shown hp).breaks
  refine ⟨keeps.of_prefix broken.course fun done => ?_, knows⟩
  obtain ⟨_, whole⟩ := (h.shown hp).completes (done.2 ▸ unbroken_ok ())
  exact whole.course

end Turn

/-! ## Histories -/

/-- What the wire shows of calls, one after the other. -/
def Turn.onWire (vs : List (Turn ε)) : List Operation :=
  Transcript.course Reader.start (vs.flatMap Turn.exchanges)

/-- The calls behind one that stopped between two commands show what they would show without it. -/
theorem Turn.onWire_cons {v : Turn ε} (h : v.Whole) (vs : List (Turn ε)) :
    onWire (v :: vs) = v.exchanges.course Reader.start ++ onWire vs := by
  rw [onWire, List.flatMap_cons, Transcript.course_append, h, onWire]

/-- **Calls in a row keep the discipline on the wire**, as long as each of them begins between two
commands. -/
theorem History.keeps_on_wire {p q : Programmer} {vs : List (Turn ε)} (h : History o p vs q)
    (hp : p.Knows) (hc : c ∈ Chip.all) (whole : ∀ v ∈ vs.dropLast, v.Whole) :
    Keeps c (Turn.onWire vs)
      (∃ v, vs.getLast? = some v ∧ v.task.Flashes ∧ v.result = .ok ()) := by
  induction h with
  | nil p => exact Keeps.nil.mono (by simp)
  | @cons v vs q held rest ih =>
    obtain ⟨keeps, knows⟩ := held.keeps_on_wire hp hc
    cases vs with
    | nil => simpa [Turn.onWire] using keeps
    -- what is settled in the end is up to the last call alone
    | cons w ws =>
      rw [Turn.onWire_cons (whole v (by simp))]
      refine (keeps.append (ih knows fun u hu => whole u ?_)).mono ?_
      · rw [List.dropLast_cons_cons]
        exact List.mem_cons_of_mem v hu
      · simp only [List.getLast?_cons_cons, imp_self]

/-- **Flash command discipline on the wire.** Whatever calls a new programmer gets, and whatever
answers them: as long as no call but the last is broken off in the middle of a command, every command
word and every branch that reaches the target comes when flash is settled; and when the last call
commands flash and succeeds, flash is settled behind it. -/
theorem flash_discipline_on_wire {p : Programmer} {vs : List (Turn ε)} (h : History o {} vs p)
    (hc : c ∈ Chip.all) (whole : ∀ v ∈ vs.dropLast, v.Whole) :
    Disciplined c (Turn.onWire vs) ∧
      ∀ v, vs.getLast? = some v → v.task.Flashes → v.result = .ok () →
        Settled c (Turn.onWire vs) := by
  have keeps := h.keeps_on_wire Programmer.atRest_new.knows hc whole
  exact ⟨keeps.disciplined throughout_nil,
    fun v last flashes ok => keeps.settled ⟨v, last, flashes, ok⟩ throughout_nil⟩

/-- An image is written to a target that was not identified, and flash is settled all the same. -/
theorem flash_discipline_on_wire_swapped :
    Settled Bench.part (Turn.onWire [Turn.known, Turn.strange, Turn.stale]) := by
  have unbroken : ∀ v ∈ [Turn.known, Turn.strange], Link.Unbroken v.result := by
    intro v hv
    rcases List.mem_pair.mp hv with rfl | rfl
    · exact Turn.known_goes.1 ▸ Link.unbroken_ok ()
    · rw [Turn.strange_goes.1]
      rintro f ⟨⟩
      exact id
  have lawful := (History.swapped.lawful Programmer.atRest_new).2
  have whole : ∀ v ∈ [Turn.known, Turn.strange, Turn.stale].dropLast, v.Whole := fun v hv =>
    have turn := lawful v (List.dropLast_subset _ hv)
    turn.2.1.whole turn.1.knows (unbroken v hv)
  exact (flash_discipline_on_wire History.swapped (by decide) whole).2 Turn.stale rfl
    Nat.one_pos Turn.stale_goes.1

end SamFlash
