import SamFlash.Proofs.History
import SamFlash.Proofs.InStep

/-!
# Retries

A call that failed for any other reason than the link can be made again at once. Whatever it failed
for, an image that is too large or cannot be read, a locked page, a plane that never became ready, a
chip that is not in the table, the call stopped between two commands and behind a whole reply; and
nothing of it is remembered but that it failed. A program call that follows it does exactly what it
does on a programmer that has just been connected: it loads the applet anew and starts with the
first page in the first staging buffer (`Script.program`).

The two parts are independent of each other. That the line is idle again is about what has passed
over it, and follows turn by turn from what `Link.Composed.inStep` says of every operation. That the
call is the same is about the programmer alone: `Programmer.program` reads nothing of what is
remembered but the chip, and marks the session as programming before it writes and as complete
behind it, so two programmers with the same chip hold the same dialogue, and end the same. Equality
is between the dialogues, for any answers.

Replies to reads may be late, since a reply that is too late is a failure of the link; the
acknowledgement of binary mode must come in time or not at all.

Results:
* `Turn.Held.idle`, `History.idle`: a call leaves the line idle, and so do calls in a row.
* `Programmer.run_program_eq`: a program call with a known chip does not depend on the state of the
  session.
* **`retry_restarts`**: the two together, over every history of a new programmer.
-/

namespace SamFlash

variable {ε : Type} {m : Manner} {o : Options} {c : Chip}

open Link

/-! ## Calls in a row -/

/-- **A call** of which the link did not fail leaves host and monitor in step. -/
theorem Turn.Held.idle {v : Turn ε} (h : v.Held o) (hp : v.before.Knows)
    (hm : ¬ m.late .binaryMode) {l l' : Line} (hl : l.Idle) (hs : l.Serves m o v.exchanges l')
    (hu : Unbroken v.result) : l'.Idle := by
  cases h.course with
  | lost f _ asked result _ =>
    refine ((Programmer.inStep_findChip hm).keeps asked hs hl).2 fun g hg => ?_
    obtain rfl := Except.error.inj hg
    exact hu f result
  | worked c s u gets work exchanges _ _ =>
    rw [exchanges] at hs
    obtain ⟨mid, hs₁, hs₂⟩ := Line.serves_append_iff.mp hs
    have found : mid.Idle := by
      rcases gets with ⟨-, hf⟩ | ⟨-, -, rfl⟩
      · exact ((Programmer.inStep_findChip hm).keeps hf hs₁ hl).2 (unbroken_ok c)
      · obtain rfl := hs₁
        exact hl
    exact (((Task.accurate_work (gets.mem hp) v.task).inStep hm).keeps work hs₂ found).2 hu

/-- **Calls in a row** of which the link never failed leave host and monitor in step. -/
theorem History.idle {p q : Programmer} {vs : List (Turn ε)} (h : History o p vs q)
    (hp : p.AtRest) (hm : ¬ m.late .binaryMode) {l l' : Line} (hl : l.Idle)
    (hs : l.Serves m o (vs.flatMap Turn.exchanges) l')
    (hu : ∀ v ∈ vs, Unbroken v.result) : l'.Idle := by
  induction h generalizing l with
  | nil p =>
    obtain rfl := hs
    exact hl
  | @cons v vs q held _ ih =>
    rw [List.flatMap_cons] at hs
    obtain ⟨mid, hs₁, hs₂⟩ := Line.serves_append_iff.mp hs
    have first := held.idle hp.knows hm hl hs₁ (hu v List.mem_cons_self)
    exact ih (held.lawful hp).rest first hs₂ fun w hw => hu w (List.mem_cons_of_mem v hw)

/-! ## Starting over -/

namespace Programmer

/-- What a program call does from the number of its pages on. -/
def carryOut (o : Options) (c : Chip) (size : Nat) (observed : Bool) (pages : Nat) : Call ε Unit :=
  if pages = 0 then ofLink (Link.log .imageEmpty) >>= fun _ => enter .complete
  else enter .programming >>= fun _ =>
    ofLink (writePages o c size pages observed) >>= fun _ => enter .complete

/-- A program call with a known chip begins with the number of its pages. -/
theorem run_program_of_known (phase : Phase) (size : Nat) (observed : Bool) :
    (program o size observed : Call ε Unit).run ⟨phase, some c⟩ =
      (tracked (ofLink (pagesOf c size) >>= carryOut o c size observed)).run ⟨phase, some c⟩ := rfl

/-- **A program call with a known chip** does not depend on how the session went before: whatever it
is answered, it asks the same, and ends the same way. -/
theorem run_program_eq (hc : c ∈ Chip.all) {p : Programmer} (hp : p.chip = some c) (size : Nat)
    (observed : Bool) :
    (program o size observed : Call ε Unit).run p =
      (program o size observed).run { phase := .connected, chip := some c } := by
  obtain ⟨phase, chip⟩ := p
  obtain rfl : chip = some c := hp
  have sound := Chip.sound_of_mem hc
  rw [run_program_of_known, run_program_of_known]
  by_cases hs : size ≤ c.pages * c.pageSize
  · rw [pagesOf_eq sound hs]
    show (tracked (carryOut o c size observed (c.pagesFor size))).run _ =
      (tracked (carryOut o c size observed (c.pagesFor size))).run _
    unfold carryOut
    by_cases hn : c.pagesFor size = 0
    · rw [if_pos hn]
      rfl
    · rw [if_neg hn]
      rfl
  · rw [pagesOf_eq_of_lt sound (by omega)]
    rfl

end Programmer

/-- **A retry is a clean restart.** After any calls of a new programmer on an idle line, of which
none failed by the link, the line is idle again. From there a program call with a chip that is known
is the same as that of a freshly connected programmer, and it starts at the beginning. -/
theorem retry_restarts {vs : List (Turn ε)} {p : Programmer} (h : History o {} vs p)
    (hm : ¬ m.late .binaryMode) {l l' : Line} (hl : l.Idle)
    (hs : l.Serves m o (vs.flatMap Turn.exchanges) l')
    (hu : ∀ v ∈ vs, Unbroken v.result) :
    l'.Idle ∧ ∀ c, p.chip = some c → ∀ size observed,
      (Programmer.program o size observed : Programmer.Call ε Unit).run p =
          (Programmer.program o size observed).run { phase := .connected, chip := some c } ∧
        ∀ {t : Transcript ε} {r q}, Programmer.Held (Programmer.program o size observed) p t r q →
          t.effects <+: Script.program o c (t.taken.take size) (c.pagesFor size) ∧
          (r = .ok () → 0 < size →
            t.effects = Script.program o c (t.taken.take size) (c.pagesFor size)) := by
  have rest := (h.lawful Programmer.atRest_new).1
  refine ⟨h.idle Programmer.atRest_new hm hl hs hu, fun c hc size observed => ?_⟩
  have known := rest.knows c hc
  exact ⟨Programmer.run_program_eq known hc size observed, Programmer.effects_of_known known hc⟩

/-! ## A retry on a rig -/

namespace Turn

/-- The part on the bench is identified. -/
def acquaintance : Turn Unit :=
  ofRun (Rig.device [0x0a, 0x0d] (Bench.steadyWords Bench.part)) (Rig.fresh 0 []) {} .identify {}

/-- An image of one byte is to be written, but it has none. -/
def cutOff : Turn Unit :=
  ofRun (Rig.device [0x0a, 0x0d] (Bench.steadyWords Bench.part)) (Rig.fresh 0 []) {}
    (.program 1 false) acquainted

theorem acquaintance_goes : acquaintance.after = acquainted ∧ acquaintance.result = .ok () ∧
    (Dialogue.run (ε := Unit) (Rig.device [0x0a, 0x0d] (Bench.steadyWords Bench.part))
      (Task.identify.call {} {}) (Rig.fresh 0 [])).2 = Rig.fresh 0 [] := by
  refine ⟨?_, ?_, ?_⟩ <;> cbv

set_option maxRecDepth 100000 in
theorem cutOff_goes : cutOff.after = { acquainted with phase := .failed } ∧
    cutOff.result = .error (.error (.io .unexpectedEof)) := by
  constructor <;> cbv

end Turn

theorem History.retried :
    History {} {} [Turn.acquaintance, Turn.cutOff] { Turn.acquainted with phase := .failed } := by
  refine cons_iff.mpr ⟨rfl, Turn.held_ofRun _ _ _ _ _, ?_⟩
  rw [Turn.acquaintance_goes.1]
  refine cons_iff.mpr ⟨rfl, Turn.held_ofRun _ _ _ _ _, ?_⟩
  rw [Turn.cutOff_goes.1]
  exact .nil _

/-- A line on which an image ended early is idle, and the next call starts over. -/
theorem retry_restarts_cutOff :
    (∃ l' : Line, (Rig.fresh 0 []).line.Serves
        (Rig.manner (Bench.steadyWords Bench.part) fun _ => False) {}
        ([Turn.acquaintance, Turn.cutOff].flatMap Turn.exchanges) l' ∧ l'.Idle) ∧
      (Programmer.program {} 1 false : Programmer.Call Unit Unit).run
          { Turn.acquainted with phase := .failed } =
        (Programmer.program {} 1 false).run { phase := .connected, chip := some Bench.part } := by
  have patient : (Rig.fresh 0 []).Patient [0x0a, 0x0d] (Bench.steadyWords Bench.part)
      fun _ => False := Or.inl rfl
  have ack : ([0x0a, 0x0d] : List UInt8).length ≤ Command.acknowledgementLength := by decide
  have first := Rig.serves_device (ε := Unit) (o := {}) ack (Task.identify.call {} {}) patient
  have second := Rig.serves_device (ε := Unit) (o := {}) ack
    ((Task.program 1 false).call {} Turn.acquainted) patient
  rw [Turn.acquaintance_goes.2.2] at first
  have serves := Line.serves_append_iff.mpr ⟨_, first, second⟩
  have exchanges : [Turn.acquaintance, Turn.cutOff].flatMap Turn.exchanges =
      Turn.acquaintance.exchanges ++ Turn.cutOff.exchanges := by simp
  obtain ⟨idle, again⟩ := retry_restarts History.retried (fun late => late) (Rig.idle_fresh 0 [])
    (exchanges ▸ serves) (by
      intro v hv f hf
      rcases List.mem_pair.mp hv with rfl | rfl
      · exact absurd (Turn.acquaintance_goes.2.1.symm.trans hf) (by simp)
      · obtain rfl := Except.error.inj (Turn.cutOff_goes.2.symm.trans hf)
        exact id)
  exact ⟨⟨_, exchanges ▸ serves, idle⟩, (again Bench.part rfl 1 false).1⟩

end SamFlash
