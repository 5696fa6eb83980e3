import SamFlash.Proofs.Accuracy
import SamFlash.Proofs.Discipline

/-!
# Histories of a programmer

A turn is one call of a programmer with all that belongs to it: its task (`Programmer.identify`,
`Programmer.program` or `Programmer.setBootSource`), its exchanges, what it came to, and the
programmer before and after. A history is a list of turns of which each one starts where the one
before it ended. Nothing is said about who answers: every turn may have been held with another
target, port and image, and may have stopped anywhere.

How a single turn goes is said once, in `Turn.Course`: either the chip is not found, or the call
finds it or knows it and then does its work (`Task.work`). What holds along histories is derived
from that, by induction on the history with one case for each turn.

The state of a session is its `Phase`. A new programmer is fresh until its first call. Behind a call
it is connected, complete or failed, and never still programming: `Programmer.tracked` marks every
call that ends with an error, wherever it stopped. `Turn.Lawful` has the rest of it: a call that
succeeds leaves the phase of its task, a call that fails leaves the session failed, a failed session
is left only by a call that succeeds, and the chip changes only in a call that looked for it and
found one. A programmer between calls is `Programmer.AtRest`.

Results:
* `Task.accurate_work`: what a call does with its chip is composed.
* `Turn.Held.course`: every turn goes in one of these two ways.
* `Turn.Held.lawful`: what one turn does to the state of the session.
* **`session_states`**: the states of a session, over every history of a new programmer.
-/

namespace SamFlash

variable {ε σ : Type}

/-! ## Calls -/

namespace Task

variable {o : Options} {c : Chip}

/-- What a call does once it has the chip. -/
def work (o : Options) (c : Chip) : Task → Link ε Unit
  | identify => pure ()
  | program size observed => Programmer.writing o c size observed
  | setBootSource fromFlash => Programmer.writeBootFlag o c fromFlash

/-- The call looks for the chip. -/
def Looks (task : Task) (p : Programmer) : Prop := task = identify ∨ p.chip = none

/-- How far the session has come after a call that succeeded. -/
def reaches (p : Programmer) : Task → Phase
  | identify => .connected
  | program .. => .complete
  | setBootSource _ => if p.chip.isSome then p.phase else .connected

theorem held_identify_iff {p q : Programmer} {t : Transcript ε} {r : Except (Failure ε) Unit} :
    Dialogue.Held (identify.call o p) t (r, q) ↔
      ∃ r', Programmer.Held (Programmer.identify o) p t r' q ∧ r = r'.map fun _ => () := by
  have start : Dialogue.Held (identify.call o p) t (r, q) ↔
      ∃ s : Except (Failure ε) Chip × Programmer,
        Dialogue.Held ((Programmer.identify o).run p) t s ∧ (r, q) = (s.1.map fun _ => (), s.2) :=
    Dialogue.held_map_iff
  rw [start]
  constructor
  · rintro ⟨⟨r', q'⟩, h, e⟩
    obtain ⟨rfl, rfl⟩ := Prod.mk.inj e
    exact ⟨r', h, rfl⟩
  · rintro ⟨r', h, rfl⟩
    exact ⟨(r', q), h, rfl⟩

/-- The work of a call on a chip of the table is composed, and its requests are accurate. -/
theorem accurate_work (hc : c ∈ Chip.all) (task : Task) :
    (task.work o c : Link ε Unit).Accurate o c := by
  have sound := Chip.sound_of_mem hc
  cases task with
  | identify => exact .pure ()
  | program size observed => exact Programmer.accurate_writing sound size observed
  | setBootSource fromFlash => exact Programmer.accurate_writeBootFlag sound fromFlash

end Task

/-! ## Turns -/

/-- A call of a programmer, with how it went. -/
structure Turn (ε : Type) where
  before : Programmer
  task : Task
  exchanges : Transcript ε
  result : Except (Failure ε) Unit
  after : Programmer

namespace Turn

/-- The call can go like this. -/
def Held (o : Options) (v : Turn ε) : Prop :=
  Dialogue.Held (v.task.call o v.before) v.exchanges (v.result, v.after)

/-- The call looks for the chip and finds `c`. -/
def Finds (o : Options) (v : Turn ε) (c : Chip) : Prop :=
  v.task.Looks v.before ∧
    ∃ s u, v.exchanges = s ++ u ∧ Link.Held (Programmer.findChip o) s (.ok c)

/-- The exchanges with which the call gets the chip `c`: none if it is known. -/
def Gets (o : Options) (v : Turn ε) (s : Transcript ε) (c : Chip) : Prop :=
  (v.task.Looks v.before ∧ Link.Held (Programmer.findChip o) s (.ok c)) ∨
    (¬ v.task.Looks v.before ∧ v.before.chip = some c ∧ s = [])

/-- How a call goes. -/
inductive Course (o : Options) (v : Turn ε) : Prop
  /-- The chip is not found. -/
  | lost (f : Failure ε) (looks : v.task.Looks v.before)
      (asked : Link.Held (Programmer.findChip o) v.exchanges (.error f))
      (result : v.result = .error f) (chip : v.after.chip = v.before.chip)
  /-- The chip is found, or known, and the call does its work on it. -/
  | worked (c : Chip) (s u : Transcript ε) (gets : v.Gets o s c)
      (work : Link.Held (v.task.work o c) u v.result) (exchanges : v.exchanges = s ++ u)
      (chip : v.after.chip = some c)
      (phase : v.result = .ok () → v.after.phase = v.task.reaches v.before)

/-- The call, held with a device. -/
def ofRun (d : Device σ ε) (s : σ) (o : Options) (task : Task) (p : Programmer) : Turn ε where
  before := p
  task := task
  exchanges := Dialogue.transcript d (task.call o p) s
  result := (Dialogue.run d (task.call o p) s).1.1
  after := (Dialogue.run d (task.call o p) s).1.2

theorem held_ofRun (d : Device σ ε) (s : σ) (o : Options) (task : Task) (p : Programmer) :
    (ofRun d s o task p).Held o :=
  Dialogue.Held.of_run d (task.call o p) s

variable {o : Options} {v : Turn ε}

/-- A call that needs the chip gets it as it always does. -/
theorem gets_of_finds (hv : v.task ≠ .identify) {s : Transcript ε} {c : Chip}
    (h : Programmer.Finds o v.before s c) : v.Gets o s c := by
  rcases h with ⟨hk, rfl⟩ | ⟨hn, hf⟩
  · refine Or.inr ⟨?_, hk, rfl⟩
    rintro (h | h)
    · exact hv h
    · exact absurd (hk.symm.trans h) (by simp)
  · exact Or.inl ⟨Or.inr hn, hf⟩

/-- **Every turn** fails to find the chip, or has it and does its work. -/
theorem Held.course (h : v.Held o) : v.Course o := by
  obtain ⟨p, task, t, r, q⟩ := v
  cases task with
  | identify =>
    obtain ⟨r', hi, rfl⟩ := Task.held_identify_iff.mp h
    obtain ⟨q', hd, rfl⟩ := Programmer.held_tracked_iff.mp hi
    rcases Programmer.held_detect_iff.mp hd with ⟨f, hf, rfl, rfl⟩ | ⟨c, hf, rfl, rfl⟩
    · exact .lost f (Or.inl rfl) hf rfl (Programmer.chip_leave _ _)
    · exact .worked c t [] (Or.inl ⟨Or.inl rfl, hf⟩) (Link.held_pure_iff.mpr ⟨rfl, rfl⟩)
        (List.append_nil t).symm rfl fun _ => rfl
  | program size observed =>
    rcases Programmer.held_program h with ⟨f, hn, hf, rfl, hq⟩ | ⟨c, s, u, hc, hw, rfl, hq, hp⟩
    · exact .lost f (Or.inr hn) hf rfl (hq.trans hn.symm)
    · exact .worked c s u (gets_of_finds (by simp) hc) hw rfl hq hp
  | setBootSource fromFlash =>
    have h : Programmer.Held (Programmer.setBootSource o fromFlash) p t r q := h
    obtain ⟨q', hw, rfl⟩ := Programmer.held_tracked_iff.mp h
    rcases Programmer.held_connected_bind hw with ⟨f, hn, hf, rfl, rfl⟩ | ⟨c, s, u, hc, hl, rfl⟩
    · exact .lost f (Or.inr hn) hf rfl (Programmer.chip_leave _ _)
    · obtain ⟨hb, rfl⟩ := Programmer.held_ofLink_iff.mp hl
      refine .worked c s u (gets_of_finds (by simp) hc) hb rfl
        ((Programmer.chip_leave _ _).trans (Programmer.chip_knowing hc)) ?_
      rintro rfl
      show (p.knowing c).phase = if p.chip.isSome then p.phase else .connected
      unfold Programmer.knowing
      split <;> rfl

/-- An error leaves the programmer failed. -/
theorem Held.phase_of_error (h : v.Held o) {e : Error ε} (he : v.result = .error (.error e)) :
    v.after.phase = .failed := by
  obtain ⟨p, task, t, r, q⟩ := v
  obtain rfl : r = _ := he
  have failed {α : Type} {x : Programmer.Call ε α}
      (hx : Programmer.Held (Programmer.tracked x) p t (.error (.error e)) q) :
      q.phase = .failed := by
    obtain ⟨q', -, rfl⟩ := Programmer.held_tracked_iff.mp hx
    rfl
  cases task with
  | identify =>
    obtain ⟨r', hi, hr⟩ := Task.held_identify_iff.mp h
    cases r' with
    | ok _ => exact absurd hr (by simp [Except.map])
    | error f =>
      obtain rfl := Except.error.inj hr
      exact failed hi
  | program size observed => exact failed h
  | setBootSource fromFlash => exact failed h

/-- The chip that a call gets is in the table. -/
theorem Gets.mem (hp : v.before.Knows) {s : Transcript ε} {c : Chip} (h : v.Gets o s c) :
    c ∈ Chip.all := by
  rcases h with ⟨-, hf⟩ | ⟨-, hk, -⟩
  · exact ((Programmer.follows_findChip o).completes hf).2.2
  · exact hp c hk

/-- A call that fails does so with an error. -/
theorem Held.ordinary (h : v.Held o) (hp : v.before.Knows) {f : Failure ε}
    (hf : v.result = .error f) : f.IsOrdinary := by
  cases h.course with
  | lost g _ asked result _ =>
    obtain rfl := Except.error.inj (hf.symm.trans result)
    exact Programmer.composed_findChip.ordinary asked
  | worked c s u gets work _ _ _ =>
    rw [hf] at work
    exact (Task.accurate_work (gets.mem hp) v.task).ordinary work

end Turn

/-! ## The state of a session -/

/-- What holds of a programmer between calls. -/
structure Programmer.AtRest (p : Programmer) : Prop where
  /-- The chip is a row of the table. -/
  knows : p.Knows
  /-- No image is being written. -/
  still : p.phase ≠ .programming
  /-- The chip is known where the session says that it has been identified. -/
  identified : p.phase = .connected ∨ p.phase = .complete → p.chip.isSome
  /-- A programmer that has not been used knows no chip. -/
  unused : p.phase = .fresh → p.chip = none

theorem Programmer.atRest_new : Programmer.AtRest {} where
  knows _ h := absurd h (by simp)
  still := by decide
  identified h := absurd h (by decide)
  unused _ := rfl

/-- What a call does to the state of the session. -/
structure Turn.Lawful (o : Options) (v : Turn ε) : Prop where
  rest : v.after.AtRest
  /-- The session has begun. -/
  used : v.after.phase ≠ .fresh
  /-- A failure leaves the session failed. -/
  failed : ∀ f, v.result = .error f → v.after.phase = .failed
  /-- A success takes the session as far as the call reaches. -/
  succeeded : v.result = .ok () → v.after.phase = v.task.reaches v.before
  /-- A failed session is taken up by a success alone; a change of the boot source has to find the
  chip for that. -/
  recovered : v.before.phase = .failed → v.after.phase ≠ .failed →
    v.result = .ok () ∧ ∀ fromFlash, v.task = .setBootSource fromFlash → v.before.chip = none
  /-- The chip is not forgotten. -/
  kept : v.before.chip.isSome → v.after.chip.isSome
  /-- The chip changes when a call finds another one. -/
  changed : v.after.chip ≠ v.before.chip → ∃ c, v.Finds o c ∧ v.after.chip = some c

namespace Turn

variable {o : Options} {v : Turn ε}

/-- What becomes of the chip. -/
theorem Held.chip (h : v.Held o) :
    v.after.chip = v.before.chip ∨ ∃ c, v.Finds o c ∧ v.after.chip = some c := by
  cases h.course with
  | lost _ _ _ _ chip => exact Or.inl chip
  | worked c s u gets _ exchanges chip _ =>
    rcases gets with ⟨looks, hf⟩ | ⟨-, hk, -⟩
    · exact Or.inr ⟨c, ⟨looks, s, u, exchanges, hf⟩, chip⟩
    · exact Or.inl (chip.trans hk.symm)

/-- A call that succeeds has the chip. -/
theorem Held.succeeded (h : v.Held o) (hr : v.result = .ok ()) :
    v.after.chip.isSome ∧ v.after.phase = v.task.reaches v.before := by
  cases h.course with
  | lost f _ _ result _ => exact absurd (hr.symm.trans result) (by simp)
  | worked c _ _ _ _ _ chip phase => exact ⟨by rw [chip]; rfl, phase hr⟩

theorem Finds.mem {c : Chip} (h : v.Finds o c) : c ∈ Chip.all := by
  obtain ⟨-, s, u, -, hf⟩ := h
  exact ((Programmer.follows_findChip o).completes hf).2.2

/-- A success takes the session to a state in which it rests. -/
theorem reaches_used (hp : v.before.AtRest) :
    v.task.reaches v.before ≠ .fresh ∧ v.task.reaches v.before ≠ .programming := by
  cases v.task with
  | identify => simp [Task.reaches]
  | program size observed => simp [Task.reaches]
  | setBootSource fromFlash =>
    by_cases hk : v.before.chip.isSome = true
    · simp only [Task.reaches, if_pos hk]
      refine ⟨fun hf => ?_, hp.still⟩
      rw [hp.unused hf] at hk
      exact absurd hk (by simp)
    · simp [Task.reaches, if_neg hk]

/-- **What one turn does** to the state of the session. -/
theorem Held.lawful (h : v.Held o) (hp : v.before.AtRest) : v.Lawful o := by
  have failed : ∀ f, v.result = .error f → v.after.phase = .failed := by
    intro f hf
    obtain ⟨e, rfl⟩ := (h.ordinary hp.knows hf).isError
    exact h.phase_of_error hf
  have outcome : v.result = .ok () ∨ v.after.phase = .failed := by
    cases hr : v.result with
    | ok _ => exact Or.inl rfl
    | error f => exact Or.inr (failed f hr)
  obtain ⟨hfresh, hwriting⟩ := reaches_used hp
  refine ⟨⟨?_, ?_, ?_, ?_⟩, ?_, failed, fun hr => (h.succeeded hr).2, ?_, ?_, ?_⟩
  · intro c hc
    rcases h.chip with same | ⟨c', hf, hc'⟩
    · exact hp.knows c (same.symm.trans hc)
    · obtain rfl := Option.some.inj (hc'.symm.trans hc)
      exact hf.mem
  · rcases outcome with hr | hf
    · rw [(h.succeeded hr).2]
      exact hwriting
    · rw [hf]
      decide
  · intro hphase
    rcases outcome with hr | hf
    · exact (h.succeeded hr).1
    · rw [hf] at hphase
      exact absurd hphase (by decide)
  · intro hphase
    rcases outcome with hr | hf
    · exact absurd ((h.succeeded hr).2.symm.trans hphase) hfresh
    · exact absurd (hf.symm.trans hphase) (by decide)
  · rcases outcome with hr | hf
    · rw [(h.succeeded hr).2]
      exact hfresh
    · rw [hf]
      decide
  · intro hbefore hafter
    have hr := outcome.resolve_right hafter
    refine ⟨hr, fun fromFlash htask => ?_⟩
    -- with the chip known the state stays what it was, and that was a failed one
    by_contra hk
    have hphase := (h.succeeded hr).2
    rw [htask, Task.reaches, if_pos (Option.isSome_iff_ne_none.mpr hk)] at hphase
    exact hafter (hphase.trans hbefore)
  · intro hk
    rcases h.chip with same | ⟨c, -, hc⟩
    · rwa [same]
    · rw [hc]
      rfl
  · exact fun hne => h.chip.resolve_left hne

end Turn

/-! ## Histories -/

/-- The turns lead from the programmer `p` to the programmer `q`. -/
inductive History (o : Options) : Programmer → List (Turn ε) → Programmer → Prop
  | nil (p : Programmer) : History o p [] p
  | cons {v : Turn ε} {vs : List (Turn ε)} {q : Programmer} (held : v.Held o)
      (rest : History o v.after vs q) : History o v.before (v :: vs) q

namespace History

variable {o : Options} {p q : Programmer} {v : Turn ε} {vs ws : List (Turn ε)}

theorem cons_iff :
    History o p (v :: vs) q ↔ v.before = p ∧ v.Held o ∧ History o v.after vs q := by
  constructor
  · rintro (_ | ⟨held, rest⟩)
    exact ⟨rfl, held, rest⟩
  · rintro ⟨rfl, held, rest⟩
    exact .cons held rest

/-- A history is cut anywhere. -/
theorem append_iff :
    History o p (vs ++ ws) q ↔ ∃ m, History o p vs m ∧ History o m ws q := by
  induction vs generalizing p with
  | nil =>
    constructor
    · exact fun h => ⟨p, .nil p, h⟩
    · rintro ⟨_, ⟨⟩, h⟩
      exact h
  | cons v vs ih =>
    rw [List.cons_append, cons_iff, ih]
    constructor
    · rintro ⟨hp, held, m, h, h'⟩
      exact ⟨m, cons_iff.mpr ⟨hp, held, h⟩, h'⟩
    · rintro ⟨m, h, h'⟩
      obtain ⟨hp, held, h⟩ := cons_iff.mp h
      exact ⟨hp, held, m, h, h'⟩

/-- **What every turn of a history does** to the state of the session. -/
theorem lawful (h : History o p vs q) (hp : p.AtRest) :
    q.AtRest ∧ ∀ v ∈ vs, v.before.AtRest ∧ v.Held o ∧ v.Lawful o := by
  induction h with
  | nil p => exact ⟨hp, by simp⟩
  | cons held rest ih =>
    have first := held.lawful hp
    obtain ⟨hq, hrest⟩ := ih first.rest
    refine ⟨hq, fun w hw => ?_⟩
    rcases List.mem_cons.mp hw with rfl | hw
    · exact ⟨hp, held, first⟩
    · exact hrest w hw

/-- A session that has begun stays begun. -/
theorem used (h : History o p vs q) (hp : p.AtRest) (hu : p.phase ≠ .fresh) :
    q.phase ≠ .fresh := by
  induction h with
  | nil p => exact hu
  | cons held _ ih => exact ih (held.lawful hp).rest (held.lawful hp).used

theorem fresh_iff (h : History o p vs q) (hp : p.AtRest) :
    q.phase = .fresh ↔ p.phase = .fresh ∧ vs = [] := by
  cases h with
  | nil p => simp
  | cons held rest => simp [rest.used (held.lawful hp).rest (held.lawful hp).used]

end History

/-- **The states of a session.** After any calls of a new programmer, whatever the targets, the
ports and the readers did: the programmer is as new exactly if there was no call; it is at rest; and
every call did to the state what its result says. -/
theorem session_states {o : Options} {vs : List (Turn ε)} {p : Programmer}
    (h : History o {} vs p) :
    (p.phase = .fresh ↔ vs = []) ∧ p.AtRest ∧ ∀ v ∈ vs, v.Lawful o := by
  obtain ⟨rest, every⟩ := h.lawful Programmer.atRest_new
  refine ⟨?_, rest, fun v hv => (every v hv).2.2⟩
  rw [h.fresh_iff Programmer.atRest_new]
  exact and_iff_right rfl

/-! ## One target, then another -/

namespace Turn

/-- The programmer that has identified the part on the bench. -/
def acquainted : Programmer := ⟨.connected, some Bench.part⟩

/-- The words of a target that is always ready and whose chip is in no table. -/
def strangeWords (addr : Word) : Word :=
  if addr = Monitor.sam3ChipIdAddress then 0x12345678 else FlashController.readyBit

/-- The part on the bench is identified. -/
def known : Turn Unit := ofRun (Bench.steady Bench.part) (Bench.fresh []) {} .identify {}

/-- Another target has taken its place, and is not identified. -/
def strange : Turn Unit := ofRun (Bench.device strangeWords) (Bench.fresh []) {} .identify acquainted

/-- An image is written to that target. -/
def stale : Turn Unit :=
  ofRun (Bench.device strangeWords) (Bench.fresh [7]) {} (.program 1 false)
    { acquainted with phase := .failed }

theorem known_goes : known.result = .ok () ∧ known.after = acquainted := by
  constructor <;> cbv

theorem strange_goes : strange.result = .error (.error (.unknownChip 0x12345678)) ∧
    strange.after = { acquainted with phase := .failed } := by
  constructor <;> cbv

set_option maxRecDepth 100000 in
theorem stale_run :
    (Dialogue.run (ε := Unit) (Bench.device strangeWords)
      ((Task.program 1 false).call {} { acquainted with phase := .failed }) (Bench.fresh [7])).1 =
        (.ok (), { acquainted with phase := .complete }) := by
  cbv

theorem stale_goes : stale.result = .ok () ∧ stale.after = { acquainted with phase := .complete } :=
  ⟨congrArg Prod.fst stale_run, congrArg Prod.snd stale_run⟩

end Turn

/-- The three calls in a row. -/
theorem History.swapped :
    History {} {} [Turn.known, Turn.strange, Turn.stale] { Turn.acquainted with phase := .complete } := by
  refine cons_iff.mpr ⟨rfl, Turn.held_ofRun _ _ _ _ _, ?_⟩
  rw [Turn.known_goes.2]
  refine cons_iff.mpr ⟨rfl, Turn.held_ofRun _ _ _ _ _, ?_⟩
  rw [Turn.strange_goes.2]
  refine cons_iff.mpr ⟨rfl, Turn.held_ofRun _ _ _ _ _, ?_⟩
  rw [Turn.stale_goes.2]
  exact .nil _

/-- An identification that fails keeps the chip of the one before, and what comes next succeeds. -/
theorem session_states_swapped :
    History {} {} [Turn.known, Turn.strange, Turn.stale]
        { Turn.acquainted with phase := .complete } ∧
      (Turn.known.Lawful {} ∧ Turn.strange.Lawful {} ∧ Turn.stale.Lawful {}) ∧
      Turn.strange.after = { Turn.acquainted with phase := .failed } ∧
      Turn.stale.result = .ok () := by
  obtain ⟨-, -, every⟩ := session_states History.swapped
  exact ⟨History.swapped, ⟨every _ (by simp), every _ (by simp), every _ (by simp)⟩,
    Turn.strange_goes.2, Turn.stale_goes.1⟩

end SamFlash
