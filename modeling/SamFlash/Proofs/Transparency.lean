import SamFlash.Proofs.Timing

/-!
# Timing transparency

Sessions of programmers at rest, such as new ones, that make the same calls (`Programmer.identify`,
`Programmer.program`, `Programmer.setBootSource`) of targets with the same conduct. However the
targets, the ports and the images time what they do, the calls come to the same results, leave the
programmer the same, put the same bytes on the port, tell the same progress and take the same bytes
of the image; and the pauses differ in nothing but those that a receive makes behind a look in vain.
A call may fail, and the next one is still the same on both sides.

The acknowledgement of binary mode is part of the timing where nothing keeps the host from waiting
for it. It is not where the flush behind the request fails: `Link.handshake` ends there without a
receive, and the two bytes of a target that sends them then stay in front of all that it sends
later, so the words that the host reads are not those of the target any more. The next call asks for
binary mode again and discards two bytes, but they are those of the first request.
`acknowledgement_is_seen` is this situation on a part of the table.

Turns are compared one by one (`Turn.Alike`), along two histories of which each station is the one
that the turn before it left.

Results:
* `Turn.Held.timeless`: one call.
* **`timing_is_not_seen`**: calls in a row.
* **`acknowledgement_is_seen`**: two sessions that differ in nothing but whether the request for
  binary mode is acknowledged, of which one identifies the chip and the other one a chip that is not
  there.
-/

namespace SamFlash

variable {σ ε : Type} {w : Conduct σ ε} {o : Options}

open Link

/-! ## Calls -/

theorem Request.Identifies.unasked {d : Diagnostic} (h : (Request.log d).Identifies) :
    d.asks = false := by
  cases d <;> first | rfl | exact absurd h id

theorem Request.Accurate.unasked {c : Chip} {d : Diagnostic} (h : (Request.log d).Accurate o c) :
    d.asks = false := by
  cases d <;> first | rfl | exact absurd h id

theorem Programmer.timeless_findChip :
    Timeless w o Station.Same (findChip o : Link ε Chip) Station.Same :=
  composed_findChip.timeless fun _ => Request.Identifies.unasked

/-- The work of a call on a chip of the table. -/
theorem Task.timeless_work {c : Chip} (hc : c ∈ Chip.all) (task : Task) :
    Timeless w o Station.Same (task.work o c : Link ε Unit) Station.Same :=
  (accurate_work hc task).timeless fun _ => Request.Accurate.unasked

namespace Turn

variable {v v' : Turn ε} {s s' u u' : Station σ ε}

/-- The result of a call tells how far the session has come. -/
theorem Lawful.phase_eq (h : v.Lawful o) (h' : v'.Lawful o) (before : v.before = v'.before)
    (task : v.task = v'.task) (result : v.result = v'.result) :
    v.after.phase = v'.after.phase := by
  cases hr : v.result with
  | error f => rw [h.failed f hr, h'.failed f (result.symm.trans hr)]
  | ok _ => rw [h.succeeded hr, h'.succeeded (result.symm.trans hr), before, task]

/-- Two calls that need the chip get the same one. -/
theorem Gets.timeless {t t' : Transcript ε} {c c' : Chip} (h : v.Gets o t c)
    (h' : v'.Gets o t' c') (before : v.before = v'.before) (task : v.task = v'.task)
    (hs : s.Serves w o t u) (hs' : s'.Serves w o t' u') (same : s.Same s') :
    c = c' ∧ u.Same u' ∧ t.Alike o t' := by
  rcases h with ⟨looks, found⟩ | ⟨known, hc, rfl⟩ <;>
    rcases h' with ⟨looks', found'⟩ | ⟨known', hc', rfl⟩
  · obtain ⟨e, left, alike⟩ :=
      Programmer.timeless_findChip.agrees found found' hs hs' same
    exact ⟨Except.ok.inj e, left, alike⟩
  · exact absurd (before ▸ task ▸ looks) known'
  · exact absurd (before ▸ task ▸ looks') known
  · rw [before, hc'] at hc
    obtain rfl := hs
    obtain rfl := hs'
    exact ⟨(Option.some.inj hc).symm, same,
      Transcript.inward_nil.alike Transcript.inward_nil⟩

/-- One of two calls does not find the chip that the other one gets. -/
theorem Gets.not_lost {t t' : Transcript ε} {c : Chip} {f : Failure ε} (h : v.Gets o t c)
    (looks : v.task.Looks v.before) (hs : s.Serves w o t u) (hs' : s'.Serves w o t' u')
    (same : s.Same s') : ¬ Link.Held (Programmer.findChip o) t' (.error f) := by
  intro lost
  rcases h with ⟨-, found⟩ | ⟨known, -⟩
  · exact absurd (Programmer.timeless_findChip.agrees found lost hs hs' same).1 (by simp)
  · exact known looks

/-- Two calls that differ in nothing but their timing. -/
structure Alike (o : Options) (v v' : Turn ε) : Prop where
  task : v.task = v'.task
  result : v.result = v'.result
  after : v.after = v'.after
  exchanges : v.exchanges.Alike o v'.exchanges

/-- **A call** of a programmer at rest does not see the time. -/
theorem Held.timeless (h : v.Held o) (h' : v'.Held o) (hp : v.before.AtRest)
    (before : v.before = v'.before) (task : v.task = v'.task)
    (hs : s.Serves w o v.exchanges u) (hs' : s'.Serves w o v'.exchanges u') (same : s.Same s') :
    v.Alike o v' ∧ u.Same u' := by
  suffices ends : v.result = v'.result ∧ v.after.chip = v'.after.chip ∧
      v.exchanges.Alike o v'.exchanges ∧ u.Same u' by
    obtain ⟨result, chip, alike, left⟩ := ends
    have phase := (h.lawful hp).phase_eq (h'.lawful (before ▸ hp)) before task result
    have split (p : Programmer) : p = ⟨p.phase, p.chip⟩ := rfl
    have after : v.after = v'.after := by rw [split v.after, split v'.after, phase, chip]
    exact ⟨⟨task, result, after, alike⟩, left⟩
  cases h.course with
  | lost f looks asked result chip =>
    cases h'.course with
    | lost f' _ asked' result' chip' =>
      obtain ⟨e, left, alike⟩ := Programmer.timeless_findChip.agrees asked asked' hs hs' same
      obtain rfl := Except.error.inj e
      exact ⟨result.trans result'.symm, chip.trans ((congrArg _ before).trans chip'.symm),
        alike, left⟩
    | worked c' t' x' gets' _ exchanges' _ _ =>
      rw [exchanges'] at hs'
      obtain ⟨mid', hs₁', -⟩ := Station.serves_append_iff.mp hs'
      exact absurd asked (gets'.not_lost (before ▸ task ▸ looks) hs₁' hs same.symm)
  | worked c t x gets work exchanges chip _ =>
    rw [exchanges] at hs ⊢
    obtain ⟨mid, hs₁, hs₂⟩ := Station.serves_append_iff.mp hs
    cases h'.course with
    | lost f' looks' asked' _ _ =>
      exact absurd asked' (gets.not_lost (before ▸ task ▸ looks') hs₁ hs' same)
    | worked c' t' x' gets' work' exchanges' chip' _ =>
      rw [exchanges'] at hs' ⊢
      obtain ⟨mid', hs₁', hs₂'⟩ := Station.serves_append_iff.mp hs'
      obtain ⟨rfl, between, alike⟩ := gets.timeless gets' before task hs₁ hs₁' same
      rw [← task] at work'
      obtain ⟨e, left, alike'⟩ :=
        (Task.timeless_work (gets.mem hp.knows) v.task).agrees work work' hs₂ hs₂' between
      exact ⟨e, chip.trans chip'.symm, alike.append alike', leaves_same.mp left⟩

end Turn

/-! ## Sessions -/

/-- A call begins. -/
theorem Station.Same.attends {s s' : Station σ ε} (h : s.Same s') (task : Task) :
    (s.attends w task).Same (s'.attends w task) :=
  ⟨⟨congrArg (w.begin task) h.state, h.reader, h.queue⟩, h.unasked, h.unasked'⟩

/-- **Timing is not seen.** Two targets, with their ports and images, that have the same conduct are
called in the same way, by programmers that are at rest as a new one is. Call by call the results
are the same, the programmer is left the same, and the exchanges differ in nothing but the time. -/
theorem timing_is_not_seen {p q q' : Programmer} {vs vs' : List (Turn ε)}
    {s s' u u' : Station σ ε} (h : History o p vs q) (h' : History o p vs' q') (hp : p.AtRest)
    (tasks : vs.map Turn.task = vs'.map Turn.task) (hs : s.Hosts w o vs u)
    (hs' : s'.Hosts w o vs' u') (same : s.Same s') :
    List.Forall₂ (Turn.Alike o) vs vs' ∧ q = q' ∧ u.Same u' := by
  induction h generalizing vs' s s' with
  | nil p =>
    obtain rfl : vs' = [] := List.map_eq_nil_iff.mp tasks.symm
    cases h'
    obtain rfl := hs
    obtain rfl := hs'
    exact ⟨.nil, rfl, same⟩
  | @cons v vs q held rest ih =>
    cases vs' with
    | nil => exact absurd tasks (by simp)
    | cons v' vs' =>
      obtain ⟨task, tasks⟩ := List.cons.inj tasks
      obtain ⟨before, held', rest'⟩ := History.cons_iff.mp h'
      obtain ⟨mid, hs, hosts⟩ := hs
      obtain ⟨mid', hs', hosts'⟩ := hs'
      rw [← task] at hs'
      obtain ⟨alike, between⟩ :=
        held.timeless held' hp before.symm task hs hs' (same.attends v.task)
      rw [← alike.after] at rest'
      obtain ⟨every, last, left⟩ :=
        ih rest' (held.lawful hp).rest tasks hosts hosts' between
      exact ⟨.cons alike every, last, left⟩

/-! ## Targets on the bench -/

namespace Conduct

/-- The part on the bench, which acknowledges with these bytes. Its port fails to flush so many
times as the state says, and then always flushes; the image is the other half of the state. -/
def part (ack : List UInt8) : Conduct (Nat × List UInt8) Unit where
  begin _ s := s
  put _ s := (.ok (), s)
  flush
    | (0, image) => (.ok (), (0, image))
    | (faults + 1, image) => (.error (), (faults, image))
  reply
    | .binaryMode, s => (ack.map .ok, s)
    | cmd, s => ((Bench.replyTo (Bench.steadyWords Bench.part) (some cmd)).map .ok, s)
  draw limit s := (.bytes (s.2.take limit) (List.length_take_le limit s.2), (s.1, s.2.drop limit))

/-- Its monitor at the start of a command. -/
def ofPart (faults : Nat) (image : List UInt8) : Station (Nat × List UInt8) Unit :=
  ⟨(faults, image), Reader.start, [], 0, false⟩

/-- Everything is there at once. -/
def prompt : Pace := ⟨0, 0, false⟩

/-- Nothing is there at once, and the acknowledgement not at all. -/
def slow : Pace := ⟨2, 60, true⟩

/-- The calls of a new programmer at the part, with no image. -/
def calls (ack : List UInt8) (pace : Pace) (faults : Nat) (tasks : List Task) : List (Turn Unit) :=
  (part ack).session pace {} {} (ofPart faults []) tasks

theorem calls_prompt :
    (calls [0x0a, 0x0d] prompt 0 [.identify, .setBootSource true]).map Turn.result =
      [.ok (), .ok ()] := by
  cbv

set_option maxRecDepth 100000 in
theorem calls_misread :
    (calls [0x0a, 0x0d] prompt 1 [.identify, .identify]).map Turn.result =
      [.error (.error (.serial ())), .error (.error (.unknownChip 0x0a600000))] := by
  cbv

set_option maxRecDepth 100000 in
theorem calls_silent :
    (calls [] prompt 1 [.identify, .identify]).map Turn.result =
      [.error (.error (.serial ())), .ok ()] := by
  cbv

end Conduct

open Conduct in
/-- A target that is slow with everything and does not acknowledge at all is called like a prompt
one. -/
theorem timing_is_not_seen_slow :
    List.Forall₂ (Turn.Alike {}) (calls [0x0a, 0x0d] prompt 0 [.identify, .setBootSource true])
        (calls [0x0a, 0x0d] slow 0 [.identify, .setBootSource true]) ∧
      (calls [0x0a, 0x0d] slow 0 [.identify, .setBootSource true]).map Turn.result =
        [.ok (), .ok ()] := by
  have noLag : prompt.lag ≤ ({} : Options).patience := by decide
  have someLag : slow.lag ≤ ({} : Options).patience := by decide
  obtain ⟨q, h⟩ := history_session (part [0x0a, 0x0d]) prompt {} {} (ofPart 0 [])
    [.identify, .setBootSource true]
  obtain ⟨q', h'⟩ := history_session (part [0x0a, 0x0d]) slow {} {} (ofPart 0 [])
    [.identify, .setBootSource true]
  obtain ⟨u, hs⟩ := hosts_session (w := part [0x0a, 0x0d]) noLag {} (ofPart 0 [])
    [.identify, .setBootSource true]
  obtain ⟨u', hs'⟩ := hosts_session (w := part [0x0a, 0x0d]) someLag {} (ofPart 0 [])
    [.identify, .setBootSource true]
  have same : (ofPart 0 []).Same (ofPart 0 []) := ⟨⟨rfl, rfl, rfl⟩, rfl, rfl⟩
  obtain ⟨every, -⟩ := timing_is_not_seen h h' Programmer.atRest_new
    (by rw [tasks_session, tasks_session]) hs hs' same
  have results : List.Forall₂ Eq
      ((calls [0x0a, 0x0d] prompt 0 [.identify, .setBootSource true]).map Turn.result)
      ((calls [0x0a, 0x0d] slow 0 [.identify, .setBootSource true]).map Turn.result) :=
    List.forall₂_map_left_iff.mpr (List.forall₂_map_right_iff.mpr
      (every.imp fun _ _ alike => alike.result))
  rw [List.forall₂_eq_eq_eq] at results
  exact ⟨every, results ▸ calls_prompt⟩

open Conduct in
/-- **An acknowledgement that is not missed is seen.** Two targets have the same conduct, but for
one thing: the request for binary mode is acknowledged by the first one and not by the other one. On
both the first flush fails. The second call of the one that does not acknowledge identifies the
chip; that of the other one takes the first acknowledgement for the second one, and reads every word
two bytes off. -/
theorem acknowledgement_is_seen :
    { part [0x0a, 0x0d] with reply := (part []).reply } = part [] ∧
      (∀ cmd, cmd ≠ .binaryMode → (part [0x0a, 0x0d]).reply cmd = (part []).reply cmd) ∧
      (calls [0x0a, 0x0d] prompt 1 [.identify, .identify]).map Turn.result =
        [.error (.error (.serial ())), .error (.error (.unknownChip 0x0a600000))] ∧
      (calls [] prompt 1 [.identify, .identify]).map Turn.result =
        [.error (.error (.serial ())), .ok ()] := by
  refine ⟨rfl, fun cmd other => ?_, calls_misread, calls_silent⟩
  cases cmd with
  | binaryMode => exact absurd rfl other
  | _ => rfl

end SamFlash
