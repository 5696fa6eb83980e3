import SamFlash.Proofs.PlannedCalls
import SamFlash.Proofs.Reception

/-!
# Waiting for the flash controllers

`FlashController.awaitReady` reads the status of every plane in rounds. What a target answers is a
table: for every round and every plane a status word, or the failure of the reading. A wait walks
through the table round by round, in each round through the planes in ascending order, and stops at
the first place that decides it. This module says for any table where that is and what the wait then
comes to, without the loops that find it.

There are four ways (`FlashController.Outcome`). A reading fails, or tells of a locked page, and the
places before it did neither and left the wait open; a round is read to its end with every plane
ready; or no round is left, and the lowest plane that was busy in the last round is to blame. A
locked page is refused even in a plane that is ready, and before the rest of the round is read; a
busy plane lets the round go on. Ready and locked are bits 0 and 2 of the status. If there are no
rounds at all nothing is read, and plane 0 is blamed. There is a pause between two rounds and none
behind the last one.

The readings are compared with the table place by place. What is known of the table are the places
that were read, so the statement is about every table that agrees with them. The status registers
have to exist (`FlashController.Fits`), which they do on a sound chip; the number of planes is left
open.

Results:
* `FlashController.shows_scanPlanes`: one round.
* `FlashController.outcome_pollRounds`: any number of rounds.
* **`FlashController.awaitReady_outcome`**: a wait, on whatever device.
-/

namespace SamFlash.FlashController

open Link

variable {σ ε : Type}

/-! ## What a wait does -/

/-- What reading a status comes to. -/
abbrev Reading (ε : Type) := Except (Failure ε) Word

/-- What a wait does at a time. -/
inductive Polling (ε : Type) where
  /-- Read the status of a plane. -/
  | status (plane : Nat) (reading : Reading ε)
  /-- Let some milliseconds pass. -/
  | pause (ms : Word)
  /-- Take note of a diagnostic. -/
  | note (d : Diagnostic)

/-- The exchanges are these pollings and nothing else. -/
inductive Shows (o : Options) (c : Chip) : List (Polling ε) → Transcript ε → Prop
  | nil : Shows o c [] []
  | status {plane : Nat} {reading : Reading ε} {s t : Transcript ε} {es : List (Polling ε)}
      (read : Held (Monitor.readWord o (c.registerAddress plane statusOffset)) s reading)
      (later : Shows o c es t) : Shows o c (.status plane reading :: es) (s ++ t)
  | pause {t : Transcript ε} {es : List (Polling ε)} (ms : Word) (later : Shows o c es t) :
      Shows o c (.pause ms :: es) (⟨.delay ms, ()⟩ :: t)
  | note {t : Transcript ε} {es : List (Polling ε)} (d : Diagnostic) (later : Shows o c es t) :
      Shows o c (.note d :: es) (⟨.log d, ()⟩ :: t)

variable {o : Options} {c : Chip} {stage : Stage}

theorem Shows.append {s t : Transcript ε} {es fs : List (Polling ε)} (hs : Shows o c es s)
    (ht : Shows o c fs t) : Shows o c (es ++ fs) (s ++ t) := by
  induction hs with
  | nil => exact ht
  | status read _ ih =>
    rw [List.append_assoc]
    exact .status read ih
  | pause ms _ ih => exact .pause ms ih
  | note d _ ih => exact .note d ih

/-- The readings of a round, from a plane on. -/
def sweep (plane : Nat) (row : List (Reading ε)) : List (Polling ε) :=
  row.mapIdx fun i reading => .status (plane + i) reading

theorem sweep_cons (plane : Nat) (reading : Reading ε) (row : List (Reading ε)) :
    sweep plane (reading :: row) = .status plane reading :: sweep (plane + 1) row := by
  simp only [sweep, List.mapIdx_cons, Nat.add_zero, Nat.add_assoc, Nat.add_comm 1]

/-- Rounds with a pause between any two of them, and none behind the last one. -/
def course (o : Options) : List (List (Reading ε)) → List (Polling ε)
  | [] => []
  | [row] => sweep 0 row
  | row :: rows => sweep 0 row ++ .pause o.statusDelay :: course o rows

theorem course_cons {row : List (Reading ε)} {rows : List (List (Reading ε))} (h : rows ≠ []) :
    course o (row :: rows) = sweep 0 row ++ .pause o.statusDelay :: course o rows := by
  cases rows with
  | nil => exact absurd rfl h
  | cons _ _ => rfl

/-! ## What a wait comes to -/

/-- The plane is not locked; the round goes on. -/
def Passes (reading : Reading ε) : Prop := ∃ status, reading = .ok status ∧ status &&& 4 = 0

/-- The plane is ready. -/
def SaysReady (reading : Reading ε) : Prop :=
  ∃ status, reading = .ok status ∧ status &&& 4 = 0 ∧ status &&& 1 ≠ 0

/-- The plane is busy. -/
def SaysBusy (reading : Reading ε) : Prop :=
  ∃ status, reading = .ok status ∧ status &&& 4 = 0 ∧ status &&& 1 = 0

/-- What a target answers, round by round and plane by plane. -/
abbrev Table (ε : Type) := Nat → Nat → Reading ε

/-- The round is read to its end, and leaves the wait open. -/
def Table.Open (table : Table ε) (planes round : Nat) : Prop :=
  (∀ plane < planes, Passes (table round plane)) ∧ ∃ plane < planes, SaysBusy (table round plane)

/-- The plane that is to blame when `rounds` rounds are over: the lowest one that was busy in the
last of them, and plane `none_done` if there was none. -/
def Table.Blames (table : Table ε) (planes rounds none_done plane : Nat) : Prop :=
  (rounds = 0 ∧ plane = none_done) ∨ ∃ last, rounds = last + 1 ∧ plane < planes ∧
    SaysBusy (table last plane) ∧ ∀ lower < plane, SaysReady (table last lower)

/-- The first `n` places of a round. -/
def Table.row (table : Table ε) (round n : Nat) : List (Reading ε) :=
  (List.range n).map (table round)

/-- The first `n` rounds. -/
def Table.rows (table : Table ε) (planes n : Nat) : List (List (Reading ε)) :=
  (List.range n).map fun round => table.row round planes

/-- **What a wait of so many rounds comes to** with a table: the places that are read, the
diagnostics behind them, and the result. -/
inductive Outcome (planes rounds none_done : Nat) (tries : Word) (stage : Stage) (table : Table ε) :
    List (List (Reading ε)) → List Diagnostic → Except (Failure ε) Unit → Prop
  /-- The first place that decides is a reading that failed. -/
  | failed {round plane : Nat} {f : Failure ε} (in_time : round < rounds) (there : plane < planes)
      (before : ∀ k < round, table.Open planes k) (ahead : ∀ q < plane, Passes (table round q))
      (fails : table round plane = .error f) :
      Outcome planes rounds none_done tries stage table
        (table.rows planes round ++ [table.row round (plane + 1)]) [] (.error f)
  /-- The first place that decides is a locked page. -/
  | locked {round plane : Nat} {status : Word} (in_time : round < rounds) (there : plane < planes)
      (before : ∀ k < round, table.Open planes k) (ahead : ∀ q < plane, Passes (table round q))
      (read : table round plane = .ok status) (locks : status &&& 4 ≠ 0) :
      Outcome planes rounds none_done tries stage table
        (table.rows planes round ++ [table.row round (plane + 1)]) [.lockError plane stage]
        (.error (.error (.flashLock plane stage)))
  /-- A round is read to its end, and every plane is ready in it. -/
  | ready {round : Nat} (in_time : round < rounds) (before : ∀ k < round, table.Open planes k)
      (all : ∀ plane < planes, SaysReady (table round plane)) :
      Outcome planes rounds none_done tries stage table (table.rows planes (round + 1)) [] (.ok ())
  /-- Nothing decides. -/
  | exhausted {plane : Nat} (before : ∀ k < rounds, table.Open planes k)
      (blamed : table.Blames planes rounds none_done plane) :
      Outcome planes rounds none_done tries stage table (table.rows planes rounds)
        [.commandTimeout plane stage] (.error (.error (.flashCommandTimeout plane stage tries)))

/-- The table has what was read, at the places where it was read. -/
def Table.Has (table : Table ε) (rows : List (List (Reading ε))) : Prop :=
  ∀ round row, rows[round]? = some row → ∀ plane reading, row[plane]? = some reading →
    table round plane = reading

/-- A table that has what was read. -/
def Table.ofRows (rows : List (List (Reading ε))) : Table ε := fun round plane =>
  (rows[round]?.bind (·[plane]?)).getD (.ok 0)

theorem Table.has_ofRows (rows : List (List (Reading ε))) : (Table.ofRows rows).Has rows := by
  intro round row hrow plane reading hreading
  simp only [ofRows, hrow, Option.bind_some, hreading, Option.getD_some]

/-! ## One round -/

/-- The reading says that the plane is not ready. -/
def isBusy : Reading ε → Bool
  | .ok status => !isReady status
  | .error _ => false

theorem Passes.saysReady {reading : Reading ε} (h : Passes reading)
    (ready : isBusy reading = false) : SaysReady reading := by
  obtain ⟨status, rfl, unlocked⟩ := h
  exact ⟨status, rfl, unlocked, isReady_iff.mp (by simpa [isBusy] using ready)⟩

theorem Passes.saysBusy {reading : Reading ε} (h : Passes reading) (busy : isBusy reading = true) :
    SaysBusy reading := by
  obtain ⟨status, rfl, unlocked⟩ := h
  exact ⟨status, rfl, unlocked, isReady_eq_false_iff.mp (by simpa [isBusy] using busy)⟩

/-- How a round ends that reads up to `left` planes from `plane` on, with `busy` the plane that is
to blame so far. -/
inductive Scanned (stage : Stage) (left plane : Nat) (busy : Option Nat) :
    List (Reading ε) → List Diagnostic → Except (Failure ε) (Option Nat) → Prop
  | failed {ahead : List (Reading ε)} {f : Failure ε} (short : ahead.length < left)
      (pass : ∀ reading ∈ ahead, Passes reading) :
      Scanned stage left plane busy (ahead ++ [.error f]) [] (.error f)
  | locked {ahead : List (Reading ε)} {status : Word} (short : ahead.length < left)
      (pass : ∀ reading ∈ ahead, Passes reading) (locks : status &&& 4 ≠ 0) :
      Scanned stage left plane busy (ahead ++ [.ok status])
        [.lockError (plane + ahead.length) stage]
        (.error (.error (.flashLock (plane + ahead.length) stage)))
  | whole {row : List (Reading ε)} (full : row.length = left)
      (pass : ∀ reading ∈ row, Passes reading) :
      Scanned stage left plane busy row [] (.ok (busy.or ((row.findIdx? isBusy).map (plane + ·))))

/-- One plane more, in front. -/
theorem Scanned.cons {left plane : Nat} {busy : Option Nat} {row : List (Reading ε)}
    {notes : List Diagnostic} {r : Except (Failure ε) (Option Nat)} {reading : Reading ε}
    (h : Scanned stage left (plane + 1) (if isBusy reading && busy.isNone then some plane else busy)
      row notes r) (here : Passes reading) :
    Scanned stage (left + 1) plane busy (reading :: row) notes r := by
  have passes {row : List (Reading ε)} (pass : ∀ reading ∈ row, Passes reading) :
      ∀ x ∈ reading :: row, Passes x := List.forall_mem_cons.mpr ⟨here, pass⟩
  cases h with
  | failed short pass => exact .failed (Nat.succ_lt_succ short) (passes pass)
  | @locked ahead status short pass locks =>
    have place : plane + 1 + ahead.length = plane + (reading :: ahead).length := by
      rw [List.length_cons]
      omega
    rw [place]
    exact .locked (Nat.succ_lt_succ short) (passes pass) locks
  | whole full pass =>
    have found : busy.or (((reading :: row).findIdx? isBusy).map (plane + ·)) =
        (if isBusy reading && busy.isNone then some plane else busy).or
          ((row.findIdx? isBusy).map (plane + 1 + ·)) := by
      rw [List.findIdx?_cons]
      cases hb : isBusy reading <;> cases busy <;>
        simp [Function.comp_def, Nat.add_assoc, Nat.add_comm 1]
    rw [← found]
    exact .whole (congrArg (· + 1) full) (passes pass)

/-- The planes' status registers are there. -/
def Fits (c : Chip) : Prop :=
  ∀ plane < c.planes, c.controllerBase.toNat + plane * 0x200 + statusOffset.toNat < 2 ^ 32

theorem shows_scanPlanes (fits : Fits c) {left plane : Nat} {busy : Option Nat}
    (hp : plane + left ≤ c.planes) {t : Transcript ε} {r : Except (Failure ε) (Option Nat)}
    (h : Held (scanPlanes o c stage left plane busy) t r) :
    ∃ row notes, Shows o c (sweep plane row ++ notes.map .note) t ∧
      Scanned stage left plane busy row notes r := by
  induction left generalizing plane busy t with
  | zero =>
    obtain ⟨rfl, rfl⟩ := held_pure_iff.mp h
    have nothing_read : Scanned stage 0 plane busy ([] : List (Reading ε)) []
        (.ok (busy.or none)) := .whole rfl (by simp)
    exact ⟨[], [], .nil, by rwa [Option.or_none] at nothing_read⟩
  | succ left ih =>
    rw [scanPlanes, Chip.register_eq (fits plane (by omega)), exact_ok, pure_bind] at h
    rcases held_bind_iff.mp h with ⟨f, read, rfl⟩ | ⟨status, t₁, t₂, read, h₂, rfl⟩
    · refine ⟨[.error f], [], ?_, ?_⟩
      · rw [← List.append_nil t]
        exact .status read .nil
      · exact @Scanned.failed _ _ _ _ _ [] f (Nat.succ_pos left) (by simp)
    by_cases hl : isLocked status = true
    · rw [if_pos hl] at h₂
      obtain ⟨_, u, hu, rfl⟩ := held_request_bind h₂
      obtain ⟨rfl, rfl⟩ := held_fail_iff.mp hu
      exact ⟨[.ok status], [.lockError plane stage], .status read (.note _ .nil),
        @Scanned.locked _ _ _ _ _ [] status (Nat.succ_pos left) (by simp) (isLocked_iff.mp hl)⟩
    · rw [if_neg hl] at h₂
      obtain ⟨row, notes, shows', scanned⟩ := ih (by omega) h₂
      have unlocked := isLocked_eq_false_iff.mp (Bool.eq_false_of_not_eq_true hl)
      refine ⟨.ok status :: row, notes, ?_, scanned.cons ⟨status, rfl, unlocked⟩⟩
      rw [sweep_cons]
      exact .status read shows'

/-! ## All rounds -/

namespace Table

variable {table : Table ε} {planes : Nat}

/-- The rounds behind the first one. -/
def later (table : Table ε) : Table ε := fun round => table (round + 1)

theorem rows_succ (n : Nat) :
    table.rows planes (n + 1) = table.row 0 planes :: table.later.rows planes n := by
  simp only [rows, List.range_succ_eq_map, List.map_cons, List.map_map]
  rfl

theorem row_succ (round n : Nat) :
    table.row round (n + 1) = table.row round n ++ [table round n] := by
  simp only [row, List.range_succ, List.map_append, List.map_cons, List.map_nil]

theorem length_row (round n : Nat) : (table.row round n).length = n := by
  simp only [row, List.length_map, List.length_range]

theorem forall_mem_row {P : Reading ε → Prop} {round n : Nat} :
    (∀ reading ∈ table.row round n, P reading) ↔ ∀ plane < n, P (table round plane) := by
  simp only [row, List.forall_mem_map, List.mem_range]

theorem Has.row_eq {row : List (Reading ε)} {rows : List (List (Reading ε))}
    (h : table.Has (row :: rows)) : row = table.row 0 row.length := by
  apply List.ext_getElem (length_row 0 _).symm
  intro plane lt _
  simp only [Table.row, List.getElem_map, List.getElem_range]
  exact (h 0 row rfl plane _ (List.getElem?_eq_getElem lt)).symm

theorem Has.whole {row : List (Reading ε)} {rows : List (List (Reading ε))}
    (h : table.Has (row :: rows)) (full : row.length = planes) : row = table.row 0 planes :=
  full ▸ h.row_eq

/-- A place, and the places ahead of it. -/
theorem Has.concat {ahead : List (Reading ε)} {reading : Reading ε}
    {rows : List (List (Reading ε))} (h : table.Has ((ahead ++ [reading]) :: rows)) :
    ahead ++ [reading] = table.row 0 (ahead.length + 1) ∧ ahead = table.row 0 ahead.length ∧
      table 0 ahead.length = reading := by
  have shape := h.row_eq
  rw [List.length_append, List.length_singleton] at shape
  obtain ⟨init, last⟩ := List.append_inj' (shape.trans (row_succ 0 ahead.length)) rfl
  exact ⟨shape, init, (List.singleton_inj.mp last).symm⟩

theorem Has.later {row : List (Reading ε)} {rows : List (List (Reading ε))}
    (h : table.Has (row :: rows)) : table.later.Has rows :=
  fun round row' hrow => h (round + 1) row' hrow

theorem open_succ {round : Nat} (first : table.Open planes 0)
    (h : ∀ k < round, table.later.Open planes k) : ∀ k < round + 1, table.Open planes k := by
  intro k hk
  cases k with
  | zero => exact first
  | succ k => exact h k (Nat.lt_of_succ_lt_succ hk)

/-- The plane that a round blames is the one to blame if no round follows. -/
theorem Blames.later {rounds none_done first plane : Nat}
    (h : table.later.Blames planes rounds first plane)
    (blamed : table.Blames planes 1 none_done first) :
    table.Blames planes (rounds + 1) none_done plane := by
  rcases h with ⟨rfl, rfl⟩ | ⟨last, rfl, rest⟩
  · exact blamed
  · exact Or.inr ⟨last + 1, rfl, rest⟩

end Table

/-- A round that leaves the wait open, in front. -/
theorem Outcome.after {planes rounds none_done first : Nat} {tries : Word} {table : Table ε}
    {rows : List (List (Reading ε))} {notes : List Diagnostic} {r : Except (Failure ε) Unit}
    (h : Outcome planes rounds first tries stage table.later rows notes r)
    (opens : table.Open planes 0) (blamed : table.Blames planes 1 none_done first) :
    Outcome planes (rounds + 1) none_done tries stage table (table.row 0 planes :: rows) notes
      r := by
  cases h with
  | failed in_time there before ahead fails =>
    rw [← List.cons_append, ← Table.rows_succ]
    exact .failed (Nat.succ_lt_succ in_time) there (Table.open_succ opens before) ahead fails
  | locked in_time there before ahead read locks =>
    rw [← List.cons_append, ← Table.rows_succ]
    exact .locked (Nat.succ_lt_succ in_time) there (Table.open_succ opens before) ahead read locks
  | ready in_time before all =>
    rw [← Table.rows_succ]
    exact .ready (Nat.succ_lt_succ in_time) (Table.open_succ opens before) all
  | exhausted before blamed' =>
    rw [← Table.rows_succ]
    exact .exhausted (Table.open_succ opens before) (blamed'.later blamed)

/-- A round that breaks off ends the wait. -/
theorem Scanned.breaks {planes rounds none_done : Nat} {tries : Word} {table : Table ε}
    {row : List (Reading ε)} {notes : List Diagnostic} {r : Except (Failure ε) (Option Nat)}
    {f : Failure ε} (h : Scanned stage planes 0 none row notes r) (breaks : r = .error f)
    (has : table.Has [row]) :
    Outcome planes (rounds + 1) none_done tries stage table [row] notes (.error f) := by
  cases h with
  | @failed ahead g short pass =>
    obtain rfl := Except.error.inj breaks
    obtain ⟨shape, init, here⟩ := has.concat
    rw [init, Table.forall_mem_row] at pass
    rw [shape]
    exact .failed (Nat.succ_pos rounds) short (fun k hk => absurd hk (Nat.not_lt_zero k)) pass here
  | @locked ahead status short pass locks =>
    obtain rfl := Except.error.inj breaks
    obtain ⟨shape, init, here⟩ := has.concat
    rw [init, Table.forall_mem_row] at pass
    rw [shape, Nat.zero_add]
    exact .locked (Nat.succ_pos rounds) short (fun k hk => absurd hk (Nat.not_lt_zero k)) pass here
      locks
  | whole full pass => exact absurd breaks (by simp)

/-- A round that is read to its end finds the lowest plane that is busy. -/
theorem Scanned.reads {planes : Nat} {row : List (Reading ε)} {notes : List Diagnostic}
    {r : Except (Failure ε) (Option Nat)} {found : Option Nat}
    (h : Scanned stage planes 0 none row notes r) (reads : r = .ok found) :
    notes = [] ∧ row.length = planes ∧ (∀ reading ∈ row, Passes reading) ∧
      row.findIdx? isBusy = found := by
  cases h with
  | failed short pass => exact absurd reads (by simp)
  | locked short pass locks => exact absurd reads (by simp)
  | whole full pass =>
    obtain rfl := Except.ok.inj reads
    exact ⟨rfl, full, pass, by simp⟩

/-- A round in which no plane is busy ends the wait. -/
theorem Outcome.of_none {planes rounds none_done : Nat} {tries : Word} {table : Table ε}
    (pass : ∀ reading ∈ table.row 0 planes, Passes reading)
    (found : (table.row 0 planes).findIdx? isBusy = none) :
    Outcome planes (rounds + 1) none_done tries stage table [table.row 0 planes] [] (.ok ()) := by
  have idle := List.findIdx?_eq_none_iff.mp found
  rw [Table.forall_mem_row] at pass idle
  exact .ready (Nat.succ_pos rounds) (fun k hk => absurd hk (Nat.not_lt_zero k)) fun plane hp =>
    (pass plane hp).saysReady (idle plane hp)

/-- A round in which a plane is busy leaves the wait open, and blames the lowest one. -/
theorem Table.blames_of_some {planes none_done first : Nat} {table : Table ε}
    (pass : ∀ reading ∈ table.row 0 planes, Passes reading)
    (found : (table.row 0 planes).findIdx? isBusy = some first) :
    table.Open planes 0 ∧ table.Blames planes 1 none_done first := by
  obtain ⟨lt, busy, lower⟩ := List.findIdx?_eq_some_iff_getElem.mp found
  rw [Table.forall_mem_row] at pass
  rw [Table.length_row] at lt
  simp only [Table.row, List.getElem_map, List.getElem_range] at busy lower
  have saysBusy := (pass first lt).saysBusy busy
  refine ⟨⟨pass, first, lt, saysBusy⟩, Or.inr ⟨0, rfl, lt, saysBusy, fun plane hp => ?_⟩⟩
  exact (pass plane (by omega)).saysReady (by simpa using lower plane hp)

/-- The rounds that are left decide whether there is a pause. -/
theorem pauseBehind_eq {tried : Word} {left : Nat}
    (ht : tried.toNat + left = o.statusRetries.toNat) :
    (pauseBehind o tried : Transcript ε) =
      if left = 0 then [] else [⟨.delay o.statusDelay, ()⟩] := by
  unfold pauseBehind
  by_cases hl : left = 0
  · rw [if_pos hl, if_neg]
    rw [UInt32.lt_iff_toNat_lt]
    omega
  · rw [if_neg hl, if_pos]
    rw [UInt32.lt_iff_toNat_lt]
    omega

theorem outcome_pollRounds (fits : Fits c) {left : Nat} {tried : Word} {busy : Option Nat}
    (ht : tried.toNat + left = o.statusRetries.toNat) {t : Transcript ε}
    {r : Except (Failure ε) Unit} (h : Held (pollRounds o c stage left tried busy) t r) :
    ∃ rows notes, Shows o c (course o rows ++ notes.map .note) t ∧ (rows = [] ↔ left = 0) ∧
      ∀ table : Table ε, table.Has rows →
        Outcome c.planes left (busy.getD 0) o.statusRetries stage table rows notes r := by
  induction left generalizing tried busy t with
  | zero =>
    obtain ⟨_, u, hu, rfl⟩ := held_request_bind h
    obtain ⟨rfl, rfl⟩ := held_fail_iff.mp hu
    refine ⟨[], [.commandTimeout (busy.getD 0) stage], .note _ .nil, by simp, fun table _ => ?_⟩
    exact .exhausted (fun k hk => absurd hk (Nat.not_lt_zero k)) (Or.inl ⟨rfl, rfl⟩)
  | succ left ih =>
    have small : tried.toNat + (left + 1) < UInt32.size := ht ▸ o.statusRetries.toNat_lt_size
    rcases held_pollRounds_succ small h with ⟨f, h₁, rfl⟩ | ⟨h₁, rfl⟩ | ⟨first, s, v, h₁, hv, rfl⟩
    · obtain ⟨row, notes, seen, scanned⟩ := shows_scanPlanes fits (by omega) h₁
      exact ⟨[row], notes, seen, by simp, fun table has => scanned.breaks rfl has⟩
    · obtain ⟨row, notes, seen, scanned⟩ := shows_scanPlanes fits (by omega) h₁
      obtain ⟨rfl, full, pass, found⟩ := scanned.reads rfl
      refine ⟨[row], [], seen, by simp, fun table has => ?_⟩
      obtain rfl := has.whole full
      exact .of_none pass found
    · obtain ⟨row, notes, seen, scanned⟩ := shows_scanPlanes fits (by omega) h₁
      obtain ⟨rfl, full, pass, found⟩ := scanned.reads rfl
      have next := toNat_tried small
      obtain ⟨rows, notes, seen', empty, outcome⟩ := ih (by omega) hv
      refine ⟨row :: rows, notes, ?_, by simp, fun table has => ?_⟩
      · rw [List.map_nil, List.append_nil] at seen
        rw [pauseBehind_eq (show (tried + 1).toNat + left = _ by omega)]
        by_cases hl : left = 0
        · rw [empty.mpr hl] at seen' ⊢
          rw [if_pos hl]
          exact seen.append seen'
        · rw [course_cons fun none_left => hl (empty.mp none_left), if_neg hl, List.append_assoc]
          exact seen.append (.pause o.statusDelay seen')
      · have has' := has.later
        obtain rfl := has.whole full
        obtain ⟨opens, blamed⟩ := Table.blames_of_some pass found
        exact (outcome table.later has').after opens blamed

/-- **A wait**, on whatever device, reads and pauses as the table of the device's answers says, and
comes to what the table says. -/
theorem awaitReady_outcome (fits : Fits c) (d : Device σ ε) (s : σ) :
    ∃ rows notes,
      Shows o c (course o rows ++ notes.map .note)
        (Dialogue.transcript d (awaitReady o c stage).run s) ∧
      ∀ table : Table ε, table.Has rows →
        Outcome c.planes o.statusRetries.toNat 0 o.statusRetries stage table rows notes
          (Dialogue.run d (awaitReady o c stage).run s).1 := by
  have started : (0 : Word).toNat + o.statusRetries.toNat = o.statusRetries.toNat := Nat.zero_add _
  obtain ⟨rows, notes, seen, -, outcome⟩ :=
    outcome_pollRounds fits started (Dialogue.Held.of_run d (awaitReady o c stage).run s)
  exact ⟨rows, notes, seen, outcome⟩

/-- A port on which the planes of a part take turns in being ready. -/
def seesaw : Device Nat String :=
  .giving fun k => if k = 0 ∨ k = 12 then .byte 1 else .byte 0

set_option maxRecDepth 100000 in
theorem awaitReady_outcome_seesaw :
    let c := Chip.sam3x8 0x285e0a60 "ATSAM3X8E"
    let o : Options := { statusRetries := 2 }
    let x : Link String Unit := awaitReady o c .bootFlag
    Fits c ∧ (∃ rows notes, ∃ table : Table String, table.Has rows ∧
      Shows o c (course o rows ++ notes.map .note) (Dialogue.transcript seesaw x.run 0) ∧
      Outcome 2 2 0 2 .bootFlag table rows notes (Dialogue.run seesaw x.run 0).1) ∧
      (Dialogue.run seesaw x.run 0).1 = .error (.error (.flashCommandTimeout 0 .bootFlag 2)) := by
  intro c o x
  have fits : Fits c := by
    unfold Fits
    decide
  refine ⟨fits, ?_, ?_⟩
  · obtain ⟨rows, notes, seen, outcome⟩ :=
      @awaitReady_outcome Nat String o c .bootFlag fits seesaw 0
    exact ⟨rows, notes, _, Table.has_ofRows rows, seen, outcome _ (Table.has_ofRows rows)⟩
  · cbv

end SamFlash.FlashController
