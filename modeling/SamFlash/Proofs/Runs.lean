import SamFlash.CommandLine.Session
import SamFlash.Proofs.History

/-!
# Runs of the program

A run of the program (`CommandLine.run`) is a history of one new programmer: it identifies the chip,
and then writes the image and selects the ROM, as far as the command line asks for it. Around the
calls of the programmer there are only asides: the port and the image are opened, the line is set
up, and something is shown (`CommandLine.openPort`, `CommandLine.describe`). An aside gives no byte
to the port, notes no operation of the monitor and takes nothing of the image.

What the command line asks for is a list of errands: the identification always, the image if a file
is given, and the ROM last; with `--info` nothing behind the identification. The call that an errand
comes to is settled when the errand is run, since the size of the image is only known once the file
has been opened. `CommandLine.Proceeds` is how a run goes on with errands left. It may end between
two calls, when a file cannot be opened, or with the first call that fails, and then with a report;
the errands behind that are not run.

For a run that is held with a device the parts can be computed one after the other:
`CommandLine.Run.run_eq` splits it behind the identification, and
`CommandLine.Run.held_writeFile_ok` says what has to succeed for the image to be written.

Results:
* `CommandLine.Run.aside_openPort`, `CommandLine.Run.aside_describe`: the asides.
* `CommandLine.Run.makes_call`: a call, and what a run does when it fails and when it succeeds.
* **`CommandLine.Run.makes_run`**: the run of a command line makes the calls for its errands, in
  order, up to the first one that fails.
* `CommandLine.Proceeds.complete`: a run that succeeds makes all of them.
* `CommandLine.Proceeds.history`: the calls of a run are a history.
-/

namespace SamFlash.CommandLine

variable {α β : Type}

/-! ## Errands -/

/-- What a command line asks for. -/
inductive Errand where
  /-- Identify the chip. -/
  | identify
  /-- Write the image file. -/
  | write (path : String)
  /-- Select the ROM as boot source. -/
  | selectRom
  deriving DecidableEq, Repr

/-- The file was opened, and has so many bytes. -/
def Opens (t : Transcript IoKind) (path : String) (size : Nat) : Prop :=
  ⟨.openImage path, .ok size⟩ ∈ t

/-- No call opens a file. -/
theorem unopened_call {o : Options} {v : Turn IoKind} (h : v.Held o) (hp : v.before.Knows)
    (path : String) (size : Nat) : ¬ Opens v.exchanges path size := by
  have unasked {t : Transcript IoKind} (h : ∀ x ∈ t, x.request ≠ .openImage path) :
      ¬ Opens t path size := fun opens => h _ opens rfl
  cases h.course with
  | lost f _ asked _ _ => exact unasked (Programmer.composed_findChip.unasked id id asked)
  | worked c s u gets work exchanges _ _ =>
    have found : ¬ Opens s path size := by
      rcases gets with ⟨-, asked⟩ | ⟨-, -, rfl⟩
      · exact unasked (Programmer.composed_findChip.unasked id id asked)
      · exact List.not_mem_nil
    have worked := unasked ((Task.accurate_work (gets.mem hp) v.task).unasked id id work)
    rw [exchanges]
    exact fun opens => (List.mem_append.mp opens).elim found worked

/-- Behind the exchanges `s` the errand comes to the call. -/
def Errand.Asks (s : Transcript IoKind) : Errand → Task → Prop
  | identify, task => task = .identify
  | write path, task => ∃ size, Opens s path size ∧ task = .program size true
  | selectRom, task => task = .setBootSource false

/-- The errands behind the identification: the image first, and the ROM last. -/
def furtherErrands (a : Arguments) : List Errand :=
  if a.info then []
  else a.file.toList.map .write ++ if a.bootRom then [.selectRom] else []

theorem mem_furtherErrands_iff {a : Arguments} {e : Errand} :
    e ∈ furtherErrands a ↔ a.info = false ∧
      ((∃ path, a.file = some path ∧ e = .write path) ∨ a.bootRom = true ∧ e = .selectRom) := by
  unfold furtherErrands
  cases a.info <;> cases a.file <;> cases a.bootRom <;> simp

theorem furtherErrands_eq {a : Arguments} (info : a.info = false) :
    furtherErrands a =
      a.file.toList.map .write ++ if a.bootRom then [.selectRom] else [] := by
  simp [furtherErrands, info]

/-! ## Parts of a run -/

namespace Run

variable {t : Transcript IoKind}

/-- The part of a run can be held with the exchanges `t` and then comes to `r`. -/
def Held (x : Run α) (t : Transcript IoKind) (r : Except (List String) α) : Prop :=
  Dialogue.Held x.run t r

theorem held_bind_iff {x : Run α} {f : α → Run β} {r : Except (List String) β} :
    Held (x >>= f) t r ↔
      (∃ report, Held x t (.error report) ∧ r = .error report) ∨
        ∃ a t₁ t₂, Held x t₁ (.ok a) ∧ Held (f a) t₂ r ∧ t = t₁ ++ t₂ :=
  Dialogue.held_except_bind_iff

/-- However the part goes, there is nothing in it but asides. -/
structure Aside (x : Run α) : Prop where
  quiet : ∀ {t r}, Held x t r → t.Quiet

/-- The part is an aside, and ends the run with a report. -/
structure GivesUp (x : Run α) : Prop extends Aside x where
  reports : ∀ {t r}, Held x t r → ∃ report, r = .error report

theorem aside_pure (a : α) : Aside (pure a) where
  quiet h := by
    obtain ⟨rfl, -⟩ := Dialogue.held_done_iff.mp h
    exact Transcript.quiet_nil

theorem givesUp_fail (report : List String) : GivesUp (fail report : Run α) where
  quiet h := by
    obtain ⟨rfl, -⟩ := Dialogue.held_done_iff.mp h
    exact Transcript.quiet_nil
  reports h := ⟨report, (Dialogue.held_done_iff.mp h).2⟩

theorem Aside.bind {x : Run α} {f : α → Run β} (hx : Aside x) (hf : ∀ a, Aside (f a)) :
    Aside (x >>= f) where
  quiet h := by
    rcases held_bind_iff.mp h with ⟨_, h₁, -⟩ | ⟨a, t₁, t₂, h₁, h₂, rfl⟩
    · exact hx.quiet h₁
    · exact (hx.quiet h₁).append ((hf a).quiet h₂)

theorem Aside.givesUp_bind {x : Run α} {f : α → Run β} (hx : Aside x) (hf : ∀ a, GivesUp (f a)) :
    GivesUp (x >>= f) where
  toAside := hx.bind fun a => (hf a).toAside
  reports h := by
    rcases held_bind_iff.mp h with ⟨report, -, rfl⟩ | ⟨a, _, _, -, h₂, -⟩
    · exact ⟨report, rfl⟩
    · exact (hf a).reports h₂

theorem GivesUp.bind {x : Run α} (hx : GivesUp x) (f : α → Run β) : GivesUp (x >>= f) where
  quiet h := by
    rcases held_bind_iff.mp h with ⟨_, h₁, -⟩ | ⟨_, _, _, h₁, -, -⟩
    · exact hx.quiet h₁
    · exact absurd (hx.reports h₁).choose_spec (by simp)
  reports h := by
    rcases held_bind_iff.mp h with ⟨report, -, rfl⟩ | ⟨_, _, _, h₁, -, -⟩
    · exact ⟨report, rfl⟩
    · exact absurd (hx.reports h₁).choose_spec (by simp)

theorem held_request_iff {q : Request} {r : Except (List String) (q.Answer IoKind)} :
    Held (request q) t r ↔ ∃ a, t = [⟨q, a⟩] ∧ r = .ok a := by
  constructor
  · rintro (_ | ⟨a, rest⟩)
    obtain ⟨rfl, rfl⟩ := Dialogue.held_done_iff.mp rest
    exact ⟨a, rfl, rfl⟩
  · rintro ⟨a, rfl, rfl⟩
    exact Dialogue.Held.ask a (Dialogue.Held.done _)

/-- A request is answered, and the run goes on with the answer. -/
theorem held_request_bind {q : Request} {f : q.Answer IoKind → Run α}
    {r : Except (List String) α} (h : Held (request q >>= f) t r) :
    ∃ a u, Held (f a) u r ∧ t = [⟨q, a⟩] ++ u := by
  rcases held_bind_iff.mp h with ⟨_, h₁, -⟩ | ⟨a, t₁, t₂, h₁, h₂, rfl⟩
  · obtain ⟨_, -, e⟩ := held_request_iff.mp h₁
    exact absurd e (by simp)
  · obtain ⟨a', rfl, e⟩ := held_request_iff.mp h₁
    obtain rfl := Except.ok.inj e
    exact ⟨a, t₂, h₂, rfl⟩

/-- A request that the monitor and the image have no part in. -/
theorem aside_request {q : Request} (hq : ∀ a : q.Answer IoKind, Transcript.Quiet [⟨q, a⟩]) :
    Aside (request q) where
  quiet h := by
    obtain ⟨a, rfl, -⟩ := held_request_iff.mp h
    exact hq a

theorem aside_log {d : Diagnostic}
    (hd : Exchange.operation? (ε := IoKind) ⟨.log d, ()⟩ = none) : Aside (log d) :=
  aside_request fun _ => Transcript.quiet_nil.cons hd rfl rfl

theorem givesUp_failDoing (doing cause : String) : GivesUp (failDoing doing cause : Run α) :=
  givesUp_fail _

theorem aside_orFailDoing (doing : String) (outcome : Except String α) :
    Aside (orFailDoing doing outcome) := by
  cases outcome with
  | ok a => exact aside_pure a
  | error cause => exact (givesUp_failDoing doing cause).toAside

theorem aside_openPort (path : String) (baud : Nat) : Aside (openPort path baud) := by
  refine (aside_request fun _ => Transcript.quiet_nil.cons rfl rfl rfl).bind fun opened => ?_
  refine (aside_orFailDoing _ _).bind fun _ => ?_
  split
  · exact (aside_request fun _ => Transcript.quiet_nil.cons rfl rfl rfl).bind fun _ =>
      aside_orFailDoing _ _
  · exact (givesUp_failDoing _ _).toAside

theorem aside_describe (c : Chip) : Aside (describe c) := by
  refine (aside_log rfl).bind fun _ => ?_
  split
  · exact aside_log rfl
  · exact (givesUp_fail _).toAside

end Run

/-! ## Runs -/

/-- How a run goes on from a programmer, with errands left: the calls that it makes, and what it
comes to. -/
inductive Proceeds (o : Options) : Programmer → List Errand → Transcript IoKind →
    List (Turn IoKind) → Except (List String) Unit → Prop
  /-- Nothing is left. -/
  | finished {p : Programmer} {t : Transcript IoKind} (quiet : t.Quiet) :
      Proceeds o p [] t [] (.ok ())
  /-- The run ends before the next call. -/
  | stopped {p : Programmer} {es : List Errand} {t : Transcript IoKind} {report : List String}
      (quiet : t.Quiet) : Proceeds o p es t [] (.error report)
  /-- The next call fails, and the run ends. -/
  | failed {v : Turn IoKind} {e : Errand} {es : List Errand} {s u : Transcript IoKind}
      {f : Failure IoKind} {report : List String} (before : s.Quiet) (asks : e.Asks s v.task)
      (held : v.Held o) (result : v.result = .error f) (behind : u.Quiet) :
      Proceeds o v.before (e :: es) (s ++ (v.exchanges ++ u)) [v] (.error report)
  /-- The next call succeeds, and the run goes on. -/
  | called {v : Turn IoKind} {e : Errand} {es : List Errand} {s u : Transcript IoKind}
      {vs : List (Turn IoKind)} {r : Except (List String) Unit} (before : s.Quiet)
      (asks : e.Asks s v.task) (held : v.Held o) (result : v.result = .ok ())
      (rest : Proceeds o v.after es u vs r) :
      Proceeds o v.before (e :: es) (s ++ (v.exchanges ++ u)) (v :: vs) r

theorem Errand.Asks.mono {s t : Transcript IoKind} {e : Errand} {task : Task}
    (h : e.Asks s task) (hs : s ⊆ t) : e.Asks t task := by
  cases e with
  | identify => exact h
  | write path =>
    obtain ⟨size, opens, rfl⟩ := h
    exact ⟨size, hs opens, rfl⟩
  | selectRom => exact h

namespace Proceeds

variable {o : Options} {p : Programmer} {es : List Errand} {s t : Transcript IoKind}
  {vs : List (Turn IoKind)} {r : Except (List String) Unit}

/-- An aside in front. -/
theorem append_left (h : Proceeds o p es t vs r) (hs : s.Quiet) :
    Proceeds o p es (s ++ t) vs r := by
  cases h with
  | finished quiet => exact .finished (hs.append quiet)
  | stopped quiet => exact .stopped (hs.append quiet)
  | failed before asks held result behind =>
    rw [← List.append_assoc]
    exact .failed (hs.append before) (asks.mono (List.subset_append_right s _)) held result behind
  | called before asks held result rest =>
    rw [← List.append_assoc]
    exact .called (hs.append before) (asks.mono (List.subset_append_right s _)) held result rest

/-- Without an errand there is no call. -/
theorem idle (h : Proceeds o p [] t vs r) : t.Quiet ∧ vs = [] := by
  cases h with
  | finished quiet => exact ⟨quiet, rfl⟩
  | stopped quiet => exact ⟨quiet, rfl⟩

/-- Every call is for an errand that was left. -/
theorem asked (h : Proceeds o p es t vs r) {v : Turn IoKind} (hv : v ∈ vs) :
    ∃ e ∈ es, e.Asks t v.task := by
  induction h with
  | finished => exact absurd hv List.not_mem_nil
  | stopped => exact absurd hv List.not_mem_nil
  | failed _ asks _ _ _ =>
    obtain rfl := List.mem_singleton.mp hv
    exact ⟨_, List.mem_cons_self, asks.mono (List.subset_append_left _ _)⟩
  | called _ asks _ _ _ ih =>
    rcases List.mem_cons.mp hv with rfl | hv
    · exact ⟨_, List.mem_cons_self, asks.mono (List.subset_append_left _ _)⟩
    · obtain ⟨e, he, asks⟩ := ih hv
      refine ⟨e, List.mem_cons_of_mem _ he, asks.mono fun _ hx => ?_⟩
      exact List.mem_append_right _ (List.mem_append_right _ hx)

/-- **A run that succeeds** makes the call for every errand, in order. -/
theorem complete (h : Proceeds o p es t vs r) (ok : r = .ok ()) :
    List.Forall₂ (fun e v => e.Asks t v.task) es vs := by
  induction h with
  | finished => exact .nil
  | stopped => exact absurd ok (by simp)
  | failed => exact absurd ok (by simp)
  | @called v e es s u vs r _ asks _ _ _ ih =>
    refine .cons (asks.mono (List.subset_append_left _ _)) ((ih ok).imp fun e w asks => ?_)
    exact asks.mono fun _ hx => List.mem_append_right _ (List.mem_append_right _ hx)

theorem length_le (h : Proceeds o p es t vs r) : vs.length ≤ es.length := by
  induction h with
  | finished => exact Nat.zero_le _
  | stopped => exact Nat.zero_le _
  | failed => simp
  | called _ _ _ _ _ ih => exact Nat.succ_le_succ ih

/-- **The calls of a run** are a history. -/
theorem history (h : Proceeds o p es t vs r) : ∃ q, History o p vs q := by
  induction h with
  | @finished p => exact ⟨p, .nil p⟩
  | @stopped p => exact ⟨p, .nil p⟩
  | failed _ _ held _ _ => exact ⟨_, .cons held (.nil _)⟩
  | called _ _ held _ _ ih =>
    obtain ⟨q, rest⟩ := ih
    exact ⟨q, .cons held rest⟩

end Proceeds

namespace Run

variable {o : Options} {p : Programmer} {es : List Errand}

/-- From the programmer `p` on, the part makes the calls for the errands, and ends the run. -/
structure Makes (o : Options) (p : Programmer) (es : List Errand) (x : Run Unit) : Prop where
  proceeds : ∀ {t r}, Held x t r → ∃ vs, Proceeds o p es t vs r

/-- An aside that is the end of a run. -/
theorem Aside.makes {x : Run Unit} (hx : Aside x) : Makes o p [] x where
  proceeds {t r} h := by
    cases r with
    | ok _ => exact ⟨[], .finished (hx.quiet h)⟩
    | error report => exact ⟨[], .stopped (hx.quiet h)⟩

/-- Nothing is done for an errand when the run ends with a report. -/
theorem GivesUp.makes {x : Run Unit} (hx : GivesUp x) : Makes o p es x where
  proceeds h := by
    obtain ⟨report, rfl⟩ := hx.reports h
    exact ⟨[], .stopped (hx.quiet h)⟩

/-- An aside, and a run behind it. -/
theorem Aside.makes_bind {x : Run α} {f : α → Run Unit} (hx : Aside x)
    (hf : ∀ a, Makes o p es (f a)) : Makes o p es (x >>= f) where
  proceeds h := by
    rcases held_bind_iff.mp h with ⟨report, h₁, rfl⟩ | ⟨a, t₁, t₂, h₁, h₂, rfl⟩
    · exact ⟨[], .stopped (hx.quiet h₁)⟩
    · obtain ⟨vs, goes⟩ := (hf a).proceeds h₂
      exact ⟨vs, goes.append_left (hx.quiet h₁)⟩

/-- **A call** behind an aside: the run ends with its failure, or goes on with what it gave. -/
theorem makes_call (e : Errand) (task : Task) {x : Programmer.Call IoKind α}
    {f : Except (Failure IoKind) α × Programmer → Run Unit} {s : Transcript IoKind}
    (before : s.Quiet) (asks : e.Asks s task)
    (turn : ∀ {t outcome q}, Dialogue.Held (x.run p) t (outcome, q) →
      Dialogue.Held (task.call o p) t (outcome.map fun _ => (), q))
    (bad : ∀ failure q, GivesUp (f (.error failure, q)))
    (good : ∀ a q, Makes o q es (f (.ok a, q))) {t : Transcript IoKind}
    {r : Except (List String) Unit} (h : Held (call x p >>= f) t r) :
    ∃ vs, Proceeds o p (e :: es) (s ++ t) vs r := by
  obtain ⟨⟨outcome, q⟩, t₁, t₂, h₁, h₂, rfl⟩ := Dialogue.held_except_lift_bind h
  have held : Turn.Held o ⟨p, task, t₁, outcome.map fun _ => (), q⟩ := turn h₁
  cases outcome with
  | error failure =>
    obtain ⟨report, rfl⟩ := (bad failure q).reports h₂
    exact ⟨_, .failed before asks held rfl ((bad failure q).quiet h₂)⟩
  | ok a =>
    obtain ⟨vs, goes⟩ := (good a q).proceeds h₂
    exact ⟨_, .called before asks held rfl goes⟩

/-- Writing the image file: once it is open, the call is for as many bytes as it has. -/
theorem makes_writeFile {path : String} {f : Programmer → Run Unit}
    (hf : ∀ q, Makes o q es (f q)) :
    Makes o p (.write path :: es) (writeFile o path p >>= f) where
  proceeds h := by
    simp only [writeFile, bind_assoc] at h
    obtain ⟨opened, u, h₁, rfl⟩ := held_request_bind h
    have before : Transcript.Quiet [⟨.openImage path, opened⟩] :=
      Transcript.quiet_nil.cons rfl rfl rfl
    cases opened with
    | error fault =>
      obtain ⟨vs, goes⟩ := (GivesUp.bind (givesUp_failDoing _ _) _).makes.proceeds h₁
      exact ⟨vs, goes.append_left before⟩
    | ok size =>
      obtain ⟨shown, u, h₂, rfl⟩ := held_request_bind (q := .log (.fileOpened path size)) h₁
      have told : Transcript.Quiet (ε := IoKind) [⟨.log (.fileOpened path size), shown⟩] :=
        Transcript.quiet_nil.cons rfl rfl rfl
      rw [← List.append_assoc]
      refine makes_call (.write path) (.program size true) (before.append told)
        ⟨size, List.mem_append_left _ (List.mem_singleton.mpr rfl), rfl⟩ ?_ ?_ ?_ h₂
      · intro t outcome q held
        cases outcome <;> exact held
      · exact fun failure q => ((aside_log rfl).givesUp_bind fun _ => givesUp_fail _).bind f
      · exact fun _ q => hf q

/-- A file that has been written was opened once, and before anything else. -/
theorem held_writeFile_ok {path : String} {q : Programmer} {t : Transcript IoKind} (hp : p.Knows)
    (h : Held (writeFile o path p) t (.ok q)) :
    ∃ size u, t = ⟨.openImage path, .ok size⟩ :: u ∧ ∀ other size', ¬ Opens u other size' := by
  unfold writeFile at h
  obtain ⟨opened, u, h₁, rfl⟩ := held_request_bind h
  cases opened with
  | error fault => exact absurd ((GivesUp.bind (givesUp_failDoing _ _) _).reports h₁) (by simp)
  | ok size =>
    obtain ⟨_, u, h₂, rfl⟩ := held_request_bind (q := .log (.fileOpened path size)) h₁
    obtain ⟨⟨outcome, q'⟩, t₁, t₂, called, rest, rfl⟩ := Dialogue.held_except_lift_bind h₂
    have turn : Turn.Held o ⟨p, .program size true, t₁, outcome, q'⟩ := called
    cases outcome with
    | error f =>
      have reports := ((aside_log rfl).givesUp_bind fun _ => givesUp_fail _).reports rest
      exact absurd reports (by simp)
    | ok _ =>
      obtain ⟨rfl, -⟩ := Dialogue.held_done_iff.mp rest
      refine ⟨size, _, rfl, fun other size' opens => unopened_call turn hp other size' ?_⟩
      simpa [Opens] using opens

/-- Selecting the ROM. -/
theorem makes_selectRom {f : Unit → Run Unit} (hf : ∀ q, Makes o q es (f ())) :
    Makes o p (.selectRom :: es) (selectRom o p >>= f) where
  proceeds h := by
    simp only [selectRom, bind_assoc] at h
    refine makes_call .selectRom (.setBootSource false) Transcript.quiet_nil rfl ?_ ?_ ?_ h
    · intro t outcome q held
      cases outcome <;> exact held
    · exact fun failure q => (givesUp_failDoing _ _).bind f
    · exact fun _ q => hf q

/-- What a run does with the chip. -/
def further (o : Options) (a : Arguments) (p : Programmer) : Run Unit := do
  if a.info then return
  let p ← match a.file with
    | none => pure p
    | some path => writeFile o path p
  if a.bootRom then selectRom o p
  log .finished

theorem makes_further (a : Arguments) : Makes o p (furtherErrands a) (further o a p) := by
  have ending (q : Programmer) : Makes o q (if a.bootRom then [.selectRom] else [])
      (do if a.bootRom then selectRom o q
          log .finished) := by
    have shown {q : Programmer} : Makes o q [] (log .finished) := (aside_log rfl).makes
    cases a.bootRom with
    | false => exact shown
    | true => exact makes_selectRom fun _ => shown
  unfold further furtherErrands
  cases a.info with
  | true => exact (aside_pure ()).makes
  | false =>
    cases a.file with
    | none => exact ending p
    | some path => exact makes_writeFile ending

/-- What a run does until it knows the chip. -/
def beginning (a : Arguments) : Run Programmer := do
  log .openingPort
  openPort a.port a.baud
  log .contactingMonitor
  let (outcome, p) ← call (Programmer.identify a.sessionOptions) {}
  let chip ← orFailDoing "Error connecting to monitor" (outcome.mapError Failure.message)
  describe chip
  return p

theorem run_eq (a : Arguments) : run a = beginning a >>= further a.sessionOptions a := by
  simp only [beginning, bind_assoc, pure_bind]
  rfl

/-- **A run of the program** makes the calls for its errands. -/
theorem makes_run (a : Arguments) :
    Makes a.sessionOptions {} (.identify :: furtherErrands a) (run a) := by
  unfold run
  refine (aside_log (d := .openingPort) rfl).makes_bind fun _ => ?_
  refine (aside_openPort _ _).makes_bind fun _ => ?_
  refine (aside_log (d := .contactingMonitor) rfl).makes_bind fun _ => ⟨fun h => ?_⟩
  refine makes_call .identify .identify Transcript.quiet_nil rfl ?_ ?_ ?_ h
  · exact fun held => Task.held_identify_iff.mpr ⟨_, held, rfl⟩
  · exact fun failure q => (givesUp_failDoing _ _).bind _
  · exact fun c q => (aside_describe c).makes_bind fun _ => makes_further a

end Run

end SamFlash.CommandLine
