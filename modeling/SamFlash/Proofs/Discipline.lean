import Mathlib
import SamFlash.Proofs.PlannedCalls

/-!
# Flash command discipline

A flash controller must not get a command, and the latch must not be filled, while an earlier
command is unfinished or was refused. `FlashController.awaitReady` is there for that: it reads the
status of every plane, in rounds, and comes to an end only with a round in which every plane was
ready and none reported a locked page (`Chip.ReadyRound`). Over any number of calls of one
programmer, whatever they are and however they end, every command word (`FlashController.command`)
and every branch to the applet (`Applet.run`) comes behind such a round, with no command word
between the round and it.

The invariant of a whole history is `Disciplined`; what a call needs to know about the calls before
it is nothing at all, since every plan waits by itself before it commands (`Gated`). A call that is
cut off anywhere leaves a first part of its operations, which is disciplined too; whether flash is
settled behind it does not matter to the next one.

The operations are those that the host notes, in the order in which it begins them, on any target
and for any answers; what the port has taken of them is followed in `Proofs.OnTheWire`. Registers
are told by the layout of the chip, and the chips of the table have them in the same places
(`Chip.Alike`), so that the calls of a history need not agree about the chip.

Results:
* `carries_orderly`: every step of a gated plan keeps the discipline.
* `Plan.gated_program`, `Plan.gated_boot`: the plans of the calls are gated.
* `Task.keeps`, `Task.keeps_session`: one call keeps the discipline, and so do calls in a row.
* **`flash_discipline`**: every history keeps it, and a call that succeeds leaves flash settled.
-/

namespace SamFlash

variable {ε σ : Type}

/-! ## The discipline -/

/-- A command word is written to the controller of a plane. -/
def Operation.CommandsFlash (c : Chip) (op : Operation) : Prop :=
  ∃ plane < c.planes, ∃ value,
    op = .write (c.registerAddress plane FlashController.commandOffset) value

/-- There is a ready round with no command word behind it. -/
def Settled (c : Chip) (es : List Operation) : Prop :=
  ∃ front round back, es = front ++ (round ++ back) ∧ c.ReadyRound round ∧
    ∀ op ∈ back, ¬ op.CommandsFlash c

/-- Every command word and every branch comes when flash is settled. -/
def Disciplined (c : Chip) (es : List Operation) : Prop :=
  Throughout (fun front op => op.CommandsFlash c ∨ op.branches → Settled c front) es

theorem Operation.IsRead.not_commandsFlash {c : Chip} {op : Operation} (h : op.IsRead) :
    ¬ op.CommandsFlash c := by
  obtain ⟨addr, value, rfl⟩ := h
  rintro ⟨_, _, _, e⟩
  exact absurd e (by simp)

variable {c : Chip} {es ops : List Operation}

theorem Settled.concat (h : Settled c es) {op : Operation} (hop : ¬ op.CommandsFlash c) :
    Settled c (es ++ [op]) := by
  obtain ⟨front, round, back, rfl, hr, hb⟩ := h
  refine ⟨front, round, back ++ [op], by simp, hr, fun x hx => ?_⟩
  rcases List.mem_append.mp hx with hx | hx
  · exact hb x hx
  · rwa [List.mem_singleton.mp hx]

theorem settled_round {round : List Operation} (hr : c.ReadyRound round) :
    Settled c (es ++ round) :=
  ⟨es, round, [], by simp, hr, by simp⟩

theorem Disciplined.concat (h : Disciplined c es) {op : Operation} (hc : ¬ op.CommandsFlash c)
    (hb : ¬ op.branches) : Disciplined c (es ++ [op]) :=
  Throughout.concat h fun hop => absurd hop (by simp [hc, hb])

/-! ## Plans that wait before they command -/

/-- Whether flash must be settled for an operation, and whether it is settled behind it. -/
inductive Gate (c : Chip) : (before : Bool) → Operation → (behind : Bool) → Prop
  | plain {b : Bool} {op : Operation} (hc : ¬ op.CommandsFlash c) (hb : ¬ op.branches) :
      Gate c b op b
  | branch {addr : Word} : Gate c true (.branch addr) true
  | command {op : Operation} (hc : op.CommandsFlash c) : Gate c true op false

/-- The plan commands only when flash is settled, which it is at the start if `b` says so, and at
the end if `b'` says so. -/
abbrev Gated (c : Chip) (b : Bool) (p : List Step) (b' : Bool) : Prop :=
  Step.Leads (Gate c) (fun _ => true) b p b'

/-- What holds all along a gated plan. -/
structure Orderly (c : Chip) (b : Bool) (es : List Operation) : Prop where
  disciplined : Disciplined c es
  settled : b = true → Settled c es

theorem not_commandsFlash_branch (addr : Word) : ¬ (Operation.branch addr).CommandsFlash c := by
  rintro ⟨_, _, _, e⟩
  exact absurd e (by simp)

/-- **Every step of a gated plan** keeps the discipline. -/
theorem carries_orderly : Step.Carries c (Gate c) (fun _ => true) (Orderly c) where
  read hop h :=
    ⟨h.disciplined.concat hop.not_commandsFlash hop.not_branches,
      fun hb => (h.settled hb).concat hop.not_commandsFlash⟩
  ready hr h := ⟨h.disciplined, fun _ => settled_round hr⟩
  act ha h := by
    cases ha with
    | plain hc hb => exact ⟨h.disciplined.concat hc hb, fun e => (h.settled e).concat hc⟩
    | branch =>
      exact ⟨Throughout.concat h.disciplined fun _ => h.settled rfl,
        fun e => (h.settled e).concat (not_commandsFlash_branch _)⟩
    | command =>
      exact ⟨Throughout.concat h.disciplined fun _ => h.settled rfl, fun e => absurd e (by simp)⟩

/-! ## The plans of the calls -/

/-- A word below the controllers is no command. -/
theorem not_commandsFlash_of_lt (hc : c.Sound) {addr value : Word}
    (h : addr.toNat < c.controllerBase.toNat) : ¬ (Operation.write addr value).CommandsFlash c := by
  rintro ⟨plane, hp, v, e⟩
  obtain ⟨rfl, -⟩ := Operation.write.inj e
  rw [hc.toNat_registerAddress hp (by decide)] at h
  omega

/-- A mode word is no command. -/
theorem not_commandsFlash_mode (hc : c.Sound) {plane : Nat} (hp : plane < c.planes)
    (value : Word) :
    ¬ (Operation.write (c.registerAddress plane FlashController.modeOffset) value).CommandsFlash
      c := by
  rintro ⟨plane', hp', v, e⟩
  have h := congrArg UInt32.toNat (Operation.write.inj e).1
  rw [hc.toNat_registerAddress hp (by decide), hc.toNat_registerAddress hp' (by decide)] at h
  have h0 : FlashController.modeOffset.toNat = 0 := rfl
  have h4 : FlashController.commandOffset.toNat = 4 := rfl
  omega

/-- A parameter of the applet is set. -/
theorem Gated.slot (hc : c.Sound) {b b' : Bool} {p : List Step} {offset : Word}
    (ho : offset.toNat ≤ 0x34) (value : Word) (rest : Gated c b p b') :
    Gated c b (.act (.write (c.slotAddress offset) value) :: p) b' := by
  have haddr := hc.toNat_slotAddress ho
  have hlow := hc.ram_low
  have hpos := hc.pageSize_pos
  exact .act (.plain (not_commandsFlash_of_lt hc (by omega)) (by simp [Operation.branches])) rest

/-- A block is stored. -/
theorem Gated.store {b b' : Bool} {p : List Step} {addr : Word} {length : Nat}
    (rest : Gated c b p b') : Gated c b (.act (.store addr length) :: p) b' := by
  refine .act (.plain ?_ (by simp [Operation.branches])) rest
  rintro ⟨_, _, _, e⟩
  exact absurd e (by simp)

namespace Plan

theorem gated_setUp (hc : c.Sound) : Gated c false (setUp c) false := by
  have modes (n first : Nat) (hn : first + n ≤ c.planes) : Gated c false
      ((List.range' first n).map fun plane => .act (.write
        (c.registerAddress plane FlashController.modeOffset) FlashController.programmingMode))
      false := by
    induction n generalizing first with
    | zero => exact .nil
    | succ n ih =>
      rw [List.range'_succ, List.map_cons]
      exact .act (.plain (not_commandsFlash_mode hc (by omega) _) (by simp [Operation.branches]))
        (ih (first + 1) (by omega))
  exact .store (.slot hc (by decide) _ (.slot hc (by decide) _ (modes _ 0 (by omega))))

theorem gated_page (hc : c.Sound) {k : Nat} (hk : k < c.pages) :
    Gated c false (page c k) false :=
  .store (.slot hc (by decide) _ (.slot hc (by decide) _ (.wait
    (Gated.slot hc (by decide) _ (.act .branch
      (.act (.command ⟨_, hc.planeOf_lt hk, _, rfl⟩) .nil))))))

theorem gated_pages (hc : c.Sound) {first n : Nat} (hn : first + n ≤ c.pages) :
    Gated c false (pages c first n) false := by
  induction n generalizing first with
  | zero => exact .nil
  | succ n ih =>
    rw [pages_succ]
    exact (gated_page hc (by omega)).append (ih (by omega))

theorem gated_boot (hc : c.Sound) (fromFlash : Bool) :
    Gated c false (boot c fromFlash) true :=
  .wait (.act (.command ⟨_, hc.planes_pos, _, rfl⟩) (.wait .nil))

/-- **The plan of a program call** is gated, and ends settled. -/
theorem gated_program (hc : c.Sound) (o : Options) {n : Nat} (hn : n ≤ c.pages) :
    Gated c false (program o c n) true := by
  refine (gated_setUp hc).append ((gated_pages hc (by omega)).append ?_)
  by_cases hk : o.keepBootSource = true
  · rw [if_pos hk]
    exact .wait .nil
  · rw [if_neg hk]
    exact gated_boot hc true

end Plan

/-! ## Chips of one table -/

/-- The planes have their registers in the same places. -/
structure Chip.Alike (c c' : Chip) : Prop where
  planes : c.planes = c'.planes
  controllerBase : c.controllerBase = c'.controllerBase

theorem Chip.alike_of_mem {c c' : Chip} (hc : c ∈ all) (hc' : c' ∈ all) : c.Alike c' := by
  rw [eq_sam3x8_of_mem hc, eq_sam3x8_of_mem hc']
  exact ⟨rfl, rfl⟩

namespace Chip.Alike

variable {c' : Chip}

theorem symm (h : c.Alike c') : c'.Alike c := ⟨h.planes.symm, h.controllerBase.symm⟩

theorem registerAddress_eq (h : c.Alike c') (plane : Nat) (offset : Word) :
    c.registerAddress plane offset = c'.registerAddress plane offset := by
  unfold registerAddress
  rw [h.controllerBase]

theorem roundFrom_eq (h : c.Alike c') (plane : Nat) (statuses : List Word) :
    c.roundFrom plane statuses = c'.roundFrom plane statuses := by
  induction statuses generalizing plane with
  | nil => rfl
  | cons status rest ih => rw [roundFrom, roundFrom, h.registerAddress_eq, ih]

theorem commandsFlash (h : c.Alike c') {op : Operation} (hop : op.CommandsFlash c) :
    op.CommandsFlash c' := by
  obtain ⟨plane, hp, value, rfl⟩ := hop
  exact ⟨plane, h.planes ▸ hp, value, by rw [h.registerAddress_eq]⟩

theorem settled (h : c.Alike c') (hs : Settled c es) : Settled c' es := by
  obtain ⟨front, round, back, rfl, ⟨statuses, hlen, hready, rfl⟩, hb⟩ := hs
  refine ⟨front, _, back, rfl, ⟨statuses, hlen.trans h.planes, hready, h.roundFrom_eq _ _⟩, ?_⟩
  exact fun op hop hx => hb op hop (h.symm.commandsFlash hx)

theorem disciplined (h : c.Alike c') (hd : Disciplined c es) : Disciplined c' es := by
  intro front op back he hop
  exact h.settled (hd front op back he (hop.imp_left h.symm.commandsFlash))

end Chip.Alike

/-! ## Histories -/

/-- A call of a programmer. -/
inductive Task where
  /-- Enter binary mode and identify the chip. -/
  | identify
  /-- Write an image. -/
  | program (size : Nat) (observed : Bool)
  /-- Select what the chip starts from. -/
  | setBootSource (fromFlash : Bool)
  deriving DecidableEq, Repr

namespace Task

/-- The call, with what it came to. -/
def call (o : Options) : Task → Programmer → Dialogue ε (Except (Failure ε) Unit × Programmer)
  | identify, p => ((Programmer.identify o).run p).bind fun (r, q) => .done (r.map fun _ => (), q)
  | program size observed, p => (Programmer.program o size observed).run p
  | setBootSource fromFlash, p => (Programmer.setBootSource o fromFlash).run p

/-- The call gives commands to flash. -/
def Flashes : Task → Prop
  | identify => False
  | program size _ => 0 < size
  | setBootSource _ => True

/-- Calls of one programmer, one after the other, whatever they come to. -/
def session (o : Options) :
    List Task → Programmer → Dialogue ε (List (Except (Failure ε) Unit) × Programmer)
  | [], p => .done ([], p)
  | task :: rest, p => (task.call o p).bind fun (r, q) =>
      (session o rest q).bind fun (rs, q') => .done (r :: rs, q')

theorem held_session_cons {o : Options} {task : Task} {rest : List Task} {p q : Programmer}
    {t : Transcript ε} {rs : List (Except (Failure ε) Unit)}
    (h : Dialogue.Held (session o (task :: rest) p) t (rs, q)) :
    ∃ r p' rs' t₁ t₂, Dialogue.Held (task.call o p) t₁ (r, p') ∧
      Dialogue.Held (session o rest p') t₂ (rs', q) ∧ rs = r :: rs' ∧ t = t₁ ++ t₂ := by
  obtain ⟨⟨r, p'⟩, t₁, t₂, h₁, h₂, rfl⟩ := Dialogue.held_bind_iff.mp h
  obtain ⟨⟨rs', q'⟩, hs, e⟩ := Dialogue.held_map_iff.mp h₂
  obtain ⟨rfl, rfl⟩ := Prod.mk.inj e
  exact ⟨r, p', rs', t₁, t₂, h₁, hs, rfl, rfl⟩

end Task

/-- The programmer knows no chip, or one of the table. -/
def Programmer.Knows (p : Programmer) : Prop := ∀ c, p.chip = some c → c ∈ Chip.all

/-- The operations keep the discipline behind whatever kept it, and leave flash settled if `b` says
so. -/
structure Keeps (c : Chip) (ops : List Operation) (b : Prop) : Prop where
  disciplined : ∀ {es}, Disciplined c es → Disciplined c (es ++ ops)
  settled : b → ∀ {es}, Disciplined c es → Settled c (es ++ ops)

namespace Keeps

variable {b b' : Prop} {more : List Operation}

theorem nil : Keeps c [] False where
  disciplined h := by rwa [List.append_nil]
  settled := False.elim

theorem append (h : Keeps c ops b) (h' : Keeps c more b') : Keeps c (ops ++ more) b' where
  disciplined hd := by
    rw [← List.append_assoc]
    exact h'.disciplined (h.disciplined hd)
  settled hb _ hd := by
    rw [← List.append_assoc]
    exact h'.settled hb (h.disciplined hd)

theorem mono (h : Keeps c ops b) (hb : b' → b) : Keeps c ops b' where
  disciplined := h.disciplined
  settled hb' := h.settled (hb hb')

/-- The first of the operations, and all of them where flash has to be settled behind them. -/
theorem of_prefix (h : Keeps c ops b) (first : more <+: ops) (whole : b → more = ops) :
    Keeps c more b where
  disciplined hd :=
    Throughout.of_prefix (h.disciplined hd) ((List.prefix_append_right_inj _).mpr first)
  settled hb _ hd := whole hb ▸ h.settled hb hd

theorem of_alike {c' : Chip} (h : Keeps c ops b) (hc : c.Alike c') : Keeps c' ops b where
  disciplined hd := hc.disciplined (h.disciplined (hc.symm.disciplined hd))
  settled hb _ hd := hc.settled (h.settled hb (hc.symm.disciplined hd))

/-- Nothing but reads. -/
theorem of_reads (h : ∀ op ∈ ops, op.IsRead) : Keeps c ops False where
  disciplined hd := by
    have start : Orderly c false _ := ⟨hd, by simp⟩
    exact (carries_orderly.reads h start).disciplined
  settled := False.elim

/-- An operation of the link with a gated plan. -/
theorem of_plans {α : Type} {o : Options} {n : Nat} {x : Link ε α} {plan : List Step}
    {v : α → Prop} {b : Bool} (hx : x.Plans o c n plan v) (hg : Gated c false plan b)
    {t : Transcript ε} {r : Except (Failure ε) α} (ht : x.Held t r) :
    Keeps c t.operations (b = true ∧ ∃ a, r = .ok a) := by
  have start {es : List Operation} (hd : Disciplined c es) : Orderly c false es := ⟨hd, by simp⟩
  cases r with
  | ok a =>
    have run {es : List Operation} (hd : Disciplined c es) :=
      carries_orderly.runs hg (hx.runs ht).1 (start hd)
    exact ⟨fun hd => (run hd).disciplined, fun h _ hd => (run hd).settled h.1⟩
  | error f =>
    refine ⟨fun hd => ?_, fun h => absurd h.2 (by simp)⟩
    obtain ⟨_, orderly⟩ := carries_orderly.starts hg (hx.starts ht) (start hd)
    exact orderly.disciplined

end Keeps

namespace Programmer

variable {o : Options} {p q : Programmer} {t : Transcript ε}

theorem keeps_finds (hp : p.Knows) {c' : Chip} (h : Finds o p t c') :
    Keeps c t.operations False ∧ c' ∈ Chip.all := by
  rcases h with ⟨hk, rfl⟩ | ⟨-, hf⟩
  · exact ⟨.nil, hp c' hk⟩
  · exact ⟨.of_reads (reads_findChip hf), ((follows_findChip o).completes hf).2.2⟩

/-- Writing an image, whatever its size. -/
theorem keeps_writing (hc : c ∈ Chip.all) {size : Nat} {observed : Bool}
    {r : Except (Failure ε) Unit} (h : Link.Held (writing o c size observed) t r) :
    Keeps c t.operations (0 < size ∧ r = .ok ()) := by
  have sound := Chip.sound_of_mem hc
  by_cases hs : 0 < size ∧ size ≤ c.pages * c.pageSize
  · have hfit := (remains_zero sound hs.2).pages
    have hg := Plan.gated_program sound o (n := c.pagesFor size) (by omega)
    exact (Keeps.of_plans (plans_writing sound hs.1 hs.2) hg h).mono fun hr => ⟨rfl, (), hr.2⟩
  · obtain ⟨none, hz⟩ := held_writing_nil sound
      (show size = 0 ∨ c.pages * c.pageSize < size by omega) h
    rw [none]
    refine ⟨Keeps.nil.disciplined, fun hr => ?_⟩
    have := hz hr.2
    omega

end Programmer

/-- **One call keeps the discipline**, and leaves flash settled if it commands flash and
succeeds. -/
theorem Task.keeps {o : Options} (hc : c ∈ Chip.all) {task : Task} {p q : Programmer}
    {t : Transcript ε} {r : Except (Failure ε) Unit} (hp : p.Knows)
    (h : Dialogue.Held (task.call o p) t (r, q)) :
    Keeps c t.operations (task.Flashes ∧ r = .ok ()) ∧ q.Knows := by
  have knows {q : Programmer} {c' : Chip} (hq : q.chip = some c') (hc' : c' ∈ Chip.all) :
      q.Knows := by
    intro c'' h
    rwa [← Option.some.inj (hq.symm.trans h)]
  have ignorant {q : Programmer} (hq : q.chip = none) : q.Knows := by
    intro c'' h
    exact absurd (hq.symm.trans h) (by simp)
  cases task with
  | identify =>
    obtain ⟨⟨r', q'⟩, hi, e⟩ := Dialogue.held_map_iff.mp h
    obtain ⟨rfl, rfl⟩ := Prod.mk.inj e
    obtain ⟨hf, hq⟩ := Programmer.held_identify hi
    refine ⟨(Keeps.of_reads (Programmer.reads_findChip hf)).mono And.left, ?_⟩
    rcases hq with hq | ⟨c', rfl, hq⟩
    · exact fun c' h => hp c' (hq ▸ h)
    · exact knows hq ((Programmer.follows_findChip o).completes hf).2.2
  | program size observed =>
    rcases Programmer.held_program h with ⟨f, -, hf, rfl, hq⟩ | ⟨c', t₁, t₂, hf, hw, rfl, hq, -⟩
    · exact ⟨(Keeps.of_reads (Programmer.reads_findChip hf)).mono fun h => absurd h.2 (by simp),
        ignorant hq⟩
    · obtain ⟨hk, hc'⟩ := Programmer.keeps_finds hp hf
      rw [Transcript.operations_append]
      exact ⟨hk.append ((Programmer.keeps_writing hc' hw).of_alike (Chip.alike_of_mem hc' hc)),
        knows hq hc'⟩
  | setBootSource fromFlash =>
    rcases Programmer.held_setBootSource h with ⟨f, -, hf, rfl, hq⟩ | ⟨c', t₁, t₂, hf, hw, rfl, hq⟩
    · exact ⟨(Keeps.of_reads (Programmer.reads_findChip hf)).mono fun h => absurd h.2 (by simp),
        ignorant hq⟩
    · obtain ⟨hk, hc'⟩ := Programmer.keeps_finds hp hf
      have sound := Chip.sound_of_mem hc'
      have boot := Keeps.of_plans (Programmer.plans_writeBootFlag sound fromFlash)
        (Plan.gated_boot sound fromFlash) hw
      rw [Transcript.operations_append]
      exact ⟨hk.append ((boot.mono fun h => ⟨rfl, (), h.2⟩).of_alike (Chip.alike_of_mem hc' hc)),
        knows hq hc'⟩

/-- **Calls in a row keep the discipline.** The calls before one that succeeds do not matter to
it. -/
theorem Task.keeps_session {o : Options} (hc : c ∈ Chip.all) {tasks : List Task}
    {p q : Programmer} {t : Transcript ε} {rs : List (Except (Failure ε) Unit)} (hp : p.Knows)
    (h : Dialogue.Held (session o tasks p) t (rs, q)) :
    Keeps c t.operations
      (∃ task, tasks.getLast? = some task ∧ task.Flashes ∧ rs.getLast? = some (.ok ())) := by
  induction tasks generalizing p t rs with
  | nil =>
    obtain ⟨rfl, e⟩ := Dialogue.held_done_iff.mp h
    exact Keeps.nil.mono (by simp)
  | cons task rest ih =>
    obtain ⟨r, p', rs', t₁, t₂, h₁, h₂, rfl, rfl⟩ := held_session_cons h
    obtain ⟨hk, hp'⟩ := Task.keeps hc hp h₁
    rw [Transcript.operations_append]
    cases rest with
    | nil =>
      obtain ⟨rfl, e⟩ := Dialogue.held_done_iff.mp h₂
      obtain ⟨rfl, -⟩ := Prod.mk.inj e
      simpa [Transcript.operations] using hk
    -- what is settled in the end is up to the last call alone
    | cons next rest =>
      refine (hk.append (ih hp' h₂)).mono ?_
      obtain ⟨r', p'', rs'', u₁, u₂, -, -, rfl, -⟩ := held_session_cons h₂
      simp only [List.getLast?_cons_cons, imp_self]

/-- The operations of a new programmer's calls, held with a device. -/
def Task.history (d : Device σ ε) (s : σ) (o : Options) (tasks : List Task) : List Operation :=
  Transcript.operations (Dialogue.transcript d (session o tasks {}) s)

/-- What a new programmer's calls come to, held with a device. -/
def Task.results (d : Device σ ε) (s : σ) (o : Options) (tasks : List Task) :
    List (Except (Failure ε) Unit) :=
  (Dialogue.run d (session o tasks {}) s).1.1

/-- **Flash command discipline.** Whatever calls a new programmer gets, and whatever the device
does, every command word and every branch comes when flash is settled; and when the last call
commands flash and succeeds, flash is settled behind it. -/
theorem flash_discipline (d : Device σ ε) (s : σ) (o : Options) (tasks : List Task)
    (hc : c ∈ Chip.all) :
    Disciplined c (Task.history d s o tasks) ∧
      ∀ task, tasks.getLast? = some task → task.Flashes →
        (Task.results d s o tasks).getLast? = some (.ok ()) →
          Settled c (Task.history d s o tasks) := by
  have hp : Programmer.Knows {} := fun c' h => absurd h (by simp)
  have keeps := Task.keeps_session hc hp (Dialogue.Held.of_run d (Task.session o tasks {}) s)
  refine ⟨keeps.disciplined throughout_nil, fun task htask hflash hok => ?_⟩
  exact keeps.settled ⟨task, htask, hflash, hok⟩ throughout_nil

/-- Calls that command flash in every way. -/
def Task.sample : List Task := [.identify, .program 1 false, .setBootSource false]

set_option maxRecDepth 100000 in
theorem Task.results_sample :
    results (ε := Unit) (Bench.steady Bench.part) (Bench.fresh [7]) {} sample =
      [.ok (), .ok (), .ok ()] := by
  cbv

/-- On a steady bench flash is settled in the end. -/
theorem flash_discipline_sample :
    Disciplined Bench.part
        (Task.history (ε := Unit) (Bench.steady Bench.part) (Bench.fresh [7]) {} Task.sample) ∧
      Settled Bench.part
        (Task.history (ε := Unit) (Bench.steady Bench.part) (Bench.fresh [7]) {} Task.sample) := by
  obtain ⟨disciplined, settled⟩ := flash_discipline (ε := Unit) (Bench.steady Bench.part)
    (Bench.fresh [7]) {} Task.sample (show Bench.part ∈ Chip.all by decide)
  exact ⟨disciplined, settled (.setBootSource false) rfl trivial (by rw [Task.results_sample]; rfl)⟩

end SamFlash
