import SamFlash.Proofs.Bench
import SamFlash.Proofs.Detection
import SamFlash.Proofs.Runs
import SamFlash.Proofs.Truncation

/-!
# The boot source of a run

What a chip starts from after a run (`CommandLine.run`) is decided by the words that the run writes
to the command registers of the flash controllers, its orders. The decision is spread over the run:
a command line that asks for the ROM takes the boot flag away from the program call
(`keepBootSource` in `Arguments.sessionOptions`) and selects the ROM at the end
(`CommandLine.selectRom`), one that only asks for information stops before either, and an image
without bytes leaves everything as it is. Here the orders of a whole run are put down as one list,
and what may be in it, where, and under which circumstances is read off that list.

Every call gives the orders of its task (`Task.orders`): a page each, by `Page.write`, and the flag,
by `Programmer.writeBootFlag`. All of them are given if the call succeeds and the first ones if it
fails; the calls of a run do so one after the other. Orders are seen on the wire, as commands that
the port has taken whole. What the host has begun besides is only needed where nothing at all may be
sent.

`CommandLine.Decision` is the result in one piece, for a run that has found its chip. Flash is
selected for an image with bytes, behind the orders for all of its pages, and at most once; a run
that is to select the ROM never selects flash, and any other run never selects the ROM. The ROM is
selected last, and a run that was to do so and succeeds has seen every plane ready behind that.
Where programming fails, the ROM is not selected either, and the run fails.

Results:
* `Task.ordered_work`: what one call orders.
* `CommandLine.Proceeds.ordered`: what the calls of a run order.
* `CommandLine.Proceeds.orders_of_ok`: which orders these are if the run succeeds.
* `CommandLine.Proceeds.opening`: before the chip is found nothing is changed.
* `CommandLine.Proceeds.decision`: what a run decides once it knows the chip.
* **`CommandLine.boot_source_decision`**: which order for the boot flag a run gives, and when.
-/

namespace SamFlash

variable {ε α : Type} {c : Chip} {o : Options}

/-! ## Orders in a transcript -/

namespace Transcript

/-- From one command boundary to another: the orders for the controllers of `c` are these, and the
wire shows what the host notes. -/
structure Gives (c : Chip) (t : Transcript ε) (cs : List Command) : Prop where
  boundary : (Reader.start.feedAll t.accepted).1 = Reader.start
  course : t.course Reader.start = t.operations
  orders : t.effects.filter c.orders = cs

/-- The orders are the first of these, and all of them if the exchanges are done. -/
structure Ordered (c : Chip) (t : Transcript ε) (cs : List Command) (done : Prop) : Prop where
  whole : done → t.Gives c cs
  first : t.effects.filter c.orders <+: cs

variable {s t u : Transcript ε} {cs ds : List Command} {done : Prop}

theorem Completes.gives (h : t.Completes cs) : t.Gives c (cs.filter c.orders) where
  boundary := h.boundary
  course := h.course
  orders := by rw [h.effects]

theorem Quiet.gives (h : t.Quiet) : t.Gives c [] := h.completes.gives

theorem Gives.append (hs : s.Gives c cs) (ht : t.Gives c ds) : (s ++ t).Gives c (cs ++ ds) where
  boundary := (boundary_append hs.boundary).trans ht.boundary
  course := by rw [course_append, hs.boundary, hs.course, ht.course, operations_append]
  orders := by rw [effects_append hs.boundary, List.filter_append, hs.orders, ht.orders]

/-- Orders behind others. -/
theorem Gives.ordered (hs : s.Gives c cs) (ht : t.Ordered c ds done) :
    (s ++ t).Ordered c (cs ++ ds) done where
  whole h := hs.append (ht.whole h)
  first := by
    rw [effects_append hs.boundary, List.filter_append, hs.orders]
    exact (List.prefix_append_right_inj cs).mpr ht.first

theorem Quiet.ordered (h : t.Quiet) (done : Prop) : t.Ordered c [] done where
  whole _ := h.gives
  first := h.gives.orders ▸ List.prefix_rfl

theorem Ordered.imp {done' : Prop} (h : t.Ordered c cs done) (hd : done' → done) :
    t.Ordered c cs done' :=
  ⟨fun d => h.whole (hd d), h.first⟩

/-- What has been ordered is among the orders. -/
theorem Ordered.mem (h : t.Ordered c cs done) {cmd : Command} (hc : c.orders cmd)
    (hm : cmd ∈ t.commands) : cmd ∈ cs := by
  refine h.first.subset ?_
  rw [← filter_commands c.orders_of_unchanging]
  exact List.mem_filter.mpr ⟨hm, hc⟩

/-- An order that can only be the last one: behind all the others, and with none behind it. -/
theorem Ordered.around {cmd last : Command} (h : t.Ordered c (cs ++ [last]) done)
    (hc : c.orders cmd) (other : cmd ∉ cs) {front back : List Command}
    (split : t.commands = front ++ cmd :: back) :
    front.filter c.orders = cs ∧ back.filter c.orders = [] := by
  have first := h.first
  rw [← filter_commands c.orders_of_unchanging, split, List.filter_append,
    List.filter_cons_of_pos hc] at first
  rcases List.prefix_concat_iff.mp first with whole | part
  -- all of the orders have been given, and the command can be none but the last
  · have rest : front.filter c.orders ++ cmd :: back.filter c.orders = cs ++ [last] := whole
    rcases List.append_eq_append_iff.mp rest with ⟨gap, rfl, tail⟩ | ⟨gap, front_eq, tail⟩
    · cases gap with
      | nil => exact ⟨(List.append_nil _).symm, (List.cons.inj tail).2⟩
      | cons x gap =>
        obtain ⟨rfl, -⟩ := List.cons.inj tail
        exact absurd (List.mem_append_right _ List.mem_cons_self) other
    · cases gap with
      | nil => exact ⟨front_eq.trans (List.append_nil cs), (List.cons.inj tail).2.symm⟩
      | cons x gap => exact absurd (congrArg List.length tail) (by simp)
  · exact absurd (part.subset (List.mem_append_right _ List.mem_cons_self)) other

/-- An aside behind exchanges gives no command, wherever they have stopped. -/
theorem effects_append_quiet (t : Transcript ε) (hu : u.Quiet) : (t ++ u).effects = t.effects := by
  have none (r : Reader) : (r.feedAll u.accepted).2 = [] := by rw [hu.2]; rfl
  unfold effects
  rw [commands_append, none, List.append_nil]

theorem Ordered.append_quiet (ht : t.Ordered c cs done) (hu : u.Quiet) :
    (t ++ u).Ordered c cs done where
  whole h := by
    rw [← List.append_nil cs]
    exact (ht.whole h).append hu.gives
  first := by
    rw [effects_append_quiet t hu]
    exact ht.first

theorem Harmless.append_quiet (ht : t.Harmless) (hu : u.Quiet) : (t ++ u).Harmless where
  effects := by rw [effects_append_quiet t hu, ht.effects]
  operations := by
    rw [operations_append, hu.1.operations_eq, List.append_nil]
    exact ht.operations

theorem Quiet.harmless (h : t.Quiet) : t.Harmless where
  effects := h.completes.effects
  operations op hop := by
    rw [h.1.operations_eq] at hop
    exact absurd hop List.not_mem_nil

theorem Completes.harmless_append (hs : s.Completes []) (hr : ∀ op ∈ s.operations, op.IsRead)
    (ht : t.Harmless) : (s ++ t).Harmless where
  effects := by rw [effects_append hs.boundary, hs.effects, ht.effects]; rfl
  operations op hop := by
    rw [operations_append] at hop
    exact (List.mem_append.mp hop).elim (hr op) (ht.operations op)

end Transcript

/-- The orders of an operation that follows a script are those of the script. -/
theorem Link.Follows.ordered {x : Link ε α} {script : List Command} {value : α → Prop}
    {failure : Failure ε → Prop} (hx : x.Follows script value failure) {t : Transcript ε}
    {r : Except (Failure ε) α} (h : Link.Held x t r) :
    t.Ordered c (script.filter c.orders) (∃ a, r = .ok a) := by
  cases r with
  | ok a =>
    have gives := (hx.completes h).1.gives (c := c)
    exact ⟨fun _ => gives, gives.orders ▸ List.prefix_rfl⟩
  | error f =>
    exact ⟨fun ⟨_, e⟩ => absurd e (by simp), (hx.breaks h).1.effects.filter c.orders⟩

/-! ## Orders of a call -/

namespace Script

/-- A command word for the controller of a plane. -/
def order (c : Chip) (plane : Nat) (cmd : FlashCommand) (arg : Word) : Command :=
  .writeWord (c.registerAddress plane FlashController.commandOffset) (cmd.word arg)

theorem order_inj {plane plane' : Nat} {cmd cmd' : FlashCommand} {arg arg' : Word}
    (h : order c plane cmd arg = order c plane' cmd' arg') : cmd = cmd' :=
  FlashCommand.eq_of_word_eq (Command.writeWord.inj h).2

theorem boot_eq (c : Chip) (fromFlash : Bool) :
    boot c fromFlash = [order c 0 (bootCommand fromFlash) c.bootFlagArgument] := rfl

theorem commit_eq (c : Chip) (page : Nat) :
    commit c page =
      order c (c.planeOf page) .eraseWritePage (Word.ofSize (c.pageOnPlane page)) := rfl

/-- Committing pages takes no other command. -/
theorem order_notMem_commits {plane : Nat} {cmd : FlashCommand} {arg : Word}
    (hcmd : cmd ≠ .eraseWritePage) (pages : List Nat) :
    order c plane cmd arg ∉ pages.map (commit c) := by
  intro h
  obtain ⟨page, -, same⟩ := List.mem_map.mp h
  rw [commit_eq] at same
  exact hcmd (order_inj same).symm

theorem orders_boot (hc : c.Sound) (fromFlash : Bool) :
    (boot c fromFlash).filter c.orders = boot c fromFlash := by
  rw [boot_eq, order, List.filter_cons, if_pos (Chip.orders_command hc.planes_pos _)]
  rfl

theorem orders_program (hc : c.Sound) {bytes : List UInt8} {n : Nat} (hn : n ≤ c.pages) :
    (program o c bytes n).filter c.orders =
      (List.range n).map (commit c) ++ if o.keepBootSource then [] else boot c true := by
  have last : (if o.keepBootSource then [] else boot c true).filter c.orders =
      if o.keepBootSource then [] else boot c true := by
    cases o.keepBootSource with
    | true => rfl
    | false => exact orders_boot hc true
  rw [program, List.filter_append, List.filter_append, orders_setUp hc, orders_pages hc hn, last]
  rfl

end Script

namespace Task

/-- The orders of a call. A program call erases and writes the pages of its image and then sets the
boot flag, unless the image is empty or the options say otherwise. -/
def orders (o : Options) (c : Chip) : Task → List Command
  | identify => []
  | program size _ => (List.range (c.pagesFor size)).map (Script.commit c) ++
      if size = 0 ∨ o.keepBootSource then [] else Script.boot c true
  | setBootSource fromFlash => Script.boot c fromFlash

theorem orders_empty (hc : c.Sound) (observed : Bool) : (program 0 observed).orders o c = [] := by
  rw [orders, Programmer.pagesFor_zero hc, if_pos (Or.inl rfl)]
  rfl

/-- An order for the boot flag is given by a call that selects that boot source, or by a program
call that has written something. -/
theorem of_mem_orders (fromFlash : Bool) {task : Task} {plane : Nat} {arg : Word}
    (h : Script.order c plane (Script.bootCommand fromFlash) arg ∈ task.orders o c) :
    task = .setBootSource fromFlash ∨ fromFlash = true ∧ o.keepBootSource = false ∧
      ∃ size observed, 0 < size ∧ task = .program size observed := by
  have flag {fromFlash' : Bool}
      (hm : Script.order c plane (Script.bootCommand fromFlash) arg ∈ Script.boot c fromFlash') :
      fromFlash' = fromFlash := by
    have same := Script.order_inj (List.mem_singleton.mp hm)
    cases fromFlash <;> cases fromFlash' <;> simp_all [Script.bootCommand]
  cases task with
  | identify => exact absurd h List.not_mem_nil
  | setBootSource fromFlash' => exact Or.inl (by rw [flag h])
  | program size observed =>
    rcases List.mem_append.mp h with h | h
    · have another : Script.bootCommand fromFlash ≠ .eraseWritePage := by
        cases fromFlash <;> simp [Script.bootCommand]
      exact absurd h (Script.order_notMem_commits another _)
    · by_cases keeps : size = 0 ∨ o.keepBootSource = true
      · rw [if_pos keeps] at h
        exact absurd h List.not_mem_nil
      · rw [if_neg keeps] at h
        rw [not_or, Bool.not_eq_true] at keeps
        exact Or.inr ⟨(flag h).symm, keeps.2, size, observed, by omega, rfl⟩

/-- A program call does not select the ROM. -/
theorem clear_notMem_orders {size : Nat} {observed : Bool} {plane : Nat} {arg : Word} :
    Script.order c plane .clearGpnvmBit arg ∉ (program size observed).orders o c := by
  intro h
  rcases of_mem_orders false h with task | ⟨flash, -⟩
  · exact absurd task (by simp)
  · exact absurd flash (by simp)

/-- **What one call orders** of the chip that it works on. -/
theorem ordered_work (hc : c ∈ Chip.all) (task : Task) {t : Transcript ε}
    {r : Except (Failure ε) Unit} (h : Link.Held (task.work o c) t r) :
    t.Ordered c (task.orders o c) (r = .ok ()) := by
  have sound := Chip.sound_of_mem hc
  cases task with
  | identify =>
    obtain ⟨rfl, -⟩ := Link.held_pure_iff.mp h
    exact Transcript.quiet_nil.ordered _
  | setBootSource fromFlash =>
    have ordered := (Programmer.follows_writeBootFlag sound fromFlash).ordered (c := c) h
    rw [Script.orders_boot sound] at ordered
    exact ⟨fun e => ordered.whole ⟨(), e⟩, ordered.first⟩
  | program size observed =>
    by_cases fits : 0 < size ∧ size ≤ c.pages * c.pageSize
    · have pos := Programmer.pagesFor_pos sound fits.1
      have room := (Programmer.remains_zero sound fits.2).pages
      have script (bytes : List UInt8) :
          (Script.program o c bytes (c.pagesFor size)).filter c.orders =
            (program size observed).orders o c := by
        have some_bytes : ¬ size = 0 := Nat.pos_iff_ne_zero.mp fits.1
        rw [Script.orders_program sound (by omega)]
        simp only [orders, some_bytes, false_or]
      have writes : Link.Held (Programmer.writePages o c size (c.pagesFor size) observed) t r := by
        rw [← Programmer.writing_eq sound fits.1 fits.2]
        exact h
      rw [← script (t.taken.take size)]
      cases r with
      | ok _ =>
        have gives := (Programmer.completes_writePages sound fits.2 pos List.prefix_rfl
          writes).1.gives (c := c)
        exact ⟨fun _ => gives, gives.orders ▸ List.prefix_rfl⟩
      | error f =>
        exact ⟨fun e => absurd e (by simp), (Programmer.halts_writePages sound fits.2 pos
          List.prefix_rfl writes).1.prefix_program.filter c.orders⟩
    · have nothing : (Programmer.writing o c size observed : Link ε Unit).Follows []
          (fun _ => size = 0) Failure.IsEarly := Programmer.follows_writing_nil sound (by omega)
      have ordered := nothing.ordered (c := c) h
      refine ⟨?_, ordered.first.trans List.nil_prefix⟩
      rintro rfl
      obtain ⟨-, -, rfl⟩ := nothing.completes h
      rw [orders_empty sound]
      exact ordered.whole ⟨(), rfl⟩

end Task

namespace Turn

variable {v : Turn ε}

/-- A call that needs the chip and knows it does its work on it. -/
theorem Held.works (h : v.Held o) (known : v.before.chip = some c) (needs : v.task ≠ .identify) :
    Link.Held (v.task.work o c) v.exchanges v.result ∧ v.after.chip = some c := by
  have knows : ¬ v.task.Looks v.before := by
    rintro (h | h)
    · exact needs h
    · exact absurd (known.symm.trans h) (by simp)
  cases h.course with
  | lost _ looks _ _ _ => exact absurd looks knows
  | worked c' s u gets work exchanges chip _ =>
    rcases gets with ⟨looks, -⟩ | ⟨-, hk, rfl⟩
    · exact absurd looks knows
    · obtain rfl := Option.some.inj (known.symm.trans hk)
      rw [exchanges]
      exact ⟨work, chip⟩

/-- A change of the boot source that succeeds ends with its order and a ready round. -/
theorem Held.selectsLast (h : v.Held o) (hc : c ∈ Chip.all) (known : v.before.chip = some c)
    {fromFlash : Bool} (task : v.task = .setBootSource fromFlash) (result : v.result = .ok ()) :
    c.SelectsLast (Script.bootCommand fromFlash) v.exchanges.operations := by
  obtain ⟨work, -⟩ := h.works known (by simp [task])
  rw [task, result] at work
  have plan := Programmer.plans_writeBootFlag (ε := ε) (o := o) (Chip.sound_of_mem hc) fromFlash
  exact Plan.runs_boot (plan.runs work).1

end Turn

namespace CommandLine

/-! ## Orders of a run -/

/-- Any errand but the identification comes to a call that needs the chip. -/
theorem Errand.Asks.needs {s : Transcript IoKind} {e : Errand} {es : List Errand} {task : Task}
    (h : e.Asks s task) (others : .identify ∉ e :: es) : task ≠ .identify := by
  cases e with
  | identify => exact absurd List.mem_cons_self others
  | write path =>
    obtain ⟨size, -, rfl⟩ := h
    simp
  | selectRom =>
    obtain rfl : task = _ := h
    simp

namespace Proceeds

variable {p : Programmer} {es : List Errand} {t : Transcript IoKind} {vs : List (Turn IoKind)}
  {r : Except (List String) Unit}

/-- **What the calls of a run order**, once the chip is known: one call after the other. -/
theorem ordered (h : Proceeds o p es t vs r) (hc : c ∈ Chip.all) (known : p.chip = some c)
    (needs : .identify ∉ es) :
    t.Ordered c (vs.flatMap fun v => v.task.orders o c) (r = .ok ()) := by
  induction h with
  | finished quiet => exact quiet.ordered _
  | stopped quiet => exact quiet.ordered _
  | @failed v e es s u f report before asks held result behind =>
    have ordered := Task.ordered_work hc v.task (held.works known (asks.needs needs)).1
    rw [List.flatMap_singleton, ← List.nil_append (v.task.orders o c)]
    exact before.gives.ordered ((ordered.append_quiet behind).imp fun e => absurd e (by simp))
  | @called v e es s u vs r before asks held result rest ih =>
    obtain ⟨work, chip⟩ := held.works known (asks.needs needs)
    -- the call has succeeded, so the next one begins at a command boundary
    have gives := (Task.ordered_work hc v.task work).whole result
    have later := ih chip fun hm => needs (List.mem_cons_of_mem e hm)
    rw [List.flatMap_cons, ← List.nil_append (v.task.orders o c ++ _)]
    exact before.gives.ordered (gives.ordered later)

/-- How a run begins. -/
inductive Opening (o : Options) (es : List Errand) (t : Transcript IoKind)
    (vs : List (Turn IoKind)) (r : Except (List String) Unit) : Prop
  /-- The chip is not found. -/
  | lost (harmless : t.Harmless) (report : List String) (result : r = .error report)
  /-- The first call finds the chip, without a change. -/
  | found (c : Chip) (v : Turn IoKind) (ws : List (Turn IoKind)) (s u : Transcript IoKind)
      (calls : vs = v :: ws) (task : v.task = .identify) (finds : v.Finds o c)
      (chip : v.after.chip = some c) (exchanges : t = s ++ u) (complete : s.Completes [])
      (reads : ∀ op ∈ s.operations, op.IsRead) (rest : Proceeds o v.after es u ws r)

/-- **Before the chip is found** nothing is changed, and a run that does not find it fails. -/
theorem opening (h : Proceeds o p (.identify :: es) t vs r) : Opening o es t vs r := by
  cases h with
  | stopped quiet => exact .lost quiet.harmless _ rfl
  | @failed v _ _ s u f report before asks held result behind =>
    refine .lost ?_ report rfl
    have aside : ∀ op ∈ s.operations, op.IsRead := before.harmless.operations
    cases held.course with
    | lost _ _ asked _ _ =>
      exact before.completes.harmless_append aside
        ((Programmer.harmless_findChip asked).append_quiet behind)
    | worked c s' u' _ work _ _ _ =>
      rw [show v.task = .identify from asks] at work
      exact absurd (result.symm.trans (Link.held_pure_iff.mp work).2) (by simp)
  | @called v _ _ s u vs _ before asks held result rest =>
    have task : v.task = .identify := asks
    cases held.course with
    | lost f _ _ failed _ => exact absurd (result.symm.trans failed) (by simp)
    | worked c s' u' gets work exchanges chip _ =>
      rw [task] at work
      obtain ⟨rfl, -⟩ := Link.held_pure_iff.mp work
      rw [List.append_nil] at exchanges
      rcases gets with ⟨looks, finds⟩ | ⟨knows, -, -⟩
      · have harmless := Programmer.harmless_findChip finds
        have complete := ((Programmer.follows_findChip o).completes finds).1
        refine .found c v vs (s ++ v.exchanges) u rfl task ⟨looks, s', [], by simpa, finds⟩ chip
          (List.append_assoc _ _ _).symm (before.completes.append (exchanges ▸ complete)) ?_ rest
        rw [exchanges]
        exact (before.completes.harmless_append before.harmless.operations harmless).operations
      · exact absurd (Or.inl task) knows

/-- A run that writes an image and fails there does nothing more. -/
theorem failed_write {path : String} (h : Proceeds o p (.write path :: es) t vs r)
    (last : ∀ path, .write path ∉ es) {v : Turn IoKind} (hv : v ∈ vs) {size : Nat}
    {observed : Bool} (task : v.task = .program size observed) {f : Failure IoKind}
    (result : v.result = .error f) :
    vs = [v] ∧ ∃ report, r = .error report := by
  cases h with
  | stopped quiet => exact absurd hv List.not_mem_nil
  | @failed _ _ _ _ _ _ report =>
    rw [List.mem_singleton.mp hv]
    exact ⟨rfl, report, rfl⟩
  | called _ _ _ ok rest =>
    rcases List.mem_cons.mp hv with rfl | hv
    · exact absurd (result.symm.trans ok) (by simp)
    · obtain ⟨e, he, asks⟩ := rest.asked hv
      rw [task] at asks
      cases e with
      | identify => exact absurd asks (by simp [Errand.Asks])
      | write path => exact absurd he (last path)
      | selectRom => exact absurd asks (by simp [Errand.Asks])

/-- A run that selects the ROM and succeeds ends with that. -/
theorem selectsLast (h : Proceeds o p (es ++ [.selectRom]) t vs (.ok ())) (hc : c ∈ Chip.all)
    (known : p.chip = some c) (needs : .identify ∉ es) :
    c.SelectsLast .clearGpnvmBit t.operations := by
  generalize left : es ++ [.selectRom] = rest, result : Except.ok () = r at h
  induction h generalizing es with
  | finished => exact absurd left (by simp)
  | stopped => exact absurd result (by simp)
  | failed => exact absurd result (by simp)
  | @called v e es' s u vs r before asks held ok rest ih =>
    cases es with
    | nil =>
      obtain ⟨rfl, rfl⟩ := List.cons.inj left
      rw [Transcript.operations_append, Transcript.operations_append, rest.idle.1.1.operations_eq,
        List.append_nil]
      exact (held.selectsLast hc known asks ok).append_left _
    | cons e' es =>
      obtain ⟨rfl, rfl⟩ := List.cons.inj left
      have last := ih (held.works known (asks.needs needs)).2
        (fun hm => needs (List.mem_cons_of_mem _ hm)) rfl result
      rw [Transcript.operations_append, Transcript.operations_append]
      exact (last.append_left _).append_left _

/-- A run that does not come to write its image does nothing at all. -/
theorem unwritten {path : String} (h : Proceeds o p (.write path :: es) t vs r)
    (none : ∀ v ∈ vs, ∀ size observed, v.task ≠ .program size observed) :
    vs = [] ∧ ∃ report, r = .error report := by
  cases h with
  | stopped => exact ⟨rfl, _, rfl⟩
  | failed _ asks | called _ asks =>
    obtain ⟨size, -, task⟩ := asks
    exact absurd task (none _ List.mem_cons_self size true)

variable {a : Arguments} {plane : Nat} {arg : Word}

theorem orders_rom
    (h : List.Forall₂ (fun e v => Errand.Asks t e v.task)
      (if a.bootRom then [.selectRom] else []) vs) :
    (vs.flatMap fun v => v.task.orders o c) =
      if a.bootRom then (Task.setBootSource false).orders o c else [] := by
  cases rom : a.bootRom with
  | false =>
    rw [rom] at h
    cases h
    rfl
  | true =>
    rw [rom] at h
    cases h with
    | @cons _ v _ _ asks rest =>
      cases rest
      rw [List.flatMap_singleton, show v.task = .setBootSource false from asks]
      rfl

/-- **What a run orders if it succeeds**: what its image takes, and then what the ROM takes. Without
an image it is as with one that has no bytes. -/
theorem orders_of_ok (h : Proceeds o p (furtherErrands a) t vs r) (hc : c.Sound) (ok : r = .ok ())
    (info : a.info = false) :
    ∃ size, (∀ path, a.file = some path → Opens t path size) ∧ (a.file = none → size = 0) ∧
      (vs.flatMap fun v => v.task.orders o c) = (Task.program size true).orders o c ++
        if a.bootRom then (Task.setBootSource false).orders o c else [] := by
  have complete := h.complete ok
  rw [furtherErrands_eq info] at complete
  cases file : a.file with
  | none =>
    rw [file] at complete
    refine ⟨0, by simp, fun _ => rfl, ?_⟩
    rw [Task.orders_empty hc, List.nil_append]
    exact orders_rom complete
  | some path =>
    rw [file] at complete
    cases complete with
    | cons asks rest =>
      obtain ⟨size, opens, task⟩ := asks
      refine ⟨size, ?_, by simp, ?_⟩
      · rintro _ ⟨⟩
        exact opens
      · rw [List.flatMap_cons, task, orders_rom rest]

/-- An order for the boot flag, and what it has to do with the command line: the ROM is only
selected where it is asked for, and flash only by writing an image. -/
theorem of_boot_order (fromFlash : Bool)
    (h : Proceeds a.sessionOptions p (furtherErrands a) t vs r)
    (order : Script.order c plane (Script.bootCommand fromFlash) arg ∈
      vs.flatMap fun v => v.task.orders a.sessionOptions c) :
    fromFlash = !a.bootRom ∧ (fromFlash = true → a.options.keepBootSource = false ∧
      ∃ path size, a.file = some path ∧ Opens t path size ∧ 0 < size ∧
        ∃ v ∈ vs, v.task = .program size true) := by
  obtain ⟨v, hv, hm⟩ := List.mem_flatMap.mp order
  obtain ⟨e, he, asks⟩ := h.asked hv
  obtain ⟨-, here⟩ := mem_furtherErrands_iff.mp he
  rcases Task.of_mem_orders fromFlash hm with task | ⟨rfl, keeps, size, observed, some_bytes, task⟩
  · rw [task] at asks
    rcases here with ⟨path, -, rfl⟩ | ⟨rom, rfl⟩
    · exact absurd asks (by simp [Errand.Asks])
    · obtain rfl : fromFlash = false := by simpa [Errand.Asks] using asks
      exact ⟨by simp [rom], fun e => absurd e (by simp)⟩
  · have flash : a.bootRom = false := by
      by_contra rom
      exact absurd ((a.sessionOptions_keepBootSource (by simpa using rom)).symm.trans keeps)
        (by simp)
    rw [task] at asks
    rcases here with ⟨path, file, rfl⟩ | ⟨rom, -⟩
    · obtain ⟨size', opens, same⟩ := asks
      obtain ⟨rfl, rfl⟩ := Task.program.inj same
      refine ⟨by simp [flash], fun _ => ⟨?_, path, size, file, opens, some_bytes, v, hv, task⟩⟩
      simpa [Arguments.sessionOptions, flash] using keeps
    · exact absurd (rom.symm.trans flash) (by simp)

end Proceeds

/-! ## The decision -/

/-- None of the controllers of `c` is given the command. -/
def Without (c : Chip) (cmd : FlashCommand) (t : Transcript IoKind) : Prop :=
  ∀ plane < c.planes, ∀ arg, Script.order c plane cmd arg ∉ t.commands

/-- **The boot source** of a run that has found the chip `c`: what the exchanges `t`, with the calls
`vs`, order for the boot flag, and what the run comes to. -/
structure Decision (a : Arguments) (c : Chip) (vs : List (Turn IoKind)) (t : Transcript IoKind)
    (r : Except (List String) Unit) : Prop where
  /-- A run that is to select the ROM never selects flash. -/
  rom : a.bootRom = true → Without c .setGpnvmBit t
  /-- Any other run never selects the ROM. -/
  flash : a.bootRom = false → Without c .clearGpnvmBit t
  /-- Flash is selected for an image with bytes, unless the options say otherwise; all of its pages
  have been erased and written before, and nothing more is ordered, so it is selected once. -/
  set : ∀ plane < c.planes, ∀ arg front back,
    t.commands = front ++ Script.order c plane .setGpnvmBit arg :: back →
    a.bootRom = false ∧ a.options.keepBootSource = false ∧
      (∃ path size, a.file = some path ∧ Opens t path size ∧ 0 < size ∧
        front.filter c.orders = (List.range (c.pagesFor size)).map (Script.commit c)) ∧
      back.filter c.orders = []
  /-- A run that succeeds has given all the orders that its image takes, the last of them for flash,
  and then the one for the ROM, as far as they were asked for. -/
  whole : r = .ok () → a.info = false →
    ∃ size, (∀ path, a.file = some path → Opens t path size) ∧ (a.file = none → size = 0) ∧
      t.commands.filter c.orders = (Task.program size true).orders a.sessionOptions c ++
        if a.bootRom then (Task.setBootSource false).orders a.sessionOptions c else []
  /-- A run that was to select the ROM, and succeeds, has done so last, and has seen every plane
  ready behind it. -/
  selected : a.bootRom = true → a.info = false → r = .ok () →
    c.SelectsLast .clearGpnvmBit (t.course Reader.start)
  /-- When programming fails, the ROM is not selected, and the run fails. -/
  failed : ∀ v ∈ vs, ∀ size observed f, v.task = .program size observed → v.result = .error f →
    Without c .clearGpnvmBit t ∧ ∃ report, r = .error report
  /-- Neither is it when there was an image to program, and it did not come to that. -/
  unwritten : a.info = false → a.file.isSome →
    (∀ v ∈ vs, ∀ size observed, v.task ≠ .program size observed) →
    Without c .clearGpnvmBit t ∧ ∃ report, r = .error report

variable {a : Arguments} {p : Programmer} {t : Transcript IoKind} {vs : List (Turn IoKind)}
  {r : Except (List String) Unit}

theorem without_of_ordered {cs : List Command} {done : Prop} {cmd : FlashCommand}
    (h : t.Ordered c cs done) (none : ∀ plane arg, Script.order c plane cmd arg ∉ cs) :
    Without c cmd t :=
  fun plane hp arg hm => none plane arg (h.mem (Chip.orders_command hp _) hm)

theorem furtherErrands_of_file {path : String} (info : a.info = false) (file : a.file = some path) :
    furtherErrands a = .write path :: if a.bootRom then [.selectRom] else [] := by
  rw [furtherErrands_eq info, file]
  rfl

namespace Proceeds

/-- A run that is not to select the ROM has at most one call behind the identification. -/
theorem only_call (h : Proceeds o p (furtherErrands a) t vs r) (flash : a.bootRom = false)
    {v : Turn IoKind} (hv : v ∈ vs) : vs = [v] := by
  have short : (furtherErrands a).length ≤ 1 := by
    unfold furtherErrands
    cases a.info <;> cases a.file <;> simp [flash]
  obtain ⟨w, rfl⟩ := List.length_eq_one_iff.mp
    (Nat.le_antisymm (h.length_le.trans short) (List.length_pos_of_mem hv))
  rw [List.mem_singleton.mp hv]

/-- Flash is selected by the only call behind the identification. -/
theorem around_set {s u : Transcript IoKind} {done : Prop}
    (h : Proceeds a.sessionOptions p (furtherErrands a) u vs r)
    (ordered : (s ++ u).Ordered c (vs.flatMap fun v => v.task.orders a.sessionOptions c) done)
    {plane : Nat} (hp : plane < c.planes) {arg : Word} {front back : List Command}
    (split : (s ++ u).commands = front ++ Script.order c plane .setGpnvmBit arg :: back) :
    a.bootRom = false ∧ a.options.keepBootSource = false ∧
      (∃ path size, a.file = some path ∧ Opens (s ++ u) path size ∧ 0 < size ∧
        front.filter c.orders = (List.range (c.pagesFor size)).map (Script.commit c)) ∧
      back.filter c.orders = [] := by
  have order := Chip.orders_command hp (FlashCommand.setGpnvmBit.word arg)
  have among : Script.order c plane .setGpnvmBit arg ∈ (s ++ u).commands :=
    split ▸ List.mem_append_right _ List.mem_cons_self
  obtain ⟨flash, why⟩ := h.of_boot_order true (ordered.mem order among)
  obtain ⟨keeps, path, size, file, opens, some_bytes, v, hv, task⟩ := why rfl
  have flash : a.bootRom = false := by simpa using flash.symm
  obtain rfl := h.only_call flash hv
  have orders : v.task.orders a.sessionOptions c =
      (List.range (c.pagesFor size)).map (Script.commit c) ++
        [Script.order c 0 .setGpnvmBit c.bootFlagArgument] := by
    have sets : ¬ (size = 0 ∨ a.sessionOptions.keepBootSource = true) := by
      simp [Arguments.sessionOptions, flash, keeps, Nat.pos_iff_ne_zero.mp some_bytes]
    rw [task, Task.orders, if_neg sets]
    rfl
  rw [List.flatMap_singleton, orders] at ordered
  obtain ⟨front_orders, back_orders⟩ :=
    ordered.around order (Script.order_notMem_commits (by simp) _) split
  exact ⟨flash, keeps, ⟨path, size, file, List.mem_append_right _ opens, some_bytes, front_orders⟩,
    back_orders⟩

/-- **What a run does behind the identification** decides on the boot source. -/
theorem decision {s u : Transcript IoKind} {v : Turn IoKind}
    (h : Proceeds a.sessionOptions p (furtherErrands a) u vs r) (hc : c ∈ Chip.all)
    (known : p.chip = some c) (complete : s.Completes []) (task : v.task = .identify) :
    Decision a c (v :: vs) (s ++ u) r := by
  have needs : .identify ∉ furtherErrands a := by simp [mem_furtherErrands_iff]
  have behind := h.ordered hc known needs
  have ordered : (s ++ u).Ordered c (vs.flatMap fun v => v.task.orders a.sessionOptions c)
      (r = .ok ()) := complete.gives.ordered behind
  have none (fromFlash : Bool) (other : fromFlash ≠ !a.bootRom) (plane : Nat) (arg : Word) :
      Script.order c plane (Script.bootCommand fromFlash) arg ∉
        vs.flatMap fun v => v.task.orders a.sessionOptions c :=
    fun hm => other (h.of_boot_order fromFlash hm).1
  constructor
  case rom => exact fun rom => without_of_ordered ordered (none true (by simp [rom]))
  case flash => exact fun flash => without_of_ordered ordered (none false (by simp [flash]))
  case set => exact fun plane hp arg front back split => h.around_set ordered hp split
  case whole =>
    intro ok info
    obtain ⟨size, opens, without_file, orders⟩ := h.orders_of_ok (Chip.sound_of_mem hc) ok info
    refine ⟨size, fun path file => List.mem_append_right _ (opens path file), without_file, ?_⟩
    rw [Transcript.filter_commands c.orders_of_unchanging, (ordered.whole ok).orders, orders]
  case selected =>
    rintro rom info rfl
    rw [furtherErrands_eq info, rom, if_pos rfl] at h needs
    have last := h.selectsLast hc known fun hm => needs (List.mem_append_left _ hm)
    rw [(ordered.whole rfl).course, Transcript.operations_append]
    exact last.append_left _
  case failed =>
    intro w hw size observed f programs fails
    rcases List.mem_cons.mp hw with rfl | hw
    · exact absurd (task.symm.trans programs) (by simp)
    · obtain ⟨e, he, wanted⟩ := h.asked hw
      obtain ⟨info, ⟨path, file, rfl⟩ | ⟨-, rfl⟩⟩ := mem_furtherErrands_iff.mp he
      · rw [furtherErrands_of_file info file] at h
        obtain ⟨rfl, reported⟩ := h.failed_write (fun _ => by split <;> simp) hw programs fails
        rw [List.flatMap_singleton, programs] at ordered
        exact ⟨without_of_ordered ordered fun _ _ => Task.clear_notMem_orders, reported⟩
      · exact absurd (programs.symm.trans wanted) (by simp)
  case unwritten =>
    intro info given unasked
    obtain ⟨path, file⟩ := Option.isSome_iff_exists.mp given
    rw [furtherErrands_of_file info file] at h
    obtain ⟨rfl, reported⟩ := h.unwritten fun w hw => unasked w (List.mem_cons_of_mem _ hw)
    exact ⟨without_of_ordered ordered fun _ _ => List.not_mem_nil, reported⟩

end Proceeds

/-- **The boot source decision** of a run, whatever the port, the file and the line do. The run
makes its calls in order. With `--info` nothing is changed. Either the chip is not found, nothing is
changed and the run fails, or the run decides on the boot source of the chip it has found. -/
theorem boot_source_decision (a : Arguments) (h : Run.Held (run a) t r) :
    ∃ vs, Proceeds a.sessionOptions {} (.identify :: furtherErrands a) t vs r ∧
      (a.info = true → t.Harmless) ∧
      ((t.Harmless ∧ ∃ report, r = .error report) ∨
        ∃ c ∈ Chip.all, (∃ v ∈ vs, v.Finds a.sessionOptions c) ∧ Decision a c vs t r) := by
  obtain ⟨vs, goes⟩ := (Run.makes_run a).proceeds h
  refine ⟨vs, goes, ?_⟩
  cases goes.opening with
  | lost harmless report result => exact ⟨fun _ => harmless, Or.inl ⟨harmless, report, result⟩⟩
  | found c v ws s u calls task finds chip exchanges complete reads rest =>
    subst calls exchanges
    refine ⟨fun info => ?_, Or.inr ⟨c, finds.mem, ⟨v, List.mem_cons_self, finds⟩,
      rest.decision finds.mem chip complete task⟩⟩
    have nothing : furtherErrands a = [] := by simp [furtherErrands, info]
    rw [nothing] at rest
    exact complete.harmless_append reads rest.idle.1.harmless

/-- A command line that writes an image and selects the ROM. -/
def romLine : Arguments where
  port := "port"
  baud := 115200
  file := some "image"
  info := false
  bootRom := true
  filter := ⟨none⟩
  options := {}

/-- The exchanges of a run on a steady bench, with an image of one byte. -/
def romExchanges : Transcript IoKind :=
  (run romLine).run.transcript (Bench.steady Bench.part) (Bench.fresh [7])

/-- The programmer that has written the image. -/
def romWritten : Programmer := ⟨.complete, some Bench.part⟩

/-- What is left to do then. -/
def romEnding (p : Programmer) : Run Unit := do
  selectRom romLine.sessionOptions p
  Run.log .finished

theorem run_romLine : run romLine = Run.beginning romLine >>= fun p =>
    writeFile romLine.sessionOptions "image" p >>= romEnding := by
  rw [Run.run_eq]
  rfl

-- the run is evaluated part by part, each from where the one before it has left the bench
theorem romLine_begins :
    (Run.beginning romLine).run.run (Bench.steady Bench.part) (Bench.fresh [7]) =
      (.ok Turn.acquainted, Bench.fresh [7]) := by
  cbv

set_option maxRecDepth 100000 in
theorem romLine_writes :
    (writeFile romLine.sessionOptions "image" Turn.acquainted).run.run (Bench.steady Bench.part)
      (Bench.fresh [7]) = (.ok romWritten, Bench.fresh []) := by
  cbv

set_option maxRecDepth 100000 in
theorem romLine_ends :
    ((romEnding romWritten).run.run (Bench.steady Bench.part) (Bench.fresh [])).1 = .ok () := by
  cbv

theorem romLine_succeeds :
    ((run romLine).run.run (Bench.steady Bench.part) (Bench.fresh [7])).1 = .ok () := by
  rw [run_romLine, Dialogue.run_except_bind romLine_begins, Dialogue.run_except_bind romLine_writes]
  exact romLine_ends

/-- No file is opened, which can be computed. -/
def opensNone (t : Transcript IoKind) : Bool :=
  t.all fun x =>
    match x.request with
    | .openImage _ => false
    | _ => true

theorem not_opens {t : Transcript IoKind} (none : opensNone t = true) (path : String)
    (size : Nat) : ¬ Opens t path size := by
  intro opens
  have := List.all_eq_true.mp none _ opens
  simp at this

theorem romLine_begins_unopened : opensNone ((Run.beginning romLine).run.transcript
    (Bench.steady Bench.part) (Bench.fresh [7])) = true := by
  cbv

set_option maxRecDepth 100000 in
theorem romLine_ends_unopened : opensNone ((romEnding romWritten).run.transcript
    (Bench.steady Bench.part) (Bench.fresh [])) = true := by
  cbv

/-- The file that is opened has one byte. -/
theorem opens_romExchanges {path : String} {size : Nat} (h : Opens romExchanges path size) :
    path = "image" ∧ size = 1 := by
  have held := Dialogue.Held.of_run (Bench.steady Bench.part)
    (writeFile romLine.sessionOptions "image" Turn.acquainted).run (Bench.fresh [7])
  rw [romLine_writes] at held
  have knows : Turn.acquainted.Knows := fun c hc => Option.some.inj hc ▸ by decide
  obtain ⟨size', u, exchanges, once⟩ := Run.held_writeFile_ok knows held
  have first : ((writeFile romLine.sessionOptions "image" Turn.acquainted).run.transcript
      (Bench.steady Bench.part) (Bench.fresh [7])).head? = some ⟨.openImage "image", .ok 1⟩ := rfl
  rw [romExchanges, run_romLine, Dialogue.transcript_except_bind romLine_begins,
    Dialogue.transcript_except_bind romLine_writes] at h
  rcases List.mem_append.mp h with h | h
  · exact absurd h (not_opens romLine_begins_unopened path size)
  rcases List.mem_append.mp h with h | h
  · rw [exchanges] at first h
    rcases List.mem_cons.mp h with h | h
    · rw [← h] at first
      simpa using first
    · exact absurd h (once path size)
  · exact absurd h (not_opens romLine_ends_unopened path size)

/-- The run succeeds. It has erased and written the page of the image, has not selected flash, and
has selected the ROM at the end. -/
theorem boot_source_rom :
    Run.Held (run romLine) romExchanges (.ok ()) ∧
      ∃ c ∈ Chip.all, Without c .setGpnvmBit romExchanges ∧
        romExchanges.commands.filter c.orders = Script.commit c 0 :: Script.boot c false ∧
        c.SelectsLast .clearGpnvmBit (romExchanges.course Reader.start) := by
  have held : Run.Held (run romLine) romExchanges (.ok ()) := by
    have := Dialogue.Held.of_run (Bench.steady Bench.part) (run romLine).run (Bench.fresh [7])
    rwa [romLine_succeeds] at this
  refine ⟨held, ?_⟩
  obtain ⟨vs, -, -, ⟨-, report, fails⟩ | ⟨c, hc, -, decision⟩⟩ := boot_source_decision romLine held
  · exact absurd fails (by simp)
  obtain ⟨size, opens, -, orders⟩ := decision.whole rfl rfl
  obtain ⟨-, rfl⟩ := opens_romExchanges (opens "image" rfl)
  have one : c.pagesFor 1 = 1 := by
    rw [Chip.pagesFor, Chip.pageSize_of_mem hc]
  refine ⟨c, hc, decision.rom rfl, ?_, decision.selected rfl rfl rfl⟩
  rw [orders, Task.orders, one]
  rfl

end CommandLine

end SamFlash
