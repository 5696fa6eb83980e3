import SamFlash.Proofs.Identification
import SamFlash.Proofs.Programming

/-!
# Plans of operations

The operations of the host, with the places where it waits. A plan fixes every operation that
changes the target; where it waits there may be any number of reads, and a wait that is over ends
with a round in which every plane is ready (`Chip.ReadyRound`). An operation of the link runs its
plan when it succeeds (`Step.Runs`), and starts it when it fails (`Step.Starts`); on a bench it does
not fail.

A script says which commands reach the target, and nothing about what the host saw in between. A
plan says both, and this is what the discipline of flash commands and the use of the staging buffers
are about. A property that depends on the place in the plan is carried along it: every step leads
from one mark to another (`Step.Leads`), and if each step keeps what holds at its mark, every run
keeps it, and so does every run that stops early (`Step.Carries`).

Whether a wait comes to its end is up to the flash controllers. `Cooperates` asks no more of them
than that: no status tells of a locked page, and among as many rounds in a row as
`FlashController.awaitReady` makes there is one in which every plane is ready. On an idle bench an
operation with a plan then succeeds, takes the bytes of the image that it is said to take, and
leaves the bench idle (`Link.Plans`).

Results:
* `Step.Runs.append`, `Step.Runs.append_starts`: runs of plans in a row.
* `Step.Carries.runs`, `Step.Carries.starts`: what every step of a plan keeps, its runs keep.
* `Cooperates.of_append`: what flash controllers must do for a host to succeed.
* `Link.Plans.bind_add`, `Link.Plans.bind`: operations with plans in a row.
-/

namespace SamFlash

variable {ε α β : Type}

/-! ## Rounds of status reads -/

/-- The status of the planes from `plane` on, one after the other. -/
def Chip.roundFrom (c : Chip) : (plane : Nat) → List Word → List Operation
  | _, [] => []
  | plane, status :: rest =>
    .read (c.registerAddress plane FlashController.statusOffset) status ::
      c.roundFrom (plane + 1) rest

/-- The status of every plane, in order, each of them ready and none with a locked page. -/
def Chip.ReadyRound (c : Chip) (es : List Operation) : Prop :=
  ∃ statuses : List Word, statuses.length = c.planes ∧
    (∀ status ∈ statuses, status &&& 1 ≠ 0 ∧ status &&& 4 = 0) ∧ es = c.roundFrom 0 statuses

/-- The word at some address is read. -/
def Operation.IsRead (op : Operation) : Prop := ∃ addr value, op = .read addr value

/-- The code at some address is run. -/
def Operation.branches : Operation → Bool
  | branch _ => true
  | _ => false

theorem Operation.IsRead.not_branches {op : Operation} (h : op.IsRead) : ¬ op.branches := by
  obtain ⟨addr, value, rfl⟩ := h
  simp [branches]

theorem Chip.isRead_of_mem_roundFrom {c : Chip} {plane : Nat} {statuses : List Word}
    {op : Operation} (h : op ∈ c.roundFrom plane statuses) : op.IsRead := by
  induction statuses generalizing plane with
  | nil => exact absurd h List.not_mem_nil
  | cons status rest ih =>
    rcases List.mem_cons.mp h with rfl | h
    · exact ⟨_, _, rfl⟩
    · exact ih h

theorem Chip.ReadyRound.reads {c : Chip} {round : List Operation} (h : c.ReadyRound round) :
    ∀ op ∈ round, op.IsRead := by
  obtain ⟨statuses, -, -, rfl⟩ := h
  exact fun _ => isRead_of_mem_roundFrom

theorem Chip.roundFrom_inj {c : Chip} {plane : Nat} {xs ys : List Word}
    (h : c.roundFrom plane xs = c.roundFrom plane ys) : xs = ys := by
  induction xs generalizing plane ys with
  | nil =>
    cases ys with
    | nil => rfl
    | cons y ys => exact absurd h (by simp [roundFrom])
  | cons x xs ih =>
    cases ys with
    | nil => exact absurd h (by simp [roundFrom])
    | cons y ys =>
      simp only [roundFrom, List.cons.injEq, Operation.read.injEq, true_and] at h
      rw [h.1, ih h.2]

/-- The status of every plane, in order. -/
def Chip.Round (c : Chip) (es : List Operation) : Prop :=
  ∃ statuses : List Word, statuses.length = c.planes ∧ es = c.roundFrom 0 statuses

/-- No status tells of a locked page. -/
def Chip.Unlocked (c : Chip) (es : List Operation) : Prop :=
  ∀ plane < c.planes, ∀ status,
    .read (c.registerAddress plane FlashController.statusOffset) status ∈ es → status &&& 4 = 0

/-- The flash controllers do what they are told in time: no page is locked, and among as many rounds
in a row as a wait may take there is a ready one. -/
structure Cooperates (o : Options) (c : Chip) (es : List Operation) : Prop where
  unlocked : c.Unlocked es
  ready : ∀ (front : List Operation) (rounds : List (List Operation)) (back : List Operation),
    es = front ++ (rounds.flatten ++ back) → rounds.length = o.statusRetries.toNat →
      (∀ round ∈ rounds, c.Round round) → ∃ round ∈ rounds, c.ReadyRound round

theorem Cooperates.of_append {o : Options} {c : Chip} {xs ys : List Operation}
    (h : Cooperates o c (xs ++ ys)) : Cooperates o c xs ∧ Cooperates o c ys := by
  refine ⟨⟨?_, ?_⟩, ⟨?_, ?_⟩⟩
  · exact fun plane hp status hm => h.unlocked plane hp status (List.mem_append_left ys hm)
  · rintro front rounds back rfl
    exact h.ready front rounds (back ++ ys) (by simp only [List.append_assoc])
  · exact fun plane hp status hm => h.unlocked plane hp status (List.mem_append_right xs hm)
  · rintro front rounds back rfl
    exact h.ready (xs ++ front) rounds back (by simp only [List.append_assoc])

theorem Chip.mem_roundFrom (c : Chip) (plane : Nat) {statuses : List Word} {status : Word}
    (h : status ∈ statuses) : ∃ i < statuses.length,
      .read (c.registerAddress (plane + i) FlashController.statusOffset) status ∈
        c.roundFrom plane statuses := by
  induction statuses generalizing plane with
  | nil => exact absurd h List.not_mem_nil
  | cons first rest ih =>
    rcases List.mem_cons.mp h with rfl | h
    · exact ⟨0, Nat.succ_pos _, List.mem_cons_self⟩
    · obtain ⟨i, hi, hm⟩ := ih (plane + 1) h
      refine ⟨i + 1, Nat.succ_lt_succ hi, List.mem_cons_of_mem _ ?_⟩
      rwa [show plane + (i + 1) = plane + 1 + i by omega]

/-- Flash controllers that always tell that they are ready cooperate. -/
theorem Cooperates.of_steady {o : Options} {c : Chip} {es : List Operation}
    (ho : 0 < o.statusRetries.toNat) (h : ∀ plane < c.planes, ∀ status,
      .read (c.registerAddress plane FlashController.statusOffset) status ∈ es →
        status &&& 1 ≠ 0 ∧ status &&& 4 = 0) :
    Cooperates o c es := by
  refine ⟨fun plane hp status hm => (h plane hp status hm).2, ?_⟩
  intro front rounds back he hlen hall
  obtain ⟨round, hround⟩ := List.exists_mem_of_length_pos (hlen ▸ ho)
  obtain ⟨statuses, hstatuses, hfrom⟩ := hall round hround
  refine ⟨round, hround, statuses, hstatuses, fun status hm => ?_, hfrom⟩
  obtain ⟨i, hi, hmem⟩ := c.mem_roundFrom 0 hm
  rw [← hfrom] at hmem
  refine h (0 + i) (by omega) status ?_
  rw [he]
  exact List.mem_append_right _ (List.mem_append_left _ (List.mem_flatten_of_mem hround hmem))

/-- So do those of a steady SAM3X8E. -/
theorem Cooperates.of_agrees {es : List Operation}
    (told : es.all (Operation.agrees (Bench.steadyWords Bench.part)) = true) :
    Cooperates {} Bench.part es := by
  refine .of_steady (by decide) fun plane hp status hm => ?_
  rw [Operation.eq_of_agrees told hm]
  have both : ∀ plane < Bench.part.planes,
      Bench.steadyWords Bench.part
          (Bench.part.registerAddress plane FlashController.statusOffset) &&& 1 ≠ 0 ∧
        Bench.steadyWords Bench.part
          (Bench.part.registerAddress plane FlashController.statusOffset) &&& 4 = 0 := by decide
  exact both plane hp

/-! ## Plans -/

/-- A step of a plan. -/
inductive Step where
  /-- The operation is done. -/
  | act (op : Operation)
  /-- The status is read until all planes are ready. -/
  | wait
  deriving DecidableEq, Repr

namespace Step

/-- The operations are a run of the plan to its end. -/
inductive Runs (c : Chip) : List Step → List Operation → Prop
  | nil : Runs c [] []
  | act {op : Operation} {p : List Step} {es : List Operation} (rest : Runs c p es) :
      Runs c (.act op :: p) (op :: es)
  | wait {reads round es : List Operation} {p : List Step} (all : ∀ op ∈ reads, op.IsRead)
      (ready : c.ReadyRound round) (rest : Runs c p es) :
      Runs c (.wait :: p) (reads ++ (round ++ es))

/-- The operations are a run of the plan that may stop anywhere. -/
inductive Starts (c : Chip) : List Step → List Operation → Prop
  | nil {p : List Step} : Starts c p []
  | act {op : Operation} {p : List Step} {es : List Operation} (rest : Starts c p es) :
      Starts c (.act op :: p) (op :: es)
  | waiting {reads : List Operation} {p : List Step} (all : ∀ op ∈ reads, op.IsRead) :
      Starts c (.wait :: p) reads
  | wait {reads round es : List Operation} {p : List Step} (all : ∀ op ∈ reads, op.IsRead)
      (ready : c.ReadyRound round) (rest : Starts c p es) :
      Starts c (.wait :: p) (reads ++ (round ++ es))

variable {c : Chip} {p q : List Step} {xs ys : List Operation}

theorem Runs.append (hp : Runs c p xs) (hq : Runs c q ys) : Runs c (p ++ q) (xs ++ ys) := by
  induction hp with
  | nil => exact hq
  | act _ ih => exact .act ih
  | wait all ready _ ih =>
    rw [List.append_assoc, List.append_assoc]
    exact .wait all ready ih

theorem Runs.append_starts (hp : Runs c p xs) (hq : Starts c q ys) :
    Starts c (p ++ q) (xs ++ ys) := by
  induction hp with
  | nil => exact hq
  | act _ ih => exact .act ih
  | wait all ready _ ih =>
    rw [List.append_assoc, List.append_assoc]
    exact .wait all ready ih

theorem Starts.append_right (hp : Starts c p xs) (q : List Step) : Starts c (p ++ q) xs := by
  induction hp with
  | nil => exact .nil
  | act _ ih => exact .act ih
  | waiting all => exact .waiting all
  | wait all ready _ ih => exact .wait all ready ih

theorem Runs.starts (h : Runs c p xs) : Starts c p xs := by
  rw [← List.append_nil p, ← List.append_nil xs]
  exact h.append_starts .nil

theorem starts_nil {es : List Operation} (h : Starts c [] es) : es = [] := by
  cases h
  rfl

/-! ## What a plan keeps -/

variable {ι : Type} {act : ι → Operation → ι → Prop} {wait : ι → ι} {i j k : ι}

/-- The plan leads from the mark `i` to the mark `j`, where an operation leads from one mark to
another as `act` has it, and a wait leads to the mark that `wait` gives. -/
inductive Leads (act : ι → Operation → ι → Prop) (wait : ι → ι) : ι → List Step → ι → Prop
  | nil {i : ι} : Leads act wait i [] i
  | act {i i' j : ι} {op : Operation} {p : List Step} (h : act i op i')
      (rest : Leads act wait i' p j) : Leads act wait i (.act op :: p) j
  | wait {i j : ι} {p : List Step} (rest : Leads act wait (wait i) p j) :
      Leads act wait i (.wait :: p) j

theorem Leads.append (hp : Leads act wait i p j) (hq : Leads act wait j q k) :
    Leads act wait i (p ++ q) k := by
  induction hp with
  | nil => exact hq
  | act h _ ih => exact .act h (ih hq)
  | wait _ ih => exact .wait (ih hq)

/-- Every step keeps what holds of the operations so far at its mark. -/
structure Carries (c : Chip) (act : ι → Operation → ι → Prop) (wait : ι → ι)
    (holds : ι → List Operation → Prop) : Prop where
  read : ∀ {i es op}, op.IsRead → holds i es → holds i (es ++ [op])
  ready : ∀ {i es round}, c.ReadyRound round → holds i (es ++ round) →
    holds (wait i) (es ++ round)
  act : ∀ {i j op es}, act i op j → holds i es → holds j (es ++ [op])

variable {holds : ι → List Operation → Prop} {es ops : List Operation}

theorem Carries.reads (h : Carries c act wait holds) (hops : ∀ op ∈ ops, op.IsRead)
    (hi : holds i es) : holds i (es ++ ops) := by
  induction ops generalizing es with
  | nil => rwa [List.append_nil]
  | cons op ops ih =>
    rw [List.append_cons]
    exact ih (fun x hx => hops x (List.mem_cons_of_mem op hx))
      (h.read (hops op List.mem_cons_self) hi)

/-- **A run of the plan** keeps what every step keeps. -/
theorem Carries.runs (h : Carries c act wait holds) (hp : Leads act wait i p j)
    (hr : Runs c p ops) (hi : holds i es) : holds j (es ++ ops) := by
  induction hp generalizing es ops with
  | nil =>
    cases hr
    rwa [List.append_nil]
  | act ha _ ih =>
    cases hr with
    | act rest =>
      rw [List.append_cons]
      exact ih rest (h.act ha hi)
  | wait _ ih =>
    cases hr with
    | wait all ready rest =>
      rw [← List.append_assoc, ← List.append_assoc]
      exact ih rest (h.ready ready (h.reads ready.reads (h.reads all hi)))

/-- **A run that stops anywhere** keeps it at some mark. -/
theorem Carries.starts (h : Carries c act wait holds) (hp : Leads act wait i p j)
    (hs : Starts c p ops) (hi : holds i es) : ∃ m, holds m (es ++ ops) := by
  induction hp generalizing es ops with
  | nil =>
    rw [starts_nil hs, List.append_nil]
    exact ⟨_, hi⟩
  | act ha _ ih =>
    cases hs with
    | nil =>
      rw [List.append_nil]
      exact ⟨_, hi⟩
    | act rest =>
      rw [List.append_cons]
      exact ih rest (h.act ha hi)
  | wait _ ih =>
    cases hs with
    | nil =>
      rw [List.append_nil]
      exact ⟨_, hi⟩
    | waiting all => exact ⟨_, h.reads all hi⟩
    | wait all ready rest =>
      rw [← List.append_assoc, ← List.append_assoc]
      exact ih rest (h.ready ready (h.reads ready.reads (h.reads all hi)))

end Step

/-! ## Operations that note nothing -/

namespace Link

/-- However the operation goes, it notes nothing. -/
structure Silent (x : Link ε α) : Prop where
  operations_eq : ∀ {t r}, Held x t r → t.operations = []

theorem silent_pure (a : α) : (pure a : Link ε α).Silent where
  operations_eq := by
    intro t r ht
    obtain ⟨rfl, -⟩ := held_pure_iff.mp ht
    rfl

theorem silent_fail (e : Error ε) : (fail e : Link ε α).Silent where
  operations_eq := by
    intro t r ht
    obtain ⟨rfl, -⟩ := held_fail_iff.mp ht
    rfl

theorem silent_request {q : Request} (hq : ∀ a : q.Answer ε, Exchange.operation? ⟨q, a⟩ = none) :
    (request q : Link ε _).Silent where
  operations_eq := by
    intro t r ht
    obtain ⟨a, rfl, -⟩ := held_request_iff.mp ht
    simp only [Transcript.operations, List.filterMap_cons, hq a, List.filterMap_nil]

theorem Silent.bind {x : Link ε α} {f : α → Link ε β} (hx : x.Silent) (hf : ∀ a, (f a).Silent) :
    (x >>= f).Silent where
  operations_eq := by
    intro t r h
    rcases held_bind_iff.mp h with ⟨g, h₁, -⟩ | ⟨a, t₁, t₂, h₁, h₂, rfl⟩
    · exact hx.operations_eq h₁
    · rw [Transcript.operations_append, hx.operations_eq h₁, (hf a).operations_eq h₂]
      rfl

theorem Sends.silent {x : Link ε Unit} {bs : List UInt8} (h : x.Sends bs) : x.Silent where
  operations_eq := by
    intro t r ht
    cases r with
    | ok a => exact (h.completes ht).1.operations_eq
    | error f => exact (h.breaks ht).1.operations_eq

end Link

/-! ## Operations that succeed on a bench -/

namespace Link

/-- On an idle bench the operation succeeds, takes nothing of the image and leaves the bench
idle. -/
structure Thrives (o : Options) (x : Link ε α) : Prop where
  succeeds : ∀ {t r} {b b' : Bench}, Held x t r → b.Serves o t b' → b.Idle →
    (∃ a, r = .ok a) ∧ b'.Idle ∧ b'.rest = b.rest

variable {o : Options} {x : Link ε α} {f : α → Link ε β}

theorem Thrives.bind (hx : x.Thrives o) (hf : ∀ a, (f a).Thrives o) : (x >>= f).Thrives o where
  succeeds := by
    intro t r b b' h hs hb
    rcases held_bind_iff.mp h with ⟨g, h₁, -⟩ | ⟨a, t₁, t₂, h₁, h₂, rfl⟩
    · obtain ⟨⟨a, ha⟩, -⟩ := hx.succeeds h₁ hs hb
      exact absurd ha (by simp)
    · obtain ⟨mid, hs₁, hs₂⟩ := Bench.serves_append_iff.mp hs
      obtain ⟨-, hmid, hrest⟩ := hx.succeeds h₁ hs₁ hb
      obtain ⟨hok, hidle, hrest'⟩ := (hf a).succeeds h₂ hs₂ hmid
      exact ⟨hok, hidle, hrest'.trans hrest⟩

theorem thrives_pure (a : α) : (pure a : Link ε α).Thrives o where
  succeeds := by
    intro t r b b' h hs hb
    obtain ⟨rfl, rfl⟩ := held_pure_iff.mp h
    obtain rfl := hs
    exact ⟨⟨a, rfl⟩, hb, rfl⟩

/-- A request that the bench has no part in. -/
theorem thrives_request {q : Request}
    (hq : ∀ a : q.Answer ε, ∀ b b' : Bench, b.Takes o ⟨q, a⟩ b' →
      ∃ ms, b' = { b with waited := ms }) :
    (request q : Link ε _).Thrives o where
  succeeds := by
    intro t r b b' h hs hb
    obtain ⟨a, rfl, rfl⟩ := held_request_iff.mp h
    obtain ⟨ms, rfl⟩ := hq a b b' (Bench.serves_singleton.mp hs)
    exact ⟨⟨a, rfl⟩, ⟨hb.reader, hb.pending⟩, rfl⟩

theorem thrives_log (d : Diagnostic) : (log d : Link ε Unit).Thrives o :=
  thrives_request fun _ b _ h => ⟨b.waited, h⟩

theorem thrives_delay (ms : Word) : (delay ms : Link ε Unit).Thrives o :=
  thrives_request fun _ _ _ h => ⟨_, h⟩

/-- A command that is not answered. -/
theorem Sends.thrives {x : Link ε Unit} {cmd : Command} (h : x.Sends cmd.wire)
    (hc : cmd.changes = true) (hp : cmd.payload.length < UInt32.size) : x.Thrives o where
  succeeds := by
    intro t r b b' ht hs hb
    obtain ⟨rfl, sent⟩ := h.delivers ht hs
    obtain ⟨hreader, hreply, hrest⟩ := sent.wire hb hp
    refine ⟨⟨(), rfl⟩, ⟨hreader, ?_⟩, hrest⟩
    cases cmd with
    | binaryMode => exact absurd hc (by simp [Command.changes])
    | readWord => exact absurd hc (by simp [Command.changes])
    | writeWord => exact hreply
    | writeBlock => exact hreply
    | go => exact hreply

/-- However the operation goes, it does no more than read words; and it succeeds on a bench. -/
structure Looks (o : Options) (x : Link ε α) : Prop extends Thrives o x where
  reads : ∀ {t r}, Held x t r → ∀ op ∈ t.operations, op.IsRead

theorem Silent.reads (h : x.Silent) {t : Transcript ε} {r : Except (Failure ε) α}
    (ht : Held x t r) : ∀ op ∈ t.operations, op.IsRead := by
  intro op hop
  rw [h.operations_eq ht] at hop
  exact absurd hop List.not_mem_nil

theorem Thrives.looks (h : x.Thrives o) (hx : x.Silent) : x.Looks o where
  toThrives := h
  reads := hx.reads

theorem Looks.bind (hx : x.Looks o) (hf : ∀ a, (f a).Looks o) : (x >>= f).Looks o where
  toThrives := hx.toThrives.bind fun a => (hf a).toThrives
  reads := by
    intro t r h op hop
    rcases held_bind_iff.mp h with ⟨g, h₁, -⟩ | ⟨a, t₁, t₂, h₁, h₂, rfl⟩
    · exact hx.reads h₁ op hop
    · rw [Transcript.operations_append] at hop
      exact (List.mem_append.mp hop).elim (hx.reads h₁ op) ((hf a).reads h₂ op)

theorem looks_pure (a : α) : (pure a : Link ε α).Looks o :=
  (thrives_pure a).looks (silent_pure a)

theorem looks_log {d : Diagnostic} (hd : Exchange.operation? (ε := ε) ⟨.log d, ()⟩ = none) :
    (log d : Link ε Unit).Looks o :=
  (thrives_log d).looks (silent_request fun _ => hd)

end Link

/-! ## Operations of the link -/

namespace Link

open Step

/-- The operation notes a run of the plan, which stops early only if it fails. On an idle bench with
`n` bytes of the image to come, it does not fail if the flash controllers cooperate; it takes no
more than these bytes and leaves the bench idle. -/
structure Plans (o : Options) (c : Chip) (n : Nat) (x : Link ε α) (plan : List Step)
    (value : α → Prop) : Prop where
  runs : ∀ {t a}, Held x t (.ok a) → Runs c plan t.operations ∧ value a
  starts : ∀ {t f}, Held x t (.error f) → Starts c plan t.operations
  thrives : ∀ {t r} {b b' : Bench}, Held x t r → b.Serves o t b' → b.Idle → n ≤ b.rest.length →
    Cooperates o c t.operations →
      (∃ a, r = .ok a) ∧ b'.Idle ∧ b.rest.length ≤ n + b'.rest.length

variable {o : Options} {c : Chip} {m n : Nat} {x : Link ε α} {f : α → Link ε β} {p q : List Step}
  {v : α → Prop} {w : β → Prop}

/-- **Plans in a row.** -/
theorem Plans.bind_add (hx : Plans o c m x p v) (hf : ∀ a, v a → Plans o c n (f a) q w) :
    Plans o c (m + n) (x >>= f) (p ++ q) w where
  runs := by
    intro t b h
    rcases held_bind_iff.mp h with ⟨e, -, hr⟩ | ⟨a, t₁, t₂, h₁, h₂, rfl⟩
    · exact absurd hr (by simp)
    · obtain ⟨r₁, ha⟩ := hx.runs h₁
      obtain ⟨r₂, hb⟩ := (hf a ha).runs h₂
      exact ⟨by rw [Transcript.operations_append]; exact r₁.append r₂, hb⟩
  starts := by
    intro t e h
    rcases held_bind_iff.mp h with ⟨g, h₁, -⟩ | ⟨a, t₁, t₂, h₁, h₂, rfl⟩
    · exact (hx.starts h₁).append_right q
    · obtain ⟨r₁, ha⟩ := hx.runs h₁
      rw [Transcript.operations_append]
      exact r₁.append_starts ((hf a ha).starts h₂)
  thrives := by
    intro t r b b' h hs hb hn hco
    rcases held_bind_iff.mp h with ⟨g, h₁, -⟩ | ⟨a, t₁, t₂, h₁, h₂, rfl⟩
    · obtain ⟨⟨a, ha⟩, -⟩ := hx.thrives h₁ hs hb (by omega) hco
      exact absurd ha (by simp)
    · obtain ⟨mid, hs₁, hs₂⟩ := Bench.serves_append_iff.mp hs
      rw [Transcript.operations_append] at hco
      obtain ⟨-, hmid, hrest⟩ := hx.thrives h₁ hs₁ hb (by omega) hco.of_append.1
      obtain ⟨hok, hidle, hrest'⟩ :=
        (hf a (hx.runs h₁).2).thrives h₂ hs₂ hmid (by omega) hco.of_append.2
      exact ⟨hok, hidle, by omega⟩

theorem Plans.bind (hx : Plans o c 0 x p v) (hf : ∀ a, v a → Plans o c n (f a) q w) :
    Plans o c n (x >>= f) (p ++ q) w := by
  have := hx.bind_add hf
  rwa [Nat.zero_add] at this

theorem Plans.bind_cons {s : Step} (hx : Plans o c 0 x [s] v)
    (hf : ∀ a, v a → Plans o c n (f a) q w) : Plans o c n (x >>= f) (s :: q) w :=
  hx.bind hf

theorem Plans.after (hx : Plans o c 0 x [] (fun _ => True)) (hf : ∀ a, Plans o c n (f a) q w) :
    Plans o c n (x >>= f) q w :=
  hx.bind fun a _ => hf a

theorem Plans.more (h : Plans o c m x p v) (hn : m ≤ n) : Plans o c n x p v where
  runs := h.runs
  starts := h.starts
  thrives := by
    intro t r b b' ht hs hb hle hco
    obtain ⟨hok, hidle, hrest⟩ := h.thrives ht hs hb (by omega) hco
    exact ⟨hok, hidle, by omega⟩

theorem Plans.exact_bind {r : Checked α} {a : α} (hr : r = .ok a) (h : Plans o c n (f a) q w) :
    Plans o c n (exact r >>= f) q w := by
  rw [hr, exact_ok, pure_bind]
  exact h

theorem Plans.during {s : Stage} (h : Plans o c n x p v) : Plans o c n (Link.during s x) p v where
  runs := by
    intro t a ht
    obtain ⟨r, hr, e⟩ := held_during_iff.mp ht
    cases r with
    | error g => exact absurd e (by simp)
    | ok b =>
      obtain rfl := Except.ok.inj e
      exact h.runs hr
  starts := by
    intro t f ht
    obtain ⟨r, hr, e⟩ := held_during_iff.mp ht
    cases r with
    | ok b => exact absurd e (by simp)
    | error g => exact h.starts hr
  thrives := by
    intro t r b b' ht hs hb hn hco
    obtain ⟨r', hr, rfl⟩ := held_during_iff.mp ht
    obtain ⟨⟨a, rfl⟩, rest⟩ := h.thrives hr hs hb hn hco
    exact ⟨⟨a, rfl⟩, rest⟩

/-- What is silent and succeeds on a bench has the empty plan. -/
theorem Silent.plans (h : x.Silent) (ht : x.Thrives o) (hv : ∀ t a, Held x t (.ok a) → v a) :
    Plans o c 0 x [] v where
  runs hx := ⟨by rw [h.operations_eq hx]; exact .nil, hv _ _ hx⟩
  starts hx := by rw [h.operations_eq hx]; exact .nil
  thrives hx hs hb _ _ := by
    obtain ⟨hok, hidle, hrest⟩ := ht.succeeds hx hs hb
    exact ⟨hok, hidle, by rw [hrest]; omega⟩

theorem plans_pure {a : α} (h : v a) : Plans (ε := ε) o c 0 (pure a) [] v := by
  refine (silent_pure a).plans (thrives_pure a) fun t b ht => ?_
  obtain rfl := Except.ok.inj (held_pure_iff.mp ht).2
  exact h

theorem plans_log {d : Diagnostic} (hd : Exchange.operation? (ε := ε) ⟨.log d, ()⟩ = none) :
    Plans (ε := ε) o c 0 (log d) [] (fun _ => True) :=
  (silent_request fun _ => hd).plans (thrives_log d) fun _ _ _ => trivial

theorem plans_delay (ms : Word) : Plans (ε := ε) o c 0 (delay ms) [] (fun _ => True) :=
  (silent_request fun _ => rfl).plans (thrives_delay ms) fun _ _ _ => trivial

/-- A diagnostic that notes an operation. -/
theorem plans_note {d : Diagnostic} {op : Operation}
    (hd : Exchange.operation? (ε := ε) ⟨.log d, ()⟩ = some op) :
    Plans (ε := ε) o c 0 (log d) [.act op] (fun _ => True) where
  runs := by
    intro t a ht
    obtain ⟨u, rfl, -⟩ := held_request_iff.mp ht
    have : Transcript.operations [(⟨.log d, u⟩ : Exchange ε)] = [op] := by
      simp only [Transcript.operations, List.filterMap_cons, List.filterMap_nil]
      rw [show Exchange.operation? (ε := ε) ⟨.log d, u⟩ = some op from hd]
    rw [this]
    exact ⟨.act .nil, trivial⟩
  starts := by
    intro t f ht
    obtain ⟨_, -, hr⟩ := held_request_iff.mp ht
    exact absurd hr (by simp)
  thrives hx hs hb _ _ := by
    obtain ⟨hok, hidle, hrest⟩ := (thrives_log d).succeeds hx hs hb
    exact ⟨hok, hidle, by rw [hrest]; omega⟩

/-- A command that is noted and sent. -/
theorem Sends.plans {x : Link ε Unit} {cmd : Command} {d : Diagnostic} {op : Operation}
    (h : x.Sends cmd.wire) (hc : cmd.changes = true) (hp : cmd.payload.length < UInt32.size)
    (hd : Exchange.operation? (ε := ε) ⟨.log d, ()⟩ = some op) :
    Plans o c 0 (log d >>= fun _ => x) [.act op] (fun _ => True) :=
  (plans_note hd).bind_cons fun _ _ => h.silent.plans (h.thrives hc hp) fun _ _ _ => trivial

end Link

end SamFlash
