import SamFlash.Proofs.Identification
import SamFlash.Proofs.Plan
import SamFlash.Proofs.Programming

/-!
# Plans of calls

The plans of what the programmer does, from single words up to whole calls, and that on a bench
whose flash controllers cooperate they come to their end. `Plan.setUp` is `Workspace.setUp`,
`Plan.page` is `Page.write` with the applet's copy and the command behind a wait, `Plan.boot` is
`Programmer.writeBootFlag` with a wait on both sides of the command, and `Plan.program` is a program
call from the moment it has its chip.

A wait is `FlashController.awaitReady`: rounds of status reads with a pause between two of them. It
succeeds only with a round in which every plane is ready and none tells of a locked page, so what is
noted of it are reads that end with such a round; a wait that fails has noted reads alone. Where the
boot flag has been changed, the command for it is therefore the last command, with nothing but reads
behind it, the last of which show every plane ready (`Chip.SelectsLast`).

Identification has no plan, since what it reads depends on what it is told. It only looks
(`Link.Looks`), and on a bench it finds the chip that is there.

Results:
* `FlashController.plans_awaitReady`, `FlashController.reads_awaitReady`: a wait that is over ends
  with a ready round, and every wait reads and does nothing else.
* `Page.plans_writeAll`: all pages take as many bytes of the image as are left.
* `Plan.runs_boot`: behind the command for the boot flag every plane has been seen ready.
* `Programmer.plans_writing`, `Programmer.plans_writeBootFlag`: the plans of the calls.
* `Programmer.reads_findChip`, `Programmer.thrives_findChip`: identification reads words and does
  no more, and finds the chip that is there.
-/

namespace SamFlash

variable {ε α β : Type}

namespace Link

/-- A diagnostic and an error. -/
theorem held_log_fail {d : Diagnostic} {e : Error ε}
    (hd : Exchange.operation? (ε := ε) ⟨.log d, ()⟩ = none) {t : Transcript ε}
    {r : Except (Failure ε) α} (h : Held (log d >>= fun _ => fail e) t r) :
    t.operations = [] ∧ (∀ (o : Options) (b b' : Bench), b.Serves o t b' → b' = b) ∧
      r = .error (.error e) := by
  obtain ⟨a, u, hu, rfl⟩ := held_request_bind h
  obtain ⟨rfl, rfl⟩ := held_fail_iff.mp hu
  have silent : (log d : Link ε Unit).Silent := silent_request fun _ => hd
  exact ⟨silent.operations_eq (held_request_iff.mpr ⟨a, rfl, rfl⟩),
    fun o b b' hs => Bench.serves_singleton.mp hs, rfl⟩

end Link

namespace Monitor

open Link

variable {o : Options} {c : Chip}

theorem plans_writeWord (addr value : Word) :
    Plans (ε := ε) o c 0 (writeWord addr value) [.act (.write addr value)] (fun _ => True) :=
  (sends_wire (c := .writeWord addr value) rfl).plans rfl (Nat.two_pow_pos 32) rfl

theorem plans_go (addr : Word) :
    Plans (ε := ε) o c 0 (go addr) [.act (.branch addr)] (fun _ => True) :=
  (sends_wire (c := .go addr) rfl).plans rfl (Nat.two_pow_pos 32) rfl

theorem plans_writeBlock (addr : Word) {data : List UInt8} (h : data.length < UInt32.size) :
    Plans (ε := ε) o c 0 (writeBlock addr data) [.act (.store addr data.length)]
      (fun _ => True) :=
  (sends_block addr data).plans rfl h rfl

/-- A word is read, or nothing is. -/
theorem held_readWord {o : Options} {addr : Word} {t : Transcript ε}
    {r : Except (Failure ε) Word} (h : Held (readWord o addr) t r) :
    (∃ f, r = .error f ∧ t.operations = []) ∨
      ∃ value, r = .ok value ∧ t.operations = [.read addr value] := by
  cases r with
  | ok value => exact Or.inr ⟨value, rfl, held_readWord_ok h⟩
  | error f =>
    refine Or.inl ⟨f, rfl, ?_⟩
    rcases held_bind_iff.mp h with ⟨_, h₁, -⟩ | ⟨_, t₁, t₂, h₁, h₂, rfl⟩
    · exact ((sends_send _).breaks h₁).1.operations_eq
    rcases held_bind_iff.mp h₂ with ⟨_, h₃, -⟩ | ⟨_, u₁, u₂, -, h₄, rfl⟩
    · rw [Transcript.operations_append, ((sends_send _).completes h₁).1.operations_eq,
        (held_receiveExactly h₃).1.1.operations_eq]
      rfl
    obtain ⟨_, v, hv, rfl⟩ := held_request_bind h₄
    exact absurd (held_pure_iff.mp hv).2 (by simp)

/-- On a bench the reply is the word. -/
theorem looks_readWord (o : Options) (addr : Word) : (readWord o addr : Link ε Word).Looks o where
  reads := by
    intro t r h op hop
    rcases held_readWord h with ⟨_, -, ho⟩ | ⟨value, -, ho⟩
    · rw [ho] at hop
      exact absurd hop List.not_mem_nil
    · rw [ho] at hop
      exact ⟨addr, value, List.mem_singleton.mp hop⟩
  succeeds := by
    intro t r b b' h hs hb
    rcases held_bind_iff.mp h with ⟨_, h₁, -⟩ | ⟨_, t₁, t₂, h₁, h₂, rfl⟩
    · exact absurd ((sends_send _).delivers h₁ hs).1 (by simp)
    obtain ⟨mid, hs₁, hs₂⟩ := Bench.serves_append_iff.mp hs
    obtain ⟨-, sent⟩ := (sends_send _).delivers h₁ hs₁
    rw [← Command.wire_eq_header (c := .readWord addr) rfl] at sent
    obtain ⟨hreader, hreply, hrest⟩ := sent.wire hb (Nat.two_pow_pos 32)
    have received {u : Transcript ε} {res : Except (Failure ε) (List UInt8)} {end_ : Bench}
        (hu : Held (receiveExactly o 4) u res) (hs : mid.Serves o u end_) :
        (∃ bytes, res = .ok bytes) ∧ end_.Idle ∧ end_.rest = b.rest := by
      obtain ⟨rec, hrec, rfl⟩ := held_receiveExactly_iff.mp hu
      have hlen : mid.pending.length = 4 := hreply
      obtain ⟨h1, h2, h3, h4⟩ := (receiving_of_held hrec).delivered hs (by omega) (Nat.zero_le _)
      have herr : rec.error = none := h4.resolve_right fun hx => by omega
      exact ⟨⟨rec.bytes, by rw [whole, herr]⟩, ⟨h1.trans hreader, h2⟩, h3.trans hrest⟩
    rcases held_bind_iff.mp h₂ with ⟨_, h₃, -⟩ | ⟨_, u₁, u₂, h₃, h₄, rfl⟩
    · obtain ⟨⟨_, hok⟩, -⟩ := received h₃ hs₂
      exact absurd hok (by simp)
    obtain ⟨mid', hs₃, hs₄⟩ := Bench.serves_append_iff.mp hs₂
    obtain ⟨-, hidle, hrest'⟩ := received h₃ hs₃
    have last := ((thrives_log (ε := ε) _).bind fun _ => thrives_pure _).succeeds h₄ hs₄ hidle
    exact ⟨last.1, last.2.1, last.2.2.trans hrest'⟩

end Monitor

/-! ## Rounds and waits -/

namespace FlashController

open Link Step

variable {o : Options} {c : Chip} {stage : Stage}

/-- A round reads the status of the planes in order, and finds a plane that is not ready unless all
of them are. -/
theorem held_scanPlanes (hc : c.Sound) {left plane : Nat} {busy : Option Nat}
    (hp : plane + left ≤ c.planes) {t : Transcript ε} {r : Except (Failure ε) (Option Nat)}
    (h : Held (scanPlanes o c stage left plane busy) t r) :
    ∃ statuses, t.operations = c.roundFrom plane statuses ∧
      ∀ found, r = .ok found → statuses.length = left ∧
        (∀ status ∈ statuses, status &&& 4 = 0) ∧
        (found = none ↔ busy = none ∧ ∀ status ∈ statuses, status &&& 1 ≠ 0) := by
  induction left generalizing plane busy t with
  | zero =>
    obtain ⟨rfl, rfl⟩ := held_pure_iff.mp h
    refine ⟨[], rfl, ?_⟩
    rintro _ ⟨⟩
    exact ⟨rfl, by simp, by simp⟩
  | succ left ih =>
    rw [scanPlanes, hc.register_eq (by omega) (by decide), exact_ok, pure_bind] at h
    rcases held_bind_iff.mp h with ⟨f, h₁, rfl⟩ | ⟨status, t₁, t₂, h₁, h₂, rfl⟩
    · rcases Monitor.held_readWord h₁ with ⟨_, -, ho⟩ | ⟨_, hr, -⟩
      · exact ⟨[], ho, by simp⟩
      · exact absurd hr (by simp)
    have ho := Monitor.held_readWord_ok h₁
    by_cases hl : isLocked status = true
    · rw [if_pos hl] at h₂
      obtain ⟨hu, -, rfl⟩ := held_log_fail rfl h₂
      refine ⟨[status], ?_, by simp⟩
      rw [Transcript.operations_append, ho, hu]
      rfl
    · rw [if_neg hl] at h₂
      obtain ⟨statuses, hs, hok⟩ := ih (by omega) h₂
      refine ⟨status :: statuses, by rw [Transcript.operations_append, ho, hs]; rfl, ?_⟩
      intro found hf
      obtain ⟨hlen, hlocks, hready⟩ := hok found hf
      refine ⟨by rw [List.length_cons, hlen], ?_, ?_⟩
      · exact List.forall_mem_cons.mpr
          ⟨isLocked_eq_false_iff.mp (eq_false_of_ne_true hl), hlocks⟩
      · rw [hready, List.forall_mem_cons, ← isReady_iff]
        cases hst : isReady status <;> cases busy <;> simp

theorem toNat_tried {left : Nat} {tried : Word} (h : tried.toNat + (left + 1) < UInt32.size) :
    (tried + 1).toNat = tried.toNat + 1 := by
  refine Word.toNat_add_of_lt ?_
  show tried.toNat + 1 < _
  omega

/-- What is done behind a round: a pause, unless no round is left. -/
def pauseBehind (o : Options) (tried : Word) : Transcript ε :=
  if tried < o.statusRetries then [⟨.delay o.statusDelay, ()⟩] else []

theorem operations_pauseBehind (tried : Word) :
    (pauseBehind o tried : Transcript ε).operations = [] := by
  unfold pauseBehind
  split <;> rfl

theorem serves_pauseBehind {tried : Word} {b b' : Bench}
    (hs : b.Serves o (pauseBehind o tried : Transcript ε) b') (hb : b.Idle) :
    b'.Idle ∧ b'.rest = b.rest := by
  unfold pauseBehind at hs
  split at hs
  · exact ((thrives_delay _).succeeds (held_request_iff.mpr ⟨_, rfl, rfl⟩) hs hb).2
  · obtain rfl := hs
    exact ⟨hb, rfl⟩

/-- Polling ends behind a round that found all planes ready, or that broke off; behind any other
round it goes on, after a pause unless there is no round left. -/
theorem held_pollRounds_succ {left : Nat} {tried : Word} {busy : Option Nat}
    (ht : tried.toNat + (left + 1) < UInt32.size) {t : Transcript ε}
    {r : Except (Failure ε) Unit}
    (h : Held (pollRounds o c stage (left + 1) tried busy) t r) :
    (∃ f, Held (scanPlanes o c stage c.planes 0 none) t (.error f) ∧ r = .error f) ∨
      (Held (scanPlanes o c stage c.planes 0 none) t (.ok none) ∧ r = .ok ()) ∨
        ∃ plane s v, Held (scanPlanes o c stage c.planes 0 none) s (.ok (some plane)) ∧
          Held (pollRounds o c stage left (tried + 1) (some plane)) v r ∧
          t = s ++ (pauseBehind o (tried + 1) ++ v) := by
  rcases held_bind_iff.mp h with ⟨f, h₁, rfl⟩ | ⟨found, s, t₂, h₁, h₂, rfl⟩
  · exact Or.inl ⟨f, h₁, rfl⟩
  cases found with
  | none =>
    obtain ⟨rfl, rfl⟩ := held_pure_iff.mp h₂
    exact Or.inr (Or.inl ⟨by rwa [List.append_nil], rfl⟩)
  | some plane =>
    have hnext := toNat_tried ht
    rw [Option.isSome_some, if_pos rfl, Word.add_eq_ok_iff.mpr hnext, exact_ok, pure_bind] at h₂
    refine Or.inr (Or.inr ⟨plane, s, ?_⟩)
    unfold pauseBehind
    by_cases hr : tried + 1 < o.statusRetries
    · rw [if_pos hr] at h₂ ⊢
      obtain ⟨_, v, hv, rfl⟩ := held_request_bind h₂
      exact ⟨v, h₁, hv, rfl⟩
    · rw [if_neg hr] at h₂ ⊢
      exact ⟨t₂, h₁, h₂, rfl⟩

/-- Polling ends well only with a ready round. -/
theorem held_pollRounds (hc : c.Sound) {left : Nat} {tried : Word} {busy : Option Nat}
    (ht : tried.toNat + left < UInt32.size) {t : Transcript ε} {r : Except (Failure ε) Unit}
    (h : Held (pollRounds o c stage left tried busy) t r) :
    (∀ op ∈ t.operations, op.IsRead) ∧
      (r = .ok () → ∃ reads round, t.operations = reads ++ round ∧ c.ReadyRound round) := by
  have reads {plane : Nat} {statuses : List Word} :
      ∀ op ∈ c.roundFrom plane statuses, op.IsRead := fun _ => Chip.isRead_of_mem_roundFrom
  induction left generalizing tried busy t with
  | zero =>
    obtain ⟨hu, -, rfl⟩ := held_log_fail rfl h
    rw [hu]
    exact ⟨by simp, by simp⟩
  | succ left ih =>
    rcases held_pollRounds_succ ht h with ⟨f, h₁, rfl⟩ | ⟨h₁, rfl⟩ |
      ⟨plane, s, v, h₁, hv, rfl⟩
    · obtain ⟨statuses, hs, -⟩ := held_scanPlanes hc (by omega) h₁
      rw [hs]
      exact ⟨reads, by simp⟩
    · obtain ⟨statuses, hs, hok⟩ := held_scanPlanes hc (by omega) h₁
      obtain ⟨hlen, hlocks, hready⟩ := hok none rfl
      rw [hs]
      refine ⟨reads, fun _ => ⟨[], _, rfl, statuses, hlen, fun status hst => ?_, rfl⟩⟩
      exact ⟨(hready.mp rfl).2 status hst, hlocks status hst⟩
    · obtain ⟨statuses, hs, -⟩ := held_scanPlanes hc (by omega) h₁
      have hnext := toNat_tried ht
      obtain ⟨hall, hround⟩ := ih (by omega) hv
      rw [Transcript.operations_append, Transcript.operations_append, hs, operations_pauseBehind,
        List.nil_append]
      refine ⟨fun op hop => (List.mem_append.mp hop).elim (reads op) (hall op), fun hr => ?_⟩
      obtain ⟨more, round, he, hready⟩ := hround hr
      exact ⟨c.roundFrom 0 statuses ++ more, round, by rw [he, List.append_assoc], hready⟩

/-- On a bench where no page is locked a round is read to its end. -/
theorem thrives_scanPlanes (hc : c.Sound) {left plane : Nat} {busy : Option Nat}
    (hp : plane + left ≤ c.planes) {t : Transcript ε} {r : Except (Failure ε) (Option Nat)}
    {b b' : Bench} (h : Held (scanPlanes o c stage left plane busy) t r) (hs : b.Serves o t b')
    (hb : b.Idle) (hu : c.Unlocked t.operations) :
    (∃ found, r = .ok found) ∧ b'.Idle ∧ b'.rest = b.rest := by
  induction left generalizing plane busy t b with
  | zero =>
    obtain ⟨rfl, rfl⟩ := held_pure_iff.mp h
    obtain rfl := hs
    exact ⟨⟨_, rfl⟩, hb, rfl⟩
  | succ left ih =>
    rw [scanPlanes, hc.register_eq (by omega) (by decide), exact_ok, pure_bind] at h
    rcases held_bind_iff.mp h with ⟨f, h₁, rfl⟩ | ⟨status, t₁, t₂, h₁, h₂, rfl⟩
    · obtain ⟨⟨_, hok⟩, -⟩ := (Monitor.looks_readWord o _).succeeds h₁ hs hb
      exact absurd hok (by simp)
    obtain ⟨mid, hs₁, hs₂⟩ := Bench.serves_append_iff.mp hs
    obtain ⟨-, hmid, hrest⟩ := (Monitor.looks_readWord o _).succeeds h₁ hs₁ hb
    rw [Transcript.operations_append, Monitor.held_readWord_ok h₁] at hu
    have hl := isLocked_eq_false_iff.mpr (hu plane (by omega) status List.mem_cons_self)
    rw [hl, if_neg Bool.false_ne_true] at h₂
    obtain ⟨hok, hidle, hrest'⟩ := ih (by omega) h₂ hs₂ hmid
      fun plane' hp' v hv => hu plane' hp' v (List.mem_cons_of_mem _ hv)
    exact ⟨hok, hidle, hrest'.trans hrest⟩

/-- On a bench where no page is locked polling ends well, or after as many rounds as there were to
do, none of them ready. -/
theorem thrives_pollRounds (hc : c.Sound) {left : Nat} {tried : Word} {busy : Option Nat}
    (ht : tried.toNat + left < UInt32.size) {t : Transcript ε} {r : Except (Failure ε) Unit}
    {b b' : Bench} (h : Held (pollRounds o c stage left tried busy) t r) (hs : b.Serves o t b')
    (hb : b.Idle) (hu : c.Unlocked t.operations) :
    b'.Idle ∧ b'.rest = b.rest ∧ (r = .ok () ∨ ∃ rounds : List (List Operation),
      t.operations = rounds.flatten ∧ rounds.length = left ∧
        ∀ round ∈ rounds, c.Round round ∧ ¬ c.ReadyRound round) := by
  induction left generalizing tried busy t b with
  | zero =>
    obtain ⟨ho, hserves, rfl⟩ := held_log_fail rfl h
    obtain rfl := hserves o b b' hs
    exact ⟨hb, rfl, Or.inr ⟨[], ho, rfl, by simp⟩⟩
  | succ left ih =>
    rcases held_pollRounds_succ ht h with ⟨f, h₁, rfl⟩ | ⟨h₁, rfl⟩ |
      ⟨plane, s, v, h₁, hv, rfl⟩
    · obtain ⟨⟨_, hok⟩, -⟩ := thrives_scanPlanes hc (by omega) h₁ hs hb hu
      exact absurd hok (by simp)
    · obtain ⟨-, hidle, hrest⟩ := thrives_scanPlanes hc (by omega) h₁ hs hb hu
      exact ⟨hidle, hrest, Or.inl rfl⟩
    obtain ⟨mid, hs₁, hs₂⟩ := Bench.serves_append_iff.mp hs
    obtain ⟨mid', hs₃, hs₄⟩ := Bench.serves_append_iff.mp hs₂
    rw [Transcript.operations_append, Transcript.operations_append, operations_pauseBehind,
      List.nil_append] at hu ⊢
    have hu₁ : c.Unlocked s.operations := fun plane hp w hw =>
      hu plane hp w (List.mem_append_left _ hw)
    have hu₂ : c.Unlocked v.operations := fun plane hp w hw =>
      hu plane hp w (List.mem_append_right _ hw)
    obtain ⟨-, hmid, hrest⟩ := thrives_scanPlanes hc (by omega) h₁ hs₁ hb hu₁
    obtain ⟨hmid', hrest'⟩ := serves_pauseBehind hs₃ hmid
    have hround : c.Round s.operations ∧ ¬ c.ReadyRound s.operations := by
      obtain ⟨statuses, ho, hok⟩ := held_scanPlanes hc (by omega) h₁
      obtain ⟨hlen, -, hready⟩ := hok _ rfl
      refine ⟨⟨statuses, hlen, ho⟩, ?_⟩
      rintro ⟨statuses', -, hall, ho'⟩
      obtain rfl := Chip.roundFrom_inj (ho.symm.trans ho')
      exact absurd (hready.mpr ⟨rfl, fun status hst => (hall status hst).1⟩) (by simp)
    have hnext := toNat_tried ht
    obtain ⟨hidle, hrest'', hend⟩ := ih (by omega) hv hs₄ hmid' hu₂
    refine ⟨hidle, hrest''.trans (hrest'.trans hrest), hend.imp_right ?_⟩
    rintro ⟨rounds, ho, hlen, hall⟩
    refine ⟨s.operations :: rounds, by rw [List.flatten_cons, ho], by simp [hlen], ?_⟩
    intro round hmem
    rcases List.mem_cons.mp hmem with rfl | hmem
    · exact hround
    · exact hall round hmem

/-- **A wait that is over** ends with a ready round. -/
theorem plans_awaitReady (hc : c.Sound) :
    Plans (ε := ε) o c 0 (awaitReady o c stage) [.wait] (fun _ => True) := by
  have fits : (0 : Word).toNat + o.statusRetries.toNat < UInt32.size := by
    have := o.statusRetries.toNat_lt_size
    simpa using this
  constructor
  · intro t a ht
    obtain ⟨all, hround⟩ := held_pollRounds hc fits ht
    obtain ⟨reads, round, he, hready⟩ := hround rfl
    refine ⟨?_, trivial⟩
    rw [he, ← List.append_nil round]
    exact .wait (fun op hop => all op (he ▸ List.mem_append_left _ hop)) hready .nil
  · intro t f ht
    exact .waiting (held_pollRounds hc fits ht).1
  · intro t r b b' ht hs hb _ hco
    obtain ⟨hidle, hrest, rfl | ⟨rounds, ho, hlen, hall⟩⟩ :=
      thrives_pollRounds hc fits ht hs hb hco.unlocked
    · exact ⟨⟨(), rfl⟩, hidle, by rw [hrest]; omega⟩
    -- a wait that gives up has done all its rounds, and one of so many is ready
    · obtain ⟨round, hmem, hready⟩ := hco.ready [] rounds [] (by simpa using ho) hlen
        fun round hmem => (hall round hmem).1
      exact absurd hready (hall round hmem).2

/-- What is read in a wait that is over: at last, that every plane is ready. -/
theorem reads_awaitReady (hc : c.Sound) {t : Transcript ε}
    (h : Held (awaitReady o c stage) t (.ok ())) :
    ∃ reads round, t.operations = reads ++ round ∧ (∀ op ∈ reads, op.IsRead) ∧
      c.ReadyRound round := by
  have runs := ((plans_awaitReady hc).runs h).1
  generalize t.operations = ops at runs ⊢
  cases runs with
  | @wait reads round _ _ all ready rest =>
    cases rest
    exact ⟨reads, round, by rw [List.append_nil], all, ready⟩

theorem plans_writeRegister (hc : c.Sound) {plane : Nat} (hp : plane < c.planes)
    {offset : Word} (ho : offset.toNat < 0x200) (value : Word) :
    Plans (ε := ε) o c 0 (writeRegister c plane offset value)
      [.act (.write (c.registerAddress plane offset) value)] (fun _ => True) :=
  Plans.exact_bind (hc.register_eq hp ho) (Monitor.plans_writeWord _ _)

theorem plans_command (hc : c.Sound) {plane : Nat} (hp : plane < c.planes)
    (cmd : FlashCommand) (arg : Word) :
    Plans (ε := ε) o c 0 (command c plane cmd arg)
      [.act (.write (c.registerAddress plane commandOffset) (cmd.word arg))] (fun _ => True) :=
  (plans_log rfl).after fun _ => plans_writeRegister hc hp (by decide) _

end FlashController

/-! ## The plan of a program call -/

/-- The command for the boot flag is the last one: reads follow, and the last of them show every
plane ready. -/
def Chip.SelectsLast (c : Chip) (cmd : FlashCommand) (ops : List Operation) : Prop :=
  ∃ front reads round, ops = front ++
      .write (c.registerAddress 0 FlashController.commandOffset) (cmd.word c.bootFlagArgument) ::
        (reads ++ round) ∧
    (∀ op ∈ reads, op.IsRead) ∧ c.ReadyRound round

theorem Chip.SelectsLast.append_left {c : Chip} {cmd : FlashCommand} {ops : List Operation}
    (h : c.SelectsLast cmd ops) (before : List Operation) : c.SelectsLast cmd (before ++ ops) := by
  obtain ⟨front, reads, round, rfl, ends⟩ := h
  exact ⟨before ++ front, reads, round, (List.append_assoc _ _ _).symm, ends⟩

namespace Plan

/-- The applet, its constant parameters and the programming mode of the planes. -/
def setUp (c : Chip) : List Step :=
  [.act (.store c.ramUserBase Applet.code.length),
    .act (.write (c.slotAddress Applet.wordsOffset) (Word.ofSize (c.pageSize / 4))),
    .act (.write (c.slotAddress Applet.stackOffset) c.ramStackTop)] ++
  (List.range' 0 c.planes).map fun plane => .act (.write
    (c.registerAddress plane FlashController.modeOffset) FlashController.programmingMode)

/-- A page: the copy and the commit come after a wait. -/
def page (c : Chip) (page : Nat) : List Step :=
  [.act (.store (c.bufferAddress page) c.pageSize),
    .act (.write (c.slotAddress Applet.destinationOffset) (c.flashAddress page)),
    .act (.write (c.slotAddress Applet.sourceOffset) (c.bufferAddress page)),
    .wait,
    .act (.write (c.slotAddress Applet.resetOffset) (c.ramUserBase + 1)),
    .act (.branch (c.slotAddress Applet.stackOffset)),
    .act (.write (c.registerAddress (c.planeOf page) FlashController.commandOffset)
      (FlashCommand.eraseWritePage.word (Word.ofSize (c.pageOnPlane page))))]

/-- `n` pages from `first` on. -/
def pages (c : Chip) (first n : Nat) : List Step := (List.range' first n).flatMap (page c)

theorem pages_succ (c : Chip) (first n : Nat) :
    pages c first (n + 1) = page c first ++ pages c (first + 1) n := by
  simp only [pages, List.range'_succ, List.flatMap_cons]

/-- The boot flag, between two waits. -/
def boot (c : Chip) (fromFlash : Bool) : List Step :=
  [.wait,
    .act (.write (c.registerAddress 0 FlashController.commandOffset)
      ((if fromFlash then FlashCommand.setGpnvmBit else .clearGpnvmBit).word c.bootFlagArgument)),
    .wait]

/-- The boot flag is followed by a wait, which ends with a ready round. -/
theorem runs_boot {c : Chip} {fromFlash : Bool} {ops : List Operation}
    (h : Step.Runs c (boot c fromFlash) ops) :
    c.SelectsLast (Script.bootCommand fromFlash) ops := by
  cases h with
  | @wait before ready _ _ _ _ rest =>
    cases rest with
    | act rest =>
      cases rest with
      | @wait reads round _ _ all settled rest =>
        cases rest
        refine ⟨before ++ ready, reads, round, ?_, all, settled⟩
        rw [List.append_nil, List.append_assoc]
        rfl

/-- What is done with the chip in a program call of `n` pages. -/
def program (o : Options) (c : Chip) (n : Nat) : List Step :=
  setUp c ++ (pages c 0 n ++ if o.keepBootSource then [.wait] else boot c true)

end Plan

namespace Applet

open Link

variable {o : Options} {c : Chip}

theorem plans_setSlot (hc : c.Sound) {d : Diagnostic}
    (hd : Exchange.operation? (ε := ε) ⟨.log d, ()⟩ = none) {offset : Word}
    (ho : offset.toNat ≤ 0x34) (value : Word) :
    Plans (ε := ε) o c 0 (log d >>= fun _ => (on c).setSlot offset value)
      [.act (.write (c.slotAddress offset) value)] (fun _ => True) :=
  (plans_log hd).after fun _ => Plans.exact_bind (hc.slot_eq ho) (Monitor.plans_writeWord _ _)

theorem plans_setWords (hc : c.Sound) (value : Word) :
    Plans (ε := ε) o c 0 ((on c).setWords value) [.act (.write (c.slotAddress wordsOffset) value)]
      (fun _ => True) :=
  plans_setSlot hc rfl (by decide) value

theorem plans_setStack (hc : c.Sound) (value : Word) :
    Plans (ε := ε) o c 0 ((on c).setStack value) [.act (.write (c.slotAddress stackOffset) value)]
      (fun _ => True) :=
  plans_setSlot hc rfl (by decide) value

theorem plans_setSource (hc : c.Sound) (value : Word) :
    Plans (ε := ε) o c 0 ((on c).setSource value) [.act (.write (c.slotAddress sourceOffset) value)]
      (fun _ => True) :=
  plans_setSlot hc rfl (by decide) value

theorem plans_setDestination (hc : c.Sound) (value : Word) :
    Plans (ε := ε) o c 0 ((on c).setDestination value)
      [.act (.write (c.slotAddress destinationOffset) value)] (fun _ => True) :=
  plans_setSlot hc rfl (by decide) value

theorem plans_run (hc : c.Sound) :
    Plans (ε := ε) o c 0 ((on c).run)
      [.act (.write (c.slotAddress resetOffset) (c.ramUserBase + 1)),
        .act (.branch (c.slotAddress stackOffset))] (fun _ => True) := by
  refine (plans_log rfl).after fun _ => ?_
  refine Plans.exact_bind (hc.slot_eq (by decide)) ?_
  refine Plans.exact_bind (entry_eq hc) ?_
  refine (Monitor.plans_writeWord _ _).bind_cons fun _ _ => ?_
  exact Plans.exact_bind (hc.slot_eq (by decide)) (Monitor.plans_go _)

end Applet

namespace Workspace

open Link

variable {o : Options} {c : Chip}

theorem plans_prepareFrom (hc : c.Sound) (left plane : Nat) (hp : plane + left ≤ c.planes) :
    Plans (ε := ε) o c 0 (prepareFrom c left plane)
      ((List.range' plane left).map fun plane => .act (.write
        (c.registerAddress plane FlashController.modeOffset) FlashController.programmingMode))
      (fun _ => True) := by
  induction left generalizing plane with
  | zero => exact plans_pure trivial
  | succ left ih =>
    rw [List.range'_succ, List.map_cons]
    exact (FlashController.plans_writeRegister hc (by omega) (by decide) _).bind_cons
      fun _ _ => ih (plane + 1) (by omega)

theorem plans_setUp (hc : c.Sound) :
    Plans (ε := ε) o c 0 (setUp c) (Plan.setUp c) (fun w => w = ofPage c 0) := by
  unfold Plan.setUp
  have load : Plans (ε := ε) o c 0 (Applet.load c.ramUserBase)
      [.act (.store c.ramUserBase Applet.code.length)] (fun a => a = Applet.on c) :=
    (plans_log rfl).after fun _ =>
      (Monitor.plans_writeBlock _ (by decide)).bind_cons fun _ _ => plans_pure rfl
  refine load.bind_cons fun applet ha => ?_
  subst ha
  refine (Applet.plans_setWords hc _).bind_cons fun _ _ => ?_
  refine (Applet.plans_setStack hc _).bind_cons fun _ _ => ?_
  have last : Plans (ε := ε) o c 0
      (exact (Word.add (Applet.on c).base Applet.size) >>= fun behind =>
        exact (Staging.ofBase behind c.pageSize) >>= fun buffers =>
          pure ⟨Applet.on c, buffers⟩)
      [] (fun w => w = ofPage c 0) :=
    Plans.exact_bind (behind_eq hc) (Plans.exact_bind (buffers_eq hc) (plans_pure rfl))
  have rest := (plans_prepareFrom (ε := ε) hc c.planes 0 (by omega)).bind fun _ _ => last
  rwa [List.append_nil] at rest

end Workspace

/-- On a bench whose image has the bytes, they are read. -/
theorem Image.thrives_read {o : Options} {space limit : Nat} {t : Transcript ε}
    {r : Except (Failure ε) (List UInt8)} {b b' : Bench} (h : Link.Held (read space limit) t r)
    (hs : b.Serves o t b') (hb : b.Idle) (hn : min space limit ≤ b.rest.length) :
    (∃ data, r = .ok data ∧ data.length = min space limit) ∧ b'.Idle ∧
      b.rest.length ≤ min space limit + b'.rest.length := by
  replace h := reading_of_held h
  induction h generalizing b with
  | full hz =>
    obtain rfl := hs
    exact ⟨⟨[], rfl, by simp; omega⟩, hb, by omega⟩
  | failed _ _ d kind hk =>
    obtain ⟨_, ⟨data, hd, -⟩, -⟩ := hs
    exact absurd (hd.symm.trans hk) (by simp)
  | ended room wanted d data hd none =>
    obtain ⟨_, ⟨data', hd', -, hempty, -⟩, -⟩ := hs
    obtain rfl := Except.ok.inj (hd.symm.trans hd')
    have hrest : b.rest = [] := (hempty none).resolve_left (by omega)
    rw [hrest, List.length_nil] at hn
    omega
  | @piece space limit _ _ _ _ d data hd some _ ih =>
    obtain ⟨mid, ⟨data', hd', hrest, -, hmid⟩, hs⟩ := hs
    obtain rfl := Except.ok.inj (hd.symm.trans hd')
    have hlen := congrArg List.length hrest
    rw [List.length_append] at hlen
    have hle := data.property
    have hpos := List.length_pos_iff.mpr some
    have hidle : mid.Idle := by
      rw [hmid]
      exact ⟨hb.reader, hb.pending⟩
    obtain ⟨⟨more, rfl, hmore⟩, hend, htook⟩ := ih hs hidle (by omega)
    exact ⟨⟨data.val ++ more, rfl, by rw [List.length_append]; omega⟩, hend, by omega⟩

namespace Page

open Link

variable {o : Options} {c : Chip} {observed : Bool}

theorem plans_write (hc : c.Sound) {page : Nat} (hp : page < c.pages) {data : List UInt8}
    (hd : data.length = c.pageSize) :
    Plans (ε := ε) o c 0 (write o c (Workspace.ofPage c page) page data) (Plan.page c page)
      (fun w => w = Workspace.ofPage c (page + 1)) := by
  have buffer : (Workspace.ofPage c page).buffers.current = c.bufferAddress page :=
    Chip.staging_eq c page
  have fits : data.length < UInt32.size := hd ▸ hc.pageSize_lt
  unfold write Plan.page
  rw [if_neg (by omega), ← hd]
  simp only [buffer]
  refine Plans.exact_bind (hc.pageAddress_eq hp) ((plans_log rfl).after fun _ => ?_)
  refine (Monitor.plans_writeBlock _ fits).bind_cons fun _ _ => ?_
  refine (Applet.plans_setDestination hc _).bind_cons fun _ _ => ?_
  refine (Applet.plans_setSource hc _).bind_cons fun _ _ => ?_
  refine (FlashController.plans_awaitReady hc).bind_cons fun _ _ => ?_
  have last : Plans (ε := ε) o c 0 (FlashController.command c (c.planeOf page) .eraseWritePage
      (Word.ofSize (c.pageOnPlane page)) >>= fun _ => pure
        { Workspace.ofPage c page with buffers := (Workspace.ofPage c page).buffers.swap })
      [_] (fun w => w = Workspace.ofPage c (page + 1)) :=
    (FlashController.plans_command hc (hc.planeOf_lt hp) _ _).bind_cons fun _ _ =>
      plans_pure (Workspace.ofPage_succ c page)
  exact (Applet.plans_run hc).bind fun _ _ =>
    Plans.exact_bind (hc.planeForPage_eq page) last

theorem plans_tell (p : Progress) : Plans (ε := ε) o c 0 (tell observed p) [] (fun _ => True) := by
  unfold tell
  by_cases ho : observed = true
  · rw [if_pos ho]
    refine Silent.plans (silent_request fun _ => rfl) ?_ fun _ _ _ => trivial
    exact thrives_request fun _ b _ h => ⟨b.waited, h⟩
  · rw [if_neg ho]
    exact plans_pure trivial

/-- A page takes its bytes, of those that are left. -/
theorem plans_next {size page read : Nat} (hread : read ≤ size) (hsize : size < UInt64.size) :
    Plans (ε := ε) o c (min c.pageSize (size - read)) (next c size page read) []
      (fun x => x.1 = read + min c.pageSize (size - read) ∧ x.2.length = c.pageSize) where
  runs := by
    intro t x ht
    have drew := drew_next hread hsize ht
    obtain ⟨hlen, rfl⟩ := drew.page x rfl
    rw [drew.operations, hlen]
    exact ⟨.nil, rfl, Image.padded_length (by omega)⟩
  starts := by
    intro t f ht
    rw [(drew_next hread hsize ht).operations]
    exact .nil
  thrives := by
    intro t r b b' ht hs hb hn _
    rcases held_bind_iff.mp ht with ⟨f, h₁, rfl⟩ | ⟨data, t₁, t₂, h₁, h₂, rfl⟩
    · obtain ⟨⟨_, hok, -⟩, -⟩ := Image.thrives_read h₁ hs hb hn
      exact absurd hok (by simp)
    obtain ⟨mid, hs₁, hs₂⟩ := Bench.serves_append_iff.mp hs
    obtain ⟨⟨_, hok, hlen⟩, hmid, hrest⟩ := Image.thrives_read h₁ hs₁ hb hn
    obtain rfl := Except.ok.inj hok
    have hadd : Size.add read data.length = .ok (read + data.length) :=
      Size.add_eq_ok_iff.mpr ⟨rfl, by omega⟩
    rw [hadd, exact_ok, pure_bind, if_neg (by omega)] at h₂
    have ending : Thrives (ε := ε) o (do
        if data.length < c.pageSize then
          let missing ← exact (Size.sub c.pageSize data.length)
          log (.padding page missing)
        return (read + data.length, Image.padded c.pageSize data)) := by
      by_cases hshort : data.length < c.pageSize
      · have hsub : Size.sub c.pageSize data.length = .ok (c.pageSize - data.length) :=
          Size.sub_eq_ok_iff.mpr ⟨rfl, by omega⟩
        simp only [if_pos hshort, hsub, exact_ok, pure_bind]
        exact (thrives_log _).bind fun _ => thrives_pure _
      · simp only [if_neg hshort]
        exact thrives_pure _
    obtain ⟨hok', hidle, hrest'⟩ := ending.succeeds h₂ hs₂ hmid
    exact ⟨hok', hidle, by rw [hrest']; exact hrest⟩

/-- **All pages** take as many bytes of the image as are left. -/
theorem plans_writeAll (hc : c.Sound) {size left page read : Nat} (hp : page + left ≤ c.pages)
    (hread : read ≤ size) (hsize : size < UInt64.size) :
    Plans (ε := ε) o c (size - read)
      (writeAll o c size observed left page read (Workspace.ofPage c page))
      (Plan.pages c page left) (fun _ => True) := by
  induction left generalizing page read with
  | zero => exact (plans_pure trivial).more (Nat.zero_le _)
  | succ left ih =>
    rw [Plan.pages_succ, show size - read =
      min c.pageSize (size - read) + (size - (read + min c.pageSize (size - read))) by omega]
    refine (plans_next hread hsize).bind_add (p := []) fun x hx => ?_
    obtain ⟨read', data⟩ := x
    obtain ⟨rfl, hdata⟩ := hx
    refine (plans_write hc (show page < c.pages by omega) hdata).during.bind fun w hw => ?_
    subst hw
    refine Plans.exact_bind (hc.nextPage_eq (by omega)) ((plans_tell _).after fun _ => ?_)
    exact ih (by omega) (by omega)

end Page

namespace Programmer

open Link

variable {o : Options} {c : Chip} {size : Nat} {observed : Bool}

/-- What changes the boot flag. -/
def changeFlag (o : Options) (c : Chip) (fromFlash : Bool) : Link ε Unit := do
  FlashController.awaitReady o c .bootFlag
  FlashController.command c 0 (if fromFlash then .setGpnvmBit else .clearGpnvmBit)
    c.bootFlagArgument
  FlashController.awaitReady o c .bootFlag

theorem plans_changeFlag (hc : c.Sound) (fromFlash : Bool) :
    Plans (ε := ε) o c 0 (changeFlag o c fromFlash) (Plan.boot c fromFlash) (fun _ => True) :=
  (FlashController.plans_awaitReady hc).bind_cons fun _ _ =>
    (FlashController.plans_command hc hc.planes_pos _ _).bind_cons fun _ _ =>
      FlashController.plans_awaitReady hc

theorem plans_writeBootFlag (hc : c.Sound) (fromFlash : Bool) :
    Plans (ε := ε) o c 0 (writeBootFlag o c fromFlash) (Plan.boot c fromFlash) (fun _ => True) := by
  refine (plans_log rfl).after fun _ => ?_
  rw [← List.append_nil (Plan.boot c fromFlash)]
  exact (plans_changeFlag hc fromFlash).during.bind fun _ _ =>
    (plans_log rfl).after fun _ => plans_delay _

/-- **The plan of a program call** that has the chip and an image that fits. -/
theorem plans_writing (hc : c.Sound) (hpos : 0 < size) (hs : size ≤ c.pages * c.pageSize) :
    Plans (ε := ε) o c size (writing o c size observed) (Plan.program o c (c.pagesFor size))
      (fun _ => True) := by
  have hn := pagesFor_pos hc hpos
  have hrem := remains_zero hc hs
  have ending : Plans (ε := ε) o c 0 (closing o c (c.pagesFor size) observed)
      (if o.keepBootSource then [.wait] else Plan.boot c true) (fun _ => True) := by
    have tail : Plans (ε := ε) o c 0
        (Page.tell observed .finish >>= fun _ => log .programmingComplete)
        [] (fun _ => True) := (Page.plans_tell _).after fun _ => plans_log rfl
    unfold closing
    by_cases hk : o.keepBootSource = true
    · have hsub : Size.sub (c.pagesFor size) 1 = .ok (c.pagesFor size - 1) :=
        Size.sub_eq_ok_iff.mpr ⟨rfl, hn⟩
      simp only [if_pos hk]
      exact Plans.exact_bind hsub
        ((FlashController.plans_awaitReady hc).during.bind_cons fun _ _ => tail)
    · simp only [if_neg hk]
      rw [← List.append_nil (Plan.boot c true)]
      exact (plans_writeBootFlag hc true).bind fun _ _ => tail
  rw [writing_eq hc hpos hs, writePages_eq, Plan.program]
  have begin : Plans (ε := ε) o c 0 (opening c size (c.pagesFor size) observed) (Plan.setUp c)
      (fun w => w = Workspace.ofPage c 0) := by
    rw [← List.append_nil (Plan.setUp c)]
    refine (plans_log rfl).after fun _ => (Workspace.plans_setUp hc).bind fun w hw => ?_
    exact (Page.plans_tell _).after fun _ => plans_pure hw
  refine begin.bind fun w hw => ?_
  subst hw
  refine (Page.plans_writeAll hc hrem.pages (Nat.zero_le _) hrem.fits).bind_add (n := 0) ?_
  exact fun _ _ => ending

/-- Nothing is noted for an image that is empty or too large, and only the empty one is fine. -/
theorem held_writing_nil (hc : c.Sound) (hs : size = 0 ∨ c.pages * c.pageSize < size)
    {t : Transcript ε} {r : Except (Failure ε) Unit}
    (h : Link.Held (writing o c size observed) t r) :
    t.operations = [] ∧ (r = .ok () → size = 0) := by
  rcases hs with rfl | hs
  · rw [writing, pagesOf_eq hc (Nat.zero_le _), pure_bind, pagesFor_zero hc, if_pos rfl] at h
    exact ⟨(silent_request fun _ => rfl).operations_eq h, fun _ => rfl⟩
  · rw [writing, pagesOf_eq_of_lt hc hs] at h
    rcases Link.held_bind_iff.mp h with ⟨f, h₁, rfl⟩ | ⟨_, t₁, t₂, h₁, -, -⟩
    · exact ⟨(held_log_fail rfl h₁).1, by simp⟩
    · exact absurd (held_log_fail rfl h₁).2.2 (by simp)

end Programmer

/-! ## Identification -/

namespace Monitor

open Link

/-- The acknowledgement may be missing. -/
theorem looks_handshake (o : Options) : (handshake o : Link ε Unit).Looks o := by
  have asks : (send Command.binaryMode.header >>= fun _ => flush : Link ε Unit).Sends
      Command.binaryMode.wire := sends_wire (c := .binaryMode) rfl
  rw [handshake_eq]
  refine (looks_log rfl).bind fun _ => ⟨⟨?_⟩, ?_⟩
  · intro t r b b' h hs hb
    rcases held_bind_iff.mp h with ⟨_, h₁, -⟩ | ⟨_, t₁, t₂, h₁, h₂, rfl⟩
    · exact absurd (asks.delivers h₁ hs).1 (by simp)
    obtain ⟨mid, hs₁, hs₂⟩ := Bench.serves_append_iff.mp hs
    obtain ⟨hreader, hreply, hrest⟩ :=
      (asks.delivers h₁ hs₁).2.wire hb (Nat.two_pow_pos 32)
    obtain ⟨ack, u₁, u₂, hack, h₄, rfl⟩ := held_lift_bind h₂
    obtain ⟨mid', hs₃, hs₄⟩ := Bench.serves_append_iff.mp hs₂
    obtain ⟨h1, h2, h3, h4⟩ := (receiving_of_held hack).delivered hs₃ hreply (Nat.zero_le _)
    have last : (acknowledged ack : Link ε Unit).Thrives o := by
      unfold acknowledged
      rcases h4 with herr | ⟨-, expected, received, herr⟩
      · rw [herr]
        exact thrives_pure ()
      · rw [herr]
        exact thrives_log _
    obtain ⟨hok, hidle, hrest'⟩ := last.succeeds h₄ hs₄ ⟨h1.trans hreader, h2⟩
    exact ⟨hok, hidle, hrest'.trans (h3.trans hrest)⟩
  · intro t r h
    have silent (ack : Reception ε) : (acknowledged ack : Link ε Unit).Silent := by
      unfold acknowledged
      split
      · exact silent_pure ()
      · exact silent_request fun _ => rfl
      · exact silent_fail _
    have receives : Silent (ε := ε) (ExceptT.lift (receive o Command.acknowledgementLength)) := by
      refine ⟨fun ht => ?_⟩
      obtain ⟨ack, ha, -⟩ := held_lift_iff.mp ht
      exact (receiving_of_held ha).quiet.1.1.operations_eq
    exact (asks.silent.bind fun _ => receives.bind silent).reads h

theorem looks_chipId (o : Options) : (chipId o : Link ε Word).Looks o := by
  refine (looks_readWord o _).bind fun vector => ?_
  by_cases hv : isArmVector vector = true
  · simp only [if_pos hv]
    exact (looks_log rfl).bind fun _ => looks_readWord o _
  · simp only [if_neg hv]
    refine (looks_log rfl).bind fun _ => (looks_readWord o _).bind fun id => ?_
    by_cases hz : id = 0
    · simp only [if_pos hz]
      exact looks_readWord o _
    · simp only [if_neg hz]
      exact looks_pure id

end Monitor

namespace Programmer

/-- The chip with the id, if there is one. -/
def recognized (id : Word) : Link ε Chip :=
  match Chip.lookup id with
  | none => Link.log (.chipUnknown id) >>= fun _ => Link.fail (.unknownChip id)
  | some chip => Link.log (.chipFound chip.name id) >>= fun _ => pure chip

/-- Asking for the chip id. -/
def asking (o : Options) : Link ε Word :=
  Link.log .connecting >>= fun _ => Monitor.connect o >>= fun _ => Monitor.chipId o

theorem findChip_split (o : Options) :
    (findChip o : Link ε Chip) = asking o >>= recognized := by
  simp only [findChip, asking, bind_assoc]
  rfl

theorem looks_asking (o : Options) : (asking o : Link ε Word).Looks o :=
  (Link.looks_log rfl).bind fun _ => (Monitor.looks_handshake o).bind fun _ =>
    Monitor.looks_chipId o

/-- **Identification** does no more than read words. -/
theorem reads_findChip {o : Options} {t : Transcript ε} {r : Except (Failure ε) Chip}
    (h : Link.Held (findChip o) t r) : ∀ op ∈ t.operations, op.IsRead := by
  have silent (id : Word) : (recognized id : Link ε Chip).Silent := by
    unfold recognized
    split
    · exact (Link.silent_request fun _ => rfl).bind fun _ => Link.silent_fail _
    · exact (Link.silent_request fun _ => rfl).bind fun _ => Link.silent_pure _
  rw [findChip_split] at h
  rcases Link.held_bind_iff.mp h with ⟨_, h₁, -⟩ | ⟨id, t₁, t₂, h₁, h₂, rfl⟩
  · exact (looks_asking o).reads h₁
  · rw [Transcript.operations_append, (silent id).operations_eq h₂, List.append_nil]
    exact (looks_asking o).reads h₁

/-- **Identification on a bench** finds the chip that is there. -/
theorem thrives_findChip {o : Options} {c : Chip} (hc : c ∈ Chip.all) {t : Transcript ε}
    {r : Except (Failure ε) Chip} {b b' : Bench} (hid : t.Reports c.id)
    (h : Link.Held (findChip o) t r) (hs : b.Serves o t b') (hb : b.Idle) :
    r = .ok c ∧ b'.Idle ∧ b'.rest = b.rest := by
  have held := h
  rw [findChip_split] at h
  rcases Link.held_bind_iff.mp h with ⟨_, h₁, -⟩ | ⟨id, t₁, t₂, h₁, h₂, rfl⟩
  · obtain ⟨⟨_, hok⟩, -⟩ := (looks_asking o).succeeds h₁ hs hb
    exact absurd hok (by simp)
  obtain ⟨mid, hs₁, hs₂⟩ := Bench.serves_append_iff.mp hs
  obtain ⟨-, hmid, hrest⟩ := (looks_asking o).succeeds h₁ hs₁ hb
  have heq : id = c.id := by
    obtain ⟨words, hwords, hreads⟩ := hid
    obtain ⟨_, u₁, u₂, -, h₃, rfl⟩ := Link.held_bind_ok h₁
    obtain ⟨_, v₁, v₂, -, h₄, rfl⟩ := Link.held_bind_ok h₃
    exact (Monitor.chipId_eq hreads.of_append.1.of_append.2.of_append.2 h₄).trans hwords
  have found : (recognized id : Link ε Chip) =
      Link.log (.chipFound c.name id) >>= fun _ => pure c := by
    rw [recognized, Chip.lookup_eq_some_iff.mpr ⟨hc, heq.symm⟩]
  rw [found] at h₂
  obtain ⟨⟨c', rfl⟩, hidle, hrest'⟩ :=
    ((Link.thrives_log _).bind fun _ => Link.thrives_pure c).succeeds h₂ hs₂ hmid
  exact ⟨by rw [findChip_eq hc hid.mayReport held], hidle, hrest'.trans hrest⟩

end Programmer

end SamFlash
