import SamFlash.Proofs.Attribution

/-!
# Checks before anything else

A program call of a new programmer looks for the chip (`Programmer.findChip`), and compares the size
of the image with its flash (`Programmer.pagesOf`), before it changes anything. On a line that
serves well, that is one whose port does not fail and whose replies are in time, the words of the
target and the size decide how these checks end: the chip is unknown, the image is too large, it is
empty, or it is written. Where it is not written, all that has happened is the identification
(`Transcript.OnlyDetects`: no other byte is sent, nothing is asked of the image, and nobody is told
anything); where it is, `Workspace.setUp` loads the applet next.

Both errors are reported exactly when they should be. `Monitor.identity` is the id that a target
with given words tells, by the same look at the reset vector that `Monitor.chipId` makes; that no
chip has it is the one condition for an unknown chip. That an image is too large is not reported of
an image that just fits, and an image that passes the checks fails, if it does, for another reason.

A line that serves well and is not asked for the image is a bench, so that what is known to succeed
on a bench succeeds on it.

Results:
* `Line.Serves.bench`: such a line is a bench.
* `Programmer.detects`: identification on such a line.
* `Programmer.not_refused`: writing the pages does not fail in a way that a check does.
* **`Programmer.checks_come_first`**: the outcome of the checks, and what has happened by then.
-/

namespace SamFlash

variable {ε α : Type} {o : Options} {m : Manner} {words : Word → Word}

open Link

/-! ## A line that serves well -/

/-- The port does not fail. -/
def Exchange.Undisturbed : Exchange ε → Prop
  | ⟨.write _, attempts⟩ => attempts.settle = .ok ()
  | ⟨.flush, attempts⟩ => attempts.settle = .ok ()
  | ⟨.read, .failed _⟩ => False
  | _ => True

/-- The monitor replies in time, and has these words where identification looks. -/
structure Manner.Answers (m : Manner) (words : Word → Word) : Prop where
  timely : ∀ cmd, ¬ m.late cmd
  holds : ∀ addr ∈ Monitor.identifyingAddresses, ∀ value, m.holds addr value → value = words addr

theorem Manner.Replies.unlabelled {cmds : List Command} {replies : List (Command × UInt8)}
    (h : m.Replies cmds replies) : Command.Replies cmds (replies.map Prod.snd) := by
  induction cmds generalizing replies with
  | nil =>
    obtain rfl : replies = [] := h
    rfl
  | cons cmd cmds ih =>
    obtain ⟨reply, more, rfl, ⟨hreply, -⟩, hmore⟩ := h
    exact ⟨reply, more.map Prod.snd, by rw [List.map_append, Manner.snd_labelled], hreply,
      ih hmore⟩

namespace Line

/-- The line as a bench with an image. -/
def bench (l : Line) (image : List UInt8) : Bench :=
  ⟨l.reader, l.queue.map Prod.snd, l.waited, image⟩

theorem Idle.bench {l : Line} (h : l.Idle) (image : List UInt8) : (l.bench image).Idle :=
  ⟨h.reader, congrArg (List.map Prod.snd) h.queue⟩

variable {l l' : Line}

/-- One exchange, of whatever image. -/
theorem Takes.bench {x : Exchange ε} (h : l.Takes m o x l') (timely : ∀ cmd, ¬ m.late cmd)
    (undisturbed : x.Undisturbed) (unread : ∀ limit, x.request ≠ .image limit)
    (image : List UInt8) : (l.bench image).Takes o x (l'.bench image) := by
  obtain ⟨q, a⟩ := x
  cases q with
  | write byte =>
    have settles : a.settle = .ok () := undisturbed
    simp only [Takes, settles] at h
    obtain ⟨replies, hreplies, rfl⟩ := h
    refine ⟨settles, replies.map Prod.snd, hreplies.unlabelled, ?_⟩
    simp only [Line.bench, List.map_append]
  | flush => exact ⟨undisturbed, congrArg (Line.bench · image) h⟩
  | read =>
    cases a with
    | byte byte =>
      obtain ⟨cmd, hq, h⟩ := h
      have hq' : l.queue.map Prod.snd = byte :: l'.queue.map Prod.snd := by rw [hq]; rfl
      refine ⟨hq', ?_⟩
      rw [h]
      rfl
    | notReady =>
      obtain ⟨waits, rfl⟩ := h
      refine ⟨?_, rfl⟩
      cases hq : l'.queue with
      | nil => exact Or.inl (congrArg (List.map Prod.snd) hq)
      | cons e queue => exact Or.inr ((waits e (by rw [hq]; rfl)).resolve_left (timely e.1))
    | failed e => exact absurd undisturbed id
  | delay ms => exact congrArg (Line.bench · image) h
  | image limit => exact absurd rfl (unread limit)
  | log d => exact congrArg (Line.bench · image) h
  | progress p => exact congrArg (Line.bench · image) h
  | openPort path => exact congrArg (Line.bench · image) h
  | configure line => exact congrArg (Line.bench · image) h
  | openImage path => exact congrArg (Line.bench · image) h

/-- **A line that serves well** is a bench, while the image is not asked for. -/
theorem Serves.bench {t : Transcript ε} (h : l.Serves m o t l') (timely : ∀ cmd, ¬ m.late cmd)
    (undisturbed : ∀ x ∈ t, x.Undisturbed) (unread : ∀ x ∈ t, ∀ limit, x.request ≠ .image limit)
    (image : List UInt8) : (l.bench image).Serves o t (l'.bench image) := by
  induction t generalizing l with
  | nil => exact congrArg (Line.bench · image) h
  | cons x t ih =>
    obtain ⟨mid, hx, ht⟩ := h
    obtain ⟨first, others⟩ := List.forall_mem_cons.mp undisturbed
    obtain ⟨first', others'⟩ := List.forall_mem_cons.mp unread
    exact ⟨mid.bench image, hx.bench timely first first' image, ih ht others others'⟩

end Line

/-- The port of a rig does not fail. -/
theorem Rig.undisturbed_device {ack : List UInt8} (x : Dialogue ε α) (s : Rig) :
    ∀ y ∈ x.transcript (device ack words) s, y.Undisturbed := by
  induction x generalizing s with
  | done a => exact fun _ hy => absurd hy List.not_mem_nil
  | ask q next ih =>
    refine List.forall_mem_cons.mpr ⟨?_, ih _ _⟩
    cases q with
    | read =>
      simp only [device]
      split <;> exact trivial
    | write byte => exact rfl
    | flush => exact rfl
    | _ => exact trivial

/-- What succeeds on a bench succeeds on a line that serves well. -/
theorem Link.Thrives.succeeds_on_line {x : Link ε α} (hx : x.Thrives o) {t : Transcript ε}
    {r : Except (Failure ε) α} {l l' : Line} (h : Held x t r) (hs : l.Serves m o t l')
    (hl : l.Idle) (timely : ∀ cmd, ¬ m.late cmd) (undisturbed : ∀ x ∈ t, x.Undisturbed)
    (unread : ∀ x ∈ t, ∀ limit, x.request ≠ .image limit) : ∃ a, r = .ok a :=
  (hx.succeeds h (hs.bench timely undisturbed unread []) (hl.bench [])).1

/-! ## Identification -/

theorem Chip.lookup_eq_none_iff {id : Word} : lookup id = none ↔ ∀ c ∈ all, c.id ≠ id := by
  unfold lookup
  rw [List.find?_eq_none]
  simp

namespace Monitor

/-- The commands of an identification of a target that holds these words. -/
def detection (words : Word → Word) : List Command :=
  .binaryMode :: (lookups words).map .readWord

theorem announceable_detection (words : Word → Word) :
    Command.Announceable (detection words) := by
  intro cmd hcmd
  have none : cmd.payload = [] := by
    rcases List.mem_cons.mp hcmd with rfl | hcmd
    · rfl
    · obtain ⟨addr, -, rfl⟩ := List.mem_map.mp hcmd
      rfl
  rw [none]
  decide

end Monitor

/-- The exchanges identify the chip of a target that holds these words, and that is all. -/
structure Transcript.OnlyDetects (o : Options) (words : Word → Word) (t : Transcript ε) : Prop where
  /-- Nothing is sent besides the commands of the identification. -/
  accepted : t.accepted = Command.stream (Monitor.detection words)
  /-- The image is not read. -/
  unread : ∀ x ∈ t, ∀ limit, x.request ≠ .image limit
  /-- Nothing is told about progress. -/
  untold : ∀ x ∈ t, ∀ p, x.request ≠ .progress p
  /-- All pauses are those of a receive, behind looks in vain. -/
  pauses : t.Rests o []

/-- A diagnostic behind it. -/
theorem Transcript.OnlyDetects.log {t : Transcript ε} (h : t.OnlyDetects o words) (d : Diagnostic) :
    Transcript.OnlyDetects o words (t ++ [⟨.log d, ()⟩]) where
  accepted := by
    rw [accepted_append, h.accepted]
    exact List.append_nil _
  unread := List.forall_mem_append.mpr ⟨h.unread, by simp⟩
  untold := List.forall_mem_append.mpr ⟨h.untold, by simp⟩
  pauses := h.pauses.append (.other rfl .nil)

namespace Programmer

/-- How identification comes out for a chip id. -/
def recognition (id : Word) : Except (Failure ε) Chip :=
  match Chip.lookup id with
  | none => .error (.error (.unknownChip id))
  | some c => .ok c

theorem held_recognized {id : Word} {t : Transcript ε} {r : Except (Failure ε) Chip}
    (h : Link.Held (recognized id) t r) : r = recognition id ∧ t.accepted = [] := by
  unfold recognized at h
  unfold recognition
  cases hl : Chip.lookup id with
  | none =>
    rw [hl] at h
    obtain ⟨_, u, hu, rfl⟩ := Link.held_request_bind h
    obtain ⟨rfl, rfl⟩ := held_fail_iff.mp hu
    exact ⟨rfl, rfl⟩
  | some c =>
    rw [hl] at h
    obtain ⟨_, u, hu, rfl⟩ := Link.held_request_bind h
    obtain ⟨rfl, rfl⟩ := Link.held_pure_iff.mp hu
    exact ⟨rfl, rfl⟩

theorem unread_findChip {t : Transcript ε} {r : Except (Failure ε) Chip}
    (h : Link.Held (findChip o) t r) : ∀ x ∈ t, ∀ limit, x.request ≠ .image limit :=
  fun x hx _ => composed_findChip.unasked id id h x hx

theorem untold_findChip {t : Transcript ε} {r : Except (Failure ε) Chip}
    (h : Link.Held (findChip o) t r) : ∀ x ∈ t, ∀ p, x.request ≠ .progress p :=
  fun x hx _ => composed_findChip.unasked id id h x hx

/-- **Identification on a line that serves well** comes out as the words say. -/
theorem detects {t : Transcript ε} {r : Except (Failure ε) Chip} {l l' : Line}
    (h : Link.Held (findChip o) t r) (hs : l.Serves m o t l') (hl : l.Idle)
    (answers : m.Answers words) (undisturbed : ∀ x ∈ t, x.Undisturbed) :
    r = recognition (Monitor.identity words) ∧ t.OnlyDetects o words := by
  have faithful := ((inStep_findChip (answers.timely .binaryMode)).keeps h hs hl).1
  have reads : t.Reads words := fun addr ha value hr =>
    answers.holds addr ha value (faithful addr value hr)
  have unread := unread_findChip h
  have untold := untold_findChip h
  have pauses : t.Rests o [] := (composed_findChip.consists.exchanges h).rests fun _ => id
  rw [findChip_split] at h
  rcases Link.held_bind_iff.mp h with ⟨f, h₁, -⟩ | ⟨id, t₁, t₂, h₁, h₂, rfl⟩
  · obtain ⟨_, hok⟩ := (looks_asking o).toThrives.succeeds_on_line h₁ hs hl answers.timely
      undisturbed unread
    exact absurd hok (by simp)
  obtain ⟨rfl, nothing⟩ := held_recognized h₂
  obtain ⟨_, u, hu, rfl⟩ := Link.held_request_bind h₁
  obtain ⟨_, v₁, v₂, h₃, h₄, rfl⟩ := Link.held_bind_ok hu
  obtain ⟨rfl, asked⟩ := Monitor.chipId_reads reads.of_append.1.of_append.2.of_append.2 h₄
  refine ⟨rfl, ?_, unread, untold, pauses⟩
  rw [Transcript.accepted_append, Transcript.accepted_append, Transcript.accepted_append,
    accepted_handshake h₃, asked, nothing, List.append_nil]
  exact (Command.stream_append [.binaryMode] _).symm

end Programmer

/-! ## Loading the applet -/

namespace Applet

/-- The applet is loaded by one block. -/
theorem accepted_load {base : Word} {t : Transcript ε} {a : Applet}
    (h : Held (load base) t (.ok a)) : t.accepted = Command.stream [.writeBlock base code] := by
  obtain ⟨_, u, hu, rfl⟩ := held_request_bind h
  obtain ⟨_, t₁, t₂, h₁, h₂, rfl⟩ := held_bind_ok hu
  obtain ⟨_, v, hv, rfl⟩ := held_request_bind h₁
  obtain ⟨rfl, -⟩ := held_pure_iff.mp h₂
  rw [Transcript.accepted_append, List.append_nil, Transcript.accepted_append,
    ((Monitor.sends_block _ _).completes hv).2, Command.stream_cons]
  exact (List.append_nil _).symm

theorem thrives_load (base : Word) : (load base : Link ε Applet).Thrives o :=
  (thrives_log _).bind fun _ =>
    ((thrives_log _).bind fun _ => (Monitor.sends_block base code).thrives rfl code_fits).bind
      fun _ => thrives_pure _

theorem unread_load {base : Word} {t : Transcript ε} {r : Except (Failure ε) Applet}
    (h : Held (load base) t r) : ∀ x ∈ t, ∀ limit, x.request ≠ .image limit := by
  have diagnostics : (load base : Link ε Applet).Composed {} fun q => ∃ d, q = .log d :=
    (Composed.log rfl ⟨_, rfl⟩).next fun _ =>
      (Composed.writeBlock code_fits ⟨_, rfl⟩).next fun _ => .pure _
  exact fun x hx _ => diagnostics.unasked (by simp) id h x hx

end Applet

/-! ## Failures of a check -/

/-- The call was refused, since the chip is unknown or the image too large. -/
def Failure.IsRefusal : Failure ε → Prop
  | error (.unknownChip _) => True
  | error (.imageTooLarge ..) => True
  | _ => False

theorem Failure.IsBareLink.not_refusal {f : Failure ε} (h : f.IsBareLink) : ¬ f.IsRefusal := by
  cases f with
  | fault _ => exact id
  | error e => cases e <;> first | exact id | exact absurd h id

theorem Failure.IsAt.not_refusal {f : Failure ε} {stage : Stage} (h : f.IsAt stage) :
    ¬ f.IsRefusal := by
  obtain ⟨e, rfl, he⟩ := h
  cases e <;> first | exact id | exact absurd he (by simp [Error.stage?])

namespace Programmer

variable {c : Chip} {size : Nat} {observed : Bool} {t : Transcript ε}
  {r : Except (Failure ε) Unit}

/-- **Writing the pages** does not fail in a way that a check does. -/
theorem not_refused (hc : c.Sound) (hs : size ≤ c.pages * c.pageSize) (hn : 0 < c.pagesFor size)
    {f : Failure ε}
    (h : Link.Held (writePages o c size (c.pagesFor size) observed) t (.error f)) :
    ¬ f.IsRefusal := by
  rw [writePages_eq] at h
  rcases Link.held_bind_iff.mp h with ⟨g, h₁, hr⟩ | ⟨w, s, u, h₁, h₂, rfl⟩
  · obtain rfl := Except.error.inj hr
    exact ((follows_opening hc _).breaks h₁).2.2.not_refusal
  obtain ⟨-, -, rfl⟩ := (follows_opening hc _).completes h₁
  rcases Link.held_bind_iff.mp h₂ with ⟨g, h₃, hr⟩ | ⟨_, v, z, h₃, h₄, rfl⟩
  · obtain rfl := Except.error.inj hr
    -- as the image that is read, take what is read of it
    have image (_ : 0 < c.pagesFor size) :
        u.taken <+: (List.replicate (0 * c.pageSize) 0 ++ u.taken).drop (0 * c.pageSize) := by
      simp
    obtain ⟨k, part, -, stops⟩ := Page.held_writeAll_error hc (remains_zero hc hs) image h₃
    rcases stops.cause with ⟨-, ⟨kind, rfl⟩, -⟩ | ⟨-, at_page, -⟩
    · exact id
    · exact at_page.not_refusal
  · by_cases hk : o.keepBootSource = true
    · exact ((follows_closing_keep hc hn hk).breaks h₄).2.2.not_refusal
    · exact ((follows_closing_boot hc (eq_false_of_ne_true hk)).breaks h₄).2.2.not_refusal

/-! ## The checks -/

theorem held_writing_empty (hc : c.Sound) (h : Link.Held (writing o c 0 observed) t r) :
    t = [⟨.log .imageEmpty, ()⟩] ∧ r = .ok () := by
  rw [writing, pagesOf_eq hc (Nat.zero_le _), pure_bind, pagesFor_zero hc, if_pos rfl] at h
  obtain ⟨_, rfl, rfl⟩ := held_request_iff.mp h
  exact ⟨rfl, rfl⟩

theorem held_writing_tooLarge (hc : c.Sound) (hs : c.pages * c.pageSize < size)
    (h : Link.Held (writing o c size observed) t r) :
    t = [⟨.log (.imageTooLarge size (c.pageSize * c.pages)), ()⟩] ∧
      r = .error (.error (.imageTooLarge size (c.pageSize * c.pages))) := by
  rw [writing, pagesOf_eq_of_lt hc hs, bind_assoc] at h
  obtain ⟨_, u, hu, rfl⟩ := Link.held_request_bind h
  rcases Link.held_bind_iff.mp hu with ⟨f, hf, rfl⟩ | ⟨_, _, _, hf, -⟩
  · obtain ⟨rfl, hr⟩ := held_fail_iff.mp hf
    obtain rfl := Except.error.inj hr
    exact ⟨rfl, rfl⟩
  · exact absurd (held_fail_iff.mp hf).2 (by simp)

/-- An image that is neither empty nor too large has the applet loaded first. -/
theorem exists_writing_eq (o : Options) (observed : Bool) (hc : c.Sound) (hpos : 0 < size)
    (hs : size ≤ c.pages * c.pageSize) :
    ∃ next : Applet → Link ε Unit, writing o c size observed =
      Link.log (.writing size (c.pagesFor size) c.name) >>= fun _ =>
        Applet.load c.ramUserBase >>= next := by
  rw [writing_eq hc hpos hs]
  simp only [writePages, Workspace.setUp, bind_assoc]
  exact ⟨_, rfl⟩

/-- On a line that serves well the applet gets there. -/
theorem accepted_writing (hc : c.Sound) (hpos : 0 < size) (hs : size ≤ c.pages * c.pageSize)
    (h : Link.Held (writing o c size observed) t r) {l l' : Line} (served : l.Serves m o t l')
    (hl : l.Idle) (timely : ∀ cmd, ¬ m.late cmd) (undisturbed : ∀ x ∈ t, x.Undisturbed) :
    ∃ more, t.accepted = Command.stream [.writeBlock c.ramUserBase Applet.code] ++ more := by
  obtain ⟨next, e⟩ := exists_writing_eq (ε := ε) o observed hc hpos hs
  rw [e] at h
  obtain ⟨_, u, hu, rfl⟩ := Link.held_request_bind h
  obtain ⟨mid, rfl, served⟩ := served
  have undisturbed := (List.forall_mem_cons.mp undisturbed).2
  rcases Link.held_bind_iff.mp hu with ⟨f, h₁, -⟩ | ⟨a, t₁, t₂, h₁, -, rfl⟩
  · obtain ⟨_, hok⟩ := (Applet.thrives_load c.ramUserBase).succeeds_on_line h₁ served hl timely
      undisturbed (Applet.unread_load h₁)
    exact absurd hok (by simp)
  · refine ⟨t₂.accepted, ?_⟩
    rw [Transcript.accepted_append, Transcript.accepted_append, Applet.accepted_load h₁]
    rfl

/-- How the checks of a call come out on a target that holds these words. -/
inductive Checks (o : Options) (words : Word → Word) (size : Nat) (t : Transcript ε)
    (r : Except (Failure ε) Unit) (q : Programmer) : Prop
  /-- No chip has the id. -/
  | unknown (none : Chip.lookup (Monitor.identity words) = none)
      (result : r = .error (.error (.unknownChip (Monitor.identity words))))
      (only : t.OnlyDetects o words)
  /-- There is nothing to be written. -/
  | empty (c : Chip) (found : Chip.lookup (Monitor.identity words) = some c) (zero : size = 0)
      (result : r = .ok ()) (phase : q.phase = .complete) (only : t.OnlyDetects o words)
  /-- There is no room in flash. -/
  | tooLarge (c : Chip) (found : Chip.lookup (Monitor.identity words) = some c)
      (lt : c.pageSize * c.pages < size)
      (result : r = .error (.error (.imageTooLarge size (c.pageSize * c.pages))))
      (only : t.OnlyDetects o words)
  /-- The image is written, or fails to be for another reason; the applet is loaded first. -/
  | passed (c : Chip) (found : Chip.lookup (Monitor.identity words) = some c) (pos : 0 < size)
      (le : size ≤ c.pageSize * c.pages) (result : ∀ f, r = .error f → ¬ f.IsRefusal)
      (loads : ∃ rest, t.commands =
        Monitor.detection words ++ .writeBlock c.ramUserBase Applet.code :: rest)

/-- Commands in front of what else is sent. -/
theorem commands_of_accepted {cs : List Command} {more : List UInt8}
    (h : Command.Announceable cs) (ha : t.accepted = Command.stream cs ++ more) :
    ∃ rest, t.commands = cs ++ rest := by
  refine ⟨(Reader.start.feedAll more).2, ?_⟩
  rw [Transcript.commands, ha, Reader.feedAll_append, Reader.feedAll_stream h]

/-- **The checks of a call** of a programmer that knows no chip. -/
theorem checks_of_held {p q : Programmer} (hp : p.chip = none) {l l' : Line}
    (h : Held (program o size observed) p t r q) (served : l.Serves m o t l') (hl : l.Idle)
    (answers : m.Answers words) (undisturbed : ∀ x ∈ t, x.Undisturbed) :
    Checks o words size t r q := by
  rcases held_program h with ⟨f, -, lost, rfl, -⟩ | ⟨c, s, u, finds, work, rfl, -, complete⟩
  · obtain ⟨hr, only⟩ := detects lost served hl answers undisturbed
    unfold recognition at hr
    cases hlookup : Chip.lookup (Monitor.identity words) with
    | some c => exact absurd hr (by simp [hlookup])
    | none =>
      rw [hlookup] at hr
      exact .unknown hlookup (congrArg _ (Except.error.inj hr)) only
  obtain ⟨-, found⟩ := finds.resolve_left fun known => by simp [hp] at known
  obtain ⟨mid, served₁, served₂⟩ := Line.serves_append_iff.mp served
  obtain ⟨calm, calm'⟩ := List.forall_mem_append.mp undisturbed
  obtain ⟨hr, only⟩ := detects found served₁ hl answers calm
  have hlookup : Chip.lookup (Monitor.identity words) = some c := by
    unfold recognition at hr
    cases hlookup : Chip.lookup (Monitor.identity words) with
    | none => exact absurd hr (by simp [hlookup])
    | some c' =>
      rw [hlookup] at hr
      exact congrArg _ (Except.ok.inj hr).symm
  have hc := Chip.sound_of_mem (Chip.lookup_eq_some_iff.mp hlookup).1
  have idle : mid.Idle :=
    ((inStep_findChip (answers.timely .binaryMode)).keeps found served₁ hl).2 (unbroken_ok c)
  have capacity := Nat.mul_comm c.pages c.pageSize
  by_cases hz : size = 0
  · subst hz
    obtain ⟨rfl, rfl⟩ := held_writing_empty hc work
    exact .empty c hlookup rfl rfl (complete rfl) (only.log _)
  by_cases hs : c.pages * c.pageSize < size
  · obtain ⟨rfl, rfl⟩ := held_writing_tooLarge hc hs work
    exact .tooLarge c hlookup (by omega) rfl (only.log _)
  have hpos : 0 < size := by omega
  have hle : size ≤ c.pages * c.pageSize := by omega
  refine .passed c hlookup hpos (by omega) ?_ ?_
  · rintro f rfl
    rw [writing_eq hc hpos hle] at work
    exact not_refused hc hle (pagesFor_pos hc hpos) work
  · obtain ⟨more, ha⟩ := accepted_writing hc hpos hle work served₂ idle answers.timely calm'
    have announceable : Command.Announceable
        (Monitor.detection words ++ [.writeBlock c.ramUserBase Applet.code]) :=
      List.forall_mem_append.mpr ⟨Monitor.announceable_detection words,
        List.forall_mem_singleton.mpr Applet.code_fits⟩
    have sent : (s ++ u).accepted =
        Command.stream (Monitor.detection words ++ [.writeBlock c.ramUserBase Applet.code]) ++
          more := by
      rw [Transcript.accepted_append, only.accepted, ha, Command.stream_append, List.append_assoc]
    obtain ⟨rest, hrest⟩ := commands_of_accepted announceable sent
    exact ⟨rest, by rw [hrest, List.append_assoc]; rfl⟩

namespace Checks

variable {q : Programmer}

theorem unknown_iff (h : Checks o words size t r q) :
    (r = .error (.error (.unknownChip (Monitor.identity words))) ↔
        Chip.lookup (Monitor.identity words) = none) ∧
      (Chip.lookup (Monitor.identity words) = none → t.OnlyDetects o words) := by
  cases h with
  | unknown none result only => exact ⟨iff_of_true result none, fun _ => only⟩
  | empty c found _ result _ _ => simp [found, result]
  | tooLarge c found _ result _ => simp [found, result]
  | passed c found _ _ result _ =>
    refine ⟨iff_of_false ?_ (by simp [found]), fun none => by simp [none] at found⟩
    exact fun refused => result _ refused trivial

/-- What the checks of a call come to for a known chip. -/
theorem of_found (h : Checks o words size t r q) {c : Chip}
    (hc : Chip.lookup (Monitor.identity words) = some c) :
    (r = .error (.error (.imageTooLarge size (c.pageSize * c.pages))) ↔
        c.pageSize * c.pages < size) ∧
      (size = 0 → r = .ok () ∧ q.phase = .complete) ∧
      (size = 0 ∨ c.pageSize * c.pages < size → t.OnlyDetects o words) ∧
      (0 < size → size ≤ c.pageSize * c.pages → (∀ f, r = .error f → ¬ f.IsRefusal) ∧
        ∃ rest, t.commands =
          Monitor.detection words ++ .writeBlock c.ramUserBase Applet.code :: rest) := by
  cases h with
  | unknown none _ _ => simp [none] at hc
  | empty c' _ zero result phase only =>
    refine ⟨iff_of_false (by simp [result]) (by omega), fun _ => ⟨result, phase⟩, fun _ => only,
      fun pos => by omega⟩
  | tooLarge c' found lt result only =>
    obtain rfl := Option.some.inj (found.symm.trans hc)
    exact ⟨iff_of_true result lt, fun zero => by omega, fun _ => only, fun _ le => by omega⟩
  | passed c' found pos le result loads =>
    obtain rfl := Option.some.inj (found.symm.trans hc)
    exact ⟨iff_of_false (fun refused => result _ refused trivial) (by omega), fun zero => by omega,
      fun nothing => by omega, fun _ _ => ⟨result, loads⟩⟩

end Checks

/-- **Checks come first, and are exact.** A new programmer is to write an image of any size, from
any source, on an idle line whose port does not fail and whose monitor answers in time. The call
reports the id that the words of the target tell, exactly if no chip has it, and otherwise that the
image is too large, exactly if it is larger than the flash of that chip; an empty image is written.
In these cases it has identified the chip, and that is all. In all others neither error is reported,
and the applet is loaded first. -/
theorem checks_come_first {q : Programmer} {l l' : Line}
    (h : Held (program o size observed) {} t r q) (served : l.Serves m o t l') (hl : l.Idle)
    (answers : m.Answers words) (undisturbed : ∀ x ∈ t, x.Undisturbed) :
    (r = .error (.error (.unknownChip (Monitor.identity words))) ↔
        ∀ c ∈ Chip.all, c.id ≠ Monitor.identity words) ∧
      ((∀ c ∈ Chip.all, c.id ≠ Monitor.identity words) → t.OnlyDetects o words) ∧
      ∀ c ∈ Chip.all, c.id = Monitor.identity words → ∃ capacity, c.capacity = .ok capacity ∧
        (r = .error (.error (.imageTooLarge size capacity)) ↔ capacity < size) ∧
        (size = 0 → r = .ok () ∧ q.phase = .complete) ∧
        (size = 0 ∨ capacity < size → t.OnlyDetects o words) ∧
        (0 < size → size ≤ capacity → (∀ f, r = .error f → ¬ f.IsRefusal) ∧
          ∃ rest, t.commands =
            Monitor.detection words ++ .writeBlock c.ramUserBase Applet.code :: rest) := by
  have checks := checks_of_held rfl h served hl answers undisturbed
  rw [← Chip.lookup_eq_none_iff]
  refine ⟨checks.unknown_iff.1, checks.unknown_iff.2, fun c hc hid => ?_⟩
  have found := Chip.lookup_eq_some_iff.mpr ⟨hc, hid⟩
  exact ⟨_, (Chip.sound_of_mem hc).capacity_eq, checks.of_found found⟩

/-! ## An image that is too large -/

/-- The words of a part that has its id in the other register. -/
def alternateWords (addr : Word) : Word :=
  if addr = Monitor.sam3AlternateChipIdAddress then Bench.part.id else 0

/-- An image is to be written that is one byte larger than the flash of that part. -/
def oversized : Dialogue Unit (Except (Failure Unit) Unit × Programmer) :=
  (program {} 524289 true).run {}

/-- Three words are read, and nothing else is done. -/
theorem checks_come_first_oversized :
    (oversized.run (Rig.device [0x0a, 0x0d] alternateWords) (Rig.fresh 0 [])).1.1 =
        .error (.error (.imageTooLarge 524289 524288)) ∧
      Transcript.OnlyDetects {} alternateWords
        (oversized.transcript (Rig.device [0x0a, 0x0d] alternateWords) (Rig.fresh 0 [])) ∧
      Monitor.detection alternateWords = [.binaryMode, .readWord 0x00000000, .readWord 0x400e0740,
        .readWord 0x400e0940] := by
  have held : Held (program {} 524289 true) {} _ _ _ :=
    Dialogue.Held.of_run (Rig.device [0x0a, 0x0d] alternateWords) oversized (Rig.fresh 0 [])
  have patient : (Rig.fresh 0 []).Patient [0x0a, 0x0d] alternateWords fun _ => False := Or.inl rfl
  have ack : ([0x0a, 0x0d] : List UInt8).length ≤ Command.acknowledgementLength := by decide
  have served := Rig.serves_device (o := {}) ack oversized patient
  have answers : (Rig.manner alternateWords fun _ => False).Answers alternateWords :=
    ⟨fun _ => id, fun _ _ _ holds => holds⟩
  obtain ⟨-, -, known⟩ := checks_come_first held served (Rig.idle_fresh 0 []) answers
    (Rig.undisturbed_device oversized (Rig.fresh 0 []))
  obtain ⟨capacity, hcap, large, -, only, -⟩ := known Bench.part (by decide) (by decide)
  rw [Chip.capacity_of_mem (by decide)] at hcap
  obtain rfl := Except.ok.inj hcap
  exact ⟨large.mpr (by decide), only (Or.inr (by decide)), by decide⟩

end Programmer

end SamFlash
