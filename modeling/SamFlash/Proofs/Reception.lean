import SamFlash.Proofs.Conduct

/-!
# Exact bounded reads

What `Link.receiveFrom` does with the looks that it makes at the port, said without its timer. Three
things settle a read of `n` bytes: the last byte, a failure of the port, and one look in vain more
than the host is patient for. A receive stops at the first look that settles it, and what it comes
to is what that look says; the looks before it are all survived, with a pause behind each one that
was in vain.

The timer of a receive adds up pauses, counts a pause of zero milliseconds as one, and stops at the
largest word. None of this is seen from outside: as long as the read is open the timer shows the
looks in vain times the step, as far as a word can show it, and the largest word is no less than any
timeout. So `Options.patience` is the number of looks in vain that are survived, for every timeout
and every pause.

The bytes go to a buffer. `Link.receiveInto` begins with a buffer of any contents,
`Link.receiveFrom` writes each byte behind those that came before it, and in the end the front of
the buffer is what was received and the rest is what it was, also when the read fell short.
`Link.receive` reads into zeros and `Link.receiveExactly` wants all of them; the handshake reads two
bytes in this way and `Monitor.readWord` four.

Results:
* `Settles.not_pending`: what settles a read does not leave it open.
* `ExactRead.unique`: what the port gives decides what an exact bounded read is.
* `Link.Receiving.reads`, `Link.Receiving.exactRead`: the looks of a receive, from any point of it
  on, and from its beginning.
* `Link.exactRead_receiveInto`: what is in the buffer in the end.
* **`Link.receive_exact`**: a receive of any length is an exact bounded read of whatever the port
  gives, and fills its buffer with that.
-/

namespace SamFlash

variable {ε α : Type}

/-! ## Looks -/

namespace Sample

/-- The byte that a look finds. -/
def byte? : Sample ε → Option UInt8
  | byte b => some b
  | _ => none

/-- The look finds nothing. -/
def isVain : Sample ε → Bool
  | notReady => true
  | _ => false

/-- The bytes that the looks find. -/
def found (ls : List (Sample ε)) : List UInt8 := ls.filterMap byte?

/-- How many of the looks are in vain. -/
def vain (ls : List (Sample ε)) : Nat := ls.countP isVain

variable (ls ms : List (Sample ε)) (b : UInt8) (e : ε)

@[simp]
theorem found_nil : found ([] : List (Sample ε)) = [] := rfl

@[simp]
theorem vain_nil : vain ([] : List (Sample ε)) = 0 := rfl

@[simp]
theorem found_append : found (ls ++ ms) = found ls ++ found ms := List.filterMap_append

@[simp]
theorem vain_append : vain (ls ++ ms) = vain ls + vain ms := List.countP_append

@[simp]
theorem found_byte : found (byte b :: ls) = b :: found ls := rfl

@[simp]
theorem found_notReady : found (notReady :: ls) = found ls := rfl

@[simp]
theorem found_failed : found (failed e :: ls) = found ls := rfl

@[simp]
theorem vain_byte : vain (byte b :: ls) = vain ls := List.countP_cons_of_neg (by simp [isVain])

@[simp]
theorem vain_notReady : vain (notReady :: ls) = vain ls + 1 := List.countP_cons_of_pos rfl

@[simp]
theorem vain_failed : vain (failed e :: ls) = vain ls := List.countP_cons_of_neg (by simp [isVain])

/-- Looks that the port survives find a byte or nothing. -/
theorem length_eq {ls : List (Sample ε)} (works : ∀ e, failed e ∉ ls) :
    ls.length = (found ls).length + vain ls := by
  induction ls with
  | nil => rfl
  | cons s ls ih =>
    replace ih := ih fun e he => works e (List.mem_cons_of_mem s he)
    cases s with
    | byte b =>
      simp only [List.length_cons, found_byte, vain_byte]
      omega
    | notReady =>
      simp only [List.length_cons, found_notReady, vain_notReady]
      omega
    | failed e => exact absurd List.mem_cons_self (works e)

end Sample

/-! ## What settles a read -/

open Sample

/-- The last one of the looks settles a read of `n` bytes that survives `patience` looks in vain,
and this is the error it ends with. -/
inductive Settles (n patience : Nat) : List (Sample ε) → Option (Error ε) → Prop
  /-- There is nothing to read. -/
  | idle (none_wanted : n = 0) : Settles n patience [] none
  /-- The last byte. -/
  | whole {ls : List (Sample ε)} (b : UInt8) (last : (found ls).length + 1 = n) :
      Settles n patience (ls ++ [.byte b]) none
  /-- The port fails. -/
  | broken (ls : List (Sample ε)) (e : ε) :
      Settles n patience (ls ++ [.failed e]) (some (.serial e))
  /-- One look in vain too many. -/
  | late {ls : List (Sample ε)} (survived : vain ls = patience) :
      Settles n patience (ls ++ [.notReady]) (some (.responseTimeout n (found ls).length))

/-- The looks leave a read open. -/
structure Pending (n patience : Nat) (ls : List (Sample ε)) : Prop where
  lacks : (found ls).length < n
  works : ∀ e, .failed e ∉ ls
  patient : vain ls ≤ patience

variable {n patience : Nat} {ls : List (Sample ε)}

theorem Settles.not_pending {e : Option (Error ε)} (h : Settles n patience ls e) :
    ¬ Pending n patience ls := by
  rintro ⟨lacks, works, patient⟩
  cases h with
  | idle none_wanted => exact Nat.not_lt_zero _ (none_wanted ▸ lacks)
  | whole b last =>
    rw [found_append, List.length_append] at lacks
    exact Nat.lt_irrefl n (last ▸ lacks)
  | broken ls e => exact works e (by simp)
  | late survived =>
    rw [vain_append, survived] at patient
    exact Nat.not_succ_le_self _ patient

/-- A read that is open was so before. -/
theorem Pending.of_append {ms : List (Sample ε)} (h : Pending n patience (ls ++ ms)) :
    Pending n patience ls where
  lacks := by
    have := h.lacks
    rw [found_append, List.length_append] at this
    omega
  works e he := h.works e (List.mem_append_left ms he)
  patient := by
    have := h.patient
    rw [vain_append] at this
    omega

/-- A look in vain that settles a read is the first one that is not survived. -/
theorem Settles.eq_patience {e : Option (Error ε)} (h : Settles n patience (ls ++ [.notReady]) e) :
    vain ls = patience := by
  generalize hl : ls ++ [Sample.notReady] = l at h
  cases h with
  | idle _ => simp at hl
  | late survived =>
    obtain ⟨rfl, -⟩ := List.append_inj' hl rfl
    exact survived
  | _ => simp at hl

/-- The last look says what a read ends with. -/
theorem Settles.unique {e e' : Option (Error ε)} (h : Settles n patience ls e)
    (h' : Settles n patience ls e') : e = e' := by
  cases h with
  | idle _ =>
    generalize hl : ([] : List (Sample ε)) = l at h'
    cases h' <;> simp_all
  | _ =>
    generalize hl : _ ++ [_] = l at h'
    cases h' with
    | idle _ => simp at hl
    | _ =>
      obtain ⟨rfl, last⟩ := List.append_inj' hl rfl
      simp_all

/-- One look more finds no more than there is room for. -/
theorem Pending.found_length_le (h : Pending n patience ls) (s : Sample ε) :
    (found (ls ++ [s])).length ≤ n := by
  have := h.lacks
  rw [found_append, List.length_append]
  cases s with
  | byte b => exact this
  | notReady => exact Nat.le_of_lt this
  | failed e => exact Nat.le_of_lt this

/-- The looks in vain that are survived are all of them, or as many as the patience allows. -/
theorem Pending.survived (h : Pending n patience ls) {s : Sample ε} {e : Option (Error ε)}
    (settled : Settles n patience (ls ++ [s]) e) : min (vain (ls ++ [s])) patience = vain ls := by
  have := h.patient
  cases s with
  | notReady =>
    have := settled.eq_patience
    simp only [vain_append, vain_notReady, vain_nil]
    omega
  | byte b =>
    simp only [vain_append, vain_byte, vain_nil]
    omega
  | failed e =>
    simp only [vain_append, vain_failed, vain_nil]
    omega

/-- An open read has made fewer looks than the bytes and the patience allow. -/
theorem Pending.length_lt (h : Pending n patience ls) : ls.length < n + patience := by
  have := length_eq h.works
  have := h.lacks
  have := h.patient
  omega

/-! ## Exchanges -/

/-- The exchanges that the looks make: there is a pause behind each one that is in vain, but for a
last one, which is followed by the diagnostic. -/
def looking (o : Options) (d : Diagnostic) : List (Sample ε) → Transcript ε
  | [] => []
  | [.notReady] => [⟨.read, .notReady⟩, ⟨.log d, ()⟩]
  | .notReady :: ls => ⟨.read, .notReady⟩ :: ⟨.delay o.pollDelay, ()⟩ :: looking o d ls
  | s :: ls => ⟨.read, s⟩ :: looking o d ls

variable {o : Options} {d : Diagnostic}

theorem looking_notReady (some : ls ≠ []) :
    looking o d (.notReady :: ls) =
      ⟨.read, .notReady⟩ :: ⟨.delay o.pollDelay, ()⟩ :: looking o d ls := by
  cases ls with
  | nil => exact absurd rfl some
  | cons s ls => rfl

theorem pauses_looking (ls : List (Sample ε)) (s : Sample ε) :
    (looking o d (ls ++ [s])).pauses = List.replicate (vain ls) o.pollDelay := by
  induction ls with
  | nil => cases s <;> rfl
  | cons x ls ih =>
    cases x with
    | notReady =>
      rw [List.cons_append, looking_notReady (by simp), vain_notReady, List.replicate_succ, ← ih]
      rfl
    | byte b => exact ih
    | failed e => exact ih

/-- The looks at the port, in order. -/
def Transcript.looks (t : Transcript ε) : List (Sample ε) :=
  t.filterMap fun
    | ⟨.read, s⟩ => some s
    | _ => none

@[simp]
theorem looks_looking (ls : List (Sample ε)) : (looking o d ls).looks = ls := by
  induction ls with
  | nil => rfl
  | cons s ls ih =>
    cases s with
    | notReady =>
      by_cases some : ls = []
      · rw [some]
        rfl
      · rw [looking_notReady some]
        exact congrArg (Sample.notReady :: ·) ih
    | byte b => exact congrArg (Sample.byte b :: ·) ih
    | failed e => exact congrArg (Sample.failed e :: ·) ih

/-! ## Receives -/

namespace Link

/-- A look that leaves the read open, and the looks behind it. -/
theorem pending_cons {s : Sample ε} {looked : List (Sample ε)} (here : Pending n patience looked)
    (later : ls = [] ∨
      ∃ init last, ls = init ++ [last] ∧ Pending n patience (looked ++ [s] ++ init)) :
    ∃ init last, s :: ls = init ++ [last] ∧ Pending n patience (looked ++ init) := by
  rcases later with rfl | ⟨init, last, rfl, pending⟩
  · exact ⟨[], s, rfl, by rwa [List.append_nil]⟩
  · refine ⟨s :: init, last, rfl, ?_⟩
    rwa [List.append_assoc, List.singleton_append] at pending

/-- From any point of a receive on: its looks settle the read, with what was looked at before, and
leave it open until the last one. -/
theorem Receiving.reads {n left : Nat} {elapsed : Word} {taken : List UInt8} {t : Transcript ε}
    {c : Reception ε} (h : Receiving o n left elapsed taken t c) (looked : List (Sample ε))
    (bytes : taken.reverse = found looked) (room : taken.length + left = n)
    (timer : elapsed.toNat = min (vain looked * max o.pollDelay.toNat 1) (UInt32.size - 1))
    (done : left = 0 → Settles n o.patience looked none)
    (pending : left ≠ 0 → Pending n o.patience looked) :
    ∃ ls, t = looking o (.receiveTimeout c.bytes.length n) ls ∧
      Settles n o.patience (looked ++ ls) c.error ∧ c.bytes = found (looked ++ ls) ∧
      ((left = 0 ∧ ls = []) ∨
        ∃ init last, ls = init ++ [last] ∧ Pending n o.patience (looked ++ init)) := by
  induction h generalizing looked with
  | full =>
    exact ⟨[], rfl, by simpa using done rfl, by simpa using bytes, Or.inl ⟨rfl, rfl⟩⟩
  | @byte left _ taken _ _ b _ ih =>
    have here := pending (Nat.succ_ne_zero left)
    have counted : (found looked).length = taken.length := by rw [← bytes, List.length_reverse]
    obtain ⟨ls, rfl, settled, got, split⟩ := ih (looked ++ [.byte b]) (by simp [bytes])
      (by rw [List.length_cons]; omega) (by simpa using timer)
      (fun none_left => .whole b (by omega))
      (fun some_left => ⟨by simp; omega, by simpa using here.works, by simpa using here.patient⟩)
    rw [List.append_assoc, List.singleton_append] at settled got
    exact ⟨.byte b :: ls, rfl, settled, got,
      Or.inr (pending_cons here (split.imp_left fun h => h.2))⟩
  | failed e =>
    exact ⟨[.failed e], rfl, .broken looked e, by simpa using bytes,
      Or.inr (pending_cons (pending (Nat.succ_ne_zero _)) (Or.inl rfl))⟩
  | @wait left elapsed taken _ _ early _ ih =>
    have here := pending (Nat.succ_ne_zero left)
    have survived : vain looked < o.patience := by
      rw [Options.lt_patience_iff]
      have := UInt32.lt_iff_toNat_lt.mp early
      have := o.responseTimeout.toNat_lt_size
      omega
    have later : (Word.addSaturating elapsed (max o.pollDelay 1)).toNat =
        min ((vain looked + 1) * max o.pollDelay.toNat 1) (UInt32.size - 1) := by
      rw [Word.toNat_addSaturating, Word.toNat_max_one, timer, Nat.succ_mul]
      omega
    obtain ⟨ls, rfl, settled, got, split⟩ := ih (looked ++ [.notReady]) (by simp [bytes]) room
      (by simpa using later) (fun none_left => absurd none_left (Nat.succ_ne_zero left))
      (fun _ => ⟨by simpa using here.lacks, by simpa using here.works, by simpa using survived⟩)
    rw [List.append_assoc, List.singleton_append] at settled got
    rcases split with ⟨none_left, -⟩ | split
    · exact absurd none_left (Nat.succ_ne_zero left)
    refine ⟨.notReady :: ls, (looking_notReady ?_).symm, settled, got,
      Or.inr (pending_cons here (Or.inr split))⟩
    obtain ⟨init, last, rfl, -⟩ := split
    simp
  | @gaveUp left elapsed taken late =>
    have here := pending (Nat.succ_ne_zero left)
    have counted : (found looked).length = taken.length := by rw [← bytes, List.length_reverse]
    have survived : vain looked = o.patience := by
      refine Nat.le_antisymm here.patient (Nat.not_lt.mp fun patient => late ?_)
      have := (o.lt_patience_iff _).mp patient
      have := o.responseTimeout.toNat_lt_size
      rw [UInt32.lt_iff_toNat_lt]
      omega
    refine ⟨[.notReady], by simp [looking], ?_, by simpa using bytes,
      Or.inr (pending_cons here (Or.inl rfl))⟩
    rw [← counted]
    exact .late survived

end Link

/-! ## A port that gives one look after the other -/

/-- A port that gives the samples in order; its state is how many it has given. -/
def Device.giving (samples : Nat → Sample ε) : Device Nat ε where
  answer
    | .read, k => (samples k, k + 1)
    | .write _, k => (.accepted, k)
    | .flush, k => (.accepted, k)
    | .delay _, k => ((), k)
    | .log _, k => ((), k)
    | .progress _, k => ((), k)
    | .image _, k => (.bytes [] (Nat.zero_le _), k)
    | .openPort _, k => (.ok (), k)
    | .configure _, k => (.ok (), k)
    | .openImage _, k => (.ok 0, k)

/-- The first samples. -/
def Sample.first (samples : Nat → Sample ε) (k : Nat) : List (Sample ε) :=
  (List.range k).map samples

variable (samples : Nat → Sample ε)

theorem Sample.length_first (k : Nat) : (first samples k).length = k := by simp [first]

theorem Sample.first_succ (k : Nat) : first samples (k + 1) = first samples k ++ [samples k] := by
  simp [first, List.range_succ]

theorem Sample.first_append {j k : Nat} (h : j ≤ k) :
    ∃ ls, first samples k = first samples j ++ ls := by
  induction h with
  | refl => exact ⟨[], (List.append_nil _).symm⟩
  | step _ ih =>
    obtain ⟨ls, e⟩ := ih
    exact ⟨_, by rw [first_succ, e, List.append_assoc]⟩

/-- What a dialogue looks at is what the port gives next, and no more is gone. -/
theorem looks_giving (x : Dialogue ε α) (k : Nat) :
    first samples k ++ Transcript.looks (x.transcript (.giving samples) k) =
      first samples (x.run (.giving samples) k).2 := by
  induction x generalizing k with
  | done a => exact List.append_nil _
  | ask q next ih =>
    cases q with
    | read =>
      have later := ih (samples k) (k + 1)
      rw [first_succ, List.append_assoc, List.singleton_append] at later
      exact later
    | _ => exact ih _ k

variable {samples}

/-- **An exact bounded read** of `n` bytes from a port that gives the samples: it comes to the
reception, has used up the first `k` samples, and made the exchanges. -/
structure ExactRead (o : Options) (n : Nat) (samples : Nat → Sample ε) (c : Reception ε) (k : Nat)
    (t : Transcript ε) : Prop where
  /-- No look before the last one settles the read. -/
  undecided : ∀ j < k, ∀ e, ¬ Settles n o.patience (first samples j) e
  /-- The last one does. -/
  settled : Settles n o.patience (first samples k) c.error
  /-- What is received is what the looks found. -/
  bytes : c.bytes = found (first samples k)
  /-- There is room for it. -/
  room : c.bytes.length ≤ n
  /-- There are the looks, the pauses, the diagnostic of a read that gives up, and nothing else. -/
  exchanges : t = looking o (.receiveTimeout c.bytes.length n) (first samples k)
  /-- There is one pause for each look in vain that is survived. -/
  pauses : t.pauses = List.replicate (min (vain (first samples k)) o.patience) o.pollDelay
  /-- The read ends. -/
  bounded : k ≤ n + o.patience

/-- The samples leave no choice. -/
theorem ExactRead.unique {n k k' : Nat} {c c' : Reception ε} {t t' : Transcript ε}
    (h : ExactRead o n samples c k t) (h' : ExactRead o n samples c' k' t') :
    c' = c ∧ k' = k ∧ t' = t := by
  obtain rfl : k' = k := by
    rcases Nat.lt_trichotomy k' k with lt | eq | lt
    · exact absurd h'.settled (h.undecided k' lt _)
    · exact eq
    · exact absurd h.settled (h'.undecided k lt _)
  have error : c'.error = c.error := h'.settled.unique h.settled
  obtain ⟨bytes, e⟩ := c
  obtain ⟨bytes', e'⟩ := c'
  obtain rfl : e' = e := error
  obtain rfl : bytes' = bytes := h'.bytes.trans h.bytes.symm
  exact ⟨rfl, rfl, h'.exchanges.trans h.exchanges.symm⟩

/-- A receive of which every look is at the next sample is an exact bounded read. -/
theorem Link.Receiving.exactRead {n k : Nat} {t : Transcript ε} {c : Reception ε}
    (receiving : Receiving o n n 0 [] t c) (looked : Transcript.looks t = first samples k) :
    ExactRead o n samples c k t := by
  obtain ⟨ls, rfl, settled, bytes, split⟩ := receiving.reads [] rfl (Nat.zero_add n)
    (by rw [vain_nil, Nat.zero_mul]; rfl) (fun none_left => .idle none_left)
    (fun some_left => ⟨Nat.pos_of_ne_zero some_left, fun e => List.not_mem_nil, Nat.zero_le _⟩)
  rw [looks_looking] at looked
  obtain rfl : ls = first samples k := looked
  rw [List.nil_append] at settled bytes
  rcases split with ⟨none_left, e⟩ | ⟨init, last, e, pending⟩
  · obtain rfl : k = 0 := by rw [← length_first samples k, e]; rfl
    exact ⟨fun j hj => absurd hj (Nat.not_lt_zero j), settled, bytes,
      by rw [bytes]; exact Nat.zero_le n, rfl, rfl, Nat.zero_le _⟩
  obtain ⟨m, rfl⟩ : ∃ m, k = m + 1 :=
    ⟨init.length, by rw [← length_first samples k, e, List.length_append]; rfl⟩
  obtain ⟨rfl, -⟩ := List.append_inj' ((first_succ samples m).symm.trans e) rfl
  rw [List.nil_append] at pending
  refine ⟨?_, settled, bytes, ?_, rfl, ?_, ?_⟩
  · intro j hj e' settles
    obtain ⟨ms, hms⟩ := first_append samples (Nat.le_of_lt_succ hj)
    rw [hms] at pending
    exact settles.not_pending pending.of_append
  · rw [bytes, e]
    exact pending.found_length_le last
  · rw [e] at settled ⊢
    rw [pauses_looking, pending.survived settled]
  · have := pending.length_lt
    rw [length_first] at this
    exact this

/-- What a receive into a buffer leaves there, byte by byte as it comes, is what was received and
behind it what was there. -/
theorem Link.exactRead_receiveInto (o : Options) (buffer : List UInt8)
    (samples : Nat → Sample ε) :
    ∃ c k t, (receiveInto o buffer).run (.giving samples) 0 = ((c.fill buffer, c), k) ∧
      (receiveInto o buffer).transcript (.giving samples) 0 = t ∧
      ExactRead o buffer.length samples c k t := by
  have held := Dialogue.Held.of_run (.giving samples) (receiveInto o buffer) 0
  have looked := looks_giving samples (receiveInto o buffer) 0
  obtain ⟨⟨⟨buffer', c⟩, k⟩, ran⟩ :
      ∃ r, (receiveInto o buffer).run (.giving samples) 0 = r := ⟨_, rfl⟩
  rw [ran] at held looked
  obtain ⟨receiving, rfl⟩ := receiving_of_receiveInto held
  exact ⟨c, k, _, ran, rfl, receiving.exactRead looked⟩

/-- A receive into zeros looks at the same samples as a receive into any other buffer. -/
theorem Link.exactRead_receive (o : Options) (n : Nat) (samples : Nat → Sample ε) :
    ExactRead o n samples ((receive o n).run (.giving samples) 0).1
      ((receive o n).run (.giving samples) 0).2 ((receive o n).transcript (.giving samples) 0) :=
  (receiving_of_held (Dialogue.Held.of_run (.giving samples) (receive o n) 0)).exactRead
    (looks_giving samples (receive o n) 0)

/-- **A receive is an exact bounded read** of whatever the port gives, also into a buffer of which
nothing is known. The received bytes are then in front of the buffer, and the bytes behind them are
what they were. -/
theorem Link.receive_exact (o : Options) (buffer : List UInt8) (samples : Nat → Sample ε) :
    ∃ c k t, (receive o buffer.length).run (.giving samples) 0 = (c, k) ∧
      (receive o buffer.length).transcript (.giving samples) 0 = t ∧
      (receiveInto o buffer).run (.giving samples) 0 = ((c.fill buffer, c), k) ∧
      (receiveInto o buffer).transcript (.giving samples) 0 = t ∧
      ExactRead o buffer.length samples c k t ∧
      (c.fill buffer).take c.bytes.length = c.bytes ∧
      (c.fill buffer).drop c.bytes.length = buffer.drop c.bytes.length ∧
      (c.fill buffer).length = buffer.length ∧ (buffer = [] → k = 0 ∧ t = []) := by
  obtain ⟨c, k, t, ran, made, read⟩ := exactRead_receiveInto o buffer samples
  obtain ⟨same, used, exchanges⟩ := read.unique (exactRead_receive o buffer.length samples)
  refine ⟨c, k, t, Prod.ext same used, exchanges, ran, made, read, List.take_left,
    List.drop_left, c.fill_length buffer read.room, fun empty => ?_⟩
  have none_looked : ¬ 0 < k := fun some =>
    read.undecided 0 some none (.idle (by rw [empty]; rfl))
  obtain rfl := Nat.eq_zero_of_not_pos none_looked
  exact ⟨rfl, read.exchanges⟩

end SamFlash
