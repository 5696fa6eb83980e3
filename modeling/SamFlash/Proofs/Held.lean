import SamFlash.Programmer
import SamFlash.Transcript

/-!
# How operations are held

A `Dialogue` is a tree of requests, and `Dialogue.Held` is one way through it, with its transcript
and its result. Here the transcripts of an operation of the link or of the programmer are taken
apart along the way the operation is put together. A sequence either stops in its first part, with
that part's failure, or goes on with the value the first part gave; an operation at a stage
(`Link.during`) goes as the operation does, with its failure at that stage; a request, a failure and
an exact computation go in the one way they can. So a module that is about an operation follows its
definition, line by line, and never has to unfold a dialogue.

The calls of the programmer carry what is remembered along, also when they fail.
`Programmer.tracked` makes of this that a call that fails leaves the session failed, and keeps the
chip if there was one (`Programmer.leave`). A call finds its chip (`Programmer.Finds`), without any
exchange if it is known, and the rest of it is one operation of the link (`Programmer.writing`),
framed by two notes of how far the session is.

Dialogues that are held with a device go in the way that the device answers, and what they come to,
with the exchanges, is computed part by part as well.

Results:
* `Dialogue.Held.unique`: the answers decide how a dialogue ends.
* `Dialogue.held_except_bind_iff`, `Link.held_bind_iff`, `Link.held_during_iff`,
  `Programmer.held_bind_iff`: sequences and stages.
* `Dialogue.run_except_bind`, `Dialogue.transcript_except_bind`: a sequence with a device.
* `Programmer.held_program`, `Programmer.held_setBootSource`, `Programmer.held_identify`: a call
  finds the chip, unless it is known, and then holds one operation of the link.
-/

namespace SamFlash

variable {ε α β : Type}

theorem Dialogue.held_map_iff {x : Dialogue ε α} {f : α → β} {t : Transcript ε} {b : β} :
    Held (x.bind fun a => .done (f a)) t b ↔ ∃ a, Held x t a ∧ b = f a := by
  rw [held_bind_iff]
  constructor
  · rintro ⟨a, t₁, t₂, h₁, h₂, rfl⟩
    obtain ⟨rfl, rfl⟩ := held_done_iff.mp h₂
    exact ⟨a, by rwa [List.append_nil], rfl⟩
  · rintro ⟨a, h, rfl⟩
    exact ⟨a, t, [], h, Held.done _, (List.append_nil t).symm⟩

/-- The answers decide how a dialogue goes on and where it ends. -/
theorem Dialogue.Held.unique {x : Dialogue ε α} {s u : Transcript ε} {a b : α} (h : Held x s a)
    (h' : Held x (s ++ u) b) : u = [] ∧ b = a := by
  induction h with
  | done a => exact held_done_iff.mp h'
  | ask ans _ ih =>
    cases h' with
    | ask _ rest => exact ih rest

/-! ## Parts that may fail -/

namespace Dialogue

variable {φ : Type} {f : α → ExceptT φ (Dialogue ε) β} {t : Transcript ε}

/-- A sequence stops in its first part, or goes on with the value of that part. -/
theorem held_except_bind_iff {x : ExceptT φ (Dialogue ε) α} {r : Except φ β} :
    Held (x >>= f).run t r ↔
      (∃ e, Held x.run t (.error e) ∧ r = .error e) ∨
        ∃ a t₁ t₂, Held x.run t₁ (.ok a) ∧ Held (f a).run t₂ r ∧ t = t₁ ++ t₂ := by
  have split : Held (x >>= f).run t r ↔ ∃ s t₁ t₂, Held x.run t₁ s ∧
      Held (ExceptT.bindCont f s) t₂ r ∧ t = t₁ ++ t₂ := held_bind_iff
  rw [split]
  constructor
  · rintro ⟨s, t₁, t₂, h₁, h₂, rfl⟩
    cases s with
    | error e =>
      obtain ⟨rfl, rfl⟩ := held_done_iff.mp h₂
      exact Or.inl ⟨e, by rwa [List.append_nil], rfl⟩
    | ok a => exact Or.inr ⟨a, t₁, t₂, h₁, h₂, rfl⟩
  · rintro (⟨e, h, rfl⟩ | ⟨a, t₁, t₂, h₁, h₂, rfl⟩)
    · exact ⟨.error e, t, [], h, Held.done _, (List.append_nil t).symm⟩
    · exact ⟨.ok a, t₁, t₂, h₁, h₂, rfl⟩

theorem held_except_lift_iff {x : Dialogue ε α} {r : Except φ α} :
    Held (ExceptT.lift x : ExceptT φ (Dialogue ε) α).run t r ↔ ∃ a, Held x t a ∧ r = .ok a :=
  held_map_iff

/-- A dialogue that cannot fail, and what follows it. -/
theorem held_except_lift_bind {x : Dialogue ε α} {r : Except φ β}
    (h : Held (ExceptT.lift x >>= f).run t r) :
    ∃ a t₁ t₂, Held x t₁ a ∧ Held (f a).run t₂ r ∧ t = t₁ ++ t₂ := by
  rcases held_except_bind_iff.mp h with ⟨_, h₁, -⟩ | ⟨a, t₁, t₂, h₁, h₂, rfl⟩
  · obtain ⟨_, -, e⟩ := held_except_lift_iff.mp h₁
    exact absurd e (by simp)
  · obtain ⟨_, hx, e⟩ := held_except_lift_iff.mp h₁
    obtain rfl := Except.ok.inj e
    exact ⟨a, t₁, t₂, hx, h₂, rfl⟩

/-! ### With a device -/

variable {σ : Type} {d : Device σ ε} {s s' : σ}

/-- Where the first part succeeds, a sequence goes on with the second part from where the first one
has left the device. -/
theorem run_except_bind {x : ExceptT φ (Dialogue ε) α} {a : α}
    (h : run d x.run s = (.ok a, s')) : run d (x >>= f).run s = run d (f a).run s' := by
  show run d (x.run.bind _) s = _
  rw [run_bind, h]
  rfl

theorem transcript_except_bind {x : ExceptT φ (Dialogue ε) α} {a : α}
    (h : run d x.run s = (.ok a, s')) :
    transcript d (x >>= f).run s = transcript d x.run s ++ transcript d (f a).run s' := by
  show transcript d (x.run.bind _) s = _
  rw [transcript_bind, h]
  rfl

end Dialogue

/-! ## Operations of the link -/

namespace Link

/-- The operation can be held with the exchanges `t` and then comes to `r`. -/
def Held (x : Link ε α) (t : Transcript ε) (r : Except (Failure ε) α) : Prop :=
  Dialogue.Held x.run t r

theorem held_pure_iff {a : α} {t : Transcript ε} {r : Except (Failure ε) α} :
    Held (pure a) t r ↔ t = [] ∧ r = .ok a :=
  Dialogue.held_done_iff

theorem held_fail_iff {e : Error ε} {t : Transcript ε} {r : Except (Failure ε) α} :
    Held (fail e) t r ↔ t = [] ∧ r = .error (.error e) :=
  Dialogue.held_done_iff

theorem exact_ok (a : α) : (exact (.ok a) : Link ε α) = pure a := rfl

theorem held_request_iff {q : Request} {t : Transcript ε}
    {r : Except (Failure ε) (q.Answer ε)} :
    Held (request q) t r ↔ ∃ a, t = [⟨q, a⟩] ∧ r = .ok a := by
  constructor
  · rintro (_ | ⟨a, rest⟩)
    obtain ⟨rfl, rfl⟩ := Dialogue.held_done_iff.mp rest
    exact ⟨a, rfl, rfl⟩
  · rintro ⟨a, rfl, rfl⟩
    exact Dialogue.Held.ask a (Dialogue.Held.done _)

/-- A sequence stops in its first part, or goes on with the value of that part. -/
theorem held_bind_iff {x : Link ε α} {f : α → Link ε β} {t : Transcript ε}
    {r : Except (Failure ε) β} :
    Held (x >>= f) t r ↔
      (∃ e, Held x t (.error e) ∧ r = .error e) ∨
        ∃ a t₁ t₂, Held x t₁ (.ok a) ∧ Held (f a) t₂ r ∧ t = t₁ ++ t₂ :=
  Dialogue.held_except_bind_iff

/-- A sequence that succeeds does so in both parts. -/
theorem held_bind_ok {x : Link ε α} {f : α → Link ε β} {t : Transcript ε} {b : β}
    (h : Held (x >>= f) t (.ok b)) :
    ∃ a t₁ t₂, Held x t₁ (.ok a) ∧ Held (f a) t₂ (.ok b) ∧ t = t₁ ++ t₂ := by
  rcases held_bind_iff.mp h with ⟨e, -, he⟩ | h
  · exact absurd he (by simp)
  · exact h

/-- A request is answered, and what follows it goes on with the answer. -/
theorem held_request_bind {q : Request} {f : q.Answer ε → Link ε β} {t : Transcript ε}
    {r : Except (Failure ε) β} (h : Held (request q >>= f) t r) :
    ∃ a u, Held (f a) u r ∧ t = [⟨q, a⟩] ++ u := by
  rcases held_bind_iff.mp h with ⟨e, hq, -⟩ | ⟨a, s, u, hq, hu, rfl⟩
  · obtain ⟨_, -, he⟩ := held_request_iff.mp hq
    exact absurd he (by simp)
  · obtain ⟨a', rfl, ha⟩ := held_request_iff.mp hq
    obtain rfl := Except.ok.inj ha
    exact ⟨a, u, hu, rfl⟩

@[simp]
theorem mapError_ok {φ : Type} (f : ε → φ) (a : α) :
    (Except.ok a : Except ε α).mapError f = .ok a := rfl

@[simp]
theorem mapError_error {φ : Type} (f : ε → φ) (e : ε) :
    (Except.error e : Except ε α).mapError f = .error (f e) := rfl

theorem held_during_iff {s : Stage} {x : Link ε α} {t : Transcript ε}
    {r : Except (Failure ε) α} :
    Held (during s x) t r ↔ ∃ r', Held x t r' ∧ r = r'.mapError (·.during s) :=
  Dialogue.held_map_iff

theorem held_lift_iff {x : Dialogue ε α} {t : Transcript ε} {r : Except (Failure ε) α} :
    Held (ExceptT.lift x) t r ↔ ∃ a, Dialogue.Held x t a ∧ r = .ok a :=
  Dialogue.held_except_lift_iff

/-- A dialogue that cannot fail, and what follows it. -/
theorem held_lift_bind {x : Dialogue ε α} {f : α → Link ε β} {t : Transcript ε}
    {r : Except (Failure ε) β} (h : Held (ExceptT.lift x >>= f) t r) :
    ∃ a t₁ t₂, Dialogue.Held x t₁ a ∧ Held (f a) t₂ r ∧ t = t₁ ++ t₂ :=
  Dialogue.held_except_lift_bind h

/-- What a reception counts for when all bytes are needed. -/
def whole (c : Reception ε) : Except (Failure ε) (List UInt8) :=
  match c.error with
  | none => .ok c.bytes
  | some e => .error (.error e)

theorem held_receiveExactly_iff {o : Options} {n : Nat} {t : Transcript ε}
    {r : Except (Failure ε) (List UInt8)} :
    Held (receiveExactly o n) t r ↔
      ∃ c : Reception ε, Dialogue.Held (receive o n) t c ∧ r = whole c := by
  have e : (receiveExactly o n : Link ε _).run =
      (receive o n).bind fun c => .done (whole c) := by
    show (receive o n).bind _ = _
    congr 1
    funext c
    unfold whole
    cases c.error <;> rfl
  unfold Held
  rw [e]
  exact Dialogue.held_map_iff

end Link

/-! ## Operations of the programmer -/

namespace Programmer

/-- From the programmer `p` the operation can be held with the exchanges `t`, comes to `r` and
leaves the programmer as `q`. -/
def Held (x : Call ε α) (p : Programmer) (t : Transcript ε) (r : Except (Failure ε) α)
    (q : Programmer) : Prop :=
  Dialogue.Held (x.run p) t (r, q)

theorem held_pure_iff {a : α} {p q : Programmer} {t : Transcript ε} {r : Except (Failure ε) α} :
    Held (pure a) p t r q ↔ t = [] ∧ r = .ok a ∧ q = p := by
  have h : Held (pure a) p t r q ↔ t = [] ∧ (r, q) = (.ok a, p) := Dialogue.held_done_iff
  rw [h, Prod.mk.injEq]

theorem held_set_iff {p q s : Programmer} {t : Transcript ε} {r : Except (Failure ε) PUnit} :
    Held (set s) p t r q ↔ t = [] ∧ r = .ok ⟨⟩ ∧ q = s := by
  have h : Held (set s) p t r q ↔ t = [] ∧ (r, q) = (.ok ⟨⟩, s) := Dialogue.held_done_iff
  rw [h, Prod.mk.injEq]

theorem held_enter_iff {phase : Phase} {p q : Programmer} {t : Transcript ε}
    {r : Except (Failure ε) Unit} :
    Held (enter phase) p t r q ↔ t = [] ∧ r = .ok () ∧ q = { p with phase := phase } := by
  have h : Held (enter phase) p t r q ↔ t = [] ∧ (r, q) = (.ok (), { p with phase := phase }) :=
    Dialogue.held_done_iff
  rw [h, Prod.mk.injEq]

theorem held_ofLink_iff {x : Link ε α} {p q : Programmer} {t : Transcript ε}
    {r : Except (Failure ε) α} : Held (ofLink x) p t r q ↔ Link.Held x t r ∧ q = p := by
  have h : Held (ofLink x) p t r q ↔ ∃ s, Link.Held x t s ∧ (r, q) = (s, p) :=
    Dialogue.held_map_iff
  rw [h]
  constructor
  · rintro ⟨s, hs, e⟩
    obtain ⟨rfl, rfl⟩ := Prod.mk.inj e
    exact ⟨hs, rfl⟩
  · rintro ⟨hs, rfl⟩
    exact ⟨r, hs, rfl⟩

theorem held_bind_iff {x : Call ε α} {f : α → Call ε β} {p q : Programmer} {t : Transcript ε}
    {r : Except (Failure ε) β} :
    Held (x >>= f) p t r q ↔
      (∃ e, Held x p t (.error e) q ∧ r = .error e) ∨
        ∃ a p' t₁ t₂, Held x p t₁ (.ok a) p' ∧ Held (f a) p' t₂ r q ∧ t = t₁ ++ t₂ := by
  have split : Held (x >>= f) p t r q ↔ ∃ s t₁ t₂, Dialogue.Held (x.run p) t₁ s ∧
      Dialogue.Held (ExceptT.bindCont f s.1 s.2) t₂ (r, q) ∧ t = t₁ ++ t₂ :=
    Dialogue.held_bind_iff
  rw [split]
  constructor
  · rintro ⟨⟨s, p'⟩, t₁, t₂, h₁, h₂, rfl⟩
    cases s with
    | error e =>
      obtain ⟨rfl, h⟩ := Dialogue.held_done_iff.mp h₂
      obtain ⟨rfl, rfl⟩ := Prod.mk.inj h
      exact Or.inl ⟨e, by rwa [List.append_nil], rfl⟩
    | ok a => exact Or.inr ⟨a, p', t₁, t₂, h₁, h₂, rfl⟩
  · rintro (⟨e, h, rfl⟩ | ⟨a, p', t₁, t₂, h₁, h₂, rfl⟩)
    · exact ⟨(.error e, q), t, [], h, Dialogue.Held.done _, (List.append_nil t).symm⟩
    · exact ⟨(.ok a, p'), t₁, t₂, h₁, h₂, rfl⟩

/-- How a call that came to `r` leaves the programmer. -/
def leave (r : Except (Failure ε) α) (q : Programmer) : Programmer :=
  match r with
  | .error (.error _) => { q with phase := .failed }
  | _ => q

theorem held_tracked_iff {x : Call ε α} {p q : Programmer} {t : Transcript ε}
    {r : Except (Failure ε) α} :
    Held (tracked x) p t r q ↔ ∃ q', Held x p t r q' ∧ q = leave r q' := by
  have h : Held (tracked x) p t r q ↔
      ∃ s : Except (Failure ε) α × Programmer, Dialogue.Held (x.run p) t s ∧
        (r, q) = (s.1, leave s.1 s.2) := Dialogue.held_map_iff
  rw [h]
  constructor
  · rintro ⟨s, hs, e⟩
    obtain ⟨rfl, rfl⟩ := Prod.mk.inj e
    exact ⟨s.2, hs, rfl⟩
  · rintro ⟨q', hs, rfl⟩
    exact ⟨(r, q'), hs, rfl⟩

theorem chip_leave (r : Except (Failure ε) α) (q : Programmer) : (leave r q).chip = q.chip := by
  unfold leave
  split <;> rfl

/-! ## Calls -/

/-- The exchanges `t` find the chip `c`: none if it is known. -/
def Finds (o : Options) (p : Programmer) (t : Transcript ε) (c : Chip) : Prop :=
  (p.chip = some c ∧ t = []) ∨ (p.chip = none ∧ Link.Held (findChip o) t (.ok c))

/-- The programmer that knows the chip `c`. -/
def knowing (p : Programmer) (c : Chip) : Programmer :=
  if p.chip.isSome then p else { phase := .connected, chip := some c }

theorem chip_knowing {o : Options} {p : Programmer} {t : Transcript ε} {c : Chip}
    (h : Finds o p t c) : (p.knowing c).chip = some c := by
  rcases h with ⟨h, -⟩ | ⟨h, -⟩
  · simp [knowing, h]
  · simp [knowing, h]

theorem held_detect_iff {o : Options} {p q : Programmer} {t : Transcript ε}
    {r : Except (Failure ε) Chip} :
    Held (detect o) p t r q ↔
      (∃ f, Link.Held (findChip o) t (.error f) ∧ r = .error f ∧ q = p) ∨
        ∃ c, Link.Held (findChip o) t (.ok c) ∧ r = .ok c ∧
          q = { phase := .connected, chip := some c } := by
  unfold detect
  rw [held_bind_iff]
  constructor
  · rintro (⟨e, h, rfl⟩ | ⟨c, p', t₁, t₂, h₁, h₂, rfl⟩)
    · obtain ⟨hf, rfl⟩ := held_ofLink_iff.mp h
      exact Or.inl ⟨e, hf, rfl, rfl⟩
    · obtain ⟨hf, rfl⟩ := held_ofLink_iff.mp h₁
      rcases held_bind_iff.mp h₂ with ⟨e, h, rfl⟩ | ⟨_, p', t₁', t₂', hs, hp, rfl⟩
      · exact absurd (held_set_iff.mp h).2.1 (by simp)
      · obtain ⟨rfl, -, rfl⟩ := held_set_iff.mp hs
        obtain ⟨rfl, rfl, rfl⟩ := held_pure_iff.mp hp
        exact Or.inr ⟨c, by simpa using hf, rfl, rfl⟩
  · rintro (⟨f, h, rfl, rfl⟩ | ⟨c, h, rfl, rfl⟩)
    · exact Or.inl ⟨f, held_ofLink_iff.mpr ⟨h, rfl⟩, rfl⟩
    · refine Or.inr ⟨c, p, t, [], held_ofLink_iff.mpr ⟨h, rfl⟩, ?_, (List.append_nil t).symm⟩
      exact held_bind_iff.mpr (Or.inr ⟨⟨⟩, _, [], [], held_set_iff.mpr ⟨rfl, rfl, rfl⟩,
        held_pure_iff.mpr ⟨rfl, rfl, rfl⟩, rfl⟩)

theorem held_connected_iff {o : Options} {p q : Programmer} {t : Transcript ε}
    {r : Except (Failure ε) Chip} :
    Held (connected o) p t r q ↔
      (∃ f, p.chip = none ∧ Link.Held (findChip o) t (.error f) ∧ r = .error f ∧ q = p) ∨
        ∃ c, Finds o p t c ∧ r = .ok c ∧ q = p.knowing c := by
  obtain ⟨phase, chip⟩ := p
  cases chip with
  | some c =>
    have start : Held (connected o) ⟨phase, some c⟩ t r q ↔
        Held (pure c) ⟨phase, some c⟩ t r q := Iff.rfl
    rw [start]
    simp only [held_pure_iff, Finds, knowing]
    constructor
    · rintro ⟨rfl, rfl, rfl⟩
      exact Or.inr ⟨c, Or.inl ⟨rfl, rfl⟩, rfl, rfl⟩
    · rintro (⟨f, h, -⟩ | ⟨c', ⟨h, rfl⟩ | ⟨h, -⟩, rfl, rfl⟩)
      · exact absurd h (by simp)
      · exact ⟨rfl, by rw [Option.some.inj h], rfl⟩
      · exact absurd h (by simp)
  | none =>
    have start : Held (connected o) ⟨phase, none⟩ t r q ↔
        Held (detect o) ⟨phase, none⟩ t r q := Iff.rfl
    rw [start]
    simp only [held_detect_iff, Finds, knowing]
    simp

/-- A call that finds the chip and then holds an operation of the link. -/
theorem held_connected_bind {o : Options} {f : Chip → Call ε α} {p q : Programmer}
    {t : Transcript ε} {r : Except (Failure ε) α} (h : Held (connected o >>= f) p t r q) :
    (∃ e, p.chip = none ∧ Link.Held (findChip o) t (.error e) ∧ r = .error e ∧ q = p) ∨
      ∃ c t₁ t₂, Finds o p t₁ c ∧ Held (f c) (p.knowing c) t₂ r q ∧ t = t₁ ++ t₂ := by
  rcases held_bind_iff.mp h with ⟨e, h₁, rfl⟩ | ⟨c, p', t₁, t₂, h₁, h₂, rfl⟩
  · rcases held_connected_iff.mp h₁ with ⟨f, hc, hf, hr, rfl⟩ | ⟨c, -, hr, -⟩
    · obtain rfl := Except.error.inj hr
      exact Or.inl ⟨e, hc, hf, rfl, rfl⟩
    · exact absurd hr (by simp)
  · rcases held_connected_iff.mp h₁ with ⟨f, -, -, hr, -⟩ | ⟨c', hc, hr, rfl⟩
    · exact absurd hr (by simp)
    · obtain rfl := Except.ok.inj hr
      exact Or.inr ⟨c, t₁, t₂, hc, h₂, rfl⟩

/-- What a program call does once it has the chip. -/
def writing (o : Options) (c : Chip) (size : Nat) (observed : Bool) : Link ε Unit := do
  let pages ← pagesOf c size
  if pages = 0 then Link.log .imageEmpty else writePages o c size pages observed

/-- An operation of the link whose success is marked. -/
theorem held_ofLink_enter {x : Link ε Unit} {phase : Phase} {p q : Programmer}
    {t : Transcript ε} {r : Except (Failure ε) Unit}
    (h : Held (ofLink x >>= fun _ => enter phase) p t r q) :
    Link.Held x t r ∧ q.chip = p.chip ∧ (r = .ok () → q.phase = phase) := by
  rcases held_bind_iff.mp h with ⟨f, hx, rfl⟩ | ⟨_, p', t₁, t₂, h₁, h₂, rfl⟩
  · obtain ⟨hl, rfl⟩ := held_ofLink_iff.mp hx
    exact ⟨hl, rfl, by simp⟩
  · obtain ⟨hl, rfl⟩ := held_ofLink_iff.mp h₁
    obtain ⟨rfl, rfl, rfl⟩ := held_enter_iff.mp h₂
    exact ⟨by simpa using hl, rfl, fun _ => rfl⟩

/-- **A program call** fails to find the chip, or finds it and holds `writing`. -/
theorem held_program {o : Options} {size : Nat} {observed : Bool} {p q : Programmer}
    {t : Transcript ε} {r : Except (Failure ε) Unit}
    (h : Held (program o size observed) p t r q) :
    (∃ f, p.chip = none ∧ Link.Held (findChip o) t (.error f) ∧ r = .error f ∧ q.chip = none) ∨
      ∃ c t₁ t₂, Finds o p t₁ c ∧ Link.Held (writing o c size observed) t₂ r ∧ t = t₁ ++ t₂ ∧
        q.chip = some c ∧ (r = .ok () → q.phase = .complete) := by
  obtain ⟨q', hw, rfl⟩ := held_tracked_iff.mp h
  rcases held_connected_bind hw with ⟨f, hc, hf, rfl, rfl⟩ | ⟨c, t₁, t₂, hc, ha, rfl⟩
  · exact Or.inl ⟨f, hc, hf, rfl, (chip_leave _ _).trans hc⟩
  refine Or.inr ⟨c, t₁, t₂, hc, ?_⟩
  rw [chip_leave, ← chip_knowing hc]
  unfold writing
  rw [Link.held_bind_iff]
  rcases held_bind_iff.mp ha with ⟨f, h₁, rfl⟩ | ⟨pages, p', u₁, u₂, h₁, h₂, rfl⟩
  · obtain ⟨hf, rfl⟩ := held_ofLink_iff.mp h₁
    exact ⟨Or.inl ⟨f, hf, rfl⟩, rfl, rfl, by simp⟩
  · obtain ⟨hp, rfl⟩ := held_ofLink_iff.mp h₁
    suffices hs : Link.Held (if pages = 0 then Link.log .imageEmpty
        else writePages o c size pages observed) u₂ r ∧ q'.chip = (p.knowing c).chip ∧
        (r = .ok () → (leave r q').phase = .complete) from
      ⟨Or.inr ⟨pages, u₁, u₂, hp, hs.1, rfl⟩, rfl, hs.2⟩
    by_cases hz : pages = 0
    · rw [if_pos hz] at h₂ ⊢
      obtain ⟨hl, hq, hr⟩ := held_ofLink_enter h₂
      exact ⟨hl, hq, fun e => by rw [e]; exact hr e⟩
    · rw [if_neg hz] at h₂ ⊢
      rcases held_bind_iff.mp h₂ with ⟨f, he, rfl⟩ | ⟨_, p'', v₁, v₂, he, hl, rfl⟩
      · exact absurd (held_enter_iff.mp he).2.1 (by simp)
      · obtain ⟨rfl, -, rfl⟩ := held_enter_iff.mp he
        obtain ⟨hl, hq, hr⟩ := held_ofLink_enter hl
        exact ⟨hl, hq, fun e => by rw [e]; exact hr e⟩

/-- **A change of the boot source** fails to find the chip, or finds it and writes the flag. -/
theorem held_setBootSource {o : Options} {fromFlash : Bool} {p q : Programmer}
    {t : Transcript ε} {r : Except (Failure ε) Unit}
    (h : Held (setBootSource o fromFlash) p t r q) :
    (∃ f, p.chip = none ∧ Link.Held (findChip o) t (.error f) ∧ r = .error f ∧ q.chip = none) ∨
      ∃ c t₁ t₂, Finds o p t₁ c ∧ Link.Held (writeBootFlag o c fromFlash) t₂ r ∧ t = t₁ ++ t₂ ∧
        q.chip = some c := by
  obtain ⟨q', hw, rfl⟩ := held_tracked_iff.mp h
  rcases held_connected_bind hw with ⟨f, hc, hf, rfl, rfl⟩ | ⟨c, t₁, t₂, hc, hl, rfl⟩
  · exact Or.inl ⟨f, hc, hf, rfl, (chip_leave _ _).trans hc⟩
  · obtain ⟨hb, rfl⟩ := held_ofLink_iff.mp hl
    exact Or.inr ⟨c, t₁, t₂, hc, hb, rfl, (chip_leave _ _).trans (chip_knowing hc)⟩

/-- **An identification** finds the chip anew, and keeps the one it knew if it fails. -/
theorem held_identify {o : Options} {p q : Programmer} {t : Transcript ε}
    {r : Except (Failure ε) Chip} (h : Held (identify o) p t r q) :
    Link.Held (findChip o) t r ∧ (q.chip = p.chip ∨ ∃ c, r = .ok c ∧ q.chip = some c) := by
  obtain ⟨q', hw, rfl⟩ := held_tracked_iff.mp h
  rw [chip_leave]
  rcases held_detect_iff.mp hw with ⟨f, hf, rfl, rfl⟩ | ⟨c, hf, rfl, rfl⟩
  · exact ⟨hf, Or.inl rfl⟩
  · exact ⟨hf, Or.inr ⟨c, rfl, rfl⟩⟩

end Programmer

end SamFlash
