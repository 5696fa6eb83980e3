import SamFlash.Proofs.History

/-!
# Which detection a write rests on

A call that changes the target works on a chip, and the chip was found by some detection: one that
the call makes itself, before it changes anything, or the last one in the history that succeeded.
`Programmer.connected` gives the chip that the programmer remembers and detects only if there is
none, so `Programmer.program` and `Programmer.setBootSource` need no call of `Programmer.identify`
before them, and a programmer that never found a chip changes nothing before it finds one.

What is remembered is only replaced, never dropped. `Programmer.detect` remembers a chip when it has
found it and forgets none when it has not: a detection that fails, for a chip that is in no table or
for the link, leaves the chip of an earlier one in place, with the session failed. The call after it
works on that chip without asking again, whatever target is connected by then. `Turn.stale_writes`
is such a history: a part of the table is identified, another target takes its place and is not
identified, and an image is written to it all the same.

Nothing is said about who answers; each turn of a `History` may be held with another target. That a
turn changes nothing is said of both views of it, what the host notes and what the port has taken
(`Transcript.Harmless`).

Results:
* `Turn.Held.remembers`: a chip that is known after a turn was found in it, or known before it.
* `History.lastFound`: the chip that a new programmer knows is the last one that was found.
* **`writes_rest_on_a_detection`**: every turn changes nothing, or detects first, or works on the
  chip that was found last.
* `Turn.stale_writes`: a call that writes although the detection before it failed.
-/

namespace SamFlash

variable {ε : Type} {o : Options} {c : Chip}

/-- Nothing that changes the target is given to the port, nor begun. -/
structure Transcript.Harmless (t : Transcript ε) : Prop where
  effects : t.effects = []
  operations : ∀ op ∈ t.operations, op.IsRead

/-- Looking for the chip changes nothing, whether it is found or not. -/
theorem Programmer.harmless_findChip {t : Transcript ε} {r : Except (Failure ε) Chip}
    (h : Link.Held (findChip o) t r) : t.Harmless := by
  refine ⟨?_, reads_findChip h⟩
  cases r with
  | ok c => exact ((follows_findChip o).completes h).1.effects
  | error f => exact List.prefix_nil.mp ((follows_findChip o).breaks h).1.effects

/-- The last turn that found a chip found `c`. -/
def LastFound (o : Options) (vs : List (Turn ε)) (c : Chip) : Prop :=
  ∃ front v back, vs = front ++ v :: back ∧ v.Finds o c ∧ ∀ w ∈ back, ∀ c', ¬ w.Finds o c'

namespace LastFound

variable {vs : List (Turn ε)} {v : Turn ε}

theorem concat_of_finds (hv : v.Finds o c) : LastFound o (vs ++ [v]) c :=
  ⟨vs, v, [], rfl, hv, by simp⟩

theorem concat (h : LastFound o vs c) (hv : ∀ c', ¬ v.Finds o c') :
    LastFound o (vs ++ [v]) c := by
  obtain ⟨front, u, back, rfl, hu, hb⟩ := h
  refine ⟨front, u, back ++ [v], by simp, hu, fun w hw => ?_⟩
  rcases List.mem_append.mp hw with hw | hw
  · exact hb w hw
  · rwa [List.mem_singleton.mp hw]

theorem exists_finds (h : LastFound o vs c) : ∃ v ∈ vs, v.Finds o c := by
  obtain ⟨front, v, back, rfl, hv, -⟩ := h
  exact ⟨v, by simp, hv⟩

end LastFound

namespace Turn

variable {v : Turn ε}

/-- A turn that fails to find the chip finds none. -/
theorem not_finds_of_lost {f : Failure ε}
    (h : Link.Held (Programmer.findChip o) v.exchanges (.error f)) (c : Chip) :
    ¬ v.Finds o c := by
  rintro ⟨-, s, u, he, hs⟩
  rw [he] at h
  exact absurd (Dialogue.Held.unique hs h).2 (by simp)

/-- **A chip that is known** after a turn was found in it, or was known before and nothing was found
in it. -/
theorem Held.remembers (h : v.Held o) (hc : v.after.chip = some c) :
    v.Finds o c ∨ v.before.chip = some c ∧ ∀ c', ¬ v.Finds o c' := by
  cases h.course with
  | lost f _ asked _ chip => exact Or.inr ⟨chip.symm.trans hc, not_finds_of_lost asked⟩
  | worked c' s u gets _ exchanges chip _ =>
    obtain rfl := Option.some.inj (chip.symm.trans hc)
    rcases gets with ⟨looks, hf⟩ | ⟨known, hk, -⟩
    · exact Or.inl ⟨looks, s, u, exchanges, hf⟩
    · exact Or.inr ⟨hk, fun c'' hf => known hf.1⟩

/-- The turn finds `c` before it changes anything, and then works on it. -/
def DetectsFirst (o : Options) (v : Turn ε) (c : Chip) : Prop :=
  v.task.Looks v.before ∧ ∃ s u, v.exchanges = s ++ u ∧ s.Harmless ∧
    Link.Held (Programmer.findChip o) s (.ok c) ∧ Link.Held (v.task.work o c) u v.result

/-- The turn works on `c` without looking for the chip. -/
def WorksOn (o : Options) (v : Turn ε) (c : Chip) : Prop :=
  ¬ v.task.Looks v.before ∧ Link.Held (v.task.work o c) v.exchanges v.result

/-- A turn changes nothing, or detects first, or works on the chip that is known. -/
theorem Held.safe (h : v.Held o) :
    v.exchanges.Harmless ∨ (∃ c, v.DetectsFirst o c) ∨
      ∃ c, v.before.chip = some c ∧ v.WorksOn o c := by
  cases h.course with
  | lost f _ asked _ _ => exact Or.inl (Programmer.harmless_findChip asked)
  | worked c s u gets work exchanges _ _ =>
    rcases gets with ⟨looks, hf⟩ | ⟨known, hk, rfl⟩
    · exact Or.inr (Or.inl ⟨c, looks, s, u, exchanges, Programmer.harmless_findChip hf, hf, work⟩)
    · exact Or.inr (Or.inr ⟨c, hk, known, by rwa [exchanges]⟩)

end Turn

/-- A chip that is known at the end of a history was found in it, unless it was known before, and it
is the last one that was found. -/
theorem History.lastFound {p q : Programmer} {vs : List (Turn ε)} (h : History o p vs q)
    (front : List (Turn ε)) (hp : ∀ c, p.chip = some c → LastFound o front c)
    (hc : q.chip = some c) : LastFound o (front ++ vs) c := by
  induction h generalizing front with
  | nil p =>
    rw [List.append_nil]
    exact hp c hc
  | @cons v vs q held _ ih =>
    rw [List.append_cons]
    refine ih _ (fun c' hc' => ?_) hc
    rcases held.remembers hc' with hf | ⟨hk, none⟩
    · exact .concat_of_finds hf
    · exact (hp c' hk).concat none

/-- **Writes rest on a detection.** In every history of a new programmer, with any targets, a turn
changes nothing, or detects before it changes anything, or works on the chip that was found last. As
long as no chip has been found, one of the first two is the case. -/
theorem writes_rest_on_a_detection (front : List (Turn ε)) {back : List (Turn ε)} {w : Turn ε}
    {q : Programmer} (h : History o {} (front ++ w :: back) q) :
    (w.exchanges.Harmless ∨ (∃ c, w.DetectsFirst o c) ∨
      ∃ c, LastFound o front c ∧ w.WorksOn o c) ∧
    ((∀ v ∈ front, ∀ c, ¬ v.Finds o c) →
      w.exchanges.Harmless ∨ ∃ c, w.DetectsFirst o c) := by
  obtain ⟨p, hfront, hw⟩ := History.append_iff.mp h
  obtain ⟨rfl, held, -⟩ := History.cons_iff.mp hw
  have found {c : Chip} (hc : w.before.chip = some c) : LastFound o front c :=
    hfront.lastFound [] (fun c' hc' => absurd hc' (by simp)) hc
  have safe : w.exchanges.Harmless ∨ (∃ c, w.DetectsFirst o c) ∨
      ∃ c, LastFound o front c ∧ w.WorksOn o c := by
    rcases held.safe with harmless | detects | ⟨c, hc, works⟩
    · exact Or.inl harmless
    · exact Or.inr (Or.inl detects)
    · exact Or.inr (Or.inr ⟨c, found hc, works⟩)
  refine ⟨safe, fun none => ?_⟩
  rcases safe with harmless | detects | ⟨c, last, -⟩
  · exact Or.inl harmless
  · exact Or.inr detects
  · obtain ⟨v, hv, hf⟩ := last.exists_finds
    exact absurd hf (none v hv c)

/-- Of three turns the first finds the part on the bench by a detection of its own, and the last one
rests on the detection of an earlier turn, or makes one. -/
theorem writes_rest_on_a_detection_swapped :
    History {} {} ([Turn.known, Turn.strange] ++ Turn.stale :: [])
        { Turn.acquainted with phase := .complete } ∧
      (Turn.known.exchanges.Harmless ∨ ∃ c, Turn.known.DetectsFirst {} c) ∧
      (Turn.stale.exchanges.Harmless ∨ (∃ c, Turn.stale.DetectsFirst {} c) ∨
        ∃ c, LastFound {} [Turn.known, Turn.strange] c ∧ Turn.stale.WorksOn {} c) :=
  ⟨History.swapped, (writes_rest_on_a_detection [] History.swapped).2 (by simp),
    (writes_rest_on_a_detection [Turn.known, Turn.strange] History.swapped).1⟩

namespace Turn

theorem strange_misses : Link.Held (Programmer.findChip {}) strange.exchanges
    (.error (.error (.unknownChip 0x12345678))) := by
  have result := strange_goes.1
  cases (held_ofRun _ _ _ _ _ : strange.Held {}).course with
  | lost f _ asked hr _ =>
    obtain rfl := Except.error.inj (hr.symm.trans result)
    exact asked
  | worked c s u _ work _ _ _ =>
    obtain ⟨-, hr⟩ := Link.held_pure_iff.mp work
    exact absurd (hr.symm.trans result) (by simp)

theorem stale_stores :
    stale.exchanges.effects.head? = some (.writeBlock 0x20001000 Applet.code) := by
  have held : Programmer.Held (Programmer.program {} 1 false) stale.before stale.exchanges
      stale.result stale.after := (held_ofRun _ _ _ _ _ : stale.Held {})
  rw [(Programmer.effects_of_known (c := Bench.part) (by decide) rfl held).2 stale_goes.1
    Nat.one_pos]
  rfl

/-- **A stale chip is written to.** The last detection before the third turn met an unknown chip;
that turn detects nothing, and stores the applet all the same. -/
theorem stale_writes :
    History {} {} [known, strange, stale] { acquainted with phase := .complete } ∧
      Link.Held (Programmer.findChip {}) strange.exchanges
        (.error (.error (.unknownChip 0x12345678))) ∧
      ¬ (stale.exchanges.Harmless ∨ ∃ c, stale.DetectsFirst {} c) := by
  refine ⟨History.swapped, strange_misses, ?_⟩
  rintro (harmless | ⟨c, looks, -⟩)
  · have := stale_stores
    rw [harmless.effects] at this
    exact absurd this (by simp)
  · rcases looks with h | h
    · exact absurd h (by decide)
    · exact absurd h (by decide)

end Turn

end SamFlash
