import Mathlib
import SamFlash.Proofs.InStep

/-!
# Whose reply a word comes from

The words that identification reads are put together from four reply bytes each, and nothing in
those bytes says which command they answer: `Monitor.readWord` sends its command and takes the next
four bytes that come. Replies may take any time: as long as no acknowledgement of binary mode
arrives behind the moment the host stops waiting for it, every word is the one that the monitor sent
for that read, and a chip that is found is the chip whose id the target holds.

For a word, a reply that is too late is a failure of the link, and the call ends. The
acknowledgement is different, and the condition on it is needed. `Link.handshake` goes on when its
acknowledgement does not come, as a monitor that is in binary mode already may leave it out, and
does not discard it if it comes later; its bytes are then taken for the first bytes of the next
word, and all words after it are shifted. `Programmer.late_acknowledgement_misread` is a target that
is in no table and is taken for a part of it: with two bytes of something else in front, its words
spell the id of that part.

The line is a `Line`, on which every queued byte is kept with the command that it answers, so that
the words of a transcript can be compared with what the monitor sent for them
(`Transcript.Faithful`).

Results:
* `Programmer.identity_of_findChip`: a chip that is found has the id that was read.
* **`Programmer.identify_attributes_replies`**: identification on a line with arbitrary delays.
* `Programmer.late_acknowledgement_misread`: a target that is identified as a chip it is not.
-/

namespace SamFlash.Programmer

variable {ε : Type} {o : Options} {m : Manner} {words : Word → Word}

/-- A chip that is found has the id that the words tell. -/
theorem identity_of_findChip {t : Transcript ε} {c : Chip} (hw : t.Reads words)
    (h : Link.Held (findChip o) t (.ok c)) : Monitor.identity words = c.id := by
  rw [findChip_split] at h
  obtain ⟨id, t₁, t₂, h₁, h₂, rfl⟩ := Link.held_bind_ok h
  obtain ⟨_, u₁, u₂, -, h₃, rfl⟩ := Link.held_bind_ok h₁
  obtain ⟨_, v₁, v₂, -, h₄, rfl⟩ := Link.held_bind_ok h₃
  obtain rfl := Monitor.chipId_eq hw.of_append.1.of_append.2.of_append.2 h₄
  unfold recognized at h₂
  split at h₂
  · obtain ⟨_, w₁, w₂, -, h₅, rfl⟩ := Link.held_bind_ok h₂
    exact absurd (Link.held_fail_iff.mp h₅).2 (by simp)
  · rename_i chip hl
    obtain ⟨_, w₁, w₂, -, h₅, rfl⟩ := Link.held_bind_ok h₂
    obtain rfl := Except.ok.inj (Link.held_pure_iff.mp h₅).2
    exact (Chip.lookup_eq_some_iff.mp hl).2.symm

/-- **Replies are attributed to their reads.** On a line with any delays, on which the
acknowledgement of binary mode is missing or in time, every word that identification reads is the
word that the monitor sent for that read, and a chip that it gives is the one whose id the target
holds. -/
theorem identify_attributes_replies (hm : ¬ m.late .binaryMode)
    (hw : ∀ addr value, m.holds addr value → value = words addr) {l l' : Line} (hl : l.Idle)
    {p q : Programmer} {t : Transcript ε} {r : Except (Failure ε) Chip}
    (h : Held (identify o) p t r q) (hs : l.Serves m o t l') :
    t.Faithful m ∧ ∀ c, r = .ok c → Monitor.identity words = c.id := by
  have hf := (held_identify h).1
  have faithful := ((inStep_findChip hm).keeps hf hs hl).1
  refine ⟨faithful, ?_⟩
  rintro c rfl
  exact identity_of_findChip (fun addr _ value hr => hw addr value (faithful addr value hr)) hf

/-! ## Two late targets -/

/-- A host that does not wait for long. -/
def hasty : Options := { responseTimeout := 5 }

/-- The identification of a target by a hasty host. -/
def hastyCall : Dialogue Unit (Except (Failure Unit) Chip × Programmer) := (identify hasty).run {}

/-- A target that sends no acknowledgement, and is late with its first word, but not too late. -/
def unacknowledged : Transcript Unit :=
  hastyCall.transcript (Rig.device [] (Bench.steadyWords Bench.part)) (Rig.fresh 4 [])

theorem hastyCall_unacknowledged :
    (hastyCall.run (Rig.device [] (Bench.steadyWords Bench.part)) (Rig.fresh 4 [])).1 =
      (.ok Bench.part, ⟨.connected, some Bench.part⟩) := by
  cbv

/-- Such a target is identified as what it is. -/
theorem identify_attributes_replies_unacknowledged :
    unacknowledged.Faithful
        (Rig.manner (Bench.steadyWords Bench.part) fun cmd => cmd ≠ .binaryMode) ∧
      Monitor.identity (Bench.steadyWords Bench.part) = Bench.part.id := by
  have held := Dialogue.Held.of_run (Rig.device [] (Bench.steadyWords Bench.part)) hastyCall
    (Rig.fresh 4 [])
  rw [hastyCall_unacknowledged] at held
  have patient : (Rig.fresh 4 []).Patient [] (Bench.steadyWords Bench.part)
      fun cmd => cmd ≠ .binaryMode := by
    refine Or.inr ⟨?_, by simp [Rig.fresh]⟩
    rintro _ hr rfl
    exact hr rfl
  have serves := Rig.serves_device (o := hasty) (Nat.zero_le _) hastyCall patient
  obtain ⟨faithful, identified⟩ := identify_attributes_replies
    (m := Rig.manner (Bench.steadyWords Bench.part) fun cmd => cmd ≠ .binaryMode)
    (fun late => late rfl) (fun _ _ holds => holds) (Rig.idle_fresh 4 []) held serves
  exact ⟨faithful, identified _ rfl⟩

/-- The words of a target of another make. Read with two bytes of something else in front, they
spell the id of the part on the bench. -/
def foreignWords (addr : Word) : Word :=
  if addr = Monitor.resetVectorAddress then 0x0a6087ff
  else if addr = Monitor.sam3ChipIdAddress then 0x1234285e
  else 0

/-- That target acknowledges, but later than the host waits for it. -/
def misread : Transcript Unit :=
  hastyCall.transcript (Rig.device [0x0a, 0x0d] foreignWords) (Rig.fresh 6 [])

theorem hastyCall_misread :
    (hastyCall.run (Rig.device [0x0a, 0x0d] foreignWords) (Rig.fresh 6 [])).1 =
      (.ok Bench.part, ⟨.connected, some Bench.part⟩) := by
  cbv

/-- **A late acknowledgement is taken for a word.** On a line that loses nothing, a target that
holds the id 0x1234285e is identified as a part with another id: the two bytes of its
acknowledgement came when the host had given them up. -/
theorem late_acknowledgement_misread :
    Held (identify hasty) {} misread (.ok Bench.part) ⟨.connected, some Bench.part⟩ ∧
      (∃ l', (Rig.fresh 6 []).line.Serves (Rig.manner foreignWords fun _ => True) hasty misread
        l') ∧
      Monitor.identity foreignWords = 0x1234285e ∧ Bench.part.id = 0x285e0a60 := by
  have held := Dialogue.Held.of_run (Rig.device [0x0a, 0x0d] foreignWords) hastyCall
    (Rig.fresh 6 [])
  rw [hastyCall_misread] at held
  have patient : (Rig.fresh 6 []).Patient [0x0a, 0x0d] foreignWords fun _ => True :=
    Or.inr ⟨fun _ _ => trivial, fun _ _ => trivial⟩
  have serves := Rig.serves_device (o := hasty)
    (show ([0x0a, 0x0d] : List UInt8).length ≤ Command.acknowledgementLength by decide)
    hastyCall patient
  exact ⟨held, ⟨_, serves⟩, by decide, rfl⟩

end SamFlash.Programmer
