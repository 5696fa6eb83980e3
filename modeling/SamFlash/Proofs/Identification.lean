import SamFlash.Proofs.Follows
import SamFlash.Proofs.Framing
import SamFlash.Proofs.Held

/-!
# Finding the chip

`Programmer.findChip` enters binary mode and asks for the chip id; what it finds is looked up in the
table. Identification changes nothing on the target. The chip that is found is the row of the table
whose id the monitor reported; the rows have different ids, so a target that reports its own id is
taken for what it is.

Which words are read depends on what they say. `Monitor.chipId` reads the reset vector first; if
that is an ARM7 branch the id is in one register, and otherwise in another one, unless that reads as
zero, and then in a third. `Monitor.identity` is the same for a target of which all words are given,
and `Monitor.lookups` is the list of the places where such a target is looked at.

What the target reported is a matter of the transcript alone. `Transcript.Reads` holds of words if
every word that was read at one of the addresses of the identification is the one they have there,
and `Transcript.Reports` if there are such words with this id. A call that never asks, because the
chip is known, agrees with every id. `Transcript.MayReport` leaves open that the target tells an id
that no row has.

Before the first word is read the acknowledgement of binary mode is received, and it does not matter
whether it comes (`Link.acknowledged`): only a failure of the port ends the call there.

Results:
* `Programmer.follows_findChip`: identification follows the empty script, gives a row of the table,
  and fails by the link or by an id that no row has.
* `Programmer.findChip_eq`: a target that reports no id but that of its chip is not identified as
  another chip.
-/

namespace SamFlash

variable {ε : Type}

open Link

/-! ## Entering binary mode -/

/-- What becomes of the acknowledgement; only a failure of the port counts. -/
def Link.acknowledged (ack : Reception ε) : Link ε Unit :=
  match ack.error with
  | none => pure ()
  | some (.responseTimeout _ received) => log (.acknowledgementMissing received)
  | some e => fail e

theorem Link.handshake_eq (o : Options) :
    (handshake o : Link ε Unit) = log .binaryModeRequested >>= fun _ =>
      (send Command.binaryMode.header >>= fun _ => flush) >>= fun _ =>
        ExceptT.lift (receive o Command.acknowledgementLength) >>= acknowledged := by
  simp only [handshake, bind_assoc]
  rfl

/-- Entering binary mode sends its command. -/
theorem Link.follows_handshake (o : Options) :
    (handshake o : Link ε Unit).Follows [] (fun _ => True) Failure.IsBareLink := by
  have hs : (send Command.binaryMode.header >>= fun _ => flush : Link ε Unit).Follows []
      (fun _ => True) Failure.IsBareLink :=
    (Monitor.sends_wire (c := .binaryMode) rfl).follows_asking (Nat.two_pow_pos 32) rfl rfl
  have hr : Link.Follows (ExceptT.lift (receive o Command.acknowledgementLength)) []
      (fun ack : Reception ε => ∀ e, ack.error = some e → e.IsBareLink) Failure.IsBareLink := by
    constructor
    · intro t a ht
      obtain ⟨ack, ha, hr⟩ := held_lift_iff.mp ht
      obtain rfl := Except.ok.inj hr
      obtain ⟨q, he⟩ := (receiving_of_held ha).quiet
      exact ⟨q.completes, q.taken_eq, he⟩
    · intro t f ht
      obtain ⟨_, -, hr⟩ := held_lift_iff.mp ht
      exact absurd hr (by simp)
  rw [handshake_eq]
  refine (follows_log rfl).after fun _ => hs.after fun _ => hr.bind fun ack hack => ?_
  unfold acknowledged
  cases hce : ack.error with
  | none => exact follows_pure trivial
  | some e =>
    have he := hack e hce
    cases e with
    | serial e => exact follows_fail he
    | responseTimeout => exact follows_log rfl
    | _ => exact absurd he (by simp [Error.IsBareLink])

/-- What becomes of the acknowledgement sends nothing. -/
theorem Link.accepted_acknowledged {ack : Reception ε} {t : Transcript ε}
    {r : Except (Failure ε) Unit} (h : Held (acknowledged ack) t r) : t.accepted = [] := by
  unfold acknowledged at h
  split at h
  · obtain ⟨rfl, -⟩ := held_pure_iff.mp h
    rfl
  · obtain ⟨_, rfl, -⟩ := held_request_iff.mp h
    rfl
  · obtain ⟨rfl, -⟩ := held_fail_iff.mp h
    rfl

/-- Binary mode is asked for once. -/
theorem Link.accepted_handshake {o : Options} {t : Transcript ε}
    (h : Held (handshake o) t (.ok ())) : t.accepted = Command.stream [.binaryMode] := by
  rw [handshake_eq] at h
  obtain ⟨_, u, hu, rfl⟩ := held_request_bind h
  obtain ⟨_, t₁, t₂, h₁, h₂, rfl⟩ := held_bind_ok hu
  obtain ⟨ack, u₁, u₂, hack, hend, rfl⟩ := held_lift_bind h₂
  rw [Transcript.accepted_append, Transcript.accepted_append, Transcript.accepted_append,
    ((Monitor.sends_wire (c := .binaryMode) rfl).completes h₁).2, (receiving_of_held hack).quiet.1.2,
    accepted_acknowledged hend]
  rfl

/-! ## The chip id -/

namespace Monitor

/-- The words that identification may read. -/
def identifyingAddresses : List Word :=
  [resetVectorAddress, sam7ChipIdAddress, sam3ChipIdAddress, sam3AlternateChipIdAddress]

/-- The chip id of a target that holds these words. -/
def identity (words : Word → Word) : Word :=
  if words resetVectorAddress &&& 0xff000000 = 0xea000000 then words sam7ChipIdAddress
  else if words sam3ChipIdAddress = 0 then words sam3AlternateChipIdAddress
  else words sam3ChipIdAddress

/-- Where identification looks on a target that holds these words. -/
def lookups (words : Word → Word) : List Word :=
  resetVectorAddress ::
    if words resetVectorAddress &&& 0xff000000 = 0xea000000 then [sam7ChipIdAddress]
    else if words sam3ChipIdAddress = 0 then [sam3ChipIdAddress, sam3AlternateChipIdAddress]
    else [sam3ChipIdAddress]

theorem follows_chipId (o : Options) :
    (chipId o : Link ε Word).Follows [] (fun _ => True) Failure.IsBareLink := by
  refine (follows_readWord o _).after fun vector => ?_
  by_cases hv : isArmVector vector = true
  · simp only [if_pos hv]
    exact (follows_log rfl).after fun _ => follows_readWord o _
  · simp only [if_neg hv]
    refine (follows_log rfl).after fun _ => (follows_readWord o _).after fun id => ?_
    by_cases hz : id = 0
    · simp only [if_pos hz]
      exact follows_readWord o _
    · simp only [if_neg hz]
      exact follows_pure trivial

end Monitor

/-- The transcript reads the words where identification looks for them. -/
def Transcript.Reads (t : Transcript ε) (words : Word → Word) : Prop :=
  ∀ addr ∈ Monitor.identifyingAddresses, ∀ value, .read addr value ∈ t.operations →
    value = words addr

/-- The target tells this chip id when it is asked. -/
def Transcript.Reports (t : Transcript ε) (id : Word) : Prop :=
  ∃ words, Monitor.identity words = id ∧ t.Reads words

/-- The target tells the id of the chip `c` when it is asked, or an id that no chip has. -/
def Transcript.MayReport (t : Transcript ε) (c : Chip) : Prop :=
  ∃ words, (Monitor.identity words = c.id ∨ Chip.lookup (Monitor.identity words) = none) ∧
    t.Reads words

/-- A word that is read is the one that the target holds. -/
def Operation.agrees (words : Word → Word) : Operation → Bool
  | read addr value => value == words addr
  | _ => true

theorem Operation.eq_of_agrees {words : Word → Word} {es : List Operation}
    (h : es.all (agrees words) = true) {addr value : Word} (hm : .read addr value ∈ es) :
    value = words addr :=
  eq_of_beq (List.all_eq_true.mp h _ hm)

theorem Transcript.reads_of_agrees {t : Transcript ε} {words : Word → Word}
    (h : t.operations.all (Operation.agrees words) = true) : t.Reads words :=
  fun _ _ _ hm => Operation.eq_of_agrees h hm

theorem Transcript.Reads.of_append {s t : Transcript ε} {words : Word → Word}
    (h : (s ++ t).Reads words) : s.Reads words ∧ t.Reads words := by
  unfold Reads at h
  rw [operations_append] at h
  exact ⟨fun a ha v hv => h a ha v (List.mem_append_left _ hv),
    fun a ha v hv => h a ha v (List.mem_append_right _ hv)⟩

theorem Transcript.Reports.mayReport {t : Transcript ε} {c : Chip} (h : t.Reports c.id) :
    t.MayReport c := by
  obtain ⟨words, hid, hw⟩ := h
  exact ⟨words, Or.inl hid, hw⟩

theorem Transcript.Reports.of_append {s t : Transcript ε} {id : Word}
    (h : (s ++ t).Reports id) : s.Reports id := by
  obtain ⟨words, hid, hw⟩ := h
  exact ⟨words, hid, hw.of_append.1⟩

theorem Transcript.MayReport.of_append {s t : Transcript ε} {c : Chip}
    (h : (s ++ t).MayReport c) : s.MayReport c := by
  obtain ⟨words, hid, hw⟩ := h
  exact ⟨words, hid, hw.of_append.1⟩

namespace Monitor

/-- A word that was read is noted last. -/
theorem held_readWord_ok {o : Options} {addr value : Word} {t : Transcript ε}
    (h : Held (readWord o addr) t (.ok value)) : t.operations = [.read addr value] := by
  obtain ⟨_, t₁, t₂, h₁, h₂, rfl⟩ := held_bind_ok h
  obtain ⟨bytes, u₁, u₂, h₃, h₄, rfl⟩ := held_bind_ok h₂
  obtain ⟨_, v, h₅, rfl⟩ := held_request_bind h₄
  obtain ⟨rfl, hv⟩ := held_pure_iff.mp h₅
  obtain rfl := Except.ok.inj hv
  rw [Transcript.operations_append, Transcript.operations_append,
    ((sends_send _).completes h₁).1.operations_eq, (held_receiveExactly h₃).1.1.operations_eq]
  rfl

/-- A word is read as the target has it. -/
theorem eq_of_reads {o : Options} {addr value : Word} {t : Transcript ε} {words : Word → Word}
    (ha : addr ∈ identifyingAddresses) (hr : t.Reads words)
    (h : Held (readWord o addr) t (.ok value)) : value = words addr :=
  hr addr ha value (by rw [held_readWord_ok h]; exact List.mem_singleton_self _)

/-- A word that was read was asked for. -/
theorem accepted_readWord {o : Options} {addr value : Word} {t : Transcript ε}
    (h : Held (readWord o addr) t (.ok value)) :
    t.accepted = Command.stream [.readWord addr] := by
  obtain ⟨_, t₁, t₂, h₁, h₂, rfl⟩ := held_bind_ok h
  obtain ⟨bytes, u₁, u₂, h₃, h₄, rfl⟩ := held_bind_ok h₂
  obtain ⟨_, v, h₅, rfl⟩ := held_request_bind h₄
  obtain ⟨rfl, -⟩ := held_pure_iff.mp h₅
  rw [Transcript.accepted_append, Transcript.accepted_append, ((sends_send _).completes h₁).2,
    (held_receiveExactly h₃).1.2, Command.stream_cons, Command.wire_eq_header rfl]
  rfl

/-- The chip id is the identity of what is read, and no more is read than it takes. -/
theorem chipId_reads {o : Options} {id : Word} {t : Transcript ε} {words : Word → Word}
    (hr : t.Reads words) (h : Held (chipId o) t (.ok id)) :
    id = identity words ∧ t.accepted = Command.stream ((lookups words).map .readWord) := by
  obtain ⟨vector, t₁, t₂, h₁, h₂, rfl⟩ := held_bind_ok h
  obtain ⟨r₁, r₂⟩ := hr.of_append
  obtain rfl := eq_of_reads (by decide) r₁ h₁
  rw [Transcript.accepted_append, accepted_readWord h₁]
  unfold identity lookups
  simp only [← isArmVector_iff]
  by_cases hv : isArmVector (words resetVectorAddress) = true
  · simp only [if_pos hv] at h₂ ⊢
    obtain ⟨_, u₂, h₃, rfl⟩ := held_request_bind h₂
    refine ⟨eq_of_reads (by decide) r₂.of_append.2 h₃, ?_⟩
    rw [Transcript.accepted_append, accepted_readWord h₃]
    simp [Command.stream, Transcript.accepted, Exchange.accepted?]
  · simp only [if_neg hv] at h₂ ⊢
    obtain ⟨_, u₂, h₃, rfl⟩ := held_request_bind h₂
    obtain ⟨usual, v₁, v₂, h₄, h₅, rfl⟩ := held_bind_ok h₃
    obtain ⟨r₃, r₄⟩ := r₂.of_append.2.of_append
    obtain rfl := eq_of_reads (by decide) r₃ h₄
    rw [Transcript.accepted_append, Transcript.accepted_append, accepted_readWord h₄]
    by_cases hz : words sam3ChipIdAddress = 0
    · simp only [if_pos hz] at h₅ ⊢
      refine ⟨eq_of_reads (by decide) r₄ h₅, ?_⟩
      rw [accepted_readWord h₅]
      simp [Command.stream, Transcript.accepted, Exchange.accepted?]
    · simp only [if_neg hz] at h₅ ⊢
      obtain ⟨rfl, hid⟩ := held_pure_iff.mp h₅
      exact ⟨Except.ok.inj hid, by
        simp [Command.stream, Transcript.accepted, Exchange.accepted?]⟩

theorem chipId_eq {o : Options} {id : Word} {t : Transcript ε} {words : Word → Word}
    (hr : t.Reads words) (h : Held (chipId o) t (.ok id)) : id = identity words :=
  (chipId_reads hr h).1

end Monitor

/-! ## The row of the table -/

namespace Programmer

/-- **Identification** changes nothing, and gives a row of the table. -/
theorem follows_findChip (o : Options) :
    (findChip o : Link ε Chip).Follows [] (fun c => c ∈ Chip.all)
      (fun f => f.IsBareLink ∨ ∃ id, f = .error (.unknownChip id)) := by
  refine (follows_log rfl).after fun _ => ?_
  refine ((follows_handshake o).mono (fun _ h => h) fun _ => Or.inl).after fun _ => ?_
  refine ((Monitor.follows_chipId o).mono (fun _ h => h) fun _ => Or.inl).after fun id => ?_
  cases hl : Chip.lookup id with
  | none => exact (follows_log rfl).after fun _ => follows_fail (Or.inr ⟨id, rfl⟩)
  | some c =>
    exact (follows_log rfl).after fun _ => follows_pure (Chip.lookup_eq_some_iff.mp hl).1

/-- **A target that reports no id but that of its chip**, if it is identified, is identified as that
chip. -/
theorem findChip_eq {o : Options} {c c' : Chip} {t : Transcript ε} (hc : c ∈ Chip.all)
    (hr : t.MayReport c) (h : Link.Held (findChip o) t (.ok c')) : c' = c := by
  obtain ⟨words, hid, hw⟩ := hr
  obtain ⟨_, t₁, t₂, -, h₂, rfl⟩ := Link.held_bind_ok h
  obtain ⟨_, u₁, u₂, -, h₃, rfl⟩ := Link.held_bind_ok h₂
  obtain ⟨id, v₁, v₂, h₄, h₅, rfl⟩ := Link.held_bind_ok h₃
  have hw := hw.of_append.2.of_append.2.of_append.1
  obtain rfl := Monitor.chipId_eq hw h₄
  rcases hid with hid | hid
  · rw [Chip.lookup_eq_some_iff.mpr ⟨hc, hid.symm⟩] at h₅
    obtain ⟨_, w₁, w₂, -, h₆, rfl⟩ := Link.held_bind_ok h₅
    exact Except.ok.inj (Link.held_pure_iff.mp h₆).2
  · rw [hid] at h₅
    obtain ⟨_, w₁, w₂, -, h₆, rfl⟩ := Link.held_bind_ok h₅
    exact absurd (Link.held_fail_iff.mp h₆).2 (by simp)

end Programmer

end SamFlash
