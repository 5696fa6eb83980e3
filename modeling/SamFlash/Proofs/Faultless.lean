import SamFlash.Proofs.History

/-!
# No call faults

An operation may stop because an exact computation has no result (`Link.exact`): a sum or product
that does not fit its width, a difference below zero, a division by zero. No call of a session does.
Whatever the options, the sizes, the images, the ports and the targets are, a call that fails does
so with an error; the error is never that a page is out of range; no size loses bits when it is
turned into a word; and every number that the call tells anyone is the one that unlimited arithmetic
gives. The bounds that this rests on lie far apart: `Programmer.pagesOf` checks the capacity before
pages are counted, the table keeps addresses small, the timer of `Link.receiveFrom` stops at its
largest value, and `FlashController.pollRounds` counts no more rounds than a word counts.

Bytes that come in go to a buffer of known size. There is room in it for every byte that is received
(`Link.receiveFrom` writes none behind the end of its buffer) and for every piece of the image that
is asked for (`Image.read` asks for no more than what is left of a page).

A call is taken apart by `Turn.Held.course`: it identifies the chip, which
`Programmer.composed_findChip` is about, and does its work, which is accurate on a chip of the
table. A programmer that knows a chip knows one of the table, which is an invariant of histories.

Results:
* `Image.room_of_held`: a read of the image never asks for more than it has room for.
* `Turn.Held.faultless`: one call.
* **`sessions_never_fault`**: every call of every history, and the buffers.
-/

namespace SamFlash

variable {ε : Type} {o : Options}

/-- When a read of the image asks for bytes, what it has taken leaves room for them. -/
theorem Image.room_of_held {space limit k : Nat} {d : Delivery k} {s u : Transcript ε}
    {r : Except (Failure ε) (List UInt8)}
    (h : Link.Held (read space limit) (s ++ ⟨.image k, d⟩ :: u) r) :
    s.taken.length + k ≤ space ∧ s.taken.length + k ≤ limit := by
  have first {limit' : Nat} {d' : Delivery limit'} {t : Transcript ε}
      (e : (⟨.image k, d⟩ : Exchange ε) :: u = ⟨.image limit', d'⟩ :: t) : k = limit' :=
    Request.image.inj (congrArg Exchange.request (List.cons.inj e).1)
  replace h := reading_of_held h
  generalize ht : s ++ ⟨.image k, d⟩ :: u = t at h
  induction h generalizing s with
  | full _ => exact absurd ht (by simp)
  | failed _ _ d' _ _ =>
    cases s with
    | nil =>
      obtain rfl := first ht
      exact ⟨by simp [Transcript.taken], by simp [Transcript.taken]⟩
    | cons x s => exact absurd (List.cons.inj ht).2 (by simp)
  | ended _ _ d' _ _ _ =>
    cases s with
    | nil =>
      obtain rfl := first ht
      exact ⟨by simp [Transcript.taken], by simp [Transcript.taken]⟩
    | cons x s => exact absurd (List.cons.inj ht).2 (by simp)
  | piece _ _ d' data settles _ _ ih =>
    cases s with
    | nil =>
      obtain rfl := first ht
      exact ⟨by simp [Transcript.taken], by simp [Transcript.taken]⟩
    | cons x s =>
      obtain ⟨rfl, rest⟩ := List.cons.inj ht
      have later := ih rest
      have hle := data.property
      rw [taken_image settles, List.length_append]
      omega

/-! ## Calls -/

/-- No computation of the call was without a result, and all its numbers are right. -/
structure Turn.Faultless (o : Options) (v : Turn ε) : Prop where
  /-- A failure is an error, and not that a page is out of range. -/
  failure : ∀ f, v.result = .error f → f.IsOrdinary
  /-- A request moves bytes over the link, or identifies the chip, or belongs to the work on the
  chip that the programmer knows behind the call; its numbers are the ones of that chip. -/
  requests : ∀ x ∈ v.exchanges, x.request.IsTransfer o ∨ x.request.Identifies ∨
    ∃ c, v.after.chip = some c ∧ x.request.Accurate o c
  /-- The sizes that are turned into words fit in words. -/
  conversions : ∀ c, v.after.chip = some c → ∀ n, c.Converts n → (Word.ofSize n).toNat = n

/-- **A call** of a programmer at rest. -/
theorem Turn.Held.faultless {v : Turn ε} (h : v.Held o) (hp : v.before.AtRest) :
    v.Faultless o where
  failure f hf := h.ordinary hp.knows hf
  requests := by
    intro x hx
    have identifies {t : Transcript ε} {r : Except (Failure ε) Chip}
        (ht : Link.Held (Programmer.findChip o) t r) (hx : x ∈ t) :
        x.request.IsTransfer o ∨ x.request.Identifies :=
      (Programmer.composed_findChip.asks ht x hx).symm
    cases h.course with
    | lost f _ asked _ _ => exact (identifies asked hx).imp_right Or.inl
    | worked c s u gets work exchanges chip _ =>
      rw [exchanges] at hx
      rcases List.mem_append.mp hx with hx | hx
      · rcases gets with ⟨-, hf⟩ | ⟨-, -, rfl⟩
        · exact (identifies hf hx).imp_right Or.inl
        · exact absurd hx List.not_mem_nil
      · have accurate := (Task.accurate_work (gets.mem hp.knows) v.task).asks work x hx
        exact accurate.symm.imp_right fun ha => Or.inr ⟨c, chip, ha⟩
  conversions c hc _ hn := (Chip.sound_of_mem ((h.lawful hp).rest.knows c hc)).toNat_ofSize hn

/-- **No call faults.** After any calls of a new programmer, with whatever options, sizes, images,
ports and targets, every call was free of faults; and bytes only ever come in where there is room
for them, over the link and from the image. -/
theorem sessions_never_fault {vs : List (Turn ε)} {p : Programmer} (h : History o {} vs p) :
    (∀ v ∈ vs, v.Faultless o) ∧
      (∀ {n : Nat} {s u : Transcript ε} {b : UInt8} {c : Reception ε},
        Dialogue.Held (Link.receive o n) (s ++ ⟨.read, .byte b⟩ :: u) c → s.received.length < n) ∧
      ∀ {space limit k : Nat} {d : Delivery k} {s u : Transcript ε}
        {r : Except (Failure ε) (List UInt8)},
        Link.Held (Image.read space limit) (s ++ ⟨.image k, d⟩ :: u) r →
          s.taken.length + k ≤ space ∧ s.taken.length + k ≤ limit := by
  obtain ⟨-, every⟩ := h.lawful Programmer.atRest_new
  refine ⟨fun v hv => ?_, Link.length_received_lt, Image.room_of_held⟩
  obtain ⟨rest, held, -⟩ := every v hv
  exact held.faultless rest

/-- The calls of a session in which the target is exchanged. -/
theorem sessions_never_fault_swapped :
    History {} {} [Turn.known, Turn.strange, Turn.stale]
        { Turn.acquainted with phase := .complete } ∧
      Turn.known.Faultless {} ∧ Turn.strange.Faultless {} ∧ Turn.stale.Faultless {} := by
  obtain ⟨every, -⟩ := sessions_never_fault History.swapped
  exact ⟨History.swapped, every _ (by simp), every _ (by simp), every _ (by simp)⟩

end SamFlash
