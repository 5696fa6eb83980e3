import SamFlash.Proofs.Bench
import SamFlash.Proofs.Operations

/-!
# Sending and receiving

What the port has taken when a sequence of sends and flushes stops (`Link.send`, `Link.flush`): all
of it if it succeeds, a first part of it if it fails, and all of it with a failure only if the last
flush is what failed. A byte is sent when the port has taken it, after any number of attempts; the
first byte that is refused ends the sequence. On a bench nothing is refused.

A receive sends nothing. `Link.Receiving` is `Link.receiveFrom` request by request, with the bytes
received so far, the room that is left and the timer: a byte, a look in vain with a pause behind it,
a failure of the port, or a look in vain when the time is over. What it comes to can be read off it,
and what is in its buffer as well; the modules about receives use it and not the recursion. How many
bytes come is not said here, except for a bench, where the reply is in the queue and comes in time.

The failures of both are failures of the link without a stage (`Failure.IsBareLink`). `Link.during`
adds one where a page is written or the boot flag is changed, so a failure says by its stage, or by
having none, where it came from (`Failure.IsAt`, `Failure.IsNear`).

Results:
* `Link.Sends.bind`: sending one piece after another sends both.
* `Link.sends_send`, `Link.sends_flush`: the two port operations.
* `Link.receiving_of_receiveInto`, `Link.receiving_of_held`: a receive, look by look, with its
  buffer and without.
* `Link.held_receiveExactly`: a receive notes nothing and sends nothing, and fails for a reason of
  the link.
* `Link.Receiving.delivered`: on a bench a receive gets the reply.
-/

namespace SamFlash

variable {ε α β : Type}

/-! ## Kinds of failures -/

/-- The stage that an error carries. -/
def Error.stage? : Error ε → Option Stage
  | transfer stage _ => some stage
  | transferTimeout stage _ _ => some stage
  | flashLock _ stage => some stage
  | flashCommandTimeout _ stage _ => some stage
  | _ => none

namespace Failure

/-- A link failure without a stage. -/
def IsBareLink : Failure ε → Prop
  | error e => e.IsBareLink
  | fault _ => False

/-- An error of the stage. -/
def IsAt (stage : Stage) (f : Failure ε) : Prop := ∃ e, f = error e ∧ e.stage? = some stage

/-- An error that is of the stage once the stage has been added. -/
def IsNear (stage : Stage) (f : Failure ε) : Prop := f.IsBareLink ∨ f.IsAt stage

theorem IsNear.during {stage : Stage} {f : Failure ε} (h : f.IsNear stage) :
    (f.during stage).IsAt stage := by
  rcases h with h | ⟨e, rfl, h⟩
  · cases f with
    | fault _ => exact absurd h (by simp [IsBareLink])
    | error e =>
      refine ⟨e.during stage, rfl, ?_⟩
      cases e <;> simp_all [IsBareLink, Error.IsBareLink, Error.during, Error.stage?]
  · refine ⟨e.during stage, rfl, ?_⟩
    cases e <;> simp_all [Error.during, Error.stage?]

theorem IsBareLink.near {stage : Stage} {f : Failure ε} (h : f.IsBareLink) : f.IsNear stage :=
  Or.inl h

end Failure

/-! ## Sending -/

/-- The last exchange is a flush that failed. -/
def Transcript.EndsInFlush (t : Transcript ε) : Prop :=
  ∃ u a e, t = u ++ [⟨.flush, a⟩] ∧ a.settle = .error e

theorem Transcript.EndsInFlush.append_left {t : Transcript ε} (h : t.EndsInFlush)
    (s : Transcript ε) : (s ++ t).EndsInFlush := by
  obtain ⟨u, a, e, rfl, he⟩ := h
  exact ⟨s ++ u, a, e, (List.append_assoc s u _).symm, he⟩

/-- Nothing is noted, taken or sent. -/
def Transcript.Quiet (t : Transcript ε) : Prop := t.Plain ∧ t.accepted = []

theorem Transcript.quiet_nil : Quiet ([] : Transcript ε) := ⟨by simp [Plain], rfl⟩

theorem Transcript.Quiet.cons {x : Exchange ε} {t : Transcript ε} (h : t.Quiet)
    (ho : x.operation? = none) (ht : x.taken = []) (ha : x.accepted? = none) :
    Quiet (x :: t) := by
  refine ⟨?_, by rw [accepted_cons, ha, h.2]; rfl⟩
  intro y hy
  rcases List.mem_cons.mp hy with rfl | hy
  · exact ⟨ho, ht⟩
  · exact h.1 y hy

theorem Transcript.Quiet.append {s t : Transcript ε} (hs : s.Quiet) (ht : t.Quiet) :
    (s ++ t).Quiet :=
  ⟨hs.1.append ht.1, by rw [accepted_append, hs.2, ht.2]; rfl⟩

/-- A pause of zero milliseconds counts as one. -/
theorem Word.toNat_max_one (w : Word) : (max w 1).toNat = max w.toNat 1 := by
  have h1 : UInt32.toNat 1 = 1 := rfl
  show (if w ≤ 1 then 1 else w : Word).toNat = _
  by_cases h : w ≤ 1
  · have := UInt32.le_iff_toNat_le.mp h
    rw [if_pos h]
    omega
  · have : ¬ w.toNat ≤ UInt32.toNat 1 := fun hle => h (UInt32.le_iff_toNat_le.mpr hle)
    rw [if_neg h]
    omega

namespace Link

/-- The operation sends the bytes and nothing else, or fails on the way. -/
structure Sends (x : Link ε Unit) (bs : List UInt8) : Prop where
  completes : ∀ {t}, Held x t (.ok ()) → t.Plain ∧ t.accepted = bs
  breaks : ∀ {t f}, Held x t (.error f) → t.Plain ∧ f.IsBareLink ∧ t.accepted <+: bs ∧
    (t.accepted = bs → t.EndsInFlush)
  delivers : ∀ {o t r} {b b' : Bench}, Held x t r → b.Serves o t b' → r = .ok () ∧ b.Sent bs b'

theorem Sends.bind {x y : Link ε Unit} {bs cs : List UInt8} (hx : x.Sends bs) (hy : y.Sends cs) :
    (x >>= fun _ => y).Sends (bs ++ cs) where
  completes := by
    intro t h
    rcases held_bind_iff.mp h with ⟨f, -, hr⟩ | ⟨_, t₁, t₂, h₁, h₂, rfl⟩
    · exact absurd hr (by simp)
    · obtain ⟨p₁, a₁⟩ := hx.completes h₁
      obtain ⟨p₂, a₂⟩ := hy.completes h₂
      exact ⟨p₁.append p₂, by rw [Transcript.accepted_append, a₁, a₂]⟩
  breaks := by
    intro t f h
    rcases held_bind_iff.mp h with ⟨g, h₁, hr⟩ | ⟨_, t₁, t₂, h₁, h₂, rfl⟩
    · obtain rfl := Except.error.inj hr
      obtain ⟨p, b, a, last⟩ := hx.breaks h₁
      refine ⟨p, b, a.trans (List.prefix_append bs cs), fun e => last ?_⟩
      exact a.eq_of_length (Nat.le_antisymm a.length_le (by simp [e]))
    · obtain ⟨p₁, a₁⟩ := hx.completes h₁
      obtain ⟨p₂, b, a₂, last⟩ := hy.breaks h₂
      rw [Transcript.accepted_append, a₁]
      refine ⟨p₁.append p₂, b, (List.prefix_append_right_inj bs).mpr a₂, fun e => ?_⟩
      exact (last (List.append_cancel_left e)).append_left t₁
  delivers := by
    intro o t r b b' h hs
    rcases held_bind_iff.mp h with ⟨f, h₁, -⟩ | ⟨_, t₁, t₂, h₁, h₂, rfl⟩
    · exact absurd (hx.delivers h₁ hs).1 (by simp)
    · obtain ⟨mid, hs₁, hs₂⟩ := Bench.serves_append_iff.mp hs
      obtain ⟨hr, sent⟩ := hy.delivers h₂ hs₂
      exact ⟨hr, (hx.delivers h₁ hs₁).2.append sent⟩

theorem held_settled_iff {e : Except ε Unit} {t : Transcript ε} {r : Except (Failure ε) Unit} :
    Held (settled e) t r ↔ t = [] ∧ r = e.mapError fun e => .error (.serial e) := by
  cases e with
  | ok a => exact Dialogue.held_done_iff
  | error e => exact held_fail_iff

/-- A port operation that has to settle. -/
theorem held_request_settled {q : Request} {settle : q.Answer ε → Except ε Unit}
    {t : Transcript ε} {r : Except (Failure ε) Unit}
    (h : Held (request q >>= fun a => settled (settle a)) t r) :
    ∃ a, t = [⟨q, a⟩] ∧ r = (settle a).mapError fun e => .error (.serial e) := by
  obtain ⟨a, u, hu, rfl⟩ := held_request_bind h
  obtain ⟨rfl, rfl⟩ := held_settled_iff.mp hu
  exact ⟨a, rfl, rfl⟩

theorem sends_flush : (flush : Link ε Unit).Sends [] where
  completes := by
    intro t h
    obtain ⟨a, rfl, -⟩ := held_request_settled h
    exact ⟨by simp [Transcript.Plain, Exchange.operation?, Exchange.taken], rfl⟩
  breaks := by
    intro t f h
    obtain ⟨a, rfl, hr⟩ := held_request_settled h
    cases hs : a.settle with
    | ok _ => exact absurd hr (by simp [hs])
    | error e =>
      obtain rfl := Except.error.inj (hr.trans (by rw [hs]; rfl))
      exact ⟨by simp [Transcript.Plain, Exchange.operation?, Exchange.taken], trivial,
        List.prefix_rfl, fun _ => ⟨[], a, e, rfl, hs⟩⟩
  delivers := by
    intro o t r b b' h hs
    obtain ⟨a, rfl, hr⟩ := held_request_settled h
    obtain ⟨ha, rfl⟩ := Bench.serves_singleton.mp hs
    exact ⟨by rw [hr, ha]; rfl, b'.sent_nil⟩

/-- A single byte. -/
theorem sends_byte (b : UInt8) :
    (request (.write b) >>= fun a => settled a.settle : Link ε Unit).Sends [b] where
  completes := by
    intro t h
    obtain ⟨a, rfl, hr⟩ := held_request_settled h
    refine ⟨by simp [Transcript.Plain, Exchange.operation?, Exchange.taken], ?_⟩
    cases hs : a.settle with
    | ok _ => simp [Transcript.accepted, Exchange.accepted?, hs]
    | error e => exact absurd hr (by simp [hs])
  breaks := by
    intro t f h
    obtain ⟨a, rfl, hr⟩ := held_request_settled h
    cases hs : a.settle with
    | ok _ => exact absurd hr (by simp [hs])
    | error e =>
      obtain rfl := Except.error.inj (hr.trans (by rw [hs]; rfl))
      exact ⟨by simp [Transcript.Plain, Exchange.operation?, Exchange.taken], trivial,
        by simp [Transcript.accepted, Exchange.accepted?, hs],
        by simp [Transcript.accepted, Exchange.accepted?, hs]⟩
  delivers := by
    intro o t r bench bench' h hs
    obtain ⟨a, rfl, hr⟩ := held_request_settled h
    obtain ⟨ha, reply, hreply, rfl⟩ := Bench.serves_singleton.mp hs
    rw [← List.append_nil (bench.reader.feed b).2.toList] at hreply
    exact ⟨by rw [hr, ha]; rfl, rfl, ⟨reply, hreply, rfl⟩, rfl⟩

/-- Sending is sending the first byte, and then the others. -/
theorem send_cons (b : UInt8) (bs : List UInt8) :
    (send (b :: bs) : Link ε Unit) =
      (request (.write b) >>= fun a => settled a.settle) >>= fun _ => send bs := by
  simp only [send, bind_assoc]

theorem sends_send (bs : List UInt8) : (send bs : Link ε Unit).Sends bs := by
  induction bs with
  | nil =>
    constructor
    · intro t h
      obtain ⟨rfl, -⟩ := held_pure_iff.mp h
      exact ⟨by simp [Transcript.Plain], rfl⟩
    · intro t f h
      exact absurd (held_pure_iff.mp h).2 (by simp)
    · intro o t r b b' h hs
      obtain ⟨rfl, rfl⟩ := held_pure_iff.mp h
      obtain rfl := hs
      exact ⟨rfl, b'.sent_nil⟩
  | cons b bs ih =>
    rw [send_cons]
    exact (sends_byte b).bind ih

/-! ## Receiving -/

/-- How a receive goes, look by look: with `left` of `total` bytes to come, the timer at `elapsed`
and `taken` received so far, it is held with the exchanges and comes to the reception. -/
inductive Receiving (o : Options) (total : Nat) :
    (left : Nat) → (elapsed : Word) → (taken : List UInt8) → Transcript ε → Reception ε → Prop where
  /-- All bytes are there. -/
  | full {elapsed : Word} {taken : List UInt8} :
      Receiving o total 0 elapsed taken [] ⟨taken.reverse, none⟩
  /-- A byte is there. -/
  | byte {left : Nat} {elapsed : Word} {taken : List UInt8} {t : Transcript ε} {c : Reception ε}
      (b : UInt8) (rest : Receiving o total left elapsed (b :: taken) t c) :
      Receiving o total (left + 1) elapsed taken (⟨.read, .byte b⟩ :: t) c
  /-- The port fails. -/
  | failed {left : Nat} {elapsed : Word} {taken : List UInt8} (e : ε) :
      Receiving o total (left + 1) elapsed taken [⟨.read, .failed e⟩]
        ⟨taken.reverse, some (.serial e)⟩
  /-- Nothing is there, and there is time. -/
  | wait {left : Nat} {elapsed : Word} {taken : List UInt8} {t : Transcript ε} {c : Reception ε}
      (early : elapsed < o.responseTimeout)
      (rest : Receiving o total (left + 1) (Word.addSaturating elapsed (max o.pollDelay 1)) taken
        t c) :
      Receiving o total (left + 1) elapsed taken
        (⟨.read, .notReady⟩ :: ⟨.delay o.pollDelay, ()⟩ :: t) c
  /-- Nothing is there, and the time is over. -/
  | gaveUp {left : Nat} {elapsed : Word} {taken : List UInt8}
      (late : ¬ elapsed < o.responseTimeout) :
      Receiving o total (left + 1) elapsed taken
        [⟨.read, .notReady⟩, ⟨.log (.receiveTimeout taken.length total), ()⟩]
        ⟨taken.reverse, some (.responseTimeout total taken.length)⟩

/-- What has been received is kept. -/
theorem Receiving.length_le {o : Options} {total left : Nat} {elapsed : Word} {taken : List UInt8}
    {t : Transcript ε} {c : Reception ε} (h : Receiving o total left elapsed taken t c) :
    taken.length ≤ c.bytes.length := by
  induction h with
  | full => exact Nat.le_of_eq List.length_reverse.symm
  | byte b _ ih => exact Nat.le_of_succ_le ih
  | failed e => exact Nat.le_of_eq List.length_reverse.symm
  | wait _ _ ih => exact ih
  | gaveUp _ => exact Nat.le_of_eq List.length_reverse.symm

/-- **Filling a buffer** goes that way from any point on, and leaves the buffer filled with what was
received. -/
theorem receiving_of_receiveFrom {o : Options} {buffer buffer' : List UInt8} {received left : Nat}
    {elapsed : Word} {taken : List UInt8} {t : Transcript ε} {c : Reception ε}
    (h : Dialogue.Held (receiveFrom o buffer received elapsed) t (buffer', c))
    (room : received + left = buffer.length) (front : buffer.take received = taken.reverse) :
    Receiving o buffer.length left elapsed taken t c ∧ buffer' = c.fill buffer := by
  -- every look adds exchanges, so the transcript is what shrinks, also where no byte came
  induction hn : t.length using Nat.strongRecOn
    generalizing buffer received left elapsed taken t with
  | _ n ih =>
    subst hn
    obtain rfl : received = taken.length := by
      have := congrArg List.length front
      rw [List.length_take, List.length_reverse] at this
      omega
    rw [receiveFrom] at h
    cases left with
    | zero =>
      rw [dif_neg (by omega)] at h
      obtain ⟨rfl, e⟩ := Dialogue.held_done_iff.mp h
      obtain ⟨rfl, rfl⟩ := Prod.mk.inj e
      exact ⟨front ▸ .full, (Reception.fill_take _ _ _).symm⟩
    | succ left =>
      rw [dif_pos (by omega)] at h
      obtain _ | ⟨sample, rest⟩ := h
      cases sample with
      | byte b =>
        have inside : taken.length < buffer.length := by omega
        have written : (buffer.set taken.length b).take (taken.length + 1) =
            (b :: taken).reverse := by
          rw [List.take_add_one, List.take_set_of_le (Nat.le_refl _), front,
            List.getElem?_set_self inside, List.reverse_cons]
          rfl
        have more : taken.length + 1 + left = (buffer.set taken.length b).length := by
          rw [List.length_set]
          omega
        obtain ⟨receiving, filled⟩ := ih _ (by simp) rest more written rfl
        rw [List.length_set] at receiving
        exact ⟨.byte b receiving, filled.trans (c.fill_set buffer b receiving.length_le)⟩
      | failed e =>
        obtain ⟨rfl, e⟩ := Dialogue.held_done_iff.mp rest
        obtain ⟨rfl, rfl⟩ := Prod.mk.inj e
        exact ⟨front ▸ .failed _, (Reception.fill_take _ _ _).symm⟩
      | notReady =>
        by_cases early : elapsed < o.responseTimeout
        · simp only [dif_pos early] at rest
          obtain _ | ⟨_, rest⟩ := rest
          obtain ⟨receiving, filled⟩ :=
            ih _ (by rw [List.length_cons, List.length_cons]; omega) rest room front rfl
          exact ⟨.wait early receiving, filled⟩
        · simp only [dif_neg early] at rest
          obtain _ | ⟨_, rest⟩ := rest
          obtain ⟨rfl, e⟩ := Dialogue.held_done_iff.mp rest
          obtain ⟨rfl, rfl⟩ := Prod.mk.inj e
          exact ⟨front ▸ .gaveUp early, (Reception.fill_take _ _ _).symm⟩

/-- A receive into a buffer goes that way, and fills it. -/
theorem receiving_of_receiveInto {o : Options} {buffer buffer' : List UInt8} {t : Transcript ε}
    {c : Reception ε} (h : Dialogue.Held (receiveInto o buffer) t (buffer', c)) :
    Receiving o buffer.length buffer.length 0 [] t c ∧ buffer' = c.fill buffer :=
  receiving_of_receiveFrom h (Nat.zero_add _) rfl

/-- Every receive goes that way. -/
theorem receiving_of_held {o : Options} {n : Nat} {t : Transcript ε} {c : Reception ε}
    (h : Dialogue.Held (receive o n) t c) : Receiving o n n 0 [] t c := by
  obtain ⟨⟨buffer, c'⟩, into, rfl⟩ := Dialogue.held_map_iff.mp h
  have receiving := (receiving_of_receiveInto into).1
  rwa [List.length_replicate] at receiving

/-- A receive sends nothing, and what keeps it short is a failure of the link. -/
theorem Receiving.quiet {o : Options} {total left : Nat} {elapsed : Word} {taken : List UInt8}
    {t : Transcript ε} {c : Reception ε} (h : Receiving o total left elapsed taken t c) :
    t.Quiet ∧ ∀ e, c.error = some e → e.IsBareLink := by
  induction h with
  | full => exact ⟨Transcript.quiet_nil, by simp⟩
  | byte b _ ih => exact ⟨ih.1.cons rfl rfl rfl, ih.2⟩
  | failed e => exact ⟨Transcript.quiet_nil.cons rfl rfl rfl, by simp [Error.IsBareLink]⟩
  | wait _ _ ih => exact ⟨(ih.1.cons rfl rfl rfl).cons rfl rfl rfl, ih.2⟩
  | gaveUp _ =>
    exact ⟨(Transcript.quiet_nil.cons rfl rfl rfl).cons rfl rfl rfl, by simp [Error.IsBareLink]⟩

/-- **A reply that is there in time** is received: what keeps a receive short is the time, and then
nothing is outstanding. -/
theorem Receiving.delivered {o : Options} {total left : Nat} {elapsed : Word}
    {taken : List UInt8} {t : Transcript ε} {c : Reception ε} {b b' : Bench}
    (h : Receiving o total left elapsed taken t c) (hs : b.Serves o t b')
    (hl : b.pending.length ≤ left) (he : elapsed.toNat ≤ b.waited) :
    b'.reader = b.reader ∧ b'.pending = [] ∧ b'.rest = b.rest ∧
      (c.error = none ∨ (b.pending.length < left ∧
        ∃ expected received, c.error = some (.responseTimeout expected received))) := by
  induction h generalizing b with
  | full =>
    obtain rfl := hs
    exact ⟨rfl, List.length_eq_zero_iff.mp (Nat.le_zero.mp hl), rfl, Or.inl rfl⟩
  | byte byte _ ih =>
    obtain ⟨mid, ⟨hp, hmid⟩, hs⟩ := hs
    rw [hmid] at hs
    obtain ⟨h1, h2, h3, h4⟩ := ih hs (by simpa [hp] using hl) he
    refine ⟨h1, h2, h3, h4.imp_right fun hx => ⟨?_, hx.2⟩⟩
    rw [hp, List.length_cons]
    exact Nat.succ_lt_succ hx.1
  | failed e =>
    obtain ⟨_, hf, -⟩ := hs
    exact absurd hf id
  | wait _ _ ih =>
    obtain ⟨mid, ⟨-, hm⟩, mid', hd, hs⟩ := hs
    rw [hd, hm] at hs
    have later := ih hs hl (by
      rw [Word.toNat_addSaturating, Word.toNat_max_one]
      exact Nat.le_trans (Nat.min_le_left _ _) (Nat.add_le_add_right he _))
    exact later
  | gaveUp late =>
    obtain ⟨mid, ⟨hp, hm⟩, mid', hd, rfl⟩ := hs
    rw [hd, hm]
    -- the bench has waited at least as long as the host counted, so its time is over too
    have hp : b.pending = [] := by
      refine hp.resolve_right fun hw => late ?_
      rw [UInt32.lt_iff_toNat_lt]
      omega
    exact ⟨rfl, hp, rfl, Or.inr ⟨by simp [hp], _, _, rfl⟩⟩

theorem held_receiveExactly {o : Options} {n : Nat} {t : Transcript ε}
    {r : Except (Failure ε) (List UInt8)} (h : Held (receiveExactly o n) t r) :
    t.Quiet ∧ ∀ f, r = .error f → f.IsBareLink := by
  obtain ⟨c, hc, rfl⟩ := held_receiveExactly_iff.mp h
  obtain ⟨q, he⟩ := (receiving_of_held hc).quiet
  refine ⟨q, fun f hf => ?_⟩
  unfold whole at hf
  split at hf
  · exact absurd hf (by simp)
  · rename_i e hce
    obtain rfl := Except.error.inj hf
    exact he e hce

end Link

end SamFlash
