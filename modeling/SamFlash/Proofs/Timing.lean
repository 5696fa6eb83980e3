import SamFlash.Proofs.Conduct

/-!
# Operations in two timings

Two sessions with targets of the same conduct, in different times. The operations of the session are
run side by side: a relation between the two stations before an operation, the same result on both
sides, and a relation between the stations behind it. Between operations the stations are the same
but for the time (`Station.Same`). They come apart in one place alone, the change to binary mode,
where one target may acknowledge and the other one not (`Station.Level`); the receive that waits for
the acknowledgement brings them together again.

What `Link.receiveFrom` comes to does not depend on when its bytes are handed out. As long as the
queue is not empty the host is patient enough to see the next byte of it, and when it is empty no
byte comes any more and the receive gives up; so the queue alone decides (`Link.fetch`). In
`Link.handshake` both targets come to the same, with two bytes taken or with none there
(`Link.verdict`). Port operations are tried until they settle, and only their outcome belongs to the
conduct.

What the sessions look like from outside is compared as well: the same bytes on the port, the same
progress, the same bytes of the image, and the same pauses but for those that a receive makes behind
a look in vain. Diagnostics are not compared, since they tell of a missing acknowledgement.

Results:
* `Link.serves_receiving`: a receive gets what is in the queue, whenever it is handed out.
* `Link.timeless_handshake`: the change to binary mode, with or without its acknowledgement.
* **`Link.Composed.timeless`**: all operations.
-/

namespace SamFlash

variable {σ ε α β : Type} {w : Conduct σ ε} {o : Options}

/-! ## What is compared -/

namespace Transcript

variable {s t s' t' : Transcript ε}

/-- Two transcripts that differ in nothing but their timing. -/
structure Alike (o : Options) (t t' : Transcript ε) : Prop where
  accepted : t.accepted = t'.accepted
  progress : t.progress = t'.progress
  taken : t.taken = t'.taken
  pauses : ∃ rests, t.Rests o rests ∧ t'.Rests o rests

theorem Alike.append (h : Alike o s s') (h' : Alike o t t') : Alike o (s ++ t) (s' ++ t') where
  accepted := by rw [accepted_append, accepted_append, h.accepted, h'.accepted]
  progress := by rw [progress_append, progress_append, h.progress, h'.progress]
  taken := by rw [taken_append, taken_append, h.taken, h'.taken]
  pauses := by
    obtain ⟨l, hl, hl'⟩ := h.pauses
    obtain ⟨m, hm, hm'⟩ := h'.pauses
    exact ⟨l ++ m, hl.append hm, hl'.append hm'⟩

/-- Nothing but looks at the line, and what is said about them. -/
structure Inward (o : Options) (t : Transcript ε) : Prop where
  accepted : t.accepted = []
  progress : t.progress = []
  taken : t.taken = []
  pauses : t.Rests o []

theorem inward_nil : Inward o ([] : Transcript ε) := ⟨rfl, rfl, rfl, .nil⟩

theorem inward_log (d : Diagnostic) : Inward o [(⟨.log d, ()⟩ : Exchange ε)] :=
  ⟨rfl, rfl, rfl, .other rfl .nil⟩

/-- A look that does not find nothing. -/
theorem Inward.look {sample : Sample ε} (h : t.Inward o) : Inward o (⟨.read, sample⟩ :: t) :=
  ⟨h.accepted, h.progress, h.taken, .other rfl h.pauses⟩

/-- A look in vain, and the pause behind it. -/
theorem Inward.poll (h : t.Inward o) :
    Inward o (⟨.read, .notReady⟩ :: ⟨.delay o.pollDelay, ()⟩ :: t) :=
  ⟨h.accepted, h.progress, h.taken, .poll h.pauses⟩

theorem Inward.append (h : s.Inward o) (h' : t.Inward o) : (s ++ t).Inward o where
  accepted := by rw [accepted_append, h.accepted, h'.accepted]; rfl
  progress := by rw [progress_append, h.progress, h'.progress]; rfl
  taken := by rw [taken_append, h.taken, h'.taken]; rfl
  pauses := h.pauses.append h'.pauses

theorem Inward.alike (h : t.Inward o) (h' : t'.Inward o) : Alike o t t' where
  accepted := h.accepted.trans h'.accepted.symm
  progress := h.progress.trans h'.progress.symm
  taken := h.taken.trans h'.taken.symm
  pauses := ⟨[], h.pauses, h'.pauses⟩

end Transcript

/-! ## Two stations -/

namespace Station

/-- The target is as far as the other one, and the host has the same to read. -/
structure Like (s s' : Station σ ε) : Prop where
  state : s.state = s'.state
  reader : s.reader = s'.reader
  queue : s.queue = s'.queue

/-- Two stations between operations that differ in nothing but their timing. -/
structure Same (s s' : Station σ ε) : Prop extends s.Like s' where
  unasked : s.asked = false
  unasked' : s'.asked = false

/-- The same, and the host has just written. -/
structure Ready (s s' : Station σ ε) : Prop extends s.Same s' where
  fresh : s.misses = 0
  fresh' : s'.misses = 0

/-- The host has nothing to read, or two bytes. -/
def Acknowledges (s : Station σ ε) : Prop := s.queue = [] ∨ ∃ a b, s.queue = [.ok a, .ok b]

/-- The host has asked for binary mode; one station may have left the acknowledgement out, if the
request gets through. -/
structure Level (w : Conduct σ ε) (s s' : Station σ ε) : Prop where
  state : s.state = s'.state
  reader : s.reader = s'.reader
  queue : s.queue = s'.queue ∨
    (s.Acknowledges ∧ s'.Acknowledges ∧ ∃ sent, (w.flush s.state).1 = .ok sent)

/-- The request has got through, and the host waits for the acknowledgement. -/
structure Awaits (s s' : Station σ ε) : Prop where
  state : s.state = s'.state
  reader : s.reader = s'.reader
  queue : s.queue = s'.queue ∨ (s.Acknowledges ∧ s'.Acknowledges)
  unasked : s.asked = false
  unasked' : s'.asked = false
  fresh : s.misses = 0
  fresh' : s'.misses = 0

variable {s s' u u' : Station σ ε} {b : UInt8}

theorem Same.symm (h : s.Same s') : s'.Same s :=
  ⟨⟨h.state.symm, h.reader.symm, h.queue.symm⟩, h.unasked', h.unasked⟩

theorem Like.hears (h : s.Like s') : (s.hears w b).Like (s'.hears w b) := by
  obtain ⟨state, reader, queue⟩ := h
  unfold Station.hears
  rw [state, reader, queue]
  split <;> exact ⟨rfl, rfl, rfl⟩

theorem asked_hears : (s.hears w b).asked = s.asked := by
  unfold hears
  split <;> rfl

theorem misses_hears : (s.hears w b).misses = 0 := by
  unfold hears
  split <;> rfl

theorem mayOmit_of_unasked (h : s.asked = false) : s.mayOmit w b = false := by
  unfold mayOmit
  rw [h]
  rfl

/-- Only a terminator completes the request for binary mode. -/
theorem mayOmit_of_ne (h : b ≠ Command.terminator.toUInt8) : s.mayOmit w b = false := by
  have incomplete : ((s.reader.feed b).2 == some .binaryMode) = false := by
    cases s.reader with
    | text collected => simp [Reader.feed, if_neg h]
    | block addr missing taken => cases missing <;> simp [Reader.feed]
  unfold mayOmit
  rw [incomplete, Bool.and_false, Bool.false_and]

/-- Where the acknowledgement may be left out, there is one, and the request gets through. -/
theorem acknowledges_of_mayOmit (h : s.mayOmit w b = true) :
    (s.hears w b).Acknowledges ∧ ∃ sent, (w.flush (s.hears w b).state).1 = .ok sent := by
  unfold mayOmit at h
  replace h := (Bool.and_eq_true_iff.mp h).2
  split at h
  · rename_i a c sent hqueue hflush
    exact ⟨Or.inr ⟨a, c, hqueue⟩, sent, hflush⟩
  · exact absurd h (by simp)

/-- **A byte** that the host writes settles in the same way, and is heard on both sides or on
neither. -/
theorem Takes.written {a a' : Attempts ε} (h : s.Takes w o ⟨.write b, a⟩ u)
    (h' : s'.Takes w o ⟨.write b, a'⟩ u') (like : s.Like s') :
    a.settle = a'.settle ∧
      match a.settle with
      | .ok _ => s.Heard w b u ∧ s'.Heard w b u'
      | .error _ => u.Same u' := by
  obtain ⟨ha, h⟩ := h
  obtain ⟨ha', h'⟩ := h'
  rw [← like.state] at ha' h'
  refine ⟨ha.trans ha'.symm, ?_⟩
  rw [ha]
  cases hput : (w.put b s.state).1 with
  | error e =>
    rw [hput] at h h'
    obtain rfl := h
    obtain rfl := h'
    exact ⟨⟨rfl, like.reader, like.queue⟩, rfl, rfl⟩
  | ok _ =>
    rw [hput] at h h'
    exact ⟨h, h'⟩

theorem Heard.eq (h : s.Heard w b u) (keeps : s.mayOmit w b = false) : u = s.hears w b :=
  h.resolve_right fun omits => absurd (keeps.symm.trans omits.1) (by simp)

/-- With one acknowledgement left out there was one to be left out, on both sides. -/
theorem Heard.level (h : s.Heard w b u) (h' : s'.Heard w b u') (like : s.Like s') :
    u.Level w u' := by
  have heard := like.hears (w := w) (b := b)
  rcases h with rfl | ⟨omits, rfl⟩ <;> rcases h' with rfl | ⟨omits', rfl⟩
  · exact ⟨heard.state, heard.reader, Or.inl heard.queue⟩
  · obtain ⟨ack, through⟩ := acknowledges_of_mayOmit omits'
    refine ⟨heard.state, heard.reader, Or.inr ⟨?_, Or.inl rfl, ?_⟩⟩
    · unfold Acknowledges
      rwa [heard.queue]
    · rwa [heard.state]
  · obtain ⟨ack, through⟩ := acknowledges_of_mayOmit omits
    refine ⟨heard.state, heard.reader, Or.inr ⟨Or.inl rfl, ?_, through⟩⟩
    unfold Acknowledges
    rwa [← heard.queue]
  · exact ⟨heard.state, heard.reader, Or.inl rfl⟩

end Station

/-! ## Operations that do not see the time -/

/-- From two stations related by `R` the dialogue, however it is timed, comes to the same end and
looks the same, and leaves the stations related by `R'`. -/
structure Dialogue.Timeless (w : Conduct σ ε) (o : Options)
    (R : Station σ ε → Station σ ε → Prop) (x : Dialogue ε α)
    (R' : α → Station σ ε → Station σ ε → Prop) : Prop where
  agrees : ∀ {t t' : Transcript ε} {a a' : α} {s s' u u' : Station σ ε},
    Held x t a → Held x t' a' → s.Serves w o t u → s'.Serves w o t' u' → R s s' →
      a = a' ∧ R' a u u' ∧ t.Alike o t'

namespace Link

/-- How an operation leaves the stations: a failure leaves them the same. -/
def Leaves (R : Station σ ε → Station σ ε → Prop) :
    Except (Failure ε) α → Station σ ε → Station σ ε → Prop
  | .ok _ => R
  | .error _ => Station.Same

theorem leaves_same {r : Except (Failure ε) α} {s s' : Station σ ε} :
    Leaves Station.Same r s s' ↔ s.Same s' := by
  cases r <;> rfl

/-- From two stations related by `R` the operation, however it is timed, comes to the same end and
looks the same; if it succeeds, it leaves the stations related by `R'`. -/
abbrev Timeless (w : Conduct σ ε) (o : Options) (R : Station σ ε → Station σ ε → Prop)
    (x : Link ε α) (R' : Station σ ε → Station σ ε → Prop) : Prop :=
  Dialogue.Timeless w o R x.run (Leaves R')

variable {R M R' : Station σ ε → Station σ ε → Prop} {x : Link ε α} {f : α → Link ε β}

theorem Timeless.mono {Q Q' : Station σ ε → Station σ ε → Prop} (h : Timeless w o R x R')
    (before : ∀ {s s'}, Q s s' → R s s') (behind : ∀ {s s'}, R' s s' → Q' s s') :
    Timeless w o Q x Q' where
  agrees ht ht' hs hs' related := by
    obtain ⟨e, left, alike⟩ := h.agrees ht ht' hs hs' (before related)
    refine ⟨e, ?_, alike⟩
    rename_i r _ _ _ _ _
    cases r with
    | error f => exact left
    | ok a => exact behind left

/-- Operations in a row, where the second one may rely on what the first one gives. -/
theorem Timeless.bind_held (hx : Timeless w o R x M)
    (hf : ∀ {t a}, Held x t (.ok a) → Timeless w o M (f a) R') :
    Timeless w o R (x >>= f) R' where
  agrees := by
    intro t t' r r' s s' u u' h h' hs hs' related
    rcases held_bind_iff.mp h with ⟨e, h₁, rfl⟩ | ⟨a, t₁, t₂, h₁, h₂, rfl⟩ <;>
      rcases held_bind_iff.mp h' with ⟨e', h₁', rfl⟩ | ⟨a', t₁', t₂', h₁', h₂', rfl⟩
    · obtain ⟨e, left, alike⟩ := hx.agrees h₁ h₁' hs hs' related
      obtain rfl := Except.error.inj e
      exact ⟨rfl, left, alike⟩
    · obtain ⟨_, hs₁', -⟩ := Station.serves_append_iff.mp hs'
      exact absurd (hx.agrees h₁ h₁' hs hs₁' related).1 (by simp)
    · obtain ⟨_, hs₁, -⟩ := Station.serves_append_iff.mp hs
      exact absurd (hx.agrees h₁ h₁' hs₁ hs' related).1 (by simp)
    · obtain ⟨mid, hs₁, hs₂⟩ := Station.serves_append_iff.mp hs
      obtain ⟨mid', hs₁', hs₂'⟩ := Station.serves_append_iff.mp hs'
      obtain ⟨e, between, alike⟩ := hx.agrees h₁ h₁' hs₁ hs₁' related
      obtain rfl := Except.ok.inj e
      obtain ⟨e, left, alike'⟩ := (hf h₁).agrees h₂ h₂' hs₂ hs₂' between
      exact ⟨e, left, alike.append alike'⟩

/-- **Operations in a row.** -/
theorem Timeless.bind (hx : Timeless w o R x M) (hf : ∀ a, Timeless w o M (f a) R') :
    Timeless w o R (x >>= f) R' :=
  hx.bind_held fun {_ a} _ => hf a

theorem Timeless.during (h : Timeless w o R x R') (stage : Stage) :
    Timeless w o R (Link.during stage x) R' where
  agrees := by
    intro t t' r r' s s' u u' ht ht' hs hs' related
    obtain ⟨q, hq, rfl⟩ := held_during_iff.mp ht
    obtain ⟨q', hq', rfl⟩ := held_during_iff.mp ht'
    obtain ⟨rfl, left, alike⟩ := h.agrees hq hq' hs hs' related
    refine ⟨rfl, ?_, alike⟩
    cases q with
    | error f => exact left
    | ok a => exact left

theorem timeless_pure (a : α) : Timeless w o R (pure a : Link ε α) R where
  agrees h h' hs hs' related := by
    obtain ⟨rfl, rfl⟩ := held_pure_iff.mp h
    obtain ⟨rfl, rfl⟩ := held_pure_iff.mp h'
    obtain rfl := hs
    obtain rfl := hs'
    exact ⟨rfl, related, Transcript.inward_nil.alike Transcript.inward_nil⟩

theorem timeless_fail (e : Error ε) : Timeless w o Station.Same (fail e : Link ε α) R' where
  agrees h h' hs hs' same := by
    obtain ⟨rfl, rfl⟩ := held_fail_iff.mp h
    obtain ⟨rfl, rfl⟩ := held_fail_iff.mp h'
    obtain rfl := hs
    obtain rfl := hs'
    exact ⟨rfl, same, Transcript.inward_nil.alike Transcript.inward_nil⟩

/-- A request with a single answer. -/
theorem timeless_request {q : Request} (single : ∀ a a' : q.Answer ε, a = a')
    (step : ∀ {a : q.Answer ε} {s s' u u' : Station σ ε}, s.Takes w o ⟨q, a⟩ u →
      s'.Takes w o ⟨q, a⟩ u' → R s s' → R' u u' ∧ Transcript.Alike o [⟨q, a⟩] [⟨q, a⟩]) :
    Timeless w o R (request q) R' where
  agrees h h' hs hs' related := by
    obtain ⟨a, rfl, rfl⟩ := held_request_iff.mp h
    obtain ⟨a', rfl, rfl⟩ := held_request_iff.mp h'
    obtain rfl := single a a'
    obtain ⟨left, alike⟩ := step (Station.serves_singleton.mp hs) (Station.serves_singleton.mp hs')
      related
    exact ⟨rfl, left, alike⟩

/-- A diagnostic. -/
theorem timeless_note {d : Diagnostic}
    (step : ∀ {s s' : Station σ ε}, R s s' →
      R' { s with asked := d.asks } { s' with asked := d.asks }) :
    Timeless w o R (log d) R' :=
  timeless_request (fun _ _ => rfl) fun h h' related => by
    obtain rfl := h
    obtain rfl := h'
    exact ⟨step related, (Transcript.inward_log d).alike (Transcript.inward_log d)⟩

theorem timeless_log {d : Diagnostic} (hd : d.asks = false) :
    Timeless w o Station.Same (log d) Station.Same :=
  timeless_note fun same => ⟨⟨same.state, same.reader, same.queue⟩, hd, hd⟩

theorem timeless_delay (ms : Word) : Timeless w o Station.Same (delay ms) Station.Same :=
  timeless_request (fun _ _ => rfl) fun h h' same => by
    obtain rfl := h
    obtain rfl := h'
    exact ⟨same, rfl, rfl, rfl, [ms], .pause ms .nil, .pause ms .nil⟩

theorem timeless_progress (p : Progress) :
    Timeless w o Station.Same (request (.progress p)) Station.Same :=
  timeless_request (fun _ _ => rfl) fun h h' same => by
    obtain rfl := h
    obtain rfl := h'
    exact ⟨same, rfl, rfl, rfl, [], .other rfl .nil, .other rfl .nil⟩

/-! ## Sending -/

/-- A port operation that has to settle. -/
theorem timeless_settled {q : Request} {settle : q.Answer ε → Except ε Unit}
    (step : ∀ {a a' : q.Answer ε} {s s' u u' : Station σ ε}, s.Takes w o ⟨q, a⟩ u →
      s'.Takes w o ⟨q, a'⟩ u' → R s s' →
        settle a = settle a' ∧ Transcript.Alike o [⟨q, a⟩] [⟨q, a'⟩] ∧
          match settle a with
          | .ok _ => R' u u'
          | .error _ => u.Same u') :
    Timeless w o R (request q >>= fun a => settled (settle a)) R' where
  agrees h h' hs hs' related := by
    obtain ⟨a, rfl, rfl⟩ := held_request_settled h
    obtain ⟨a', rfl, rfl⟩ := held_request_settled h'
    obtain ⟨e, alike, left⟩ := step (Station.serves_singleton.mp hs)
      (Station.serves_singleton.mp hs') related
    refine ⟨by rw [e], ?_, alike⟩
    cases hsettle : settle a with
    | ok _ =>
      rw [hsettle] at left
      exact left
    | error _ =>
      rw [hsettle] at left
      exact left

/-- Two writes of one byte that settle in the same way. -/
theorem alike_write {b : UInt8} {a a' : Attempts ε} (h : a.settle = a'.settle) :
    Transcript.Alike o [(⟨.write b, a⟩ : Exchange ε)] [⟨.write b, a'⟩] where
  accepted := by simp only [Transcript.accepted, List.filterMap_cons, Exchange.accepted?, h]
  progress := rfl
  taken := rfl
  pauses := ⟨[], .other rfl .nil, .other rfl .nil⟩

/-- Two flushes. -/
theorem alike_flush (a a' : Attempts ε) :
    Transcript.Alike o [(⟨.flush, a⟩ : Exchange ε)] [⟨.flush, a'⟩] :=
  ⟨rfl, rfl, rfl, [], .other rfl .nil, .other rfl .nil⟩

/-- A byte, with no acknowledgement that might be left out. -/
theorem timeless_byte (b : UInt8) :
    Timeless w o Station.Same (request (.write b) >>= fun a => settled a.settle) Station.Ready :=
  timeless_settled fun {a _ s s' _ _} h h' same => by
    obtain ⟨e, written⟩ := Station.Takes.written h h' same.toLike
    refine ⟨e, alike_write e, ?_⟩
    cases hs : a.settle with
    | error _ => simpa only [hs] using written
    | ok _ =>
      rw [hs] at written
      obtain rfl := written.1.eq (Station.mayOmit_of_unasked same.unasked)
      obtain rfl := written.2.eq (Station.mayOmit_of_unasked same.unasked')
      exact ⟨⟨same.hears, Station.asked_hears.trans same.unasked,
        Station.asked_hears.trans same.unasked'⟩, Station.misses_hears, Station.misses_hears⟩

/-- Bytes after which the host has just written, as it had before. -/
theorem timeless_payload (bs : List UInt8) :
    Timeless w o Station.Ready (send bs : Link ε Unit) Station.Ready := by
  induction bs with
  | nil => exact timeless_pure ()
  | cons b bs ih =>
    rw [send_cons]
    exact ((timeless_byte b).mono (fun ready => ready.toSame) id).bind fun _ => ih

theorem timeless_header (c : Command) :
    Timeless w o Station.Same (send c.header : Link ε Unit) Station.Ready := by
  have some : c.header ≠ [] := by simp [Command.header, Command.text]
  obtain ⟨b, bs, hb⟩ := List.exists_cons_of_ne_nil some
  rw [hb, send_cons]
  exact (timeless_byte b).bind fun _ => timeless_payload bs

theorem timeless_flush : Timeless w o Station.Same (flush : Link ε Unit) Station.Ready :=
  timeless_settled fun {a _ _ _ _ _} h h' same => by
    obtain ⟨ha, rfl⟩ := h
    obtain ⟨ha', rfl⟩ := h'
    rw [← same.state] at ha' ⊢
    refine ⟨ha.trans ha'.symm, alike_flush _ _, ?_⟩
    cases a.settle with
    | ok _ => exact ⟨⟨⟨rfl, same.reader, same.queue⟩, rfl, rfl⟩, rfl, rfl⟩
    | error _ => exact ⟨⟨rfl, same.reader, same.queue⟩, rfl, rfl⟩

/-! ## Receiving -/

/-- What a receive gets that is still to have `left` of `total` bytes, and what it leaves. -/
def fetch (total : Nat) : (left : Nat) → (queue : List (Except ε UInt8)) → (taken : List UInt8) →
    Reception ε × List (Except ε UInt8)
  | 0, queue, taken => (⟨taken.reverse, none⟩, queue)
  | _ + 1, [], taken => (⟨taken.reverse, some (.responseTimeout total taken.length)⟩, [])
  | left + 1, .ok b :: queue, taken => fetch total left queue (b :: taken)
  | _ + 1, .error e :: queue, taken => (⟨taken.reverse, some (.serial e)⟩, queue)

/-- **A receive gets what is in the queue**, whenever it is handed out, if its timer shows no more
than the looks in vain that the station has counted. -/
theorem serves_receiving {total left : Nat} {elapsed : Word} {taken : List UInt8}
    {t : Transcript ε} {c : Reception ε} {s u : Station σ ε}
    (h : Receiving o total left elapsed taken t c) (hs : s.Serves w o t u)
    (he : elapsed.toNat = min (s.misses * max o.pollDelay.toNat 1) (UInt32.size - 1))
    (unasked : s.asked = false) :
    t.Inward o ∧ (c, u.queue) = fetch total left s.queue taken ∧ u.state = s.state ∧
      u.reader = s.reader ∧ u.asked = false := by
  induction h generalizing s with
  | full =>
    obtain rfl := hs
    exact ⟨Transcript.inward_nil, rfl, rfl, rfl, unasked⟩
  | byte b _ ih =>
    obtain ⟨mid, ⟨hq, hmid⟩, hs⟩ := hs
    rw [hmid] at hs
    obtain ⟨inward, got, rest⟩ := ih hs he unasked
    refine ⟨inward.look, ?_, rest⟩
    rw [hq]
    exact got
  | failed e =>
    obtain ⟨mid, ⟨hq, hmid⟩, rfl⟩ := hs
    rw [hmid, hq]
    exact ⟨Transcript.inward_nil.look, rfl, rfl, rfl, unasked⟩
  | @wait _ elapsed _ _ _ early _ ih =>
    obtain ⟨mid, ⟨-, rfl⟩, mid', rfl, hs⟩ := hs
    have later : (Word.addSaturating elapsed (max o.pollDelay 1)).toNat =
        min ((s.misses + 1) * max o.pollDelay.toNat 1) (UInt32.size - 1) := by
      rw [Word.toNat_addSaturating, Word.toNat_max_one, he, Nat.succ_mul]
      omega
    obtain ⟨inward, rest⟩ := ih hs later unasked
    exact ⟨inward.poll, rest⟩
  | gaveUp late =>
    obtain ⟨mid, ⟨hq, rfl⟩, mid', rfl, rfl⟩ := hs
    -- the host is not more patient than the station counts, so nothing is left to be read
    have empty : s.queue = [] := by
      refine hq.resolve_right fun patient => late ?_
      have := (o.lt_patience_iff s.misses).mp patient
      have := o.responseTimeout.toNat_lt_size
      rw [UInt32.lt_iff_toNat_lt]
      omega
    refine ⟨(Transcript.inward_log _).look, ?_, rfl, rfl, rfl⟩
    show (_, s.queue) = _
    rw [empty]
    rfl

/-- A receive behind a write. -/
theorem serves_receive {n : Nat} {t : Transcript ε} {c : Reception ε} {s u : Station σ ε}
    (h : Dialogue.Held (receive o n) t c) (hs : s.Serves w o t u) (fresh : s.misses = 0)
    (unasked : s.asked = false) :
    t.Inward o ∧ (c, u.queue) = fetch n n s.queue [] ∧ u.state = s.state ∧
      u.reader = s.reader ∧ u.asked = false :=
  serves_receiving (receiving_of_held h) hs (by rw [fresh, Nat.zero_mul]; rfl) unasked

/-- The same reply is received in the same way, in whatever time it comes. -/
theorem timeless_receiveExactly (n : Nat) :
    Timeless w o Station.Ready (receiveExactly o n : Link ε _) Station.Same where
  agrees := by
    intro t t' r r' s s' u u' h h' hs hs' ready
    obtain ⟨c, hc, rfl⟩ := held_receiveExactly_iff.mp h
    obtain ⟨c', hc', rfl⟩ := held_receiveExactly_iff.mp h'
    obtain ⟨inward, got, state, reader, unasked⟩ := serves_receive hc hs ready.fresh ready.unasked
    obtain ⟨inward', got', state', reader', unasked'⟩ :=
      serves_receive hc' hs' ready.fresh' ready.unasked'
    rw [← ready.queue, ← got] at got'
    obtain ⟨rfl, queue⟩ := Prod.mk.inj got'
    have same : u.Same u' := ⟨⟨state.trans (ready.state.trans state'.symm),
      reader.trans (ready.reader.trans reader'.symm), queue.symm⟩, unasked, unasked'⟩
    exact ⟨rfl, leaves_same.mpr same, inward.alike inward'⟩

/-! ## Binary mode -/

/-- The request for binary mode, of which each side may leave out the acknowledgement. -/
theorem timeless_asking :
    Timeless w o Station.Like (send Command.binaryMode.header : Link ε Unit) (Station.Level w) := by
  have letter : Timeless w o Station.Like
      (request (.write 0x4e) >>= fun a => settled a.settle : Link ε Unit) Station.Like :=
    timeless_settled fun {a _ s s' _ _} h h' like => by
      obtain ⟨e, written⟩ := Station.Takes.written h h' like
      refine ⟨e, alike_write e, ?_⟩
      cases hs : a.settle with
      | error _ => simpa only [hs] using written
      | ok _ =>
        rw [hs] at written
        obtain rfl := written.1.eq (Station.mayOmit_of_ne (by decide))
        obtain rfl := written.2.eq (Station.mayOmit_of_ne (by decide))
        exact like.hears
  have terminator : Timeless w o Station.Like
      (request (.write 0x23) >>= fun a => settled a.settle : Link ε Unit) (Station.Level w) :=
    timeless_settled fun {a _ s s' _ _} h h' like => by
      obtain ⟨e, written⟩ := Station.Takes.written h h' like
      refine ⟨e, alike_write e, ?_⟩
      cases hs : a.settle with
      | error _ => simpa only [hs] using written
      | ok _ =>
        rw [hs] at written
        exact written.1.level written.2 like
  have header : Command.binaryMode.header = [0x4e, 0x23] := by decide
  rw [header, send_cons, send_cons]
  exact letter.bind fun _ => terminator.bind fun _ => timeless_pure ()

/-- The flush behind the request. -/
theorem timeless_asked : Timeless w o (Station.Level w) (flush : Link ε Unit) Station.Awaits :=
  timeless_settled fun {a _ s _ _ _} h h' level => by
    obtain ⟨ha, rfl⟩ := h
    obtain ⟨ha', rfl⟩ := h'
    rw [← level.state] at ha' ⊢
    refine ⟨ha.trans ha'.symm, alike_flush _ _, ?_⟩
    cases hs : a.settle with
    | ok _ =>
      exact ⟨rfl, level.reader, level.queue.imp_right fun h => ⟨h.1, h.2.1⟩, rfl, rfl, rfl, rfl⟩
    | error e =>
      -- an acknowledgement is left out only if the request gets through
      refine ⟨⟨rfl, level.reader, level.queue.resolve_right ?_⟩, rfl, rfl⟩
      rintro ⟨-, -, sent, hsent⟩
      rw [← ha, hs] at hsent
      exact absurd hsent (by simp)

/-- What an acknowledgement comes to. -/
def verdict (ack : Reception ε) : Except (Failure ε) Unit :=
  match ack.error with
  | none => .ok ()
  | some (.responseTimeout ..) => .ok ()
  | some e => .error (.error e)

/-- A missing acknowledgement is noted, and that is all. -/
theorem serves_acknowledged {ack : Reception ε} {t : Transcript ε} {r : Except (Failure ε) Unit}
    {s u : Station σ ε} (h : Held (acknowledged ack) t r) (hs : s.Serves w o t u)
    (unasked : s.asked = false) :
    t.Inward o ∧ r = verdict ack ∧ u = s := by
  unfold acknowledged at h
  unfold verdict
  cases herr : ack.error with
  | none =>
    rw [herr] at h
    obtain ⟨rfl, rfl⟩ := held_pure_iff.mp h
    exact ⟨Transcript.inward_nil, rfl, hs⟩
  | some e =>
    rw [herr] at h
    cases e with
    | responseTimeout expected received =>
      obtain ⟨_, rfl, rfl⟩ := held_request_iff.mp h
      obtain rfl := Station.serves_singleton.mp hs
      refine ⟨Transcript.inward_log _, rfl, ?_⟩
      show { s with asked := false } = s
      rw [← unasked]
    | _ =>
      obtain ⟨rfl, rfl⟩ := held_fail_iff.mp h
      exact ⟨Transcript.inward_nil, rfl, hs⟩

/-- What the host waits for behind its request, there or not there. -/
theorem verdict_of_acknowledges {s : Station σ ε} {ack : Reception ε}
    {queue : List (Except ε UInt8)} (h : s.Acknowledges)
    (got : (ack, queue) = fetch Command.acknowledgementLength Command.acknowledgementLength
      s.queue []) :
    verdict ack = .ok () ∧ queue = [] := by
  rcases h with h | ⟨a, b, h⟩
  · rw [h] at got
    obtain ⟨rfl, rfl⟩ := Prod.mk.inj got
    exact ⟨rfl, rfl⟩
  · rw [h] at got
    obtain ⟨rfl, rfl⟩ := Prod.mk.inj got
    exact ⟨rfl, rfl⟩

/-- **The receive that waits for the acknowledgement** brings the stations together. -/
theorem timeless_awaited :
    Timeless w o Station.Awaits
      (ExceptT.lift (receive o Command.acknowledgementLength) >>= acknowledged : Link ε Unit)
      Station.Same where
  agrees := by
    intro t t' r r' s s' u u' h h' hs hs' awaits
    -- the receptions may differ, so both receives are opened before anything is compared
    obtain ⟨ack, t₁, t₂, hack, hend, rfl⟩ := held_lift_bind h
    obtain ⟨ack', t₁', t₂', hack', hend', rfl⟩ := held_lift_bind h'
    obtain ⟨mid, hs₁, hs₂⟩ := Station.serves_append_iff.mp hs
    obtain ⟨mid', hs₁', hs₂'⟩ := Station.serves_append_iff.mp hs'
    obtain ⟨inward, got, state, reader, unasked⟩ :=
      serves_receive hack hs₁ awaits.fresh awaits.unasked
    obtain ⟨inward', got', state', reader', unasked'⟩ :=
      serves_receive hack' hs₁' awaits.fresh' awaits.unasked'
    obtain ⟨noted, rfl, rfl⟩ := serves_acknowledged hend hs₂ unasked
    obtain ⟨noted', rfl, rfl⟩ := serves_acknowledged hend' hs₂' unasked'
    have settled : verdict ack = verdict ack' ∧ u.queue = u'.queue := by
      rcases awaits.queue with queue | ⟨here, there⟩
      · rw [← queue, ← got] at got'
        obtain ⟨rfl, hq⟩ := Prod.mk.inj got'
        exact ⟨rfl, hq.symm⟩
      · have accepted := verdict_of_acknowledges here got
        have accepted' := verdict_of_acknowledges there got'
        exact ⟨accepted.1.trans accepted'.1.symm, accepted.2.trans accepted'.2.symm⟩
    have same : u.Same u' := ⟨⟨state.trans (awaits.state.trans state'.symm),
      reader.trans (awaits.reader.trans reader'.symm), settled.2⟩, unasked, unasked'⟩
    exact ⟨settled.1, leaves_same.mpr same, (inward.append noted).alike (inward'.append noted')⟩

/-- **The change to binary mode**, with or without its acknowledgement. -/
theorem timeless_handshake :
    Timeless w o Station.Same (handshake o : Link ε Unit) Station.Same := by
  have announced :
      Timeless w o Station.Same (log .binaryModeRequested : Link ε Unit) Station.Like :=
    timeless_note fun same => ⟨same.state, same.reader, same.queue⟩
  rw [handshake_eq]
  exact announced.bind fun _ =>
    (timeless_asking.bind fun _ => timeless_asked).bind fun _ => timeless_awaited

end Link

/-! ## The operations of a session -/

section

open Link

theorem Monitor.timeless_readWord (addr : Word) :
    Timeless w o Station.Same (readWord o addr : Link ε Word) Station.Same :=
  (timeless_header _).bind fun _ => (timeless_receiveExactly 4).bind fun _ =>
    (timeless_log rfl).bind fun _ => timeless_pure _

theorem Monitor.timeless_writeWord (addr value : Word) :
    Timeless w o Station.Same (writeWord addr value : Link ε Unit) Station.Same :=
  (timeless_log rfl).bind fun _ => (timeless_header _).bind fun _ =>
    timeless_flush.mono (fun ready => ready.toSame) fun ready => ready.toSame

theorem Monitor.timeless_writeBlock (addr : Word) (data : List UInt8) :
    Timeless w o Station.Same (writeBlock addr data : Link ε Unit) Station.Same :=
  (timeless_log rfl).bind fun _ => (timeless_header _).bind fun _ =>
    (timeless_flush.mono (fun ready => ready.toSame) id).bind fun _ =>
      (timeless_payload data).bind fun _ =>
        timeless_flush.mono (fun ready => ready.toSame) fun ready => ready.toSame

theorem Monitor.timeless_go (addr : Word) :
    Timeless w o Station.Same (go addr : Link ε Unit) Station.Same :=
  (timeless_log rfl).bind fun _ => (timeless_header _).bind fun _ =>
    timeless_flush.mono (fun ready => ready.toSame) fun ready => ready.toSame

/-- **A read of the image** is the same, however its pieces are interrupted. -/
theorem Image.timeless_read (space limit : Nat) :
    Timeless w o Station.Same (read space limit : Link ε (List UInt8)) Station.Same where
  agrees := by
    intro t t' r r' s s' u u' h h' hs hs' same
    induction space using Nat.strongRecOn generalizing limit t t' r r' s s' with
    | _ space ih =>
      rw [read] at h h'
      by_cases hz : space = 0 ∨ limit = 0
      · rw [dif_pos hz] at h h'
        exact (timeless_pure []).agrees h h' hs hs' same
      rw [dif_neg hz] at h h'
      obtain _ | ⟨d, rest⟩ := h
      obtain _ | ⟨d', rest'⟩ := h'
      obtain ⟨mid, ⟨hd, rfl⟩, hs⟩ := hs
      obtain ⟨mid', ⟨hd', rfl⟩, hs'⟩ := hs'
      rw [← same.state] at hd' hs'
      have drawn : Station.Same { s with state := (w.draw (min space limit) s.state).2 }
          { s' with state := (w.draw (min space limit) s.state).2 } :=
        ⟨⟨rfl, same.reader, same.queue⟩, same.unasked, same.unasked'⟩
      have settle : d.settle = d'.settle := hd.trans hd'.symm
      have alike : Transcript.Alike o [(⟨.image (min space limit), d⟩ : Exchange ε)]
          [⟨.image (min space limit), d'⟩] :=
        ⟨rfl, rfl, by simp only [Transcript.taken, List.flatMap_cons, Exchange.taken, settle],
          [], .other rfl .nil, .other rfl .nil⟩
      simp only [← settle] at rest'
      cases hsettle : d.settle with
      | error kind =>
        simp only [hsettle] at rest rest'
        obtain ⟨e, left, alike'⟩ := (timeless_fail (.io kind)).agrees rest rest' hs hs' drawn
        exact ⟨e, left, alike.append alike'⟩
      | ok data =>
        simp only [hsettle] at rest rest'
        by_cases hnone : data.val = []
        · simp only [dif_pos hnone] at rest rest'
          obtain ⟨e, left, alike'⟩ := (timeless_pure []).agrees rest rest' hs hs' drawn
          exact ⟨e, left, alike.append alike'⟩
        · simp only [dif_neg hnone] at rest rest'
          obtain ⟨q, hq, rfl⟩ := Dialogue.held_map_iff.mp rest
          obtain ⟨q', hq', rfl⟩ := Dialogue.held_map_iff.mp rest'
          have pos := List.length_pos_iff.mpr hnone
          obtain ⟨rfl, left, alike'⟩ := ih _ (by omega) _ hq hq' hs hs' drawn
          exact ⟨rfl, leaves_same.mpr (leaves_same.mp left), alike.append alike'⟩

/-- **No composed operation sees the time**, if the change to binary mode is the only one to ask for
binary mode. -/
theorem Link.Composed.timeless {P : Request → Prop} {x : Link ε α} (h : x.Composed o P)
    (hP : ∀ d, P (.log d) → d.asks = false) : Timeless w o Station.Same x Station.Same := by
  induction h with
  | pure a => exact timeless_pure a
  | fail _ => exact timeless_fail _
  | log _ allowed => exact timeless_log (hP _ allowed)
  | delay _ => exact timeless_delay _
  | progress _ => exact timeless_progress _
  | image _ => exact Image.timeless_read _ _
  | handshake => exact timeless_handshake
  | readWord _ => exact Monitor.timeless_readWord _
  | writeWord _ => exact Monitor.timeless_writeWord _ _
  | writeBlock _ _ => exact Monitor.timeless_writeBlock _ _
  | go _ => exact Monitor.timeless_go _
  | during stage _ ih => exact ih.during stage
  | bind _ _ ih₁ ih₂ => exact ih₁.bind_held ih₂

end

end SamFlash
