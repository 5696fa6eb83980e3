import SamFlash.Proofs.Timing
import SamFlash.Target.Memory

/-!
# The monitor as a memory

Reading and writing over the link is reading and writing a byte-addressed memory. The four
operations are those of the monitor (`Monitor.readWord`, `Monitor.writeWord`, `Monitor.writeBlock`,
`Monitor.go`), in any order and as often as one likes. The target is a reference monitor: it reads
the command stream, stores words low byte first, keeps the branches, and answers a read with the
four bytes at the address. The port takes its time, and so do the replies, as far as the host is
patient (`Options.patience`).

What a memory holds after some writes is said byte by byte: a byte is what the latest write that
covers it left there (`Access.left`). Nothing in this depends on how the bytes were sent or in which
pieces they were written, so words and blocks may overlap in any way and lie at any address.
Addresses are naturals here, and ranges do not wrap.

The invariant between two accesses is `Station.AtRest`: the monitor is between commands and the host
has nothing to read. An access that is sent comes to its end because the port takes everything
(`Conduct.Obliging`), and it ends with a flush, so nothing of it is still under way. A read comes to
its end because its four bytes are in the queue and the host waits for them; it takes these four and
no more. A session of accesses is then an induction on the calls, with the memory of the monitor as
the state.

Results:
* `Link.Reaches.bind`: bytes that are sent reach an obliging target, piece by piece.
* `Monitor.served_readWord`, `Link.Reaches.served`: one operation, from rest to rest.
* `Access.served`: one access to the reference monitor, from rest to rest.
* **`Access.calls_refine_memory`**: any sequence of accesses.
-/

namespace SamFlash

variable {σ ε α β : Type}

/-! ## Obliging targets -/

/-- The port always takes what it is given, and what the target does is up to its commands. -/
structure Conduct.Obliging (w : Conduct σ ε) : Prop where
  put : ∀ b s, w.put b s = (.ok (), s)
  flush : ∀ s, w.flush s = (.ok (), s)

/-- The replies to the commands, one after the other. -/
def Conduct.replies (w : Conduct σ ε) : List Command → σ → List (Except ε UInt8) × σ
  | [], s => ([], s)
  | c :: cs, s =>
    ((w.reply c s).1 ++ (w.replies cs (w.reply c s).2).1, (w.replies cs (w.reply c s).2).2)

namespace Conduct

variable {w : Conduct σ ε}

theorem replies_append (cs ds : List Command) (s : σ) :
    w.replies (cs ++ ds) s =
      ((w.replies cs s).1 ++ (w.replies ds (w.replies cs s).2).1,
        (w.replies ds (w.replies cs s).2).2) := by
  induction cs generalizing s with
  | nil => rfl
  | cons c cs ih => simp only [List.cons_append, replies, ih, List.append_assoc]

theorem replies_singleton (c : Command) (s : σ) : w.replies [c] s = w.reply c s := by
  simp only [replies, List.append_nil]

end Conduct

namespace Station

variable {w : Conduct σ ε} {o : Options} {s mid u : Station σ ε}

/-- Nothing is under way: the monitor is between commands and the host has nothing to read. -/
structure AtRest (s : Station σ ε) : Prop where
  reader : s.reader = Reader.start
  queue : s.queue = []
  unasked : s.asked = false

/-- What the station is when these bytes have been sent to it. -/
structure Sent (w : Conduct σ ε) (s : Station σ ε) (bs : List UInt8) (u : Station σ ε) : Prop where
  reader : u.reader = (s.reader.feedAll bs).1
  queue : u.queue = s.queue ++ (w.replies (s.reader.feedAll bs).2 s.state).1
  state : u.state = (w.replies (s.reader.feedAll bs).2 s.state).2
  fresh : s.misses = 0 ∨ bs ≠ [] → u.misses = 0
  unasked : u.asked = false

theorem sent_nil (unasked : s.asked = false) : s.Sent w [] s where
  reader := rfl
  queue := (List.append_nil _).symm
  state := rfl
  fresh := fun h => h.resolve_right fun some => some rfl
  unasked := unasked

theorem Sent.append {xs ys : List UInt8} (h : s.Sent w xs mid) (h' : mid.Sent w ys u) :
    s.Sent w (xs ++ ys) u where
  reader := by rw [Reader.feedAll_append, h'.reader, h.reader]
  queue := by
    rw [Reader.feedAll_append, Conduct.replies_append, h'.queue, h.queue, h.reader, h.state,
      List.append_assoc]
  state := by rw [Reader.feedAll_append, Conduct.replies_append, h'.state, h.reader, h.state]
  fresh := by
    intro written
    refine h'.fresh ?_
    by_cases hys : ys = []
    · rw [hys, List.append_nil] at written
      exact Or.inl (h.fresh written)
    · exact Or.inr hys
  unasked := h'.unasked

/-- A command that is sent in full to a station at rest is answered. -/
theorem Sent.wire {c : Command} (h : s.Sent w c.wire u) (rest : s.AtRest)
    (hc : c.payload.length < UInt32.size) :
    u.reader = Reader.start ∧ (u.queue, u.state) = w.reply c s.state ∧ u.misses = 0 := by
  obtain ⟨reader, queue, state, fresh, -⟩ := h
  rw [rest.reader, Reader.feedAll_wire c hc, Conduct.replies_singleton] at queue state
  rw [rest.queue, List.nil_append] at queue
  rw [rest.reader, Reader.feedAll_wire c hc] at reader
  refine ⟨reader, by rw [queue, state], fresh (Or.inr ?_)⟩
  have := c.length_wire hc
  intro none_sent
  rw [none_sent] at this
  cases c <;> simp at this

/-- A byte that the port takes is sent. -/
theorem sent_hears (hw : w.Obliging) (unasked : s.asked = false) (b : UInt8) :
    s.Sent w [b] (s.hears w b) := by
  have one : s.reader.feedAll [b] = ((s.reader.feed b).1, (s.reader.feed b).2.toList) := by
    rw [Reader.feedAll_cons, Reader.feedAll_nil, List.append_nil]
  refine ⟨?_, ?_, ?_, fun _ => misses_hears, asked_hears.trans unasked⟩ <;> rw [one] <;>
    unfold hears <;> obtain ⟨reader, _ | cmd⟩ := s.reader.feed b
  · rfl
  · rfl
  · exact (List.append_nil _).symm
  · simp only [Option.toList_some, Conduct.replies_singleton, hw.put]
  · simp only [Option.toList_none, Conduct.replies, hw.put]
  · simp only [Option.toList_some, Conduct.replies_singleton, hw.put]

end Station

/-! ## Sending -/

namespace Link

variable {w : Conduct σ ε} {o : Options} {s u : Station σ ε}

/-- On a target of this conduct the operation succeeds, and sends the bytes. -/
structure Reaches (w : Conduct σ ε) (o : Options) (x : Link ε Unit) (bs : List UInt8) : Prop where
  sends : ∀ {t r} {s u : Station σ ε}, Held x t r → s.Serves w o t u → s.asked = false →
    r = .ok () ∧ s.Sent w bs u

theorem Reaches.bind {x y : Link ε Unit} {xs ys : List UInt8} (hx : x.Reaches w o xs)
    (hy : y.Reaches w o ys) : (x >>= fun _ => y).Reaches w o (xs ++ ys) where
  sends := by
    intro t r s u h hs unasked
    rcases held_bind_iff.mp h with ⟨f, h₁, -⟩ | ⟨_, t₁, t₂, h₁, h₂, rfl⟩
    · exact absurd (hx.sends h₁ hs unasked).1 (by simp)
    · obtain ⟨mid, hs₁, hs₂⟩ := Station.serves_append_iff.mp hs
      obtain ⟨-, sent⟩ := hx.sends h₁ hs₁ unasked
      obtain ⟨hr, sent'⟩ := hy.sends h₂ hs₂ sent.unasked
      exact ⟨hr, sent.append sent'⟩

theorem reaches_byte (hw : w.Obliging) (b : UInt8) :
    (request (.write b) >>= fun a => settled a.settle).Reaches w o [b] where
  sends := by
    intro t r s u h hs unasked
    obtain ⟨a, rfl, rfl⟩ := held_request_settled h
    obtain ⟨ha, heard⟩ := Station.serves_singleton.mp hs
    rw [hw.put] at ha heard
    obtain rfl := Station.Heard.eq heard (Station.mayOmit_of_unasked unasked)
    exact ⟨by rw [ha]; rfl, Station.sent_hears hw unasked b⟩

theorem reaches_send (hw : w.Obliging) (bs : List UInt8) : (send bs).Reaches w o bs := by
  induction bs with
  | nil =>
    constructor
    intro t r s u h hs unasked
    obtain ⟨rfl, rfl⟩ := held_pure_iff.mp h
    obtain rfl := hs
    exact ⟨rfl, Station.sent_nil unasked⟩
  | cons b bs ih =>
    rw [send_cons]
    exact (reaches_byte hw b).bind ih

theorem reaches_flush (hw : w.Obliging) : (flush : Link ε Unit).Reaches w o [] where
  sends := by
    intro t r s u h hs unasked
    obtain ⟨a, rfl, rfl⟩ := held_request_settled h
    obtain ⟨ha, rfl⟩ := Station.serves_singleton.mp hs
    rw [hw.flush] at ha ⊢
    exact ⟨by rw [ha]; rfl, rfl, (List.append_nil _).symm, rfl, fun _ => rfl, rfl⟩

theorem reaches_header (hw : w.Obliging) (c : Command) :
    (send c.header >>= fun _ => flush : Link ε Unit).Reaches w o c.header := by
  have sent : (send c.header >>= fun _ => flush : Link ε Unit).Reaches w o (c.header ++ []) :=
    (reaches_send hw c.header).bind (reaches_flush hw)
  rwa [List.append_nil] at sent

theorem reaches_wire (hw : w.Obliging) {c : Command} (h : c.payload = []) :
    (send c.header >>= fun _ => flush : Link ε Unit).Reaches w o c.wire := by
  rw [Command.wire_eq_header h]
  exact reaches_header hw c

/-- A block goes out in two pieces, each with a flush behind it. -/
theorem reaches_block (hw : w.Obliging) (addr : Word) (data : List UInt8) :
    (send (Command.writeBlock addr data).header >>= fun _ => flush >>= fun _ =>
      send data >>= fun _ => flush : Link ε Unit).Reaches w o
        (Command.writeBlock addr data).wire := by
  have payload : (send data >>= fun _ => flush : Link ε Unit).Reaches w o (data ++ []) :=
    (reaches_send hw data).bind (reaches_flush hw)
  rw [List.append_nil] at payload
  exact (reaches_send hw (Command.writeBlock addr data).header).bind
    ((reaches_flush hw).bind payload)

/-- A diagnostic does not disturb the rest. -/
theorem served_log {d : Diagnostic} (hd : d.asks = false) {t : Transcript ε}
    {r : Except (Failure ε) Unit} (h : Held (log d) t r) (hs : s.Serves w o t u)
    (unasked : s.asked = false) : r = .ok () ∧ u = s := by
  obtain ⟨_, rfl, rfl⟩ := held_request_iff.mp h
  obtain rfl := Station.serves_singleton.mp hs
  rw [hd, ← unasked]
  exact ⟨rfl, rfl⟩

/-- An operation that sends a command without a reply. -/
theorem Reaches.served {x : Link ε Unit} {c : Command} {d : Diagnostic} (hx : x.Reaches w o c.wire)
    (hc : c.payload.length < UInt32.size) (hd : d.asks = false) {t : Transcript ε}
    {r : Except (Failure ε) Unit} (h : Held (log d >>= fun _ => x) t r) (hs : s.Serves w o t u)
    (rest : s.AtRest) (mute : (w.reply c s.state).1 = []) :
    r = .ok () ∧ u.AtRest ∧ u.state = (w.reply c s.state).2 := by
  rcases held_bind_iff.mp h with ⟨f, h₁, -⟩ | ⟨_, t₁, t₂, h₁, h₂, rfl⟩
  · exact absurd (served_log hd h₁ hs rest.unasked).1 (by simp)
  obtain ⟨mid, hs₁, hs₂⟩ := Station.serves_append_iff.mp hs
  obtain ⟨-, rfl⟩ := served_log hd h₁ hs₁ rest.unasked
  obtain ⟨hr, sent⟩ := hx.sends h₂ hs₂ rest.unasked
  obtain ⟨reader, answered, -⟩ := sent.wire rest hc
  obtain ⟨queue, state⟩ := Prod.mk.inj answered
  exact ⟨hr, ⟨reader, queue.trans mute, sent.unasked⟩, state⟩

/-- A receive gets the whole reply. -/
theorem fetch_map_ok (total : Nat) (bytes taken : List UInt8) :
    fetch total bytes.length (bytes.map (.ok · : UInt8 → Except ε UInt8)) taken =
      (⟨taken.reverse ++ bytes, none⟩, []) := by
  induction bytes generalizing taken with
  | nil => simp [fetch]
  | cons b bytes ih =>
    rw [List.map_cons, List.length_cons, fetch, ih, List.reverse_cons, List.append_assoc,
      List.singleton_append]

theorem served_receiveExactly {bytes : List UInt8} {t : Transcript ε}
    {r : Except (Failure ε) (List UInt8)} (h : Held (receiveExactly o bytes.length) t r)
    (hs : s.Serves w o t u) (queue : s.queue = bytes.map .ok) (fresh : s.misses = 0)
    (unasked : s.asked = false) :
    r = .ok bytes ∧ u.queue = [] ∧ u.state = s.state ∧ u.reader = s.reader ∧ u.asked = false := by
  obtain ⟨c, hc, rfl⟩ := held_receiveExactly_iff.mp h
  obtain ⟨-, got, rest⟩ := serves_receive hc hs fresh unasked
  rw [queue, fetch_map_ok] at got
  obtain ⟨rfl, empty⟩ := Prod.mk.inj got
  exact ⟨rfl, empty, rest⟩

end Link

/-! ## The operations of the monitor -/

namespace Monitor

open Link

variable {w : Conduct σ ε} {o : Options} {s u : Station σ ε} {t : Transcript ε}

theorem served_readWord (hw : w.Obliging) {addr : Word} {bytes : List UInt8}
    {r : Except (Failure ε) Word} (h : Held (readWord o addr) t r) (hs : s.Serves w o t u)
    (rest : s.AtRest) (reply : (w.reply (.readWord addr) s.state).1 = bytes.map .ok)
    (four : bytes.length = 4) :
    r = .ok (Word.ofBytes bytes) ∧ u.AtRest ∧ u.state = (w.reply (.readWord addr) s.state).2 := by
  have asking := reaches_send (o := o) hw (Command.readWord addr).header
  rcases held_bind_iff.mp h with ⟨f, h₁, -⟩ | ⟨_, t₁, t₂, h₁, h₂, rfl⟩
  · exact absurd (asking.sends h₁ hs rest.unasked).1 (by simp)
  obtain ⟨mid, hs₁, hs₂⟩ := Station.serves_append_iff.mp hs
  obtain ⟨-, sent⟩ := asking.sends h₁ hs₁ rest.unasked
  have unasked := sent.unasked
  rw [← Command.wire_eq_header (c := .readWord addr) rfl] at sent
  obtain ⟨reader, answered, fresh⟩ := sent.wire rest (Nat.two_pow_pos 32)
  obtain ⟨queue, state⟩ := Prod.mk.inj answered
  rw [← four] at h₂
  rcases held_bind_iff.mp h₂ with ⟨f, h₃, -⟩ | ⟨_, u₁, u₂, h₃, h₄, rfl⟩
  · exact absurd (served_receiveExactly h₃ hs₂ (queue.trans reply) fresh unasked).1 (by simp)
  obtain ⟨mid', hs₃, hs₄⟩ := Station.serves_append_iff.mp hs₂
  obtain ⟨got, queue', state', reader', unasked'⟩ :=
    served_receiveExactly h₃ hs₃ (queue.trans reply) fresh unasked
  obtain rfl := Except.ok.inj got
  rcases held_bind_iff.mp h₄ with ⟨f, h₅, -⟩ | ⟨_, v₁, v₂, h₅, h₆, rfl⟩
  · exact absurd (served_log rfl h₅ hs₄ unasked').1 (by simp)
  obtain ⟨mid'', hs₅, hs₆⟩ := Station.serves_append_iff.mp hs₄
  obtain ⟨-, rfl⟩ := served_log rfl h₅ hs₅ unasked'
  obtain ⟨rfl, rfl⟩ := held_pure_iff.mp h₆
  obtain rfl := hs₆
  exact ⟨rfl, ⟨reader'.trans reader, queue', unasked'⟩, state'.trans state⟩

end Monitor

/-! ## Flushes -/

/-- The last thing that is done is a flush, and it succeeds. -/
def Transcript.Flushed (t : Transcript ε) : Prop :=
  ∃ s a, t = s ++ [⟨.flush, a⟩] ∧ a.settle = .ok ()

theorem Transcript.Flushed.append_left {t : Transcript ε} (h : t.Flushed) (s : Transcript ε) :
    (s ++ t).Flushed := by
  obtain ⟨u, a, rfl, ha⟩ := h
  exact ⟨s ++ u, a, (List.append_assoc s u _).symm, ha⟩

namespace Link

/-- If the operation succeeds, the last thing that it does is a flush. -/
structure Flushes (x : Link ε Unit) : Prop where
  last : ∀ {t}, Held x t (.ok ()) → t.Flushed

theorem flushes_flush : (flush : Link ε Unit).Flushes where
  last h := by
    obtain ⟨a, rfl, hr⟩ := held_request_settled h
    cases hs : a.settle with
    | ok _ => exact ⟨[], a, rfl, hs⟩
    | error e => exact absurd hr (by simp [hs])

theorem Flushes.after {x : Link ε α} {f : α → Link ε Unit} (h : ∀ a, (f a).Flushes) :
    (x >>= f).Flushes where
  last ht := by
    obtain ⟨a, t₁, t₂, -, h₂, rfl⟩ := held_bind_ok ht
    exact ((h a).last h₂).append_left t₁

end Link

/-! ## Accesses -/

/-- What can be done to a memory over the link. -/
inductive Access where
  | readWord (addr : Word)
  | writeWord (addr value : Word)
  | writeBlock (addr : Word) (data : List UInt8)
  | go (addr : Word)
  deriving DecidableEq, Repr

namespace Access

/-- The command for it. -/
def command : Access → Command
  | readWord addr => .readWord addr
  | writeWord addr value => .writeWord addr value
  | writeBlock addr data => .writeBlock addr data
  | go addr => .go addr

/-- Makes the access; a read gives a word. -/
def perform (o : Options) : Access → Link ε (Option Word)
  | readWord addr => Monitor.readWord o addr >>= fun value => pure (some value)
  | writeWord addr value => Monitor.writeWord addr value >>= fun _ => pure none
  | writeBlock addr data => Monitor.writeBlock addr data >>= fun _ => pure none
  | go addr => Monitor.go addr >>= fun _ => pure none

/-- Everything but a read is sent and not answered. -/
def IsSent : Access → Prop
  | readWord _ => False
  | _ => True

/-- What the access leaves in the byte at `i`, if it covers it. -/
def byte? : Access → (i : Nat) → Option UInt8
  | writeWord addr value, i =>
    if addr.toNat ≤ i ∧ i < addr.toNat + 4 then
      some (UInt8.ofNat (value.toNat / 256 ^ (i - addr.toNat)))
    else none
  | writeBlock addr data, i => if addr.toNat ≤ i then data[i - addr.toNat]? else none
  | _, _ => none

/-- The memory that accesses leave behind: every byte is what the latest access that covers it left
there. -/
def left (m : Memory) (as : List Access) : Memory := fun i =>
  (as.reverse.findSome? (·.byte? i)).getD (m i)

/-- Where the access branches to. -/
def branch? : Access → Option Word
  | go addr => some addr
  | _ => none

/-- A read gives the word in the memory, low byte first; anything else gives nothing. -/
def Answered (m : Memory) : Access → Option Word → Prop
  | readWord addr, answer => ∃ value, answer = some value ∧ value.toNat =
      (m addr.toNat).toNat + 256 * (m (addr.toNat + 1)).toNat +
        256 ^ 2 * (m (addr.toNat + 2)).toNat + 256 ^ 3 * (m (addr.toNat + 3)).toNat
  | _, answer => answer = none

end Access

/-! ## The reference monitor -/

/-- What a reference monitor holds. -/
structure Ram where
  memory : Memory
  /-- The branches, the first one first. -/
  branches : List Word

/-- A monitor with nothing but memory. -/
def Monitor.reference : Conduct Ram ε where
  begin _ s := s
  put _ s := (.ok (), s)
  flush s := (.ok (), s)
  reply
    | .binaryMode, s => ([.ok 0x0a, .ok 0x0d], s)
    | .readWord addr, s => ((s.memory.load addr.toNat 4).map .ok, s)
    | .writeWord addr value, s =>
      ([], { s with memory := s.memory.store addr.toNat value.toBytes })
    | .writeBlock addr data, s => ([], { s with memory := s.memory.store addr.toNat data })
    | .go addr, s => ([], { s with branches := s.branches ++ [addr] })
  draw _ s := (.bytes [] (Nat.zero_le _), s)

theorem Monitor.obliging_reference : (reference : Conduct Ram ε).Obliging where
  put _ _ := rfl
  flush _ := rfl

/-- A stored word, byte by byte. -/
theorem Word.getElem?_toBytes (w : Word) {i : Nat} (h : i < 4) :
    w.toBytes[i]? = some (UInt8.ofNat (w.toNat / 256 ^ i)) := by
  match i, h with
  | 0, _ => simp [toBytes]
  | 1, _ => rfl
  | 2, _ => simp [toBytes, Nat.div_div_eq_div_mul]
  | 3, _ => simp [toBytes, Nat.div_div_eq_div_mul]

/-- The word of four bytes. -/
theorem Word.toNat_ofBytes (a b c d : UInt8) :
    (ofBytes [a, b, c, d]).toNat =
      a.toNat + 256 * b.toNat + 256 ^ 2 * c.toNat + 256 ^ 3 * d.toNat := by
  have := a.toNat_lt
  have := b.toNat_lt
  have := c.toNat_lt
  have := d.toNat_lt
  simp only [ofBytes, ofSize, List.foldr_cons, List.foldr_nil, UInt32.toNat_ofNat']
  omega

namespace Access

variable {o : Options}

/-- What a reference monitor holds after the access. -/
def after (a : Access) (s : Ram) : Ram where
  memory i := (a.byte? i).getD (s.memory i)
  branches := s.branches ++ a.branch?.toList

/-- The bytes of a word are stored like any other bytes. -/
theorem byte?_writeWord (addr value : Word) (i : Nat) :
    (writeWord addr value).byte? i = (writeBlock addr value.toBytes).byte? i := by
  have length : value.toBytes.length = 4 := rfl
  simp only [byte?]
  by_cases covered : addr.toNat ≤ i ∧ i < addr.toNat + 4
  · rw [if_pos covered, if_pos covered.1, Word.getElem?_toBytes value (by omega)]
  · rw [if_neg covered]
    split
    · exact (List.getElem?_eq_none (by omega)).symm
    · rfl

/-- A store is the access that stores the block. -/
theorem store_eq (m : Memory) (addr : Word) (data : List UInt8) :
    m.store addr.toNat data = fun i => ((writeBlock addr data).byte? i).getD (m i) := by
  funext i
  simp only [Memory.store, byte?]
  split <;> rfl

/-- A command changes the memory as its access says, and is answered if it is a read. -/
theorem reply_command (a : Access) (s : Ram) :
    (Monitor.reference : Conduct Ram ε).reply a.command s =
      (match a with
        | readWord addr => (s.memory.load addr.toNat 4).map .ok
        | _ => [], a.after s) := by
  cases a with
  | readWord addr => simp [Monitor.reference, command, after, byte?, branch?]
  | go addr => simp [Monitor.reference, command, after, byte?, branch?]
  | writeBlock addr data => simp [Monitor.reference, command, after, branch?, store_eq]
  | writeWord addr value =>
    simp [Monitor.reference, command, after, branch?, store_eq, byte?_writeWord]

/-- What is sent reaches the reference monitor, is not answered, and is flushed. -/
theorem served_sent {a : Access} {x : Link ε Unit} {d : Diagnostic}
    {s u : Station Ram ε} {t : Transcript ε} {r : Except (Failure ε) (Option Word)}
    (h : Link.Held ((Link.log d >>= fun _ => x) >>= fun _ => pure none) t r)
    (hs : s.Serves Monitor.reference o t u) (rest : s.AtRest)
    (reaches : x.Reaches (Monitor.reference : Conduct Ram ε) o a.command.wire)
    (flushes : x.Flushes) (ha : a.command.payload.length < UInt32.size) (hd : d.asks = false)
    (mute : ((Monitor.reference : Conduct Ram ε).reply a.command s.state).1 = []) :
    r = .ok none ∧ t.Flushed ∧ u.AtRest ∧ u.state = a.after s.state := by
  have state : ((Monitor.reference : Conduct Ram ε).reply a.command s.state).2 = a.after s.state :=
    congrArg Prod.snd (reply_command a s.state)
  rcases Link.held_bind_iff.mp h with ⟨f, h₁, -⟩ | ⟨_, t₁, t₂, h₁, h₂, rfl⟩
  · exact absurd (reaches.served ha hd h₁ hs rest mute).1 (by simp)
  obtain ⟨rfl, rfl⟩ := Link.held_pure_iff.mp h₂
  rw [List.append_nil] at hs ⊢
  obtain ⟨-, rest', state'⟩ := reaches.served ha hd h₁ hs rest mute
  exact ⟨rfl, (Link.Flushes.after fun _ => flushes).last h₁, rest', state'.trans state⟩

/-- One access to a reference monitor that is at rest. -/
theorem served {a : Access} {s u : Station Ram ε} {t : Transcript ε}
    {r : Except (Failure ε) (Option Word)} (h : Link.Held (a.perform o) t r)
    (hs : s.Serves Monitor.reference o t u) (rest : s.AtRest)
    (ha : a.command.payload.length < UInt32.size) :
    (∃ answer, r = .ok answer ∧ a.Answered s.state.memory answer) ∧ (a.IsSent → t.Flushed) ∧
      u.AtRest ∧ u.state = a.after s.state := by
  have obliging := Monitor.obliging_reference (ε := ε)
  cases a with
  | readWord addr =>
    have answered := congrArg Prod.fst (reply_command (ε := ε) (readWord addr) s.state)
    have state := congrArg Prod.snd (reply_command (ε := ε) (readWord addr) s.state)
    have four := s.state.memory.length_load addr.toNat 4
    rcases Link.held_bind_iff.mp h with ⟨f, h₁, -⟩ | ⟨value, t₁, t₂, h₁, h₂, rfl⟩
    · exact absurd (Monitor.served_readWord obliging h₁ hs rest answered four).1 (by simp)
    obtain ⟨rfl, rfl⟩ := Link.held_pure_iff.mp h₂
    rw [List.append_nil] at hs
    obtain ⟨got, idle, state'⟩ := Monitor.served_readWord obliging h₁ hs rest answered four
    obtain rfl := Except.ok.inj got
    exact ⟨⟨_, rfl, _, rfl, Word.toNat_ofBytes _ _ _ _⟩, False.elim, idle, state'.trans state⟩
  | writeWord addr value =>
    obtain ⟨rfl, flushed, idle, state⟩ := served_sent h hs rest
      (Link.reaches_wire obliging (c := .writeWord addr value) rfl)
      (.after fun _ => Link.flushes_flush) ha rfl rfl
    exact ⟨⟨none, rfl, rfl⟩, fun _ => flushed, idle, state⟩
  | writeBlock addr data =>
    obtain ⟨rfl, flushed, idle, state⟩ := served_sent h hs rest
      (Link.reaches_block obliging addr data)
      (.after fun _ => .after fun _ => .after fun _ => Link.flushes_flush) ha rfl rfl
    exact ⟨⟨none, rfl, rfl⟩, fun _ => flushed, idle, state⟩
  | go addr =>
    obtain ⟨rfl, flushed, idle, state⟩ := served_sent h hs rest
      (Link.reaches_wire obliging (c := .go addr) rfl)
      (.after fun _ => Link.flushes_flush) ha rfl rfl
    exact ⟨⟨none, rfl, rfl⟩, fun _ => flushed, idle, state⟩

/-! ## Sequences of accesses -/

/-- An access, with what it was asked, what it came to and how it left the target. -/
structure Call (ε : Type) where
  access : Access
  exchanges : Transcript ε
  result : Except (Failure ε) (Option Word)
  behind : Station Ram ε

/-- From the station `s` on the calls are made of a reference monitor, one after the other, and
leave it as `u`. -/
inductive Calls (o : Options) : Station Ram ε → List (Call ε) → Station Ram ε → Prop
  | nil (s : Station Ram ε) : Calls o s [] s
  | cons {s u : Station Ram ε} {c : Call ε} {cs : List (Call ε)}
      (held : Link.Held (c.access.perform o) c.exchanges c.result)
      (served : s.Serves Monitor.reference o c.exchanges c.behind) (later : Calls o c.behind cs u) :
      Calls o s (c :: cs) u

/-- The call does what its access does to a memory that holds `m`. -/
structure Call.Refines (m : Memory) (c : Call ε) : Prop where
  /-- It succeeds, and a read gives what is in the memory. -/
  answered : ∃ answer, c.result = .ok answer ∧ c.access.Answered m answer
  /-- What was sent was flushed. -/
  flushed : c.access.IsSent → c.exchanges.Flushed
  /-- No byte of a reply is left. -/
  heard : c.behind.queue = []

theorem left_cons (m : Memory) (a : Access) (as : List Access) :
    left m (a :: as) = left (fun i => (a.byte? i).getD (m i)) as := by
  funext i
  simp only [left, List.reverse_cons, List.findSome?_append, List.findSome?_cons,
    List.findSome?_nil]
  cases as.reverse.findSome? (·.byte? i) <;> cases a.byte? i <;> rfl

/-- The calls, made of a device one after the other. -/
def session (d : Device (Station Ram ε) ε) (o : Options) (s : Station Ram ε) :
    List Access → List (Call ε) × Station Ram ε
  | [] => ([], s)
  | a :: as =>
    let x := (a.perform o).run
    let behind := (Dialogue.run d x s).2
    let later := session d o behind as
    (⟨a, Dialogue.transcript d x s, (Dialogue.run d x s).1, behind⟩ :: later.1, later.2)

/-- A reference monitor of any pace, if it is not slower than the host is patient. -/
theorem calls_session {pace : Pace} (hl : pace.lag ≤ o.patience) (s : Station Ram ε)
    (as : List Access) :
    Calls o s (session (Monitor.reference.device pace) o s as).1
      (session (Monitor.reference.device pace) o s as).2 := by
  induction as generalizing s with
  | nil => exact .nil s
  | cons a as ih =>
    exact .cons (Dialogue.Held.of_run _ _ s) (Conduct.serves_device hl _ s) (ih _)

/-- **The link refines a byte-addressed memory.** In any sequence of accesses to a reference monitor
every read gives the word that the writes before it left at its address, low byte first; in the end
the monitor holds what all the writes left, and has branched where it was told to, in that order.
Every write and branch is flushed behind its last byte, and no access leaves a byte of a reply
behind. -/
theorem calls_refine_memory {s u : Station Ram ε} {cs : List (Call ε)} (h : Calls o s cs u)
    (rest : s.AtRest) (lengths : Command.Announceable (cs.map (·.access.command))) :
    (∀ prior c later, cs = prior ++ c :: later →
      c.Refines (left s.state.memory (prior.map Call.access))) ∧
      u.state.memory = left s.state.memory (cs.map Call.access) ∧
      u.state.branches = s.state.branches ++ (cs.map Call.access).filterMap branch? := by
  induction h with
  | nil s =>
    refine ⟨fun prior c later e => ?_, rfl, (List.append_nil _).symm⟩
    exact absurd e (by simp)
  | @cons s u c cs held served later ih =>
    obtain ⟨here, others⟩ := lengths.of_cons
    obtain ⟨answered, flushed, idle, state⟩ := Access.served held served rest here
    obtain ⟨each, memory, branches⟩ := ih idle others
    rw [state] at each memory branches
    refine ⟨?_, ?_, ?_⟩
    · intro prior d rest' e
      cases prior with
      | nil =>
        obtain ⟨rfl, rfl⟩ := List.cons.inj e
        exact ⟨answered, flushed, idle.queue⟩
      | cons x prior =>
        obtain ⟨rfl, rfl⟩ := List.cons.inj e
        rw [List.map_cons, left_cons]
        exact each prior d rest' rfl
    · rw [List.map_cons, left_cons]
      exact memory
    · rw [branches, List.map_cons, List.filterMap_cons, after, List.append_assoc]
      cases c.access.branch? <;> rfl

/-- A block, a word across it, and words read across both. -/
def overlapping : List Access :=
  [.writeBlock 0x20001000 [0x10, 0x11, 0x12, 0x13, 0x14, 0x15, 0x16],
    .writeWord 0x20001002 0xa3a2a1a0, .readWord 0x20001001, .go 0x20001001,
    .writeBlock 0x20001005 [], .readWord 0x20001004]

/-- A reference monitor with empty memory. -/
def emptied : Station Ram Unit := ⟨⟨Memory.filled 0, []⟩, Reader.start, [], 0, false⟩

/-- The port takes its time, and the host finds nothing as often as it has patience. -/
def sluggish : Device (Station Ram Unit) Unit := Monitor.reference.device ⟨2, 3, false⟩

set_option maxRecDepth 100000 in
theorem calls_refine_memory_sluggish :
    let o : Options := { responseTimeout := 5, pollDelay := 2 }
    let cs := (session sluggish o emptied overlapping).1
    let u := (session sluggish o emptied overlapping).2
    Calls o emptied cs u ∧ emptied.AtRest ∧ Command.Announceable (cs.map (·.access.command)) ∧
      ((∀ prior c later, cs = prior ++ c :: later →
        c.Refines (left (Memory.filled 0) (prior.map Call.access))) ∧
        u.state.memory = left (Memory.filled 0) (cs.map Call.access) ∧
        u.state.branches = (cs.map Call.access).filterMap branch?) ∧
      cs.map Call.result =
        [.ok none, .ok none, .ok (some 0xa2a1a011), .ok none, .ok none, .ok (some 0x0016a3a2)] := by
  intro o cs u
  have calls : Calls o emptied cs u := calls_session (by decide) emptied overlapping
  have rest : emptied.AtRest := ⟨rfl, rfl, rfl⟩
  have lengths : Command.Announceable (cs.map (·.access.command)) := by
    have made : cs.map (·.access.command) = overlapping.map command := rfl
    rw [made]
    unfold Command.Announceable
    decide
  refine ⟨calls, rest, lengths, calls_refine_memory calls rest lengths, ?_⟩
  cbv

end Access

end SamFlash
