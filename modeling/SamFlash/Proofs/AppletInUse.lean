import SamFlash.Proofs.Checks
import SamFlash.Proofs.Copying

/-!
# The applet in use

The host loads the applet (`Applet.load`), sets its parameters with `Applet.setWords`,
`Applet.setStack`, `Applet.setSource` and `Applet.setDestination`, in any order and as often as it
likes, and starts it (`Applet.run`). What counts in the end is what each parameter was last set to
(`Applet.last`), and a job is only given if each was set at least once (`Applet.Orders`).

The monitor is one in front of a core (`Monitor.core`): what it is told to store is in memory, and a
branch leads to the code that is there, with the stack pointer and the entry address taken from the
two words at the address of the branch. What a branch starts has to be back in the monitor within a
given number of steps. The port takes its time. Nothing on the wire says when the copy is done; the
core is back before the monitor takes its next command.

The parts meet in the middle. On the side of the host, every operation comes down to the commands
that it sends (`Link.Performs`), whatever the timing. On the side of the core, a store of a
parameter changes one word of the loaded applet and no other, so that the parameters can be followed
one by one, and `Thumb.Machine.call_copies` does the rest. The ranges have to be whole words below
the top of the address space, apart from each other and from the applet (`Thumb.Job.Fits`); the
routine makes no check of its own.

Results:
* `Link.Performs.bind`: what an operation does to the core, piece by piece.
* `Applet.performs_prepare`, `Applet.performs_run`: the commands of the host.
* `Applet.ready_settled`: whatever the order, the applet is ready for the job that the last settings
  come to.
* **`applet_copies`**: the host and the core together.
-/

namespace SamFlash

/-! ## A monitor in front of a core -/

open Link Thumb

variable {ε α β : Type} {o : Options}

/-- A monitor that stores in memory and branches to code in it, which has to be back in up to `n`
steps. Without a machine the code has not come back. -/
def Monitor.core (n : Nat) : Conduct (Option Machine) ε where
  begin _ s := s
  put _ s := (.ok (), s)
  flush s := (.ok (), s)
  reply
    | .binaryMode, some m => ([.ok 0x0a, .ok 0x0d], m.obey n .binaryMode)
    | .readWord addr, some m =>
      ((m.memory.load addr.toNat 4).map .ok, m.obey n (.readWord addr))
    | cmd, s => ([], s.bind (·.obey n cmd))
  draw _ s := (.bytes [] (Nat.zero_le _), s)

theorem Monitor.obliging_core (n : Nat) : (core n : Conduct (Option Machine) ε).Obliging where
  put _ _ := rfl
  flush _ := rfl

namespace Thumb

/-- What the monitor makes of commands in a row. -/
def Machine.obeyAll (n : Nat) (m : Option Machine) (cs : List Command) : Option Machine :=
  cs.foldl (fun m cmd => m.bind (·.obey n cmd)) m

theorem Machine.obeyAll_append (n : Nat) (m : Option Machine) (cs ds : List Command) :
    obeyAll n m (cs ++ ds) = obeyAll n (obeyAll n m cs) ds :=
  List.foldl_append

end Thumb

namespace Link

variable {n : Nat} {x : Link ε α} {f : α → Link ε β} {cs ds : List Command} {a : α} {b : β}

/-- On a monitor in front of a core the operation succeeds with `a`, and does what the commands
do. -/
structure Performs (n : Nat) (x : Link ε α) (cs : List Command) (a : α) : Prop where
  served : ∀ {o : Options} {t : Transcript ε} {r : Except (Failure ε) α}
    {s u : Station (Option Machine) ε}, Held x t r → s.Serves (Monitor.core n) o t u → s.AtRest →
    r = .ok a ∧ u.AtRest ∧ u.state = Machine.obeyAll n s.state cs

theorem Performs.bind (hx : x.Performs n cs a) (hf : (f a).Performs n ds b) :
    (x >>= f).Performs n (cs ++ ds) b where
  served := by
    intro o t r s u h hs rest
    rcases held_bind_iff.mp h with ⟨g, h₁, -⟩ | ⟨a', t₁, t₂, h₁, h₂, rfl⟩
    · exact absurd (hx.served h₁ hs rest).1 (by simp)
    · obtain ⟨mid, hs₁, hs₂⟩ := Station.serves_append_iff.mp hs
      obtain ⟨ha, rest', state⟩ := hx.served h₁ hs₁ rest
      obtain rfl := Except.ok.inj ha
      obtain ⟨hb, rest'', state'⟩ := hf.served h₂ hs₂ rest'
      exact ⟨hb, rest'', by rw [state', state, Machine.obeyAll_append]⟩

theorem Performs.exact_bind {c : Checked α} {a : α} (hc : c = .ok a)
    (h : (f a).Performs n cs b) : (exact c >>= f).Performs n cs b := by
  rw [hc, exact_ok, pure_bind]
  exact h

theorem performs_pure (a : α) : (pure a : Link ε α).Performs n [] a where
  served := by
    intro o t r s u h hs rest
    obtain ⟨rfl, rfl⟩ := held_pure_iff.mp h
    obtain rfl := hs
    exact ⟨rfl, rest, rfl⟩

theorem performs_log {d : Diagnostic} (hd : d.asks = false) :
    (log d : Link ε Unit).Performs n [] () where
  served := by
    intro o t r s u h hs rest
    obtain ⟨rfl, rfl⟩ := served_log hd h hs rest.unasked
    exact ⟨rfl, rest, rfl⟩

/-- What is sent to be stored or branched to reaches the core. -/
theorem performs_sent {x : Link ε Unit} {c : Command} {d : Diagnostic}
    (reaches : ∀ o, x.Reaches (Monitor.core n : Conduct (Option Machine) ε) o c.wire)
    (hc : c.payload.length < UInt32.size) (hd : d.asks = false)
    (mute : ∀ s, (Monitor.core n : Conduct (Option Machine) ε).reply c s =
      ([], s.bind (·.obey n c))) :
    (log d >>= fun _ => x).Performs n [c] () where
  served := by
    intro o t r s u h hs rest
    obtain ⟨hr, rest', state⟩ := (reaches o).served hc hd h hs rest (by rw [mute])
    refine ⟨hr, rest', ?_⟩
    rw [state, mute]
    rfl

end Link

namespace Monitor

variable {n : Nat}

theorem performs_writeWord (addr value : Word) :
    (writeWord addr value : Link ε Unit).Performs n [.writeWord addr value] () :=
  performs_sent (c := .writeWord addr value)
    (fun _ => reaches_wire (obliging_core n) rfl) (Nat.two_pow_pos 32) rfl fun _ => rfl

theorem performs_go (addr : Word) : (go addr : Link ε Unit).Performs n [.go addr] () :=
  performs_sent (c := .go addr)
    (fun _ => reaches_wire (obliging_core n) rfl) (Nat.two_pow_pos 32) rfl fun _ => rfl

theorem performs_writeBlock (addr : Word) {data : List UInt8} (fits : data.length < UInt32.size) :
    (writeBlock addr data : Link ε Unit).Performs n [.writeBlock addr data] () :=
  performs_sent (c := .writeBlock addr data)
    (fun _ => reaches_block (obliging_core n) addr data) fits rfl fun _ => rfl

end Monitor

/-! ## Setting the applet up -/

namespace Applet

/-- The parameters that are set before the applet is started. -/
inductive Slot where
  | stack
  | destination
  | source
  | words
  deriving DecidableEq, Repr

/-- Where a parameter is. -/
def Slot.offset : Slot → Word
  | stack => stackOffset
  | destination => destinationOffset
  | source => sourceOffset
  | words => wordsOffset

/-- A parameter, and what it is set to. -/
structure Setting where
  slot : Slot
  value : Word
  deriving DecidableEq, Repr

/-- Sets a parameter. -/
def set (a : Applet) (x : Setting) : Link ε Unit :=
  match x.slot with
  | .stack => a.setStack x.value
  | .destination => a.setDestination x.value
  | .source => a.setSource x.value
  | .words => a.setWords x.value

/-- Sets parameters in order. -/
def setAll (a : Applet) : List Setting → Link ε Unit
  | [] => pure ()
  | x :: xs => do
    a.set x
    a.setAll xs

/-- Loads the applet, and sets its parameters. -/
def prepare (base : Word) (settings : List Setting) : Link ε Applet := do
  let a ← load base
  a.setAll settings
  return a

/-- What a parameter was last set to. -/
def last (slot : Slot) : List Setting → Option Word
  | [] => none
  | x :: xs => (last slot xs).or (if x.slot = slot then some x.value else none)

/-- The job that settings come to: each parameter has been set, the last time to its value in the
job. -/
structure Orders (settings : List Setting) (j : Job) : Prop where
  stack : last .stack settings = some j.stack
  destination : last .destination settings = some j.destination
  source : last .source settings = some j.source
  words : last .words settings = some j.words

variable {n : Nat} {base : Word}

/-- Addresses in the applet do not wrap. -/
theorem toNat_inside (room : base.toNat + code.length ≤ UInt32.size) {k : Word}
    (hk : k.toNat < 0x34) :
    Word.add base k = .ok (base + k) ∧ (base + k).toNat = base.toNat + k.toNat := by
  have size : code.length = 0x34 := code_length
  have sum : (base + k).toNat = base.toNat + k.toNat := Word.toNat_add_of_lt (by omega)
  exact ⟨Word.add_eq_ok_iff.mpr sum, sum⟩

/-- The slots are behind the code. -/
theorem Slot.inside (slot : Slot) :
    instructions.length ≤ slot.offset.toNat ∧ slot.offset.toNat + 4 ≤ code.length := by
  cases slot <;> decide

theorem Slot.toNat_address (room : base.toNat + code.length ≤ UInt32.size) (slot : Slot) :
    Word.add base slot.offset = .ok (base + slot.offset) ∧
      (base + slot.offset).toNat = base.toNat + slot.offset.toNat :=
  toNat_inside room (by
    have size : code.length = 0x34 := code_length
    have := slot.inside
    omega)

theorem performs_set (room : base.toNat + code.length ≤ UInt32.size) (x : Setting) :
    ((Applet.mk base).set x : Link ε Unit).Performs n
      [.writeWord (base + x.slot.offset) x.value] () := by
  have stored {d : Diagnostic} (hd : d.asks = false) :
      (log d >>= fun _ => (Applet.mk base).setSlot x.slot.offset x.value : Link ε Unit).Performs n
        [.writeWord (base + x.slot.offset) x.value] () := by
    exact (performs_log hd).bind
      (.exact_bind (x.slot.toNat_address room).1 (Monitor.performs_writeWord _ _))
  obtain ⟨slot, value⟩ := x
  cases slot with
  | stack => exact stored (d := .appletStack value) rfl
  | destination => exact stored (d := .appletDestination value) rfl
  | source => exact stored (d := .appletSource value) rfl
  | words => exact stored (d := .appletWords value) rfl

theorem performs_setAll (room : base.toNat + code.length ≤ UInt32.size) (xs : List Setting) :
    ((Applet.mk base).setAll xs : Link ε Unit).Performs n
      (xs.map fun x => .writeWord (base + x.slot.offset) x.value) () := by
  induction xs with
  | nil => exact performs_pure ()
  | cons x xs ih => exact (performs_set room x).bind ih

theorem performs_prepare (room : base.toNat + code.length ≤ UInt32.size) (xs : List Setting) :
    (prepare base xs : Link ε Applet).Performs n
      (.writeBlock base code :: xs.map fun x => .writeWord (base + x.slot.offset) x.value)
      ⟨base⟩ := by
  have loaded : (load base : Link ε Applet).Performs n [.writeBlock base code] ⟨base⟩ :=
    (performs_log rfl).bind
      ((Monitor.performs_writeBlock base code_fits).bind (performs_pure _))
  have set : ((Applet.mk base).setAll xs >>= fun _ => pure ⟨base⟩ : Link ε Applet).Performs n _ _ :=
    (performs_setAll room xs).bind (performs_pure _)
  rw [List.append_nil] at set
  exact loaded.bind set

theorem performs_run (room : base.toNat + code.length ≤ UInt32.size) :
    ((Applet.mk base).run : Link ε Unit).Performs n
      [.writeWord (base + resetOffset) (base + 1), .go (base + stackOffset)] () := by
  have entry : (Applet.mk base).entry = .ok (base + 1) := by
    have start : Word.add base startOffset = .ok base := Word.add_eq_ok_iff.mpr rfl
    have thumb : Word.add base 1 = .ok (base + 1) := (toNat_inside room (by decide)).1
    simp only [Applet.entry, start, bind, Except.bind, thumb]
  have reset : Word.add base resetOffset = .ok (base + resetOffset) :=
    (toNat_inside room (by decide)).1
  have stack : Word.add base stackOffset = .ok (base + stackOffset) :=
    (toNat_inside room (by decide)).1
  refine (performs_log rfl).bind (.exact_bind reset (.exact_bind entry ?_))
  exact (Monitor.performs_writeWord _ _).bind (.exact_bind stack (Monitor.performs_go _))

end Applet

/-! ## What the settings come to -/

namespace Applet

open Memory

variable {base : Word} {m : Memory} {xs : List Setting} {j : Job} {n : Nat}

/-- Memory when the parameters have been set. -/
def settled (base : Word) (m : Memory) (xs : List Setting) : Memory :=
  xs.foldl (fun m x => m.store (base.toNat + x.slot.offset.toNat) x.value.toBytes) m

theorem settled_cons (x : Setting) :
    settled base m (x :: xs) =
      settled base (m.store (base.toNat + x.slot.offset.toNat) x.value.toBytes) xs := rfl

/-- Slots do not overlap. -/
theorem Slot.apart {slot slot' : Slot} (h : slot ≠ slot') (base : Nat) :
    Apart (base + slot.offset.toNat) 4 (base + slot'.offset.toNat) 4 := by
  have stack : stackOffset.toNat = 0x20 := rfl
  have destination : destinationOffset.toNat = 0x28 := rfl
  have source : sourceOffset.toNat = 0x2c := rfl
  have words : wordsOffset.toNat = 0x30 := rfl
  intro i both
  cases slot <;> cases slot' <;> simp only [Slot.offset] at both <;>
    first | exact h rfl | omega

/-- **Every slot** holds what it was last set to, whatever was set in between. -/
theorem word_settled (slot : Slot) :
    (settled base m xs).word (base.toNat + slot.offset.toNat) =
      (last slot xs).getD (m.word (base.toNat + slot.offset.toNat)) := by
  induction xs generalizing m with
  | nil => rfl
  | cons x xs ih =>
    rw [settled_cons, ih, last]
    cases last slot xs with
    | some w => rfl
    | none =>
      by_cases hs : x.slot = slot
      · subst hs
        simp [word_store_toBytes]
      · have apart : Apart (base.toNat + x.slot.offset.toNat) x.value.toBytes.length
            (base.toNat + slot.offset.toNat) 4 := Slot.apart hs base.toNat
        simp [hs, word_store_apart apart]

/-- The parameters are behind the code, and nothing else is touched. -/
theorem settled_of_outside {i : Nat}
    (h : i < base.toNat + instructions.length ∨ base.toNat + code.length ≤ i) :
    settled base m xs i = m i := by
  induction xs generalizing m with
  | nil => rfl
  | cons x xs ih =>
    have within := x.slot.inside
    have four : x.value.toBytes.length = 4 := rfl
    rw [settled_cons, ih]
    exact store_of_outside (by omega)

theorem loaded_store_code (m : Memory) (base : Nat) : Loaded base (m.store base code) := by
  have front : instructions.length ≤ code.length := by decide
  rw [Loaded, load_store_take _ _ front]
  rfl

/-- **The applet is ready** for the job that the settings come to, once its entry address has been
stored. -/
theorem ready_settled (room : base.toNat + code.length ≤ UInt32.size) (orders : Orders xs j) :
    Ready base.toNat j
      ((settled base (m.store base.toNat code) xs).store (base.toNat + resetOffset.toNat)
        (base + 1).toBytes) := by
  have entry : (base + 1).toNat = base.toNat + 1 := (toNat_inside room (by decide)).2
  have reset : resetOffset.toNat = 0x24 := rfl
  have behind {start k : Nat} (h : start + k ≤ base.toNat + 0x24 ∨ base.toNat + 0x28 ≤ start) :
      Apart (base.toNat + resetOffset.toNat) (base + 1).toBytes.length start k := by
    have four : (base + 1).toBytes.length = 4 := rfl
    intro i both
    omega
  have slot {s : Slot} {w : Word} (h : last s xs = some w)
      (ho : s.offset.toNat + 4 ≤ 0x24 ∨ 0x28 ≤ s.offset.toNat) :
      ((settled base (m.store base.toNat code) xs).store (base.toNat + resetOffset.toNat)
        (base + 1).toBytes).word (base.toNat + s.offset.toNat) = w := by
    rw [word_store_apart (behind (by omega)), word_settled, h]
    rfl
  have code_kept : Loaded base.toNat (settled base (m.store base.toNat code) xs) := by
    refine (List.map_congr_left fun i hi => settled_of_outside (Or.inl ?_)).trans
      (loaded_store_code m base.toNat)
    have := List.mem_range.mp hi
    omega
  refine ⟨?_, slot (s := .stack) orders.stack (by decide), ?_,
    slot (s := .destination) orders.destination (by decide),
    slot (s := .source) orders.source (by decide), slot (s := .words) orders.words (by decide)⟩
  · have length : instructions.length = 32 := rfl
    rw [Loaded, load_store_apart (behind (by omega))]
    exact code_kept
  · rw [← entry]
    exact congrArg UInt32.toNat (word_store_toBytes _ _ _)

theorem obeyAll_prepare (room : base.toNat + code.length ≤ UInt32.size) (machine : Machine) :
    Machine.obeyAll n (some machine)
        (.writeBlock base code :: xs.map fun x => .writeWord (base + x.slot.offset) x.value) =
      some { machine with memory := settled base (machine.memory.store base.toNat code) xs } := by
  have stored (machine : Machine) :
      Machine.obeyAll n (some machine)
          (xs.map fun x => .writeWord (base + x.slot.offset) x.value) =
        some { machine with memory := settled base machine.memory xs } := by
    induction xs generalizing machine with
    | nil => rfl
    | cons x xs ih =>
      rw [settled_cons, ← (x.slot.toNat_address room).2]
      exact ih _
  exact stored _

theorem obeyAll_run (machine : Machine) (room : base.toNat + code.length ≤ UInt32.size) :
    Machine.obeyAll n (some machine)
        [.writeWord (base + resetOffset) (base + 1), .go (base + stackOffset)] =
      Machine.call n
        { machine with
          memory := machine.memory.store (base.toNat + resetOffset.toNat) (base + 1).toBytes }
        (base.toNat + stackOffset.toNat) := by
  have reset : (base + resetOffset).toNat = base.toNat + resetOffset.toNat :=
    (toNat_inside room (by decide)).2
  have stack : (base + stackOffset).toNat = base.toNat + stackOffset.toNat :=
    (toNat_inside room (by decide)).2
  simp only [Machine.obeyAll, List.foldl_cons, List.foldl_nil, Option.bind_some, Machine.obey,
    reset, stack]

/-- What the applet has done to memory. -/
structure Copied (base : Nat) (j : Job) (before after : Memory) : Prop where
  /-- Its entry address has been stored. -/
  reset : (after.word (base + resetOffset.toNat)).toNat = base + startOffset.toNat + 1
  /-- The words at the destination are those that were at the source. -/
  words : ∀ i < j.words.toNat,
    after.word (j.destination.toNat + 4 * i) = before.word (j.source.toNat + 4 * i)
  /-- Nothing else has changed. -/
  kept : ∀ i, ¬ (base + resetOffset.toNat ≤ i ∧ i < base + resetOffset.toNat + 4) →
    ¬ (j.destination.toNat ≤ i ∧ i < j.destination.toNat + j.length) → after i = before i

theorem copied_of_ready {before : Memory} (fits : j.Fits base.toNat)
    (ready : Ready base.toNat j
      (before.store (base.toNat + resetOffset.toNat) (base + 1).toBytes)) :
    Copied base.toNat j before
      (j.copied (before.store (base.toNat + resetOffset.toNat) (base + 1).toBytes)
        j.words.toNat) where
  reset := (ready.copied fits (Nat.le_refl _)).reset
  words := by
    intro i hi
    have apart : Apart (base.toNat + resetOffset.toNat) (base + 1).toBytes.length
        (j.source.toNat + 4 * i) 4 := by
      have inside : resetOffset.toNat + (base + 1).toBytes.length ≤ code.length := by
        show 0x24 + 4 ≤ 0x34
        decide
      refine fits.source_apart.symm.mono (Nat.le_add_right _ _) ?_ (Nat.le_add_right _ _) ?_
      · omega
      · rw [Job.length]
        omega
    rw [Job.word_copied hi, word_store_apart apart]
  kept := by
    intro i reset destination
    have four : (base + 1).toBytes.length = 4 := rfl
    unfold Job.copied
    rw [store_of_outside (by rwa [length_load]), store_of_outside (by rwa [four])]

end Applet

/-- **The applet does what the host configures.** A monitor in front of a core is at rest, and the
host loads the applet at a word-aligned base with room for it, and sets its parameters, in any order
and with any repetitions, each of them at least once. The last settings make a job that fits, and
the host starts the applet. All of this succeeds. The settings touch nothing but the applet. The
core is back in the monitor after ten steps and five for every word, with the stack pointer that was
set last, and memory is what it was when the applet was started, but for the entry address and the
words that have been copied. -/
theorem applet_copies {base : Word} (aligned : base.toNat % 4 = 0)
    (room : base.toNat + Applet.code.length ≤ UInt32.size) {settings : List Applet.Setting}
    {j : Job} (orders : Applet.Orders settings j) (fits : j.Fits base.toNat) {n : Nat}
    (enough : 10 + 5 * j.words.toNat ≤ n) {s mid u : Station (Option Machine) ε}
    {t t' : Transcript ε} {r : Except (Failure ε) Applet} {r' : Except (Failure ε) Unit}
    {machine : Machine} (rest : s.AtRest) (running : s.state = some machine)
    (prepared : Held (Applet.prepare base settings) t r)
    (served : s.Serves (Monitor.core n) o t mid) (started : Held (Applet.mk base).run t' r')
    (served' : mid.Serves (Monitor.core n) o t' u) :
    r = .ok ⟨base⟩ ∧ r' = .ok () ∧ u.AtRest ∧
      ∃ before after, mid.state = some before ∧ u.state = some after ∧
        (∀ i, i < base.toNat ∨ base.toNat + Applet.code.length ≤ i →
          before.memory i = machine.memory i) ∧
        after.stackPointer = j.stack ∧
        Applet.Copied base.toNat j before.memory after.memory := by
  obtain ⟨hr, rest', state⟩ := (Applet.performs_prepare room settings).served prepared served rest
  obtain ⟨hr', rest'', state'⟩ := (Applet.performs_run room).served started served' rest'
  rw [running, Applet.obeyAll_prepare room] at state
  rw [state, Applet.obeyAll_run _ room] at state'
  have ready := Applet.ready_settled (m := machine.memory) room orders
  obtain ⟨after, returned, stack, memory⟩ := Machine.call_copies aligned
    (m := ⟨machine.registers, machine.stackPointer, machine.programCounter, machine.zero,
      (Applet.settled base (machine.memory.store base.toNat Applet.code) settings).store
        (base.toNat + Applet.resetOffset.toNat) (base + 1).toBytes⟩) ready fits enough
  refine ⟨hr, hr', rest'', _, after, state, state'.trans returned, ?_, stack, ?_⟩
  · intro i outside
    have size : Applet.instructions.length ≤ Applet.code.length := by decide
    exact (Applet.settled_of_outside (by omega)).trans (Memory.store_of_outside (by omega))
  · rw [memory]
    exact Applet.copied_of_ready fits ready

/-- Two words, where the number of words and the destination are set twice. -/
def Applet.twice : List Applet.Setting :=
  [⟨.words, 9⟩, ⟨.destination, 0x20001000⟩, ⟨.source, 0x20002000⟩, ⟨.stack, 0x20004000⟩,
    ⟨.words, 2⟩, ⟨.destination, 0x20003000⟩]

/-- A core with its addresses in memory. -/
def Thumb.Machine.numbered : Machine := ⟨fun _ => 0, 0, 0, false, UInt8.ofNat⟩

theorem applet_copies_two_words :
    let s : Station (Option Machine) Unit := ⟨some .numbered, Reader.start, [], 0, false⟩
    let d : Device (Station (Option Machine) Unit) Unit := (Monitor.core 20).device ⟨2, 0, false⟩
    let base : Word := 0x20001000
    let loading : Link Unit Applet := Applet.prepare base Applet.twice
    let mid := (loading.run.run d s).2
    let starting : Link Unit Unit := (Applet.mk base).run
    let u := (starting.run.run d mid).2
    (loading.run.run d s).1 = .ok ⟨base⟩ ∧ (starting.run.run d mid).1 = .ok () ∧ u.AtRest ∧
      ∃ before after, mid.state = some before ∧ u.state = some after ∧
        (∀ i, i < base.toNat ∨ base.toNat + Applet.code.length ≤ i →
          before.memory i = UInt8.ofNat i) ∧
        after.stackPointer = 0x20004000 ∧
        Applet.Copied base.toNat ⟨0x20003000, 0x20002000, 2, 0x20004000⟩ before.memory
          after.memory := by
  intro s d base loading mid starting u
  have aligned : base.toNat % 4 = 0 := by decide
  have room : base.toNat + Applet.code.length ≤ UInt32.size := by decide
  have orders : Applet.Orders Applet.twice ⟨0x20003000, 0x20002000, 2, 0x20004000⟩ :=
    ⟨rfl, rfl, rfl, rfl⟩
  have fits : Job.Fits ⟨0x20003000, 0x20002000, 2, 0x20004000⟩ base.toNat :=
    ⟨by decide, by decide, by decide, by decide, Memory.apart_of_le (by decide),
      Memory.apart_of_le (by decide), Memory.apart_of_le (by decide)⟩
  have enough : 10 + 5 * UInt32.toNat 2 ≤ 20 := by decide
  have patient : 0 ≤ Options.patience {} := Nat.zero_le _
  have rest : s.AtRest := ⟨rfl, rfl, rfl⟩
  exact applet_copies aligned room orders fits enough rest rfl
    (Dialogue.Held.of_run d loading s) (Conduct.serves_device patient loading s)
    (Dialogue.Held.of_run d starting mid) (Conduct.serves_device patient starting mid)

end SamFlash
