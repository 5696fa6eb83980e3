import SamFlash.Proofs.MonitorMemory
import SamFlash.Proofs.Replay
import SamFlash.Target.Thumb

/-!
# What the applet does

The applet on a core: the monitor stores what it is told to store, and branches to the code that the
host has loaded. That code is the bytes of the applet (`Applet.code`), as the core decodes them,
instruction by instruction out of memory; nothing is said about the applet that its bytes do not do.

The routine loads its destination, its source and its number of words from the slots behind its
instructions, and jumps to its test. As long as the count is not zero it moves one word, with both
pointers going on, and counts down; then it looks at the slot of its entry address, takes its stack
pointer from RAM if that is zero, and returns through the link register. The invariant of the loop
is `Thumb.Pointing`: when `i` words have been copied, the two pointers are `i` words into their
ranges, the count is what is left, and memory differs from what it was by those words alone
(`Thumb.Job.copied`). Since the job's ranges are apart from each other and from the applet
(`Thumb.Job.Fits`), no word that is copied changes one that is still to be read, nor an instruction
that is still to be executed.

A count of zero copies nothing, and a job takes a fixed number of steps, so a monitor that waits
that long has its core back.

Results:
* `Thumb.Machine.fetches`: the instructions that are executed are those of the applet.
* `Thumb.Pointing.next`, `Thumb.Pointing.loop`: one word is copied, and all of them are.
* `Thumb.Machine.call_copies`: the applet as a whole.
-/

namespace SamFlash

/-! ## Ranges of memory -/

namespace Memory

variable {m : Memory} {data xs ys : List UInt8} {addr start n k i : Nat}

/-- No address is in both ranges. -/
def Apart (addr n start k : Nat) : Prop :=
  ∀ i, ¬ ((addr ≤ i ∧ i < addr + n) ∧ start ≤ i ∧ i < start + k)

theorem Apart.symm (h : Apart addr n start k) : Apart start k addr n :=
  fun i both => h i ⟨both.2, both.1⟩

theorem apart_of_le (h : addr + n ≤ start ∨ start + k ≤ addr) : Apart addr n start k :=
  fun i both => by omega

/-- Ranges that lie in those are apart as well. -/
theorem Apart.mono {addr' n' start' k' : Nat} (h : Apart addr n start k) (hl : addr ≤ addr')
    (hr : addr' + n' ≤ addr + n) (hl' : start ≤ start') (hr' : start' + k' ≤ start + k) :
    Apart addr' n' start' k' :=
  fun i both => h i (by omega)

theorem store_of_outside (h : ¬ (addr ≤ i ∧ i < addr + data.length)) :
    m.store addr data i = m i := by
  by_cases hl : i < addr
  · exact store_of_lt hl
  · exact store_of_ge (by omega)

/-- What is apart from a store is loaded as before. -/
theorem load_store_apart (h : Apart addr data.length start k) :
    (m.store addr data).load start k = m.load start k := by
  unfold load
  refine List.map_congr_left fun i hi => store_of_outside fun inside => ?_
  have := List.mem_range.mp hi
  exact h (start + i) (by omega)

theorem word_store_apart (h : Apart addr data.length start 4) :
    (m.store addr data).word start = m.word start := by
  unfold word
  rw [load_store_apart h]

theorem load_add (m : Memory) (addr n k : Nat) :
    m.load addr (n + k) = m.load addr n ++ m.load (addr + n) k := by
  simp only [load, List.range_add, List.map_append, List.map_map]
  congr 1
  exact List.map_congr_left fun i _ => by simp [Nat.add_assoc]

theorem store_append (m : Memory) (addr : Nat) (xs ys : List UInt8) :
    m.store addr (xs ++ ys) = (m.store addr xs).store (addr + xs.length) ys := by
  funext i
  by_cases hx : i < addr + xs.length
  · rw [store_of_lt hx]
    unfold store
    by_cases hl : addr ≤ i
    · rw [if_pos hl, if_pos hl, List.getElem?_append_left (by omega)]
    · rw [if_neg hl, if_neg hl]
  · have behind : i - addr - xs.length = i - (addr + xs.length) := by omega
    have whole : m.store addr (xs ++ ys) i = ((xs ++ ys)[i - addr]?).getD (m i) :=
      if_pos (by omega)
    have second : (m.store addr xs).store (addr + xs.length) ys i =
        (ys[i - (addr + xs.length)]?).getD (m.store addr xs i) := if_pos (by omega)
    rw [whole, second, store_of_ge (by omega), List.getElem?_append_right (by omega), behind]

theorem store_load_apply {m' : Memory} (h : k < n) :
    m.store addr (m'.load start n) (addr + k) = m' (start + k) := by
  unfold store
  rw [if_pos (by omega), Nat.add_sub_cancel_left, load, List.getElem?_map, List.getElem?_range h]
  rfl

theorem store_nil (m : Memory) (addr : Nat) : m.store addr [] = m := by
  funext i
  simp [store]

/-- The bytes of a word that has been loaded. -/
theorem toBytes_word (m : Memory) (addr : Nat) : (m.word addr).toBytes = m.load addr 4 := by
  have h0 := (m addr).toNat_lt
  have h1 := (m (addr + 1)).toNat_lt
  have h2 := (m (addr + 2)).toNat_lt
  have h3 := (m (addr + 3)).toNat_lt
  have bytes : m.load addr 4 = [m addr, m (addr + 1), m (addr + 2), m (addr + 3)] := rfl
  have value : (m.word addr).toNat = (m addr).toNat + 256 * (m (addr + 1)).toNat +
      256 ^ 2 * (m (addr + 2)).toNat + 256 ^ 3 * (m (addr + 3)).toNat := by
    rw [word, bytes, Word.toNat_ofBytes]
  simp only [bytes, Word.toBytes, value, List.map_cons, List.map_nil, List.cons.injEq, and_true]
  refine ⟨?_, ?_, ?_, ?_⟩ <;> rw [← UInt8.toNat_inj, UInt8.toNat_ofNat'] <;> omega

end Memory

/-! ## Executing the applet -/

namespace Thumb

open Memory

/-- The instructions of the applet are in memory. -/
def Loaded (base : Nat) (m : Memory) : Prop :=
  m.load base Applet.instructions.length = Applet.instructions

theorem getElem?_halfwords (bs : List UInt8) (k : Nat) :
    (halfwords bs)[k]? =
      bs[2 * k]?.bind fun low => bs[2 * k + 1]?.map fun high => low.toNat + 256 * high.toNat := by
  induction bs using halfwords.induct generalizing k with
  | case1 low high rest ih =>
    cases k with
    | zero => rfl
    | succ k => exact ih k
  | case2 bs short =>
    rw [halfwords]
    · match bs, short with
      | [], _ => rfl
      | [b], _ => cases k <;> rfl
      | b :: b' :: rest, short => exact absurd rfl (short b b' rest)
    · exact short

/-- The halfword at an instruction of the applet. -/
theorem Loaded.halfword {base k : Nat} {m : Memory} (h : Loaded base m)
    (hk : 2 * k + 1 < Applet.instructions.length) :
    (halfwords Applet.instructions)[k]? = some (halfword m (base + 2 * k)) := by
  have byte {j : Nat} (hj : j < Applet.instructions.length) :
      Applet.instructions[j]? = some (m (base + j)) := by
    rw [← h, load, List.getElem?_map, List.getElem?_range hj]
    rfl
  rw [getElem?_halfwords, byte (by omega), byte hk]
  rfl

variable {base : Nat} {m m' : Machine}

/-- **The instructions that are executed** are those of the applet. -/
theorem Machine.fetches (code : Loaded base m.memory) {k : Nat}
    (counter : m.programCounter = base + 2 * k) {i : Instruction}
    (hi : routine[k]? = some i) : m.step = m.execute i := by
  have hk : k < routine.length := (List.getElem?_eq_some_iff.mp hi).1
  have inside : 2 * k + 1 < Applet.instructions.length := by
    have length : routine.length = 15 := rfl
    have size : Applet.instructions.length = 32 := rfl
    omega
  have decoded : ((halfwords Applet.instructions).map decode)[k]? = some (some i) := by
    rw [decode_instructions, List.getElem?_append_left (by rwa [List.length_map]),
      List.getElem?_map, hi]
    rfl
  rw [List.getElem?_map, code.halfword inside] at decoded
  have decoded : decode (halfword m.memory (base + 2 * k)) = some i :=
    Option.some.inj decoded
  rw [step, counter, decoded]

/-- In `n` steps the first machine becomes the second one. -/
def Machine.Leads (n : Nat) (m m' : Machine) : Prop := ∀ k, m.run (n + k) = m'.run k

theorem Machine.leads_zero (m : Machine) : Leads 0 m m := fun k => by rw [Nat.zero_add]

theorem Machine.Leads.trans {m'' : Machine} {n k : Nat} (h : Leads n m m') (h' : Leads k m' m'') :
    Leads (n + k) m m'' := fun l => by rw [Nat.add_assoc, h, h']

/-- One step in front. -/
theorem Machine.Leads.before {m'' : Machine} {n : Nat} (h' : Leads n m' m'')
    (h : m.step = .running m') : Leads (n + 1) m m'' := fun k => by
  rw [Nat.add_right_comm, Machine.run, h]
  exact h' k

/-- What the applet is to do, in its parameters. -/
structure Job where
  destination : Word
  source : Word
  words : Word
  stack : Word
  deriving DecidableEq, Repr

/-- The number of bytes that are copied. -/
def Job.length (j : Job) : Nat := 4 * j.words.toNat

/-- The ranges of a job for an applet at `base`: whole words below the top of the address space,
apart from each other and from the applet. -/
structure Job.Fits (j : Job) (base : Nat) : Prop where
  destination_aligned : j.destination.toNat % 4 = 0
  source_aligned : j.source.toNat % 4 = 0
  destination_end : j.destination.toNat + j.length ≤ UInt32.size
  source_end : j.source.toNat + j.length ≤ UInt32.size
  apart : Apart j.destination.toNat j.length j.source.toNat j.length
  destination_apart : Apart j.destination.toNat j.length base Applet.code.length
  source_apart : Apart j.source.toNat j.length base Applet.code.length

/-- The applet is in memory, with its job and its entry address. -/
structure Ready (base : Nat) (j : Job) (m : Memory) : Prop where
  code : Loaded base m
  stack : m.word (base + 0x20) = j.stack
  reset : (m.word (base + 0x24)).toNat = base + 1
  destination : m.word (base + 0x28) = j.destination
  source : m.word (base + 0x2c) = j.source
  words : m.word (base + 0x30) = j.words

variable {j : Job} {mem : Memory} {i : Nat}

/-- Memory when `i` words have been copied. -/
def Job.copied (j : Job) (mem : Memory) (i : Nat) : Memory :=
  mem.store j.destination.toNat (mem.load j.source.toNat (4 * i))

theorem Job.Fits.apart_copied (hj : j.Fits base) (hi : i ≤ j.words.toNat) {addr n : Nat}
    (hl : base ≤ addr) (hr : addr + n ≤ base + Applet.code.length) :
    Apart j.destination.toNat (mem.load j.source.toNat (4 * i)).length addr n := by
  refine hj.destination_apart.mono (Nat.le_refl _) ?_ hl hr
  rw [length_load, Job.length]
  omega

/-- Copying leaves the applet alone. -/
theorem Ready.copied (hm : Ready base j mem) (hj : j.Fits base) (hi : i ≤ j.words.toNat) :
    Ready base j (j.copied mem i) := by
  have size : Applet.code.length = 0x34 := Applet.code_length
  have word {offset : Nat} (ho : offset + 4 ≤ 0x34) :
      (j.copied mem i).word (base + offset) = mem.word (base + offset) :=
    word_store_apart (hj.apart_copied hi (by omega) (by omega))
  refine ⟨?_, ?_, ?_, ?_, ?_, ?_⟩
  · have length : Applet.instructions.length = 32 := rfl
    unfold Loaded Job.copied
    rw [load_store_apart (hj.apart_copied hi (by omega) (by omega))]
    exact hm.code
  · rw [word (by omega), hm.stack]
  · rw [word (by omega), hm.reset]
  · rw [word (by omega), hm.destination]
  · rw [word (by omega), hm.source]
  · rw [word (by omega), hm.words]

/-- One more word. -/
theorem Job.copied_succ (hj : j.Fits base) (hi : i < j.words.toNat) :
    (j.copied mem i).store (j.destination.toNat + 4 * i)
        ((j.copied mem i).word (j.source.toNat + 4 * i)).toBytes =
      j.copied mem (i + 1) := by
  have apart : Apart j.destination.toNat (mem.load j.source.toNat (4 * i)).length
      (j.source.toNat + 4 * i) 4 := by
    refine hj.apart.mono (Nat.le_refl _) ?_ (by omega) ?_
    · rw [length_load, Job.length]
      omega
    · rw [Job.length]
      omega
  have length : (mem.load j.source.toNat (4 * i)).length = 4 * i := length_load _ _ _
  unfold Job.copied
  rw [word_store_apart apart, toBytes_word, Nat.mul_succ, load_add, store_append, length]

/-- The words that have been copied. -/
theorem Job.word_copied {n : Nat} (hi : i < n) :
    (j.copied mem n).word (j.destination.toNat + 4 * i) = mem.word (j.source.toNat + 4 * i) := by
  refine congrArg Word.ofBytes (List.map_congr_left fun k hk => ?_)
  have := List.mem_range.mp hk
  rw [Nat.add_assoc, Nat.add_assoc]
  exact store_load_apply (by omega)

theorem toNat_add_ofSize {w : Word} {n : Nat} (h : w.toNat + n < UInt32.size) :
    (w + Word.ofSize n).toNat = w.toNat + n := by
  rw [UInt32.toNat_add, Word.ofSize, UInt32.toNat_ofNat']
  rw [UInt32.size] at h
  omega

theorem add_ofSize_succ (w : Word) (i : Nat) :
    w + Word.ofSize (4 * i) + 4 = w + Word.ofSize (4 * (i + 1)) := by
  have four : UInt32.toNat 4 = 4 := rfl
  rw [← UInt32.toNat_inj]
  simp only [UInt32.toNat_add, Word.ofSize, UInt32.toNat_ofNat']
  omega

/-! ### The loop -/

/-- The registers of the loop when `i` words have been copied. -/
structure Pointing (j : Job) (i : Nat) (r : Fin 8 → Word) : Prop where
  destination : r 0 = j.destination + Word.ofSize (4 * i)
  source : r 1 = j.source + Word.ofSize (4 * i)
  left : (r 2).toNat = j.words.toNat - i

variable {r : Fin 8 → Word} {p : Word} {z : Bool} {memory : Memory}

theorem Pointing.zero_iff (h : Pointing j i r) : r 2 = 0 ↔ j.words.toNat ≤ i := by
  have zero : UInt32.toNat 0 = 0 := rfl
  rw [← UInt32.toNat_inj, h.left, zero]
  omega

/-- The counter is compared with zero. -/
theorem step_compare (code : Loaded base memory) :
    (⟨r, p, base + 14, z, memory⟩ : Machine).step =
      .running ⟨r, p, base + 16, r 2 == 0, memory⟩ :=
  Machine.fetches (k := 7) code rfl rfl

/-- With words left the loop goes on. -/
theorem step_again (code : Loaded base memory) :
    (⟨r, p, base + 16, false, memory⟩ : Machine).step =
      .running ⟨r, p, base + 8, false, memory⟩ := by
  have back : ((base + 16 : Nat) + 4 + (-12) : Int).toNat = base + 8 := by omega
  rw [Machine.fetches (k := 8) code rfl rfl, Machine.execute, if_neg (by simp), back]

/-- A word is loaded. -/
theorem step_load (code : Loaded base memory) (aligned : (r 1).toNat % 4 = 0) :
    (⟨r, p, base + 8, z, memory⟩ : Machine).step =
      .running ⟨fun s => if s = 3 then memory.word (r 1).toNat else if s = 1 then r 1 + 4 else r s,
        p, base + 10, z, memory⟩ := by
  rw [Machine.fetches (k := 4) code rfl rfl, Machine.execute, if_pos aligned]
  rfl

/-- A word is stored. -/
theorem step_store (code : Loaded base memory) (aligned : (r 0).toNat % 4 = 0) :
    (⟨r, p, base + 10, z, memory⟩ : Machine).step =
      .running ⟨fun s => if s = 0 then r 0 + 4 else r s, p, base + 12, z,
        memory.store (r 0).toNat (r 3).toBytes⟩ := by
  rw [Machine.fetches (k := 5) code rfl rfl, Machine.execute, if_pos aligned]
  rfl

/-- The counter goes down. -/
theorem step_count (code : Loaded base memory) :
    (⟨r, p, base + 12, z, memory⟩ : Machine).step =
      .running ⟨fun s => if s = 2 then r 2 - 1 else r s, p, base + 14, r 2 - 1 == 0, memory⟩ :=
  Machine.fetches (k := 6) code rfl rfl

/-- **One word is copied** in five steps. -/
theorem Pointing.next (h : Pointing j i r) (hm : Ready base j mem) (hj : j.Fits base)
    (hi : i < j.words.toNat) :
    ∃ r' z', Pointing j (i + 1) r' ∧ Machine.Leads 5 ⟨r, p, base + 14, z, j.copied mem i⟩
      ⟨r', p, base + 14, z', j.copied mem (i + 1)⟩ := by
  have code := (hm.copied hj (Nat.le_of_lt hi)).code
  have code' := (hm.copied hj hi).code
  have bound : 4 * i + 4 ≤ j.length := by
    rw [Job.length]
    omega
  have source : (r 1).toNat = j.source.toNat + 4 * i := by
    have := hj.source_end
    rw [h.source, toNat_add_ofSize (by omega)]
  have destination : (r 0).toNat = j.destination.toNat + 4 * i := by
    have := hj.destination_end
    rw [h.destination, toNat_add_ofSize (by omega)]
  have more : (r 2 == 0) = false := by
    rw [beq_eq_false_iff_ne, Ne, h.zero_iff]
    omega
  have compare := step_compare (r := r) (p := p) (z := z) code
  rw [more] at compare
  let r₁ : Fin 8 → Word := fun s =>
    if s = 3 then (j.copied mem i).word (r 1).toNat else if s = 1 then r 1 + 4 else r s
  let r₂ : Fin 8 → Word := fun s => if s = 0 then r 0 + 4 else r₁ s
  have wrote : (j.copied mem i).store (r₁ 0).toNat (r₁ 3).toBytes = j.copied mem (i + 1) := by
    show (j.copied mem i).store (r 0).toNat ((j.copied mem i).word (r 1).toNat).toBytes = _
    rw [destination, source]
    exact Job.copied_succ hj hi
  have load : Machine.step ⟨r, p, base + 8, false, j.copied mem i⟩ =
      .running ⟨r₁, p, base + 10, false, j.copied mem i⟩ :=
    step_load code (by have := hj.source_aligned; omega)
  have store : Machine.step ⟨r₁, p, base + 10, false, j.copied mem i⟩ =
      .running ⟨r₂, p, base + 12, false, j.copied mem (i + 1)⟩ := by
    have aligned : (r₁ 0).toNat % 4 = 0 := by
      show (r 0).toNat % 4 = 0
      have := hj.destination_aligned
      omega
    rw [← wrote]
    exact step_store code aligned
  have steps := (Machine.leads_zero _).before (step_count (r := r₂) (p := p) (z := false) code')
    |>.before store |>.before load |>.before (step_again code) |>.before compare
  refine ⟨_, _, ⟨?_, ?_, ?_⟩, steps⟩
  · show r 0 + 4 = _
    rw [h.destination, add_ofSize_succ]
  · show r 1 + 4 = _
    rw [h.source, add_ofSize_succ]
  · show (r 2 - 1).toNat = _
    have pos : (1 : Word) ≤ r 2 := by
      rw [UInt32.le_iff_toNat_le, h.left]
      have : UInt32.toNat 1 = 1 := rfl
      omega
    rw [UInt32.toNat_sub_of_le _ _ pos, h.left]
    have : UInt32.toNat 1 = 1 := rfl
    omega

/-- **The loop** copies the words that are left, and then leaves. -/
theorem Pointing.loop (h : Pointing j i r) (hm : Ready base j mem) (hj : j.Fits base)
    (hi : i ≤ j.words.toNat) :
    ∃ r', Machine.Leads (5 * (j.words.toNat - i) + 2) ⟨r, p, base + 14, z, j.copied mem i⟩
      ⟨r', p, base + 18, true, j.copied mem j.words.toNat⟩ := by
  -- the induction is on the words that are left
  induction left : j.words.toNat - i generalizing i r z with
  | zero =>
    obtain rfl : i = j.words.toNat := by omega
    have code := (hm.copied hj hi).code
    have none : (r 2 == 0) = true := by
      rw [beq_iff_eq, h.zero_iff]
    have compare := step_compare (r := r) (p := p) (z := z) code
    rw [none] at compare
    have leave : Machine.step ⟨r, p, base + 16, true, j.copied mem j.words.toNat⟩ =
        .running ⟨r, p, base + 18, true, j.copied mem j.words.toNat⟩ := by
      rw [Machine.fetches (k := 8) code rfl rfl, Machine.execute, if_pos rfl]
    exact ⟨r, ((Machine.leads_zero _).before leave).before compare⟩
  | succ n ih =>
    obtain ⟨r', z', pointing, steps⟩ := h.next (p := p) (z := z) hm hj (by omega)
    obtain ⟨r'', rest⟩ := ih pointing (z := z') (by omega) (by omega)
    exact ⟨r'', by
      have := steps.trans rest
      rwa [show 5 + (5 * n + 2) = 5 * (n + 1) + 2 by omega] at this⟩

/-! ### The whole applet -/

/-- A parameter is loaded. -/
theorem step_literal (code : Loaded base memory) {k offset addr : Nat} {rd : Fin 8}
    (hi : routine[k]? = some (.loadLiteral rd offset))
    (place : (base + 2 * k + 4) / 4 * 4 + offset = addr) :
    (⟨r, p, base + 2 * k, z, memory⟩ : Machine).step =
      .running ⟨fun s => if s = rd then memory.word addr else r s, p, base + 2 * k + 2, z,
        memory⟩ := by
  rw [Machine.fetches code rfl hi, Machine.execute, ← place]
  rfl

/-- The parameters are loaded, and the loop is entered. -/
theorem leads_loop (aligned : base % 4 = 0) (hm : Ready base j mem) :
    ∃ r', Pointing j 0 r' ∧ Machine.Leads 4 ⟨r, p, base, z, mem⟩ ⟨r', p, base + 14, z, mem⟩ := by
  have destination := step_literal (r := r) (p := p) (z := z) hm.code (k := 0) rfl
    (show _ = base + 0x28 by omega)
  let r₁ : Fin 8 → Word := fun s => if s = 0 then mem.word (base + 0x28) else r s
  have source := step_literal (r := r₁) (p := p) (z := z) hm.code (k := 1) rfl
    (show _ = base + 0x2c by omega)
  let r₂ : Fin 8 → Word := fun s => if s = 1 then mem.word (base + 0x2c) else r₁ s
  have words := step_literal (r := r₂) (p := p) (z := z) hm.code (k := 2) rfl
    (show _ = base + 0x30 by omega)
  let r₃ : Fin 8 → Word := fun s => if s = 2 then mem.word (base + 0x30) else r₂ s
  have enter : Machine.step ⟨r₃, p, base + 6, z, mem⟩ = .running ⟨r₃, p, base + 14, z, mem⟩ := by
    have ahead : ((base + 6 : Nat) + 4 + 4 : Int).toNat = base + 14 := by omega
    rw [Machine.fetches (k := 3) hm.code rfl rfl, Machine.execute, ahead]
  refine ⟨r₃, ⟨?_, ?_, ?_⟩, (Machine.leads_zero _).before enter |>.before words
    |>.before source |>.before destination⟩
  · show mem.word (base + 0x28) = _
    rw [hm.destination]
    exact (UInt32.add_zero _).symm
  · show mem.word (base + 0x2c) = _
    rw [hm.source]
    exact (UInt32.add_zero _).symm
  · show (mem.word (base + 0x30)).toNat = _
    rw [hm.words, Nat.sub_zero]

/-- Behind the loop the machine is back in the monitor, since the entry address is not zero. -/
theorem run_behind (aligned : base % 4 = 0) (hm : Ready base j memory) (n : Nat) :
    ∃ m, Machine.run (4 + n) ⟨r, p, base + 18, z, memory⟩ = .returned m ∧ m.stackPointer = p ∧
      m.memory = memory := by
  have reset := step_literal (r := r) (p := p) (z := z) hm.code (k := 9) rfl
    (show _ = base + 0x24 by omega)
  let r₁ : Fin 8 → Word := fun s => if s = 0 then memory.word (base + 0x24) else r s
  have set : (r₁ 0 == 0) = false := by
    rw [beq_eq_false_iff_ne]
    intro zero
    have zero : memory.word (base + 0x24) = 0 := zero
    have := hm.reset
    rw [zero] at this
    exact absurd this (by
      have : UInt32.toNat 0 = 0 := rfl
      omega)
  have compare : Machine.step ⟨r₁, p, base + 20, z, memory⟩ =
      .running ⟨r₁, p, base + 22, false, memory⟩ := by
    rw [Machine.fetches (k := 10) hm.code rfl rfl, ← set]
    rfl
  have skip : Machine.step ⟨r₁, p, base + 22, false, memory⟩ =
      .running ⟨r₁, p, base + 28, false, memory⟩ := by
    have ahead : ((base + 22 : Nat) + 4 + 2 : Int).toNat = base + 28 := by omega
    rw [Machine.fetches (k := 11) hm.code rfl rfl, Machine.execute, if_neg (by simp), ahead]
  have back : Machine.step ⟨r₁, p, base + 28, false, memory⟩ =
      .returned ⟨r₁, p, base + 28, false, memory⟩ :=
    Machine.fetches (k := 14) hm.code rfl rfl
  refine ⟨⟨r₁, p, base + 28, false, memory⟩, ?_, rfl, rfl⟩
  have steps := (Machine.leads_zero _).before skip |>.before compare |>.before reset
  rw [show 4 + n = 0 + 1 + 1 + 1 + (n + 1) by omega, steps, Machine.run, back]

/-- **The applet** is back in the monitor after ten steps and five for every word; it leaves the
stack pointer where it was told to put it, and the words where they were to be copied to. -/
theorem Machine.call_copies (aligned : base % 4 = 0) {m : Machine} (hm : Ready base j m.memory)
    (hj : j.Fits base) {n : Nat} (enough : 10 + 5 * j.words.toNat ≤ n) :
    ∃ m', m.call n (base + 0x20) = some m' ∧ m'.stackPointer = j.stack ∧
      m'.memory = j.copied m.memory j.words.toNat := by
  obtain ⟨r, p, pc, z, mem⟩ := m
  have entered : Machine.enter ⟨r, p, pc, z, mem⟩ (base + 0x20) =
      .running ⟨r, j.stack, base, z, mem⟩ := by
    have entry : (mem.word (base + 0x20 + 4)).toNat = base + 1 := hm.reset
    have thumb : (base + 1) % 2 = 1 := by omega
    simp only [Machine.enter, entry, if_pos thumb, Nat.add_sub_cancel]
    rw [show mem.word (base + 0x20) = j.stack from hm.stack]
  obtain ⟨r₁, pointing, load⟩ := leads_loop (r := r) (p := j.stack) (z := z) aligned hm
  have none_copied : j.copied mem 0 = mem := store_nil mem _
  obtain ⟨r₂, loop⟩ := pointing.loop (p := j.stack) (z := z) hm hj (Nat.zero_le _)
  rw [none_copied] at loop
  obtain ⟨m', behind, stack, memory⟩ := run_behind (r := r₂) (p := j.stack) (z := true) aligned
    (hm.copied hj (Nat.le_refl _)) (n - (10 + 5 * j.words.toNat))
  have ran : Machine.run n ⟨r, j.stack, base, z, mem⟩ = .returned m' := by
    have steps := (load.trans loop) (4 + (n - (10 + 5 * j.words.toNat)))
    rw [behind] at steps
    rw [← steps]
    congr 1
    omega
  refine ⟨m', ?_, stack, memory⟩
  rw [Machine.call, entered]
  simp only [ran]

end Thumb

end SamFlash
