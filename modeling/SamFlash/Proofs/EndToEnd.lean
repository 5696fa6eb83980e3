import SamFlash.Proofs.Interruption
import SamFlash.Proofs.PlannedCalls

/-!
# What a program call achieves

A program call (`Programmer.program`) that succeeds has put the image into flash: its bytes from the
first page on, zeros up to the end of the last page, and nothing else. And on a bench whose flash
controllers cooperate it does succeed.

The two halves are proved apart, for they rest on different things. What is in flash after a success
follows from what the host sent, whatever it was answered: the replayed script of the call writes
the pages (`Target.reached_pages`), and success means that the script was sent to its end. That the
call succeeds is about the answers, and nothing about flash is needed for it: the plan of the call
comes to its end where every wait does (`Programmer.plans_writing`), which is what `Cooperates` asks
of the status words, and the bench does the rest.

The target that is replayed is the one of `Target.takeAll`, with the reader of its monitor between
two commands; the image is the bytes that the call has taken (`Transcript.taken`), up to its size.
The chip is the one that the target reports, or one that the programmer knows already. On a concrete
bench the call is held with an image of two pages, so that both staging buffers are in it.

Results:
* `Programmer.programmed_of_ok`: what is in flash after a call that succeeded.
* `Programmer.thrives_program`: a call on a bench succeeds.
* **`Programmer.program_end_to_end`**: the two of them.
-/

namespace SamFlash

variable {ε : Type}

namespace Target

variable {c : Chip} {bytes : List UInt8} {n : Nat} {before after : Target}

/-- The pages, read as one block: the bytes and zeros behind them. -/
theorem Programmed.load_eq (h : Programmed c bytes n before after)
    (hb : bytes.length ≤ n * c.pageSize) :
    after.flash.load c.flashBase.toNat (n * c.pageSize) =
      bytes ++ List.replicate (n * c.pageSize - bytes.length) 0 := by
  refine List.ext_getElem ?_ fun i h₁ h₂ => ?_
  · rw [Memory.length_load, List.length_append, List.length_replicate]
    omega
  rw [Memory.length_load] at h₁
  have hbyte : (after.flash.load c.flashBase.toNat (n * c.pageSize))[i] =
      after.flash (c.flashBase.toNat + i) := by
    simp [Memory.load]
  rw [hbyte, h.contents i h₁]
  by_cases hi : i < bytes.length
  · rw [List.getElem_append_left hi, List.getElem?_eq_getElem hi]
    rfl
  · rw [List.getElem_append_right (by omega), List.getElem_replicate,
      List.getElem?_eq_none (by omega)]
    rfl

end Target

namespace Programmer

open Target

variable {o : Options} {size : Nat} {observed : Bool} {p q : Programmer} {t : Transcript ε}

/-- **A call that succeeded** has written the pages of the image, and has taken all of its bytes. -/
theorem programmed_of_ok {target : Target} {image : List UInt8} (hc : target.chip ∈ Chip.all)
    (hr : target.reader = Reader.start) (hp : p.MayKnow target.chip) (hpos : 0 < size)
    (hs : size ≤ target.chip.pages * target.chip.pageSize) (hid : t.Reports target.chip.id)
    (hi : t.taken <+: image) (h : Held (program o size observed) p t (.ok ()) q) :
    Programmed target.chip (image.take size) (target.chip.pagesFor size) target
        (target.takeAll t.accepted) ∧ t.taken.length = size := by
  have sound := Chip.sound_of_mem hc
  obtain ⟨done, hlen⟩ := completes_program hc hp hpos hs hid.mayReport hi h
  have room := (remains_zero sound hs).pages
  have reached := reached_pages sound rfl (image.take size)
    (show target.chip.pagesFor size ≤ target.chip.pages by omega)
  have same := takeAll_effects hr t
  rw [done.effects, Script.program, ← List.append_assoc, obeyAll_append] at same
  refine ⟨?_, hlen⟩
  by_cases hk : o.keepBootSource = true
  · rw [if_pos hk] at same
    exact reached.toProgrammed.same same
  · rw [if_neg hk] at same
    exact (reached.boot sound List.prefix_rfl same).1

/-- **A call on a bench succeeds** if the flash controllers cooperate and the image has the
bytes. -/
theorem thrives_program {c : Chip} (hc : c ∈ Chip.all) (hp : p.MayKnow c) (hpos : 0 < size)
    (hs : size ≤ c.pages * c.pageSize) (hid : t.Reports c.id) {b b' : Bench} (hb : b.Idle)
    (hrest : size ≤ b.rest.length) (hserves : b.Serves o t b') (hco : Cooperates o c t.operations)
    {r : Except (Failure ε) Unit} (h : Held (program o size observed) p t r q) :
    r = .ok () ∧ q.phase = .complete := by
  have sound := Chip.sound_of_mem hc
  rcases held_program h with ⟨f, -, hf, -, -⟩ | ⟨c', s, u, hf, hw, rfl, -, hphase⟩
  · exact absurd (thrives_findChip hc hid hf hserves hb).1 (by simp)
  obtain ⟨rfl, -, -⟩ := finds_eq hc hp hid.of_append.mayReport hf
  obtain ⟨mid, hs₁, hs₂⟩ := Bench.serves_append_iff.mp hserves
  -- whether the chip was known or is found, the pages start on an idle bench with the whole image
  have found : mid.Idle ∧ mid.rest = b.rest := by
    rcases hf with ⟨-, rfl⟩ | ⟨-, hf⟩
    · obtain rfl := hs₁
      exact ⟨hb, rfl⟩
    · exact (thrives_findChip hc hid.of_append hf hs₁ hb).2
  rw [Transcript.operations_append] at hco
  obtain ⟨⟨_, rfl⟩, -⟩ := (plans_writing sound hpos hs).thrives hw hs₂ found.1
    (by rw [found.2]; exact hrest) hco.of_append.2
  exact ⟨rfl, hphase rfl⟩

/-- **A program call, end to end.** A call on an image of `size` bytes that fits, with a programmer
that knows the chip or is new. If it succeeds, the pages from the first one on hold the first `size`
bytes of the image and zeros behind them, every other byte of flash is as it was, and each of these
pages was written once, in ascending order. And it succeeds, whatever the options, if every reply is
there in time, no page is locked, every wait sees a ready round, and the image has `size` bytes. -/
theorem program_end_to_end {target : Target} {image : List UInt8}
    {r : Except (Failure ε) Unit} (hc : target.chip ∈ Chip.all)
    (hr : target.reader = Reader.start) (hp : p.MayKnow target.chip) (hpos : 0 < size)
    (hs : size ≤ target.chip.pages * target.chip.pageSize) (hid : t.Reports target.chip.id)
    (hi : t.taken <+: image) (h : Held (program o size observed) p t r q) :
    let n := target.chip.pagesFor size
    let after := target.takeAll t.accepted
    (r = .ok () →
      after.flash.load target.chip.flashBase.toNat (n * target.chip.pageSize) =
          image.take size ++ List.replicate (n * target.chip.pageSize - size) 0 ∧
        (∀ i, i < target.chip.flashBase.toNat ∨
          target.chip.flashBase.toNat + n * target.chip.pageSize ≤ i →
            after.flash i = target.flash i) ∧
        after.written = (List.range n).reverse ++ target.written) ∧
      ∀ b b' : Bench, b.Idle → size ≤ b.rest.length → b.Serves o t b' →
        Cooperates o target.chip t.operations → r = .ok () ∧ q.phase = .complete := by
  refine ⟨?_, fun b b' hb hrest hserves hco =>
    thrives_program hc hp hpos hs hid hb hrest hserves hco h⟩
  rintro rfl
  obtain ⟨programmed, hlen⟩ := programmed_of_ok hc hr hp hpos hs hid hi h
  have hsize : (image.take size).length = size := by
    have := hi.length_le
    rw [List.length_take]
    omega
  have hpages := (remains_zero (Chip.sound_of_mem hc) hs).enough
  rw [Nat.zero_add] at hpages
  have hload := programmed.load_eq (by rw [hsize]; exact hpages)
  rw [hsize] at hload
  exact ⟨hload, programmed.elsewhere, programmed.written⟩

/-- An image that does not fill its second page. -/
def sampleImage : List UInt8 := List.replicate 256 0x11 ++ [0x22]

/-- A new programmer's call on that image. -/
def sampleCall : Dialogue Unit (Except (Failure Unit) Unit × Programmer) :=
  (program {} 257 false).run {}

/-- The exchanges of the call on a steady bench. -/
def sampleExchanges : Transcript Unit :=
  sampleCall.transcript (Bench.steady Bench.part) (Bench.fresh sampleImage)

set_option maxRecDepth 100000 in
theorem sampleExchanges_agrees :
    sampleExchanges.operations.all (Operation.agrees (Bench.steadyWords Bench.part)) = true := by
  cbv

/-- Two pages reach flash, each from its own buffer: the first one full, the second one with a byte
and zeros behind it. -/
theorem program_end_to_end_steady :
    (sampleCall.run (Bench.steady Bench.part) (Bench.fresh sampleImage)).1.1 = .ok () ∧
      ((Target.fresh Bench.part).takeAll sampleExchanges.accepted).flash.load 0x80000 512 =
        sampleImage ++ List.replicate 255 0 ∧
      ((Target.fresh Bench.part).takeAll sampleExchanges.accepted).written = [1, 0] := by
  have held : Held (program {} 257 false) {} sampleExchanges _ _ :=
    Dialogue.Held.of_run (Bench.steady Bench.part) sampleCall (Bench.fresh sampleImage)
  have told := sampleExchanges_agrees
  have image : sampleExchanges.taken <+: sampleImage :=
    Bench.taken_device _ sampleCall (Bench.fresh sampleImage)
  have whole := program_end_to_end
    (show (Target.fresh Bench.part).chip ∈ Chip.all by decide)
    (show (Target.fresh Bench.part).reader = Reader.start from rfl) (Or.inl rfl) (by decide)
    (by decide) ⟨Bench.steadyWords Bench.part, by decide, Transcript.reads_of_agrees told⟩
    image held
  have length : sampleImage.length = 257 := by
    rw [sampleImage, List.length_append, List.length_replicate, List.length_singleton]
  have ok := (whole.2 (Bench.fresh sampleImage) _ ⟨rfl, rfl⟩ (Nat.le_of_eq length.symm)
    (Bench.serves_device _ sampleCall _) (Cooperates.of_agrees told)).1
  obtain ⟨contents, -, written⟩ := whole.1 ok
  rw [List.take_of_length_le (Nat.le_of_eq length)] at contents
  exact ⟨ok, contents, written⟩

end Programmer

end SamFlash
