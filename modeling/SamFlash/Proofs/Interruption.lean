import Mathlib
import SamFlash.Proofs.Contents
import SamFlash.Proofs.Programming

/-!
# What a failed call leaves behind

A program call (`Programmer.program`) can be cut short at any byte of any command, at any flush, at
any poll and at any read of the image. Whatever the cut, the pages before it are in flash and
nothing else is touched; the error says how many pages that are, and the boot source is only changed
when all pages are written.

How many pages an error stands for is read off its stage (`Stage.Counts`, `Error.Counts`). An error
without a stage comes before the first page, unless the image could not be read; then it is the
number of full pages that have been taken. An error at page `k` stands for the `k` pages before it.
It stands for page `k` itself only if the command that writes it has been taken in full, and what
failed is the flush behind that command or the wait for the last page: then the target carries the
command out although the host has not come to the end of it. Around the boot flag all pages are
written.

The proof goes from the place where the call stops (`Halts`) to the target. The port has taken a
first part of the script; `Target.takeAll_effects` replays it as the commands that it has in full,
and a part of a page leaves flash alone (`Target.part_of_page`). A branch fills the latch, but the
latch only goes to flash with the command word.

Results:
* `Error.Counts`: the number of written pages that an error stands for.
* `Target.takeAll_effects`: the target after a transcript that starts between commands.
* **`Programmer.failed_program_leaves_prefix`**: what is in flash after a call that failed.
-/

namespace SamFlash

variable {ε : Type}

/-! ## What an error says -/

/-- At the stage, in a call of `n` pages, `j` pages are written: all of them around the boot flag;
at page `k` those before it, and the page itself only if its command was taken in full and what
failed is the flush behind that command or the wait for the last page. -/
def Stage.Counts (o : Options) (c : Chip) (n : Nat) (t : Transcript ε) (j : Nat) : Stage → Prop
  | bootFlag => j = n
  | page k => j = k ∨ (j = k + 1 ∧ t.effects.getLast? = some (Script.commit c k) ∧
      (t.EndsInFlush ∨ (o.keepBootSource = true ∧ k + 1 = n)))

/-- After the error, in a call of `n` pages, `j` pages are written. -/
def Error.Counts (o : Options) (c : Chip) (n : Nat) (t : Transcript ε) (j : Nat) : Error ε → Prop
  | serial _ => j = 0
  | responseTimeout .. => j = 0
  | unknownChip _ => j = 0
  | imageTooLarge .. => j = 0
  | io _ => j = t.taken.length / c.pageSize
  | transfer stage _ => stage.Counts o c n t j
  | transferTimeout stage .. => stage.Counts o c n t j
  | flashLock _ stage => stage.Counts o c n t j
  | flashCommandTimeout _ stage _ => stage.Counts o c n t j
  | pageOutOfRange .. => False

theorem Error.counts_of_stage {o : Options} {c : Chip} {n j : Nat} {t : Transcript ε}
    {e : Error ε} {stage : Stage} (he : e.stage? = some stage) (h : stage.Counts o c n t j) :
    e.Counts o c n t j := by
  cases e <;> simp only [stage?, Option.some.injEq, reduceCtorEq] at he <;> subst he <;> exact h

theorem Failure.IsEarly.counts {o : Options} {c : Chip} {n : Nat} {t : Transcript ε}
    {f : Failure ε} (h : f.IsEarly) : ∃ e, f = .error e ∧ e.Counts o c n t 0 := by
  rcases h with h | ⟨id, rfl⟩ | ⟨size, capacity, rfl⟩
  · cases f with
    | fault _ => exact absurd h id
    | error e =>
      refine ⟨e, rfl, ?_⟩
      cases e <;> first | rfl | exact absurd h id
  · exact ⟨_, rfl, rfl⟩
  · exact ⟨_, rfl, rfl⟩

/-! ## The target behind the cut -/

namespace Target

/-- The boot source may have been changed only if `allowed`. -/
def BootChanged (before after : Target) (allowed : Prop) : Prop :=
  ∃ sent, after.flashCommands = sent ++ before.flashCommands ∧
    ((∃ x ∈ sent, codeOf x.2 = FlashCommand.setGpnvmBit.code) → allowed)

/-- What a target has become is what the commands make of it. -/
theorem takeAll_effects {target : Target} (hr : target.reader = Reader.start) (t : Transcript ε) :
    (target.obeyAll t.effects).Same (target.takeAll t.accepted) := by
  rw [Transcript.effects, obeyAll_filter, takeAll_eq, hr]
  exact ⟨rfl, rfl, rfl, rfl⟩

variable {c : Chip} {bytes : List UInt8} {n : Nat} {before after after' : Target}

theorem programmed_zero (c : Chip) (bytes : List UInt8) (t : Target) :
    Programmed c bytes 0 t t where
  contents := by
    intro i hi
    omega
  elsewhere _ _ := rfl
  written := rfl

/-- Writing pages does not touch the boot source. -/
theorem Reached.bootChanged (hc : c.Sound) (h : Reached c bytes n before after)
    (hs : after.Same after') (allowed : Prop) : BootChanged before after' allowed := by
  refine ⟨commits c n, hs.flashCommands.trans h.flashCommands, ?_⟩
  rintro ⟨x, hx, hcode⟩
  rw [codeOf_commits hc hx] at hcode
  exact absurd hcode (by decide)

theorem Same.bootChanged (h : before.Same after) (allowed : Prop) :
    BootChanged before after allowed :=
  ⟨[], h.flashCommands, by simp⟩

end Target

/-! ## The theorem -/

namespace Programmer

open Target

/-- A commit is the last command of a page. -/
theorem getLast?_pages {c : Chip} {bytes : List UInt8} {k : Nat} {front : List Command} :
    (front ++ Script.pages c bytes 0 (k + 1)).getLast? = some (Script.commit c k) := by
  rw [Script.pages_concat, Script.page, ← List.append_assoc, ← List.append_assoc,
    List.getLast?_concat]

/-- **A failed program call leaves a prefix of the pages in flash.** Whatever the target answers
and wherever the port, the target or the image fails, there is a number `j` such that exactly the
first `j` pages have been written, in order and with the bytes of the image, every other byte of
flash is as it was, and the boot source is changed only if these are all pages. The error tells
`j`. -/
theorem failed_program_leaves_prefix {o : Options} {size : Nat} {observed : Bool}
    {p q : Programmer} {target : Target} {image : List UInt8} {t : Transcript ε} {f : Failure ε}
    (hc : target.chip ∈ Chip.all) (hr : target.reader = Reader.start)
    (hp : p.MayKnow target.chip) (hid : t.MayReport target.chip) (hi : t.taken <+: image)
    (h : Held (program o size observed) p t (.error f) q) :
    ∃ e j, f = .error e ∧
      Programmed target.chip (image.take size) j target (target.takeAll t.accepted) ∧
      BootChanged target (target.takeAll t.accepted) (j = target.chip.pagesFor size) ∧
      e.Counts o target.chip (target.chip.pagesFor size) t j := by
  have sound := Chip.sound_of_mem hc
  have same := takeAll_effects hr t
  obtain ⟨halts, -⟩ := halts_program hc hp hid hi h
  have atStage {stage : Stage} {j : Nat} (hat : f.IsAt stage)
      (hj : stage.Counts o target.chip (target.chip.pagesFor size) t j) :
      ∃ e, f = .error e ∧ e.Counts o target.chip (target.chip.pagesFor size) t j := by
    obtain ⟨e, rfl, he⟩ := hat
    exact ⟨e, rfl, Error.counts_of_stage he hj⟩
  cases halts with
  | early sent why =>
    obtain ⟨e, rfl, he⟩ := why.counts
    have h0 := (same_of_spares (fun cmd hcmd => spares_setUp sound cmd (sent.subset hcmd))
      rfl).trans same
    exact ⟨e, 0, rfl, (programmed_zero _ _ target).same h0, h0.bootChanged _, he⟩
  | page k part lt room sent cause =>
    have reached := reached_pages sound rfl (image.take size)
      (Nat.le_of_lt (Nat.lt_of_lt_of_le lt room))
    rw [sent, ← List.append_assoc, obeyAll_append] at same
    rcases cause with ⟨rfl, ⟨kind, rfl⟩, hdiv⟩ | ⟨hpart, hat, late⟩
    · exact ⟨_, k, rfl, reached.toProgrammed.same same, reached.bootChanged sound same _,
        hdiv.symm⟩
    -- a part of a page's script leaves flash alone unless it ends with the command itself
    · rcases part_of_page sound hpart with whole | spared
      · have last : t.effects.getLast? = some (Script.commit target.chip k) := by
          rw [sent, whole, ← List.append_assoc, Script.page, ← List.append_assoc,
            List.getLast?_concat]
        obtain ⟨e, he, hcounts⟩ := atStage hat (Or.inr ⟨rfl, last, Or.inl (late whole)⟩)
        have next := reached.page sound (Nat.lt_of_lt_of_le lt room)
        rw [whole] at same
        exact ⟨e, k + 1, he, next.toProgrammed.same same, next.bootChanged sound same _, hcounts⟩
      · obtain ⟨e, he, hcounts⟩ := atStage hat (Or.inl rfl)
        have still := (spared _ reached.chip).trans same
        exact ⟨e, k, he, reached.toProgrammed.same still, reached.bootChanged sound still _,
          hcounts⟩
  -- in the last wait the error tells the last page, although that page is written
  | last keeps pos room sent why =>
    have reached := reached_pages sound rfl (image.take size) room
    rw [sent] at same
    obtain ⟨k, hk⟩ : ∃ k, target.chip.pagesFor size = k + 1 :=
      ⟨target.chip.pagesFor size - 1, by omega⟩
    rw [hk, Nat.add_sub_cancel] at why
    obtain ⟨e, he, hcounts⟩ := atStage why
      (Or.inr ⟨hk, by rw [sent, hk, getLast?_pages], Or.inr ⟨keeps, hk.symm⟩⟩)
    exact ⟨e, _, he, reached.toProgrammed.same same, reached.bootChanged sound same _, hcounts⟩
  | boot part sets room sent within why =>
    have reached := reached_pages sound rfl (image.take size) room
    rw [sent, ← List.append_assoc, obeyAll_append] at same
    obtain ⟨e, he, hcounts⟩ := atStage why (show Stage.Counts _ _ _ _ _ .bootFlag from rfl)
    obtain ⟨programmed, sent', hsent⟩ := reached.boot sound within same
    exact ⟨e, _, he, programmed, ⟨sent', hsent, fun _ => rfl⟩, hcounts⟩

/-- An image of one page. -/
def onePage : List UInt8 := List.replicate 256 7

/-- A new programmer's call on an image that is one byte longer. -/
def shortCall : Dialogue Unit (Except (Failure Unit) Unit × Programmer) :=
  (program {} 257 false).run {}

/-- The exchanges of the call on a steady bench, where the image ends after its first page. -/
def shortExchanges : Transcript Unit :=
  shortCall.transcript (Bench.steady Bench.part) (Bench.fresh onePage)

set_option maxRecDepth 100000 in
theorem shortExchanges_agrees :
    shortExchanges.operations.all (Operation.agrees (Bench.steadyWords Bench.part)) = true := by
  cbv

theorem shortExchanges_mayReport : shortExchanges.MayReport Bench.part :=
  ⟨Bench.steadyWords Bench.part, Or.inl (by decide),
    Transcript.reads_of_agrees shortExchanges_agrees⟩

set_option maxRecDepth 100000 in
theorem shortExchanges_taken : shortExchanges.taken = onePage := by
  cbv

set_option maxRecDepth 100000 in
theorem shortCall_fails : (shortCall.run (Bench.steady Bench.part) (Bench.fresh onePage)).1 =
    (.error (.error (.io .unexpectedEof)), ⟨.failed, some Bench.part⟩) := by
  cbv

/-- The page that the image had is in flash, and no other. -/
theorem failed_program_leaves_prefix_short :
    Programmed Bench.part (onePage.take 257) 1 (Target.fresh Bench.part)
      ((Target.fresh Bench.part).takeAll shortExchanges.accepted) := by
  have held : Held (program {} 257 false) {} shortExchanges
      (.error (.error (.io .unexpectedEof))) ⟨.failed, some Bench.part⟩ := by
    have := Dialogue.Held.of_run (Bench.steady Bench.part) shortCall (Bench.fresh onePage)
    rwa [shortCall_fails] at this
  obtain ⟨e, j, he, programmed, -, counts⟩ := failed_program_leaves_prefix
    (show (Target.fresh Bench.part).chip ∈ Chip.all by decide)
    (show (Target.fresh Bench.part).reader = Reader.start from rfl) (Or.inl rfl)
    shortExchanges_mayReport
    (shortExchanges_taken ▸ List.prefix_rfl : shortExchanges.taken <+: onePage) held
  obtain rfl := Failure.error.inj he
  have hj : j = shortExchanges.taken.length / 256 := counts
  rw [shortExchanges_taken, onePage, List.length_replicate] at hj
  rw [hj] at programmed
  exact programmed

end Programmer

end SamFlash
