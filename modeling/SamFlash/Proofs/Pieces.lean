import SamFlash.Proofs.Seamless

/-!
# The pieces of an image do not matter

A program call takes its image from a source that hands out as many bytes at a time as it likes, and
that may be interrupted any number of times before each. `Image.read` asks again until a page is
full, so none of this shows: two sources with the same bytes and the same ending make the same call
of it, with the same exchanges with everyone else, in the same order, and the same bytes taken.

The two calls are held with one device, which does not see how the image is read
(`Transcript.outward`, `Device.Answers`). What the source hands out is compared with what it has to
give: some bytes, and then either all that was promised or an ending that can be seen, the end of
the file or a failure (`Source.Covers`). What it would do after that is left open, as no call asks
for it.

Nor does a call take more than it needs: never more bytes than the image was said to have, all of
them when it succeeds, and no byte of a page before the command is out that writes the page before
it (`Transcript.Paced`). So an image that is produced while it is written is asked for one page at a
time.

Results:
* `Page.paced_writeAll`, `Programmer.paced_program`: how far the image is taken at any time.
* `Programmer.taken_program`: a call that succeeds has taken all of the image.
* **`Programmer.pieces_are_not_seen`**: these together, for two calls side by side.
-/

namespace SamFlash

variable {σ ε : Type}

/-! ## How far an image is taken -/

/-- Pages of `room` bytes, from `page` on, are taken one after the other: with bytes of a page
taken, the page before it is committed. -/
structure Transcript.Paced (c : Chip) (page room : Nat) (t : Transcript ε) : Prop where
  bound : t.taken.length ≤ room
  committed : ∀ {v w k}, t = v ++ w → (k + 1) * c.pageSize < v.taken.length →
    Script.commit c (page + k) ∈ v.effects

namespace Transcript

variable {c : Chip} {page room : Nat} {s t u : Transcript ε}

theorem length_taken_le (h : s <+: t) : s.taken.length ≤ t.taken.length := by
  obtain ⟨u, rfl⟩ := h
  rw [taken_append, List.length_append]
  omega

/-- Nothing has to be committed before there is more than a page. -/
theorem paced_of_le (h : t.taken.length ≤ min c.pageSize room) : t.Paced c page room where
  bound := by omega
  committed := by
    rintro v w k rfl hk
    have := length_taken_le (List.prefix_append v w)
    have : c.pageSize ≤ (k + 1) * c.pageSize := Nat.le_mul_of_pos_left _ (Nat.succ_pos k)
    omega

theorem paced_of_untaken (h : t.taken = []) : t.Paced c page room :=
  paced_of_le (by rw [h]; exact Nat.zero_le _)

theorem mem_effects_append {cmd : Command} (h : cmd ∈ s.effects) (t : Transcript ε) :
    cmd ∈ (s ++ t).effects := by
  unfold effects
  rw [commands_append, List.filter_append]
  exact List.mem_append_left _ h

/-- What is behind the pages takes nothing. -/
theorem Paced.append_right (h : t.Paced c page room) (hu : u.taken = []) :
    (t ++ u).Paced c page room where
  bound := by
    rw [taken_append, hu, List.append_nil]
    exact h.bound
  committed := by
    intro v w k e hk
    rcases List.append_eq_append_iff.mp e with ⟨v', rfl, rfl⟩ | ⟨w', rfl, -⟩
    · rw [taken_append] at hu
      rw [taken_append, (List.append_eq_nil_iff.mp hu).1, List.append_nil] at hk
      exact mem_effects_append (h.committed (List.append_nil t).symm hk) v'
    · exact h.committed rfl hk

/-- What is before the pages takes nothing, and completes its commands. -/
theorem Paced.append_left {script : List Command} (h : t.Paced c page room)
    (hs : s.Completes script) (none : s.taken = []) : (s ++ t).Paced c page room where
  bound := by
    rw [taken_append, none, List.nil_append]
    exact h.bound
  committed := by
    intro v w k e hk
    rcases List.append_eq_append_iff.mp e with ⟨v', rfl, rfl⟩ | ⟨w', rfl, -⟩
    · rw [taken_append, none, List.nil_append] at hk
      rw [effects_append hs.boundary]
      exact List.mem_append_right _ (h.committed rfl hk)
    · have := length_taken_le (List.prefix_append v w')
      rw [none, List.length_nil] at this
      omega

/-- **One page** is taken and committed, and the next ones follow. -/
theorem Paced.cons {script : List Command} (h : t.Paced c (page + 1) (room - s.taken.length))
    (hs : s.Completes script) (hc : Script.commit c page ∈ script)
    (hle : s.taken.length ≤ min c.pageSize room) : (s ++ t).Paced c page room where
  bound := by
    have := h.bound
    rw [taken_append, List.length_append]
    omega
  committed := by
    intro v w k e hk
    rcases List.append_eq_append_iff.mp e with ⟨v', rfl, rfl⟩ | ⟨w', rfl, -⟩
    · rw [effects_append hs.boundary, hs.effects]
      cases k with
      | zero => exact List.mem_append_left _ hc
      | succ k =>
        refine List.mem_append_right _ ?_
        rw [show page + (k + 1) = page + 1 + k by omega]
        refine h.committed rfl ?_
        rw [taken_append, List.length_append, Nat.succ_mul] at hk
        omega
    · have := length_taken_le (List.prefix_append v w')
      have : c.pageSize ≤ (k + 1) * c.pageSize := Nat.le_mul_of_pos_left _ (Nat.succ_pos k)
      omega

end Transcript

open Link

/-- **Writing pages** takes one after the other. -/
theorem Page.paced_writeAll {o : Options} {c : Chip} {observed : Bool} (hc : c.Sound)
    {size left page read : Nat} (hrem : Remains c size left page read) {t : Transcript ε}
    {r : Except (Failure ε) Unit}
    (h : Held (writeAll o c size observed left page read (Workspace.ofPage c page)) t r) :
    t.Paced c page (size - read) := by
  induction left generalizing page read t with
  | zero =>
    obtain ⟨rfl, -⟩ := held_pure_iff.mp h
    exact Transcript.paced_of_untaken rfl
  | succ left ih =>
    obtain ⟨-, hlt⟩ := hrem.read_le
    have hpage : page < c.pages := by
      have := hrem.pages
      omega
    rcases held_bind_iff.mp h with ⟨f, h₁, -⟩ | ⟨⟨read', data⟩, s, t', h₁, h₂, rfl⟩
    · have drew := drew_next (Nat.le_of_lt hlt) hrem.fits h₁
      exact Transcript.paced_of_le (Nat.le_of_lt (drew.failure f rfl).2)
    obtain ⟨ho, ha, hok, -⟩ := drew_next (Nat.le_of_lt hlt) hrem.fits h₁
    obtain ⟨hl, hx⟩ := hok _ rfl
    obtain ⟨rfl, rfl⟩ := Prod.mk.inj hx
    have full : (Image.padded c.pageSize s.taken).length = c.pageSize :=
      Image.padded_length (by omega)
    rcases held_proceed hc hpage full h₂ with ⟨-, none, -⟩ | ⟨v, u, rfl, cv, kv, hu⟩
    · refine Transcript.paced_of_le ?_
      rw [Transcript.taken_append, none, List.append_nil]
      omega
    · have rest := hrem.next
      rw [← hl] at rest
      have next := ih rest hu
      have taken : (s ++ v).taken = s.taken := by
        rw [Transcript.taken_append, kv, List.append_nil]
      rw [← List.append_assoc]
      refine Transcript.Paced.cons ?_ ((Transcript.completes_nil ho ha).append cv) ?_ ?_
      · rwa [taken, Nat.sub_sub]
      · exact List.mem_append_right _ List.mem_concat_self
      · rw [taken]
        omega

namespace Programmer

variable {o : Options} {c : Chip} {size : Nat} {observed : Bool} {t : Transcript ε}
  {r : Except (Failure ε) Unit}

theorem untaken_closing (hc : c.Sound) {n : Nat} (hn : 0 < n)
    (h : Link.Held (closing o c n observed) t r) : t.taken = [] := by
  by_cases hk : o.keepBootSource = true
  · exact (follows_closing_keep hc hn hk).untaken h
  · exact (follows_closing_boot hc (eq_false_of_ne_true hk)).untaken h

theorem paced_writing (hc : c.Sound) (h : Link.Held (writing o c size observed) t r) :
    t.Paced c 0 size := by
  by_cases hs : 0 < size ∧ size ≤ c.pages * c.pageSize
  · have hn := pagesFor_pos hc hs.1
    rw [writing_eq hc hs.1 hs.2, writePages_eq] at h
    rcases Link.held_bind_iff.mp h with ⟨f, h₁, -⟩ | ⟨w, s, u, h₁, h₂, rfl⟩
    · exact Transcript.paced_of_untaken ((follows_opening hc _).untaken h₁)
    obtain ⟨cs, ks, rfl⟩ := (follows_opening hc _).completes h₁
    refine Transcript.Paced.append_left ?_ cs ks
    rcases Link.held_bind_iff.mp h₂ with ⟨f, h₃, -⟩ | ⟨_, v, z, h₃, h₄, rfl⟩
    · exact Page.paced_writeAll hc (remains_zero hc hs.2) h₃
    · exact (Page.paced_writeAll hc (remains_zero hc hs.2) h₃).append_right
        (untaken_closing hc hn h₄)
  · exact Transcript.paced_of_untaken ((follows_writing_nil hc (by omega)).untaken h)

/-- A program call that does not get its chip takes nothing, and one that gets it takes one page
after the other. -/
theorem paced_program {p q : Programmer} (hp : p.Knows)
    (h : Held (program o size observed) p t r q) :
    t.taken.length ≤ size ∧ ∀ c, q.chip = some c → t.Paced c 0 size := by
  rcases held_program h with ⟨f, -, hf, rfl, hq⟩ | ⟨c, s, u, hf, hw, rfl, hq, -⟩
  · rw [(follows_findChip o).untaken hf]
    exact ⟨Nat.zero_le _, fun c hc => absurd (hc.symm.trans hq) (by simp)⟩
  · have paced : (s ++ u).Paced c 0 size := by
      have works := paced_writing (Chip.sound_of_mem (keeps_finds (c := c) hp hf).2) hw
      rcases hf with ⟨-, rfl⟩ | ⟨-, hf⟩
      · exact works
      · obtain ⟨cs, ks, -⟩ := (follows_findChip o).completes hf
        exact works.append_left cs ks
    refine ⟨paced.bound, fun c' hc' => ?_⟩
    obtain rfl := Option.some.inj (hc'.symm.trans hq)
    exact paced

/-- **A program call that succeeds** has taken all of the image. -/
theorem taken_program {p q : Programmer} (hp : p.Knows)
    (h : Held (program o size observed) p t (.ok ()) q) : t.taken.length = size := by
  rcases held_program h with ⟨f, -, -, he, -⟩ | ⟨c, s, u, hf, hw, rfl, -⟩
  · exact absurd he (by simp)
  have sound := Chip.sound_of_mem (keeps_finds (c := c) hp hf).2
  have found : s.taken = [] := by
    rcases hf with ⟨-, rfl⟩ | ⟨-, hf⟩
    · rfl
    · exact (follows_findChip o).untaken hf
  rw [Transcript.taken_append, found, List.nil_append]
  by_cases hs : 0 < size ∧ size ≤ c.pages * c.pageSize
  · have hn := pagesFor_pos sound hs.1
    rw [writing_eq sound hs.1 hs.2] at hw
    exact (completes_writePages sound hs.2 hn List.prefix_rfl hw).2
  · obtain ⟨-, none, rfl⟩ := (follows_writing_nil sound (by omega)).completes hw
    rw [none]
    rfl

/-- **The pieces of an image are not seen.** Two program calls of one programmer with one target,
whose images have the same bytes and the same ending, come to the same result, leave the programmer
the same, make the same exchanges with everyone but the source of the image, and take the same of
it, in whatever pieces it comes and however often it is interrupted. They take no more than the
image was said to have, and all of that if they succeed; and where bytes of a page have been taken,
the command that writes the page before it has been given. -/
theorem pieces_are_not_seen {p : Programmer} (hp : p.Knows) {src : Source}
    (hsrc : src.Covers size 0) {d : Device σ ε} {s u u' : σ} {t t' : Transcript ε}
    {r r' : Except (Failure ε) Unit} {q q' : Programmer}
    (h : Held (program o size observed) p t r q) (h' : Held (program o size observed) p t' r' q')
    (hd : d.Answers s t.outward u) (hd' : d.Answers s t'.outward u')
    (hg : src.Gives t.deliveries) (hg' : src.Gives t'.deliveries) :
    (r = r' ∧ q = q' ∧ t.outward = t'.outward ∧ t.taken = t'.taken) ∧
      t.taken.length ≤ size ∧ (r = .ok () → t.taken.length = size) ∧
      ∀ c, q.chip = some c → ∀ v w k, t = v ++ w → (k + 1) * c.pageSize < v.taken.length →
        Script.commit c k ∈ v.commands := by
  rw [← List.append_nil t.deliveries] at hg
  rw [← List.append_nil t'.deliveries] at hg'
  obtain ⟨⟨same, -, outward, taken⟩, -⟩ :=
    (seamless_program hp hsrc).agrees h h' hd hd' hg hg'
  obtain ⟨rfl, rfl⟩ := Prod.mk.inj same
  obtain ⟨bound, paced⟩ := paced_program hp h
  refine ⟨⟨rfl, rfl, outward, taken⟩, bound, ?_, ?_⟩
  · rintro rfl
    exact taken_program hp h
  · intro c hc v w k e hk
    have committed := (paced c hc).committed e hk
    rw [Nat.zero_add] at committed
    exact (List.mem_filter.mp committed).1

/-! ## A call on two sources -/

/-- A source that hands out up to `most` bytes at a time, interrupted before each piece. -/
def handing (most limit : Nat) (bytes : List UInt8) : Delivery limit × List UInt8 :=
  (.interrupted (.bytes (bytes.take (min limit most)) (by rw [List.length_take]; omega)),
    bytes.drop (min limit most))

/-- A call for an image of 258 bytes, of which there are 257. -/
def cutShort : Dialogue Unit (Except (Failure Unit) Unit × Programmer) :=
  (program {} 258 false).run {}

/-- Its exchanges with a steady target, where the image comes in pieces of up to `most` bytes. -/
def cutShortIn (most : Nat) : Transcript Unit :=
  cutShort.transcript ((Bench.steady Bench.part).reading (handing most))
    (Bench.fresh [], List.replicate 257 7)

/-- How it ends. -/
def cutShortEnd (most : Nat) : Except (Failure Unit) Unit × Programmer :=
  (cutShort.run ((Bench.steady Bench.part).reading (handing most))
    (Bench.fresh [], List.replicate 257 7)).1

set_option maxRecDepth 100000 in
theorem cutShortEnd_small :
    cutShortEnd 100 = (.error (.error (.io .unexpectedEof)), ⟨.failed, some Bench.part⟩) := by
  cbv

/-- The smaller pieces: the third one is cut at the end of the page. -/
def smallPieces : List (List UInt8) :=
  [List.replicate 100 7, List.replicate 100 7, List.replicate 56 7, List.replicate 1 7]

/-- The larger pieces: a page, and what is left. -/
def largePieces : List (List UInt8) := [List.replicate 256 7, List.replicate 1 7]

theorem flatten_smallPieces : smallPieces.flatten = List.replicate 257 7 := by
  simp only [smallPieces, List.flatten_cons, List.flatten_nil, List.append_nil,
    List.replicate_append_replicate, Nat.reduceAdd]

theorem flatten_largePieces : largePieces.flatten = List.replicate 257 7 := by
  simp only [largePieces, List.flatten_cons, List.flatten_nil, List.append_nil,
    List.replicate_append_replicate, Nat.reduceAdd]

set_option maxRecDepth 100000 in
theorem deliveries_cutShortIn :
    (cutShortIn 100).deliveries = smallPieces.map .ok ++ [.ok []] ∧
      (cutShortIn 1000).deliveries = largePieces.map .ok ++ [.ok []] := by
  cbv

set_option maxRecDepth 100000 in
theorem taken_cutShortIn : (cutShortIn 100).taken.length = 257 := by
  cbv

/-- Pieces of up to 100 bytes and of up to 1000, where the image ends behind its first page. -/
theorem pieces_are_not_seen_cut_short :
    (cutShortEnd 100 = cutShortEnd 1000 ∧
        (cutShortIn 100).outward = (cutShortIn 1000).outward ∧
        (cutShortIn 100).taken = (cutShortIn 1000).taken) ∧
      Script.commit Bench.part 0 ∈ (cutShortIn 100).commands := by
  have known : Programmer.Knows {} := fun c h => absurd h (by simp)
  have covers : (Source.ahead (List.replicate 257 7) (some .empty)).Covers 258 0 :=
    ⟨by rw [List.length_replicate]; decide, fun h => absurd h (by simp)⟩
  have held (most : Nat) : Held (program {} 258 false) {} (cutShortIn most) (cutShortEnd most).1
      (cutShortEnd most).2 :=
    Dialogue.Held.of_run _ cutShort _
  have answers (most : Nat) : (Bench.steady Bench.part).Answers (Bench.fresh [])
      (cutShortIn most).outward _ :=
    Device.answers_reading (handing most) cutShort (Bench.fresh []) (List.replicate 257 7)
  have atEnd : (Source.ahead [] (some .empty)).Gives [.ok []] :=
    Or.inr ⟨rfl, fun e he => by rw [← Option.mem_some.mp he]; rfl⟩
  have small : (Source.ahead (List.replicate 257 7) (some .empty)).Gives
      (cutShortIn 100).deliveries := by
    rw [deliveries_cutShortIn.1, ← flatten_smallPieces]
    exact Source.gives_pieces (by decide) atEnd
  have large : (Source.ahead (List.replicate 257 7) (some .empty)).Gives
      (cutShortIn 1000).deliveries := by
    rw [deliveries_cutShortIn.2, ← flatten_largePieces]
    exact Source.gives_pieces (by decide) atEnd
  obtain ⟨⟨result, after, outward, taken⟩, -, -, committed⟩ :=
    pieces_are_not_seen known covers (held 100) (held 1000) (answers 100) (answers 1000) small large
  have chip : (cutShortEnd 100).2.chip = some Bench.part := by rw [cutShortEnd_small]
  have enough : (0 + 1) * Bench.part.pageSize < (cutShortIn 100).taken.length := by
    rw [taken_cutShortIn]
    decide
  exact ⟨⟨Prod.ext result after, outward, taken⟩,
    committed Bench.part chip (cutShortIn 100) [] 0 (List.append_nil _).symm enough⟩

end Programmer

end SamFlash
