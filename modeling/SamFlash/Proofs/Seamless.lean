import SamFlash.Proofs.Checks
import SamFlash.Proofs.Discipline

/-!
# Operations and the pieces of the image

Two runs of an operation with the same target, on images with the same bytes and the same ending.
How many bytes a read hands out, and how often it is interrupted before, is left to each of the two
sources. The operations are run side by side: what the source has still to give is the same on both
sides before an operation and behind it.

Everything but the image is answered by one device, which does not see how the image is read. What a
source does behind its end, or behind the last byte that a call may take, is not specified; the two
runs are the same nevertheless, since a call that is there asks no more. A page that is short
because the image ends is still padded or refused without another look at the source (`Page.next`).

The one operation that asks the source is `Image.read`. Its requests depend on the pieces, since it
asks for what is left of a page, but what it comes to does not (`Source.draw`): the bytes up to the
space that there is, or the failure at which the source breaks off. All others never take anything
of the image, which is known of them from their scripts (`Link.Follows.unread`), and of such an
operation both runs are one and the same. From there the calls are put together, pages by induction
on those that are left.

Results:
* `Source.draw_append`: a read that begins with one piece goes on as a read of the rest.
* `Image.Reading.draws`: a read comes to what the source has, in whatever pieces.
* `Link.Follows.unread`: an operation that never takes anything of the image never asks for it.
* `Page.seamless_next`, `Page.seamless_writeAll`: pages.
* **`Programmer.seamless_program`**: a program call.
-/

namespace SamFlash

variable {σ ε α β : Type}

/-! ## The image and everything else -/

/-- What asking for bytes of the image came to. -/
def Exchange.delivery? : Exchange ε → Option (Except IoKind (List UInt8))
  | ⟨.image _, d⟩ => some (d.settle.map Subtype.val)
  | _ => none

namespace Transcript

/-- What asking for bytes of the image came to, request by request. -/
def deliveries (t : Transcript ε) : List (Except IoKind (List UInt8)) :=
  t.filterMap Exchange.delivery?

/-- The exchanges that are not about the image. -/
def outward (t : Transcript ε) : Transcript ε := t.filter (·.delivery?.isNone)

/-- The image is not asked for. -/
def Unread (t : Transcript ε) : Prop := ∀ x ∈ t, ∀ limit, x.request ≠ .image limit

variable {s t : Transcript ε}

theorem deliveries_append (s t : Transcript ε) :
    deliveries (s ++ t) = deliveries s ++ deliveries t :=
  List.filterMap_append

theorem outward_append (s t : Transcript ε) : outward (s ++ t) = outward s ++ outward t :=
  List.filter_append s t

theorem delivery?_of_unread {x : Exchange ε} (h : ∀ limit, x.request ≠ .image limit) :
    x.delivery? = none ∧ x.taken = [] := by
  obtain ⟨q, a⟩ := x
  cases q with
  | image limit => exact absurd rfl (h limit)
  | _ => exact ⟨rfl, rfl⟩

theorem Unread.deliveries_eq (h : t.Unread) : t.deliveries = [] :=
  List.filterMap_eq_nil_iff.mpr fun x hx => (delivery?_of_unread (h x hx)).1

theorem Unread.taken_eq (h : t.Unread) : t.taken = [] :=
  List.flatMap_eq_nil_iff.mpr fun x hx => (delivery?_of_unread (h x hx)).2

theorem Unread.outward_eq (h : t.Unread) : t.outward = t :=
  List.filter_eq_self.mpr fun x hx => by rw [(delivery?_of_unread (h x hx)).1]; rfl

/-- A piece of the image in front of other exchanges. -/
theorem deliveries_image {limit : Nat} (d : Delivery limit) (t : Transcript ε) :
    deliveries (⟨.image limit, d⟩ :: t) = d.settle.map Subtype.val :: t.deliveries := rfl

end Transcript

/-! ## The target -/

/-- The device gives the answers of the transcript. -/
def Device.Answers (d : Device σ ε) : σ → Transcript ε → σ → Prop
  | s, [], u => u = s
  | s, x :: t, u => x.answer = (d.answer x.request s).1 ∧ d.Answers (d.answer x.request s).2 t u

namespace Device

variable {d : Device σ ε}

theorem answers_append_iff {s u : σ} {t t' : Transcript ε} :
    d.Answers s (t ++ t') u ↔ ∃ mid, d.Answers s t mid ∧ d.Answers mid t' u := by
  induction t generalizing s with
  | nil =>
    constructor
    · exact fun h => ⟨s, rfl, h⟩
    · rintro ⟨_, rfl, h⟩
      exact h
  | cons x t ih =>
    constructor
    · rintro ⟨hx, h⟩
      obtain ⟨mid, ht, ht'⟩ := ih.mp h
      exact ⟨mid, ⟨hx, ht⟩, ht'⟩
    · rintro ⟨mid, ⟨hx, ht⟩, ht'⟩
      exact ⟨hx, ih.mpr ⟨mid, ht, ht'⟩⟩

/-- The device, with an image that comes from elsewhere. -/
def reading {ρ : Type} (d : Device σ ε) (hand : (limit : Nat) → ρ → Delivery limit × ρ) :
    Device (σ × ρ) ε where
  answer
    | .image limit, (s, image) => ((hand limit image).1, s, (hand limit image).2)
    | q, (s, image) => ((d.answer q s).1, (d.answer q s).2, image)

/-- Wherever the image comes from, everything else is answered by the device. -/
theorem answers_reading {ρ : Type} (hand : (limit : Nat) → ρ → Delivery limit × ρ)
    (x : Dialogue ε α) (s : σ) (image : ρ) :
    d.Answers s (Transcript.outward (x.transcript (d.reading hand) (s, image)))
      (x.run (d.reading hand) (s, image)).2.1 := by
  induction x generalizing s image with
  | done a => rfl
  | ask q next ih =>
    cases q with
    | image limit => exact ih _ _ _
    | _ => exact ⟨rfl, ih _ _ _⟩

/-- One device holds a dialogue in one way. -/
theorem Answers.unique {x : Dialogue ε α} {t t' : Transcript ε} {a a' : α} {s u u' : σ}
    (h : Dialogue.Held x t a) (h' : Dialogue.Held x t' a') (hs : d.Answers s t u)
    (hs' : d.Answers s t' u') : a = a' ∧ t = t' ∧ u = u' := by
  induction h generalizing t' s with
  | done a =>
    obtain ⟨rfl, rfl⟩ := Dialogue.held_done_iff.mp h'
    exact ⟨rfl, rfl, hs.trans hs'.symm⟩
  | @ask q _ _ _ ans _ ih =>
    obtain _ | ⟨ans', rest'⟩ := h'
    have given : ans = (d.answer q s).1 := hs.1
    have given' : ans' = (d.answer q s).1 := hs'.1
    obtain rfl := given.trans given'.symm
    obtain ⟨ha, rfl, hu⟩ := ih rest' hs.2 hs'.2
    exact ⟨ha, rfl, hu⟩

end Device

/-! ## The source -/

/-- How the bytes of an image come to an end. -/
inductive Ending where
  /-- There are no more of them. -/
  | empty
  /-- The next ones cannot be read. -/
  | broken (kind : IoKind)
  deriving DecidableEq, Repr

/-- What asking for more comes to. -/
def Ending.outcome : Ending → Except IoKind (List UInt8)
  | empty => .ok []
  | broken kind => .error kind

/-- What the source of an image has still to give. -/
inductive Source where
  /-- The bytes, and then the ending, if there is one to be seen. -/
  | ahead (bytes : List UInt8) (ending : Option Ending)
  /-- The ending has been seen. -/
  | spent

namespace Source

/-- The source may hand out its bytes like this. -/
def Gives : Source → List (Except IoKind (List UInt8)) → Prop
  | _, [] => True
  | spent, _ :: _ => True
  | ahead bytes ending, x :: later =>
    (∃ data rest, x = .ok data ∧ data ≠ [] ∧ bytes = data ++ rest ∧
        (ahead rest ending).Gives later) ∨
      (bytes = [] ∧ ∀ e ∈ ending, x = e.outcome)

/-- What is left of an image of `size` bytes, of which `read` have been taken: all that was
promised, or less with an ending to be seen. -/
def Covers (size read : Nat) : Source → Prop
  | ahead bytes ending =>
    read + bytes.length ≤ size ∧ (ending = none → read + bytes.length = size)
  | spent => False

/-- What reading up to `n` bytes comes to, and what is left. -/
def draw (n : Nat) (bytes : List UInt8) (ending : Option Ending) :
    Except IoKind (List UInt8) × Source :=
  if n ≤ bytes.length then (.ok (bytes.take n), ahead (bytes.drop n) ending)
  else match ending with
    | some (.broken kind) => (.error kind, spent)
    | _ => (.ok bytes, spent)

variable {n : Nat} {bytes data : List UInt8} {ending : Option Ending} {left : Source}

/-- Asked for more while there is an ending or a byte to be had, the source hands out a piece or is
at its end. -/
theorem gives_cons {x : Except IoKind (List UInt8)} {later : List (Except IoKind (List UInt8))}
    (h : (ahead bytes ending).Gives (x :: later)) (more : ending = none → bytes ≠ []) :
    (∃ data rest, x = .ok data ∧ data ≠ [] ∧ bytes = data ++ rest ∧
        (ahead rest ending).Gives later) ∨
      (bytes = [] ∧ ∃ e, ending = some e ∧ x = e.outcome) := by
  refine h.imp_right fun ⟨dry, ends⟩ => ⟨dry, ?_⟩
  cases ending with
  | none => exact absurd dry (more rfl)
  | some e => exact ⟨e, rfl, ends e rfl⟩

/-- Behind its end the source may do anything. -/
theorem gives_spent (later : List (Except IoKind (List UInt8))) : spent.Gives later := by
  cases later <;> trivial

/-- **Any pieces** of the bytes may be handed out. -/
theorem gives_pieces {pieces : List (List UInt8)} {later : List (Except IoKind (List UInt8))}
    (some : ∀ piece ∈ pieces, piece ≠ []) (behind : (ahead [] ending).Gives later) :
    (ahead pieces.flatten ending).Gives (pieces.map .ok ++ later) := by
  induction pieces with
  | nil => exact behind
  | cons piece pieces ih =>
    obtain ⟨first, others⟩ := List.forall_mem_cons.mp some
    exact Or.inl ⟨piece, pieces.flatten, rfl, first, rfl, ih others⟩

/-- At the end a read sees the ending. -/
theorem draw_nil (h : 0 < n) {e : Ending} :
    draw n [] (some e) = (e.outcome, spent) := by
  unfold draw
  rw [if_neg (by simpa using Nat.not_le.mpr h)]
  cases e <;> rfl

/-- **One piece** in front of the rest of a read. -/
theorem draw_append (h : data.length ≤ n) :
    draw n (data ++ bytes) ending =
      ((draw (n - data.length) bytes ending).1.map (data ++ ·),
        (draw (n - data.length) bytes ending).2) := by
  have enough : n ≤ (data ++ bytes).length ↔ n - data.length ≤ bytes.length := by
    rw [List.length_append]
    omega
  unfold draw
  by_cases hn : n - data.length ≤ bytes.length
  · rw [if_pos (enough.mpr hn), if_pos hn, List.take_append, List.drop_append,
      List.take_of_length_le h, List.drop_eq_nil_of_le h]
    rfl
  · rw [if_neg (fun hle => hn (enough.mp hle)), if_neg hn]
    rcases ending with _ | _ | kind <;> rfl

/-- A read has all that it wants, or sees the end with less. -/
theorem draw_ok (h : draw n bytes ending = (.ok data, left)) :
    (left = ahead (bytes.drop n) ending ∧ data.length = n ∧ n ≤ bytes.length) ∨
      (data.length = bytes.length ∧ bytes.length < n) := by
  unfold draw at h
  split at h
  · obtain ⟨hd, rfl⟩ := Prod.mk.inj h
    obtain rfl := Except.ok.inj hd
    exact Or.inl ⟨rfl, by rw [List.length_take]; omega, by assumption⟩
  · rename_i hn
    split at h
    · exact absurd (Prod.mk.inj h).1 (by simp)
    · obtain rfl := Except.ok.inj (Prod.mk.inj h).1
      exact Or.inr ⟨rfl, by omega⟩

end Source

/-! ## Operations that do not see the pieces -/

/-- From a source that has `src` to give, the dialogue comes to the same end and asks for the same
in whatever pieces the bytes come, and leaves a source of which `Q` holds. -/
structure Dialogue.Seamless (d : Device σ ε) (src : Source) (x : Dialogue ε α)
    (Q : α → Source → Prop) : Prop where
  agrees : ∀ {t t' : Transcript ε} {a a' : α} {s u u' : σ}
      {later later' : List (Except IoKind (List UInt8))},
    Held x t a → Held x t' a' → d.Answers s t.outward u → d.Answers s t'.outward u' →
      src.Gives (t.deliveries ++ later) → src.Gives (t'.deliveries ++ later') →
        (a = a' ∧ u = u' ∧ t.outward = t'.outward ∧ t.taken = t'.taken) ∧
          ∃ left, Q a left ∧ left.Gives later ∧ left.Gives later'

namespace Dialogue.Seamless

variable {d : Device σ ε} {src : Source} {x : Dialogue ε α}

theorem mono {Q Q' : α → Source → Prop} (h : Seamless d src x Q)
    (hq : ∀ {a left}, Q a left → Q' a left) : Seamless d src x Q' where
  agrees ht ht' hd hd' hg hg' := by
    obtain ⟨same, left, q, later⟩ := h.agrees ht ht' hd hd' hg hg'
    exact ⟨same, left, hq q, later⟩

theorem done {a : α} {Q : α → Source → Prop} (hq : Q a src) : Seamless d src (.done a) Q where
  agrees ht ht' hd hd' hg hg' := by
    obtain ⟨rfl, rfl⟩ := held_done_iff.mp ht
    obtain ⟨rfl, rfl⟩ := held_done_iff.mp ht'
    exact ⟨⟨rfl, hd.trans hd'.symm, rfl, rfl⟩, src, hq, hg, hg'⟩

/-- **Dialogues in a row.** -/
theorem bind {M : α → Source → Prop} {f : α → Dialogue ε β} {Q : β → Source → Prop}
    (hx : Seamless d src x M) (hf : ∀ {a left}, M a left → Seamless d left (f a) Q) :
    Seamless d src (x.bind f) Q where
  agrees := by
    intro t t' b b' s u u' later later' ht ht' hd hd' hg hg'
    obtain ⟨a, t₁, t₂, h₁, h₂, rfl⟩ := held_bind_iff.mp ht
    obtain ⟨a', t₁', t₂', h₁', h₂', rfl⟩ := held_bind_iff.mp ht'
    rw [Transcript.outward_append] at hd hd'
    rw [Transcript.deliveries_append, List.append_assoc] at hg hg'
    obtain ⟨mid, hd₁, hd₂⟩ := Device.answers_append_iff.mp hd
    obtain ⟨mid', hd₁', hd₂'⟩ := Device.answers_append_iff.mp hd'
    obtain ⟨⟨rfl, rfl, outward, taken⟩, left, hm, hg, hg'⟩ := hx.agrees h₁ h₁' hd₁ hd₁' hg hg'
    obtain ⟨⟨rfl, rfl, outward', taken'⟩, rest⟩ := (hf hm).agrees h₂ h₂' hd₂ hd₂' hg hg'
    refine ⟨⟨rfl, rfl, ?_, ?_⟩, rest⟩
    · rw [Transcript.outward_append, Transcript.outward_append, outward, outward']
    · rw [Transcript.taken_append, Transcript.taken_append, taken, taken']

/-- A dialogue that does not ask for the image leaves it alone. -/
theorem of_unread (h : ∀ {t : Transcript ε} {a}, Held x t a → t.Unread)
    {Q : α → Source → Prop}
    (hq : ∀ {t : Transcript ε} {a}, Held x t a → Q a src) :
    Seamless d src x Q where
  agrees := by
    intro t t' a a' s u u' later later' ht ht' hd hd' hg hg'
    rw [(h ht).outward_eq] at hd
    rw [(h ht').outward_eq] at hd'
    rw [(h ht).deliveries_eq] at hg
    rw [(h ht').deliveries_eq] at hg'
    obtain ⟨rfl, rfl, rfl⟩ := Device.Answers.unique ht ht' hd hd'
    exact ⟨⟨rfl, rfl, rfl, rfl⟩, src, hq ht, hg, hg'⟩

end Dialogue.Seamless

namespace Link

/-- What is said of the source behind an operation that succeeds. -/
def Succeeds (Q : α → Source → Prop) : Except (Failure ε) α → Source → Prop
  | .ok a => Q a
  | .error _ => fun _ => True

/-- The operation does not see the pieces; if it succeeds, it leaves a source of which `Q` holds. -/
abbrev Seamless (d : Device σ ε) (src : Source) (x : Link ε α) (Q : α → Source → Prop) : Prop :=
  Dialogue.Seamless d src x.run (Succeeds Q)

variable {d : Device σ ε} {src : Source} {x : Link ε α} {Q : α → Source → Prop}

theorem Seamless.mono {Q' : α → Source → Prop} (h : Seamless d src x Q)
    (hq : ∀ {a left}, Q a left → Q' a left) : Seamless d src x Q' :=
  Dialogue.Seamless.mono h fun {r _} h => by
    cases r with
    | error e => trivial
    | ok a => exact hq h

theorem seamless_pure {a : α} (hq : Q a src) : Seamless d src (pure a : Link ε α) Q :=
  Dialogue.Seamless.done hq

theorem seamless_fail (e : Error ε) : Seamless d src (fail e : Link ε α) Q :=
  Dialogue.Seamless.done trivial

theorem seamless_exact {c : Checked α} (hq : ∀ a, c = .ok a → Q a src) :
    Seamless d src (exact c : Link ε α) Q := by
  cases c with
  | error f => exact Dialogue.Seamless.done trivial
  | ok a => exact Dialogue.Seamless.done (hq a rfl)

/-- **Operations in a row.** -/
theorem Seamless.bind {f : α → Link ε β} {M : α → Source → Prop} {Q : β → Source → Prop}
    (hx : Seamless d src x M) (hf : ∀ {a left}, M a left → Seamless d left (f a) Q) :
    Seamless d src (x >>= f) Q := by
  refine Dialogue.Seamless.bind hx fun {r left} hm => ?_
  cases r with
  | error e => exact Dialogue.Seamless.done trivial
  | ok a => exact hf hm

theorem Seamless.during (h : Seamless d src x Q) (stage : Stage) :
    Seamless d src (Link.during stage x) Q := by
  refine Dialogue.Seamless.bind h fun {r left} hq => Dialogue.Seamless.done ?_
  cases r with
  | error e => exact hq
  | ok a => exact hq

/-- A request that is not for the image. -/
theorem seamless_request {q : Request} (hq : ∀ limit, q ≠ .image limit) :
    Seamless d src (request q : Link ε (q.Answer ε)) fun _ left => left = src := by
  refine Dialogue.Seamless.of_unread (fun {t r} ht => ?_) fun {t r} ht => ?_
  · obtain ⟨a, rfl, -⟩ := held_request_iff.mp ht
    exact List.forall_mem_singleton.mpr hq
  · obtain ⟨a, -, rfl⟩ := held_request_iff.mp ht
    exact rfl

theorem seamless_log (n : Diagnostic) :
    Seamless d src (log n : Link ε Unit) fun _ left => left = src :=
  seamless_request (by simp)

end Link

/-! ## Operations that take nothing of the image -/

namespace Dialogue

/-- Every dialogue can be held. -/
theorem exists_held (x : Dialogue ε α) : ∃ t a, Held x t a :=
  ⟨_, _, Held.of_run (Bench.steady Bench.part) x (Bench.fresh [])⟩

/-- A dialogue that asks for bytes of the image may be given some. -/
theorem unread_of_untaken {x : Dialogue ε α} (h : ∀ (t : Transcript ε) a, Held x t a → t.taken = [])
    {t : Transcript ε} {a : α} (ht : Held x t a) (pos : ∀ y ∈ t, y.request ≠ .image 0) :
    t.Unread := by
  induction ht with
  | done a => exact fun y hy => absurd hy List.not_mem_nil
  | @ask q next t b ans rest ih =>
    obtain ⟨first, others⟩ := List.forall_mem_cons.mp pos
    refine List.forall_mem_cons.mpr ⟨?_, ih (fun t' b' h' => ?_) others⟩
    · rintro limit rfl
      have room : 1 ≤ limit := Nat.pos_of_ne_zero fun hz => first (congrArg Request.image hz)
      obtain ⟨t', b', h'⟩ := exists_held (next (.bytes [0] room))
      have none := h _ _ (Held.ask _ h')
      rw [Image.taken_image rfl] at none
      exact absurd none (by simp)
    · exact (List.append_eq_nil_iff.mp (h _ _ (Held.ask ans h'))).2

end Dialogue

namespace Link

variable {o : Options} {c : Chip} {x : Link ε α} {script : List Command} {value : α → Prop}
  {failure : Failure ε → Prop}

/-- **An operation that never takes anything** of the image never asks for it. -/
theorem Follows.unread (h : x.Follows script value failure) (ha : x.Accurate o c)
    {t : Transcript ε} {r : Except (Failure ε) α} (ht : Held x t r) : t.Unread := by
  have pos : ¬ (Request.image 0).Accurate o c := fun h => absurd h.1 (by decide)
  exact Dialogue.unread_of_untaken (fun _ _ h' => h.untaken h') ht (ha.unasked pos id ht)

theorem Follows.seamless {d : Device σ ε} {src : Source} (h : x.Follows script value failure)
    (ha : x.Accurate o c) : Seamless d src x fun a left => value a ∧ left = src := by
  refine Dialogue.Seamless.of_unread (h.unread ha) fun {t r} ht => ?_
  cases r with
  | ok a => exact ⟨(h.completes ht).2.2, rfl⟩
  | error f => trivial

end Link

/-! ## Reading -/

namespace Image

open Source

variable {d : Device σ ε} {bytes : List UInt8} {ending : Option Ending}

/-- **A read, piece by piece,** comes to what the source has. -/
theorem Reading.draws {space limit : Nat} {t : Transcript ε}
    {r : Except (Failure ε) (List UInt8)} (h : Reading space limit t r)
    (room : bytes.length ≤ limit) (whole : ending = none → bytes.length = limit)
    {later : List (Except IoKind (List UInt8))}
    (hg : (ahead bytes ending).Gives (t.deliveries ++ later)) :
    t.outward = [] ∧ t.taken = bytes.take (min space limit) ∧
      r = (draw (min space limit) bytes ending).1.mapError (fun kind => .error (.io kind)) ∧
      (draw (min space limit) bytes ending).2.Gives later := by
  induction h generalizing bytes with
  | @full space limit done =>
    have none : min space limit = 0 := Nat.min_eq_zero_iff.mpr done
    rw [none]
    exact ⟨rfl, rfl, rfl, hg⟩
  | @failed space limit space_pos limit_pos d kind settles =>
    have more (h : ending = none) : bytes ≠ [] := List.length_pos_iff.mp (whole h ▸ limit_pos)
    rw [Transcript.deliveries_image, settles] at hg
    rcases gives_cons hg more with ⟨_, _, hx, -⟩ | ⟨rfl, e, rfl, hx⟩
    · exact absurd hx (by simp [Except.map])
    · rw [draw_nil (by omega), ← hx]
      exact ⟨rfl, by simp [Transcript.taken, Exchange.taken, settles], rfl, gives_spent later⟩
  | @ended space limit space_pos limit_pos d data settles none =>
    have more (h : ending = .none) : bytes ≠ [] := List.length_pos_iff.mp (whole h ▸ limit_pos)
    rw [Transcript.deliveries_image, settles] at hg
    rcases gives_cons hg more with ⟨_, _, hx, some, -⟩ | ⟨rfl, e, rfl, hx⟩
    · exact absurd (none ▸ (Except.ok.inj hx).symm) some
    · rw [draw_nil (by omega), ← hx]
      have took : Transcript.taken [(⟨.image (min space limit), d⟩ : Exchange ε)] = [] := by
        rw [taken_image settles, none]
        rfl
      exact ⟨rfl, by rw [took, List.take_nil], by simp [Except.map, none], gives_spent later⟩
  | @piece space limit t r space_pos limit_pos d data settles some rest ih =>
    have more (h : ending = none) : bytes ≠ [] := List.length_pos_iff.mp (whole h ▸ limit_pos)
    rw [Transcript.deliveries_image, settles] at hg
    have within := data.property
    rcases gives_cons hg more with ⟨_, bytes, hx, -, rfl, given⟩ | ⟨-, e, -, hx⟩
    · obtain rfl := Except.ok.inj hx
      rw [List.length_append] at room whole
      have shift : min (space - data.val.length) (limit - data.val.length) =
          min space limit - data.val.length := by omega
      obtain ⟨outward, taken, rfl, behind⟩ :=
        ih (by omega) (fun h => by have := whole h; omega) given
      rw [shift] at taken behind ⊢
      rw [draw_append within, taken_image settles, taken, List.take_append,
        List.take_of_length_le within]
      refine ⟨outward, rfl, ?_, behind⟩
      cases (draw (min space limit - data.val.length) bytes ending).1 <;> rfl
    · cases e with
      | empty => exact absurd (Except.ok.inj hx) some
      | broken kind => exact absurd hx (by simp [Except.map, Ending.outcome])

/-- **A read** does not see the pieces. -/
theorem seamless_read {space limit : Nat} (room : bytes.length ≤ limit)
    (whole : ending = none → bytes.length = limit) :
    Link.Seamless d (ahead bytes ending) (read space limit : Link ε (List UInt8)) fun data left =>
      draw (min space limit) bytes ending = (.ok data, left) where
  agrees := by
    intro t t' r r' s u u' later later' ht ht' hd hd' hg hg'
    obtain ⟨outward, taken, rfl, hg⟩ := (reading_of_held ht).draws room whole hg
    obtain ⟨outward', taken', rfl, hg'⟩ := (reading_of_held ht').draws room whole hg'
    rw [outward] at hd
    rw [outward'] at hd'
    refine ⟨⟨rfl, hd.trans hd'.symm, outward.trans outward'.symm, taken.trans taken'.symm⟩,
      _, ?_, hg, hg'⟩
    cases hdraw : draw (min space limit) bytes ending with
    | mk x left => cases x <;> trivial

end Image

/-! ## Pages -/

namespace Page

open Link

variable {d : Device σ ε} {src : Source} {o : Options} {c : Chip} {observed : Bool}

/-- **A page** is read whole, or the end of the image is a failure. -/
theorem seamless_next {size page read : Nat} (h : src.Covers size read) :
    Seamless d src (next c size page read : Link ε (Nat × List UInt8)) fun x left =>
      x.1 = read + min c.pageSize (size - read) ∧ x.2.length = c.pageSize ∧
        left.Covers size x.1 := by
  cases src with
  | spent => exact h.elim
  | ahead bytes ending =>
    obtain ⟨room, whole⟩ := h
    have fits : bytes.length ≤ size - read := by omega
    have all (hn : ending = none) : bytes.length = size - read := by
      have := whole hn
      omega
    refine (Image.seamless_read fits all).bind fun {data left} hdraw => ?_
    refine (seamless_exact (Q := fun n left' => n = read + data.length ∧ left' = left)
      fun n hn => ⟨(Size.add_eq_ok_iff.mp hn).1, rfl⟩).bind ?_
    rintro _ _ ⟨rfl, rfl⟩
    by_cases hend : data.length < c.pageSize ∧ read + data.length < size
    · rw [if_pos hend]
      exact (seamless_log _).bind fun _ => seamless_fail _
    · rw [if_neg hend]
      obtain ⟨rfl, hlen, henough⟩ := (Source.draw_ok hdraw).resolve_right (by omega)
      have good : read + data.length = read + min c.pageSize (size - read) ∧
          (Image.padded c.pageSize data).length = c.pageSize ∧
          (Source.ahead (bytes.drop (min c.pageSize (size - read))) ending).Covers size
            (read + data.length) := by
        refine ⟨by omega, Image.padded_length (by omega), ?_, fun hn => ?_⟩
        · rw [List.length_drop]
          omega
        · have := whole hn
          rw [List.length_drop]
          omega
      by_cases hshort : data.length < c.pageSize
      · rw [if_pos hshort]
        refine (seamless_exact fun _ _ => rfl).bind ?_
        rintro missing _ rfl
        refine (seamless_log _).bind ?_
        rintro _ _ rfl
        exact seamless_pure good
      · rw [if_neg hshort]
        exact seamless_pure good

theorem seamless_tell (p : Progress) :
    Seamless d src (tell observed p : Link ε Unit) fun _ left => left = src := by
  unfold tell
  by_cases ho : observed = true
  · rw [if_pos ho]
    exact seamless_request (by simp)
  · rw [if_neg ho]
    exact seamless_pure rfl

/-- **All pages.** -/
theorem seamless_writeAll (hc : c.Sound) {size left page read : Nat}
    (hrem : Remains c size left page read) (h : src.Covers size read) :
    Seamless d src
      (writeAll o c size observed left page read (Workspace.ofPage c page) : Link ε Unit)
      fun _ _ => True := by
  induction left generalizing page read src with
  | zero => exact seamless_pure trivial
  | succ left ih =>
    have hpage : page < c.pages := by
      have := hrem.pages
      omega
    refine (seamless_next h).bind ?_
    rintro ⟨_, data⟩ src ⟨rfl, full, covers⟩
    have write := ((commits_write (ε := ε) (o := o) hc hpage full).during_isAt.seamless
      (.during _ (accurate_write hc hpage full)) : Seamless d src _ _)
    refine write.bind ?_
    rintro _ _ ⟨rfl, rfl⟩
    rw [hc.nextPage_eq hpage, exact_ok, pure_bind]
    refine (seamless_tell _).bind ?_
    rintro _ _ rfl
    exact ih hrem.next covers

end Page

/-! ## Calls -/

namespace Programmer

open Link

variable {d : Device σ ε} {src : Source} {o : Options} {c : Chip} {size : Nat} {observed : Bool}

theorem seamless_closing (hc : c.Sound) {n : Nat} (hn : 0 < n) :
    Seamless d src (closing o c n observed : Link ε Unit) fun _ _ => True := by
  have accurate : (closing o c n observed : Link ε Unit).Accurate o c := accurate_closing hc hn
  by_cases hk : o.keepBootSource = true
  · exact ((follows_closing_keep hc hn hk).seamless accurate).mono fun _ => trivial
  · exact ((follows_closing_boot hc (eq_false_of_ne_true hk)).seamless accurate).mono
      fun _ => trivial

/-- **The pages of an image, with what comes before and behind them.** -/
theorem seamless_writePages (hc : c.Sound) (hs : size ≤ c.pages * c.pageSize)
    (hn : 0 < c.pagesFor size) (h : src.Covers size 0) :
    Link.Seamless d src (writePages o c size (c.pagesFor size) observed : Link ε Unit)
      fun _ _ => True := by
  rw [writePages_eq]
  refine ((follows_opening hc _).seamless (accurate_opening (o := o) hc hn hs)).bind ?_
  rintro _ _ ⟨rfl, rfl⟩
  exact (Page.seamless_writeAll hc (remains_zero hc hs) h).bind fun _ => seamless_closing hc hn

theorem seamless_pagesOf (hc : c.Sound) :
    Link.Seamless d src (pagesOf c size : Link ε Nat) fun n left =>
      (n = c.pagesFor size ∧ size ≤ c.pages * c.pageSize) ∧ left = src := by
  by_cases hs : size ≤ c.pages * c.pageSize
  · rw [pagesOf_eq hc hs]
    exact seamless_pure ⟨⟨rfl, hs⟩, rfl⟩
  · rw [pagesOf_eq_of_lt hc (by omega)]
    exact (seamless_log _).bind fun _ => seamless_fail _

theorem seamless_findChip :
    Link.Seamless d src (findChip o : Link ε Chip) fun c left => c ∈ Chip.all ∧ left = src := by
  refine Dialogue.Seamless.of_unread unread_findChip fun {t r} ht => ?_
  cases r with
  | error f => trivial
  | ok c => exact ⟨((follows_findChip o).completes ht).2.2, rfl⟩

/-- The call does not see the pieces; if it succeeds, it leaves a programmer and a source of which
`Q` holds. -/
abbrev Seamless (d : Device σ ε) (src : Source) (x : Call ε α) (p : Programmer)
    (Q : α → Programmer → Source → Prop) : Prop :=
  Dialogue.Seamless d src (x.run p) fun rq left => ∀ a, rq.1 = .ok a → Q a rq.2 left

theorem Seamless.bind {x : Call ε α} {f : α → Call ε β} {p : Programmer}
    {M : α → Programmer → Source → Prop} {Q : β → Programmer → Source → Prop}
    (hx : Seamless d src x p M)
    (hf : ∀ {a q left}, M a q left → Seamless d left (f a) q Q) :
    Seamless d src (x >>= f) p Q := by
  refine Dialogue.Seamless.bind hx fun {rq left} hm => ?_
  obtain ⟨r, q⟩ := rq
  cases r with
  | error e => exact Dialogue.Seamless.done (by simp)
  | ok a => exact hf (hm a rfl)

theorem seamless_ofLink {x : Link ε α} {p : Programmer} {Q : α → Source → Prop}
    (h : Link.Seamless d src x Q) :
    Seamless d src (ofLink x) p fun a q left => Q a left ∧ q = p := by
  refine Dialogue.Seamless.bind h fun {r left} hq => Dialogue.Seamless.done ?_
  rintro a rfl
  exact ⟨hq, rfl⟩

theorem seamless_enter {phase : Phase} {p : Programmer} {Q : Programmer → Source → Prop}
    (hq : Q { p with phase := phase } src) :
    Seamless d src (enter phase : Call ε Unit) p fun _ => Q :=
  Dialogue.Seamless.done fun _ _ => hq

theorem seamless_connected {p : Programmer} (hp : p.Knows) :
    Seamless d src (connected o : Call ε Chip) p fun c _ left => c ∈ Chip.all ∧ left = src := by
  obtain ⟨phase, chip⟩ := p
  cases chip with
  | some c =>
    refine Dialogue.Seamless.done ?_
    rintro _ ⟨⟩
    exact ⟨hp c rfl, rfl⟩
  | none =>
    have start : (connected o : Call ε Chip).run ⟨phase, none⟩ = (detect o).run ⟨phase, none⟩ := rfl
    have detects : Seamless d src (detect o : Call ε Chip) ⟨phase, none⟩
        fun c _ left => c ∈ Chip.all ∧ left = src := by
      refine (seamless_ofLink seamless_findChip).bind fun {c q left} h => ?_
      refine Dialogue.Seamless.done ?_
      rintro _ ⟨⟩
      exact h.1
    rwa [Seamless, start]

/-- **A program call** does not see the pieces. -/
theorem seamless_program {p : Programmer} (hp : p.Knows) (h : src.Covers size 0) :
    Seamless d src (program o size observed : Call ε Unit) p fun _ _ _ => True := by
  have writes : Seamless d src (writeImage o size observed : Call ε Unit) p fun _ _ _ => True := by
    refine (seamless_connected hp).bind ?_
    rintro c _ _ ⟨hc, rfl⟩
    have sound := Chip.sound_of_mem hc
    refine (seamless_ofLink (seamless_pagesOf sound)).bind ?_
    rintro _ _ _ ⟨⟨⟨rfl, hs⟩, rfl⟩, rfl⟩
    by_cases hn : c.pagesFor size = 0
    · rw [if_pos hn]
      exact (seamless_ofLink (seamless_log _)).bind fun _ => seamless_enter trivial
    · rw [if_neg hn]
      refine (seamless_enter (Q := fun _ left => left = _) rfl).bind ?_
      rintro _ _ _ rfl
      exact (seamless_ofLink (seamless_writePages sound hs (Nat.pos_of_ne_zero hn) h)).bind
        fun _ => seamless_enter trivial
  exact Dialogue.Seamless.bind writes fun _ => Dialogue.Seamless.done fun _ _ => trivial

end Programmer

end SamFlash
