import SamFlash.Proofs.Script

/-!
# Pages of an image

An image is cut into pages in order, and the last page is filled up with zeros (`Image.page`,
`Image.padded`). Whatever pieces its source hands out, the page that is written next is the next
page of the image.

`Image.read` asks for what is left of a page until it has it, until the image has given all the
bytes that were promised, or until the source is at its end; an interrupted request is made again.
`Page.next` then tells a last page, which may be short, from an image that ends early by the number
of bytes taken so far: a short page with bytes still to come is an error. So reading a page either
takes all of its bytes or fails for a reason of the source before it has them (`Page.Drew`), and in
both cases the bytes taken of the image are the first ones.

`Page.writeAll` reads and writes the pages one after the other, and is followed by induction on the
pages that are left. Its invariant is `Page.Remains`, which relates the pages left, the page that is
next and the bytes taken to the size of the image. If it stops, it stops at one page: with the pages
before it written, with a part of the script of this one done, and with an error at this page, or
with the source's error and nothing of the page done (`Page.Stops`).

Results:
* `Image.reading_of_held`: a piece-wise read, request by request.
* `Page.drew_next`: reading a page takes all of its bytes, or fails for a reason of the source
  before it has them.
* `Page.held_writeAll_ok`: writing all pages follows `Script.pages`.
* `Page.held_writeAll_error`: if writing stops, it stops at one page, with all pages before it
  written; the failure tells the page.
-/

namespace SamFlash

variable {ε : Type}

/-! ## Reading -/

namespace Image

/-- The bytes of a page of an image, filled up with zeros. -/
def page (pageSize : Nat) (bytes : List UInt8) (k : Nat) : List UInt8 :=
  padded pageSize ((bytes.drop (k * pageSize)).take pageSize)

theorem length_page (pageSize : Nat) (bytes : List UInt8) (k : Nat) :
    (page pageSize bytes k).length = pageSize :=
  padded_length (by rw [List.length_take]; omega)

/-- What was taken at the start of a page is the page, of an image of `size` bytes. -/
theorem page_of_taken {pageSize size k : Nat} {image taken : List UInt8}
    (h : taken <+: image.drop (k * pageSize))
    (hl : taken.length = min pageSize (size - k * pageSize)) :
    padded pageSize taken = page pageSize (image.take size) k := by
  unfold page
  rw [List.drop_take, List.take_take, ← hl, ← List.prefix_iff_eq_take.mp h]

/-- How a piece-wise read goes, request by request. -/
inductive Reading : (space limit : Nat) → Transcript ε → Except (Failure ε) (List UInt8) → Prop
    where
  /-- There is no room, or nothing more is wanted. -/
  | full {space limit : Nat} (done : space = 0 ∨ limit = 0) : Reading space limit [] (.ok [])
  /-- The source fails. -/
  | failed {space limit : Nat} (room : 0 < space) (wanted : 0 < limit)
      (d : Delivery (min space limit)) (kind : IoKind) (settles : d.settle = .error kind) :
      Reading space limit [⟨.image (min space limit), d⟩] (.error (.error (.io kind)))
  /-- The source is at its end. -/
  | ended {space limit : Nat} (room : 0 < space) (wanted : 0 < limit)
      (d : Delivery (min space limit)) (data : { d : List UInt8 // d.length ≤ min space limit })
      (settles : d.settle = .ok data) (none : data.val = []) :
      Reading space limit [⟨.image (min space limit), d⟩] (.ok [])
  /-- A piece is handed out. -/
  | piece {space limit : Nat} {t : Transcript ε} {r : Except (Failure ε) (List UInt8)}
      (room : 0 < space) (wanted : 0 < limit) (d : Delivery (min space limit))
      (data : { d : List UInt8 // d.length ≤ min space limit }) (settles : d.settle = .ok data)
      (some : data.val ≠ [])
      (rest : Reading (space - data.val.length) (limit - data.val.length) t r) :
      Reading space limit (⟨.image (min space limit), d⟩ :: t) (r.map (data.val ++ ·))

/-- Every read goes that way. -/
theorem reading_of_held {space limit : Nat} {t : Transcript ε}
    {r : Except (Failure ε) (List UInt8)} (h : Link.Held (read space limit) t r) :
    Reading space limit t r := by
  induction space using Nat.strongRecOn generalizing limit t r with
  | _ space ih =>
    rw [read] at h
    by_cases hz : space = 0 ∨ limit = 0
    · rw [dif_pos hz] at h
      obtain ⟨rfl, rfl⟩ := Link.held_pure_iff.mp h
      exact .full hz
    rw [dif_neg hz] at h
    have room : 0 < space := by omega
    have wanted : 0 < limit := by omega
    obtain _ | ⟨d, rest⟩ := h
    cases hs : d.settle with
    | error kind =>
      simp only [hs] at rest
      obtain ⟨rfl, rfl⟩ := Dialogue.held_done_iff.mp rest
      exact .failed room wanted d kind hs
    | ok data =>
      simp only [hs] at rest
      by_cases hd : data.val = []
      · simp only [dif_pos hd] at rest
        obtain ⟨rfl, rfl⟩ := Dialogue.held_done_iff.mp rest
        exact .ended room wanted d data hs hd
      · simp only [dif_neg hd] at rest
        obtain ⟨s, hrest, rfl⟩ := Dialogue.held_map_iff.mp rest
        have hpos := List.length_pos_iff.mpr hd
        exact .piece room wanted d data hs hd (ih _ (by omega) hrest)

/-- What a piece-wise read has come to. -/
structure Took (t : Transcript ε) (space limit : Nat) (r : Except (Failure ε) (List UInt8)) :
    Prop where
  operations : t.operations = []
  accepted : t.accepted = []
  data : ∀ data, r = .ok data → t.taken = data ∧ data.length ≤ space ∧ data.length ≤ limit
  failure : ∀ f, r = .error f → (∃ kind, f = .error (.io kind)) ∧ t.taken.length < min space limit

theorem taken_image {limit : Nat} {d : Delivery limit}
    {data : { d : List UInt8 // d.length ≤ limit }} (h : d.settle = .ok data) (t : Transcript ε) :
    Transcript.taken (⟨.image limit, d⟩ :: t) = data.val ++ t.taken := by
  have one : Exchange.taken (ε := ε) ⟨.image limit, d⟩ = data.val := by
    simp only [Exchange.taken, h]
  rw [← one]
  exact List.flatMap_cons

theorem took_read {space limit : Nat} {t : Transcript ε} {r : Except (Failure ε) (List UInt8)}
    (h : Link.Held (read space limit) t r) : Took t space limit r := by
  replace h := reading_of_held h
  induction h with
  | full _ => exact ⟨rfl, rfl, by simp [Transcript.taken], by simp⟩
  | failed room wanted d kind hd =>
    have none : Transcript.taken [(⟨.image _, d⟩ : Exchange ε)] = [] := by
      simp [Transcript.taken, Exchange.taken, hd]
    refine ⟨rfl, rfl, by simp, fun f hf => ⟨⟨kind, (Except.error.inj hf).symm⟩, ?_⟩⟩
    rw [none]
    exact Nat.lt_min.mpr ⟨room, wanted⟩
  | ended _ _ d data hd none =>
    refine ⟨rfl, rfl, ?_, by simp⟩
    rintro _ ⟨⟩
    exact ⟨by rw [taken_image hd, none]; rfl, Nat.zero_le _, Nat.zero_le _⟩
  | @piece _ _ t r _ _ d data hd some _ ih =>
    have hle := data.property
    obtain ⟨ho, ha, hdata, hfail⟩ := ih
    refine ⟨ho, ha, ?_, ?_⟩
    · intro all hall
      cases r with
      | error f => exact absurd hall (by simp [Except.map])
      | ok more =>
        obtain rfl := Except.ok.inj hall
        obtain ⟨h1, h2, h3⟩ := hdata more rfl
        rw [taken_image hd, h1, List.length_append]
        exact ⟨rfl, by omega, by omega⟩
    · intro f hf
      cases r with
      | ok more => exact absurd hf (by simp [Except.map])
      | error g =>
        obtain rfl := Except.error.inj hf
        obtain ⟨hio, hlt⟩ := hfail g rfl
        rw [taken_image hd, List.length_append]
        exact ⟨hio, by omega⟩

end Image

namespace Page

open Link

/-- What reading a page, with `read` bytes of `size` taken before it, has come to. -/
structure Drew (t : Transcript ε) (pageSize size read : Nat)
    (r : Except (Failure ε) (Nat × List UInt8)) : Prop where
  operations : t.operations = []
  accepted : t.accepted = []
  page : ∀ x, r = .ok x → t.taken.length = min pageSize (size - read) ∧
    x = (read + t.taken.length, Image.padded pageSize t.taken)
  failure : ∀ f, r = .error f →
    (∃ kind, f = .error (.io kind)) ∧ t.taken.length < min pageSize (size - read)

/-- A diagnostic behind the read changes nothing about it. -/
theorem Drew.log {t u : Transcript ε} {pageSize size read : Nat}
    {r : Except (Failure ε) (Nat × List UInt8)} (h : Drew t pageSize size read r)
    (hu : u.Quiet) : Drew (t ++ u) pageSize size read r := by
  have hk : (t ++ u).taken = t.taken := by
    rw [Transcript.taken_append, hu.taken_eq, List.append_nil]
  refine ⟨?_, ?_, ?_, ?_⟩
  · rw [Transcript.operations_append, h.operations, hu.1.operations_eq]
    rfl
  · rw [Transcript.accepted_append, h.accepted, hu.2]
    rfl
  · rw [hk]
    exact h.page
  · rw [hk]
    exact h.failure

theorem quiet_log {d : Diagnostic} (hd : Exchange.operation? (ε := ε) ⟨.log d, ()⟩ = none) :
    Transcript.Quiet [(⟨.log d, ()⟩ : Exchange ε)] :=
  Transcript.quiet_nil.cons hd rfl rfl

/-- **Reading a page** takes all of its bytes, or fails before it has them. -/
theorem drew_next {c : Chip} {size page read : Nat} (hread : read ≤ size)
    (hsize : size < UInt64.size) {t : Transcript ε} {r : Except (Failure ε) (Nat × List UInt8)}
    (h : Held (next c size page read) t r) : Drew t c.pageSize size read r := by
  rcases held_bind_iff.mp h with ⟨f, h₁, rfl⟩ | ⟨data, t₁, t₂, h₁, h₂, rfl⟩
  · obtain ⟨ho, ha, -, hf⟩ := Image.took_read h₁
    refine ⟨ho, ha, by simp, fun g hg => ?_⟩
    obtain rfl := Except.error.inj hg
    exact hf f rfl
  obtain ⟨ho, ha, hdata, -⟩ := Image.took_read h₁
  obtain ⟨rfl, hspace, hlimit⟩ := hdata data rfl
  have hadd : Size.add read t₁.taken.length = .ok (read + t₁.taken.length) :=
    Size.add_eq_ok_iff.mpr ⟨rfl, by omega⟩
  rw [hadd, exact_ok, pure_bind] at h₂
  by_cases hend : t₁.taken.length < c.pageSize ∧ read + t₁.taken.length < size
  · rw [if_pos hend] at h₂
    obtain ⟨_, u, hu, rfl⟩ := held_request_bind h₂
    obtain ⟨rfl, rfl⟩ := held_fail_iff.mp hu
    have hd : Drew t₁ c.pageSize size read
        (.error (.error (.io .unexpectedEof)) : Except (Failure ε) (Nat × List UInt8)) :=
      ⟨ho, ha, by simp, fun f hf => ⟨⟨_, (Except.error.inj hf).symm⟩, by omega⟩⟩
    exact hd.log (quiet_log rfl)
  · rw [if_neg hend] at h₂
    have hlen : t₁.taken.length = min c.pageSize (size - read) := by omega
    have hd : Drew t₁ c.pageSize size read
        (.ok (read + t₁.taken.length, Image.padded c.pageSize t₁.taken) :
          Except (Failure ε) (Nat × List UInt8)) :=
      ⟨ho, ha, fun x hx => ⟨hlen, (Except.ok.inj hx).symm⟩, by simp⟩
    by_cases hshort : t₁.taken.length < c.pageSize
    · have hsub : Size.sub c.pageSize t₁.taken.length =
          .ok (c.pageSize - t₁.taken.length) := Size.sub_eq_ok_iff.mpr ⟨rfl, by omega⟩
      simp only [if_pos hshort, hsub, exact_ok, pure_bind] at h₂
      obtain ⟨_, u, hu, rfl⟩ := held_request_bind h₂
      obtain ⟨rfl, rfl⟩ := held_pure_iff.mp hu
      exact hd.log (quiet_log rfl)
    · simp only [if_neg hshort] at h₂
      obtain ⟨rfl, rfl⟩ := held_pure_iff.mp h₂
      rw [List.append_nil]
      exact hd

/-! ## Writing all pages -/

theorem follows_tell {bad : Failure ε → Prop} (observed : Bool) (p : Progress) :
    (tell observed p : Link ε Unit).Follows [] (fun _ => True) bad := by
  unfold tell
  by_cases ho : observed = true
  · rw [if_pos ho]
    exact follows_request fun _ => Transcript.quiet_nil.cons rfl rfl rfl
  · rw [if_neg ho]
    exact follows_pure trivial

variable {o : Options} {c : Chip} {observed : Bool} {image : List UInt8}

/-- The bounds under which `left` pages from `page` on, with `read` bytes taken, are the rest of an
image of `size` bytes. -/
structure Remains (c : Chip) (size left page read : Nat) : Prop where
  pages : page + left ≤ c.pages
  read : 0 < left → read = page * c.pageSize
  short : 0 < left → (page + left - 1) * c.pageSize < size
  enough : size ≤ (page + left) * c.pageSize
  fits : size < UInt64.size

theorem Remains.read_le {size left page read : Nat} (h : Remains c size (left + 1) page read) :
    read = page * c.pageSize ∧ read < size := by
  have hr := h.read (Nat.succ_pos left)
  have hs := h.short (Nat.succ_pos left)
  have : page * c.pageSize ≤ (page + (left + 1) - 1) * c.pageSize :=
    Nat.mul_le_mul_right _ (by omega)
  omega

/-- A page is full unless it is the last one. -/
theorem Remains.next {size left page read : Nat} (h : Remains c size (left + 1) page read) :
    Remains c size left (page + 1) (read + min c.pageSize (size - read)) where
  pages := by
    have := h.pages
    omega
  read := by
    intro hl
    obtain ⟨hr, -⟩ := h.read_le
    have hs := h.short (Nat.succ_pos left)
    have : (page + 1) * c.pageSize ≤ (page + (left + 1) - 1) * c.pageSize :=
      Nat.mul_le_mul_right _ (by omega)
    rw [Nat.succ_mul] at this ⊢
    omega
  short := by
    intro hl
    have hs := h.short (Nat.succ_pos left)
    have e : page + 1 + left - 1 = page + (left + 1) - 1 := by omega
    rwa [e]
  enough := by
    have e : page + 1 + left = page + (left + 1) := by omega
    rw [e]
    exact h.enough
  fits := h.fits

/-- What is done from the bytes of a page on. -/
def proceed (o : Options) (c : Chip) (size : Nat) (observed : Bool) (left page read : Nat)
    (w : Workspace) (data : List UInt8) : Link ε Unit := do
  let w ← during (.page page) (write o c w page data)
  let done ← exact (Size.add page 1)
  tell observed (.advance done)
  writeAll o c size observed left (page + 1) read w

/-- A page with its bytes: it cannot be written, or it is followed by the pages that are left. -/
theorem held_proceed (hc : c.Sound) {size left page read : Nat} (hpage : page < c.pages)
    {data : List UInt8} (hd : data.length = c.pageSize) {t : Transcript ε}
    {r : Except (Failure ε) Unit}
    (h : Held (proceed o c size observed left page read (Workspace.ofPage c page) data) t r) :
    (t.Breaks (Script.page c page data) ∧ t.taken = [] ∧
        (t.effects = Script.page c page data → t.EndsInFlush) ∧
        ∃ f, r = .error f ∧ f.IsAt (.page page)) ∨
      ∃ s u, t = s ++ u ∧ s.Completes (Script.page c page data) ∧ s.taken = [] ∧
        Held (writeAll o c size observed left (page + 1) read (Workspace.ofPage c (page + 1))) u
          r := by
  have hw := (commits_write (ε := ε) (o := o) hc hpage hd).during_isAt
  have htell : (tell observed (.advance (page + 1)) : Link ε Unit).Follows [] (fun _ => True)
      (fun _ => False) := follows_tell observed _
  rcases held_bind_iff.mp h with ⟨f, h₁, rfl⟩ | ⟨w, s, t', h₁, h₂, rfl⟩
  · obtain ⟨b, none, hat⟩ := hw.breaks h₁
    exact Or.inl ⟨b, none, hw.late h₁, f, rfl, hat⟩
  obtain ⟨cs, ks, rfl⟩ := hw.completes h₁
  rw [hc.nextPage_eq hpage, exact_ok, pure_bind] at h₂
  rcases held_bind_iff.mp h₂ with ⟨f, h₃, -⟩ | ⟨_, v, u, h₃, h₄, rfl⟩
  · exact absurd (htell.breaks h₃).2.2 id
  obtain ⟨cv, kv, -⟩ := htell.completes h₃
  refine Or.inr ⟨s ++ v, u, (List.append_assoc s v u).symm, ?_, ?_, h₄⟩
  · have := cs.append cv
    rwa [List.append_nil] at this
  · rw [Transcript.taken_append, ks, kv, List.append_nil]

/-- One page of many: its bytes cannot be read, or it cannot be written, or it is followed by the
pages that are left. -/
theorem held_writeAll_succ (hc : c.Sound) {size left page read : Nat}
    (hrem : Remains c size (left + 1) page read) {t : Transcript ε}
    (ht : t.taken <+: image.drop (page * c.pageSize)) {r : Except (Failure ε) Unit}
    (h : Held (writeAll o c size observed (left + 1) page read (Workspace.ofPage c page)) t r) :
    let script := Script.page c page (Image.page c.pageSize (image.take size) page)
    (t.Completes [] ∧ t.taken.length < c.pageSize ∧ ∃ kind, r = .error (.error (.io kind))) ∨
      (t.Breaks script ∧ (t.effects = script → t.EndsInFlush) ∧
        ∃ f, r = .error f ∧ f.IsAt (.page page)) ∨
      ∃ s u, t = s ++ u ∧ s.Completes script ∧
        s.taken.length = min c.pageSize (size - read) ∧
        Held (writeAll o c size observed left (page + 1) (read + s.taken.length)
          (Workspace.ofPage c (page + 1))) u r := by
  intro script
  obtain ⟨hread, hlt⟩ := hrem.read_le
  have hpage : page < c.pages := by
    have := hrem.pages
    omega
  rcases held_bind_iff.mp h with ⟨f, h₁, rfl⟩ | ⟨⟨read', data⟩, s, t', h₁, h₂, rfl⟩
  · obtain ⟨ho, ha, -, hf⟩ := drew_next (Nat.le_of_lt hlt) hrem.fits h₁
    obtain ⟨⟨kind, rfl⟩, hl⟩ := hf f rfl
    exact Or.inl ⟨Transcript.completes_nil ho ha, by omega, kind, rfl⟩
  obtain ⟨ho, ha, hok, -⟩ := drew_next (Nat.le_of_lt hlt) hrem.fits h₁
  obtain ⟨hl, hx⟩ := hok _ rfl
  obtain ⟨rfl, rfl⟩ := Prod.mk.inj hx
  have cs := Transcript.completes_nil ho ha
  -- what was taken is a page of the image, so the bytes that are written are those of the script
  have hdata : Image.padded c.pageSize s.taken =
      Image.page c.pageSize (image.take size) page := by
    refine Image.page_of_taken ?_ (by rw [hl, hread])
    rw [Transcript.taken_append] at ht
    exact (List.prefix_append _ _).trans ht
  rw [hdata] at h₂
  rcases held_proceed hc hpage (Image.length_page _ _ _) h₂ with ⟨b, -, late, hf⟩ |
    ⟨v, u, rfl, cv, kv, hu⟩
  · refine Or.inr (Or.inl ⟨cs.breaks b, fun he => ?_, hf⟩)
    rw [Transcript.effects_append cs.boundary, cs.effects] at he
    exact (late he).append_left s
  · have hs : (s ++ v).taken = s.taken := by rw [Transcript.taken_append, kv, List.append_nil]
    refine Or.inr (Or.inr ⟨s ++ v, u, (List.append_assoc s v u).symm, cs.append cv, ?_, ?_⟩)
    · rw [hs, hl]
    · rw [hs]
      exact hu

end Page

namespace Script

/-- What brings `n` pages of an image, from `first` on, to flash. -/
def pages (c : Chip) (bytes : List UInt8) (first n : Nat) : List Command :=
  (List.range' first n).flatMap fun k => page c k (Image.page c.pageSize bytes k)

theorem pages_zero (c : Chip) (bytes : List UInt8) (first : Nat) : pages c bytes first 0 = [] := rfl

theorem pages_succ (c : Chip) (bytes : List UInt8) (first n : Nat) :
    pages c bytes first (n + 1) =
      page c first (Image.page c.pageSize bytes first) ++ pages c bytes (first + 1) n := by
  simp only [pages, List.range'_succ, List.flatMap_cons]

theorem pages_append (c : Chip) (bytes : List UInt8) (first m n : Nat) :
    pages c bytes first (m + n) = pages c bytes first m ++ pages c bytes (first + m) n := by
  rw [pages, pages, pages, ← List.range'_append_1, List.flatMap_append]

/-- The last page. -/
theorem pages_concat (c : Chip) (bytes : List UInt8) (n : Nat) :
    pages c bytes 0 (n + 1) = pages c bytes 0 n ++ page c n (Image.page c.pageSize bytes n) := by
  rw [pages_append, pages_succ, pages_zero, List.append_nil, Nat.zero_add]

/-- Whole pages and a part of the next one. -/
theorem pages_append_prefix {c : Chip} {bytes : List UInt8} {k n : Nat} (h : k < n)
    {part : List Command} (hp : part <+: page c k (Image.page c.pageSize bytes k)) :
    pages c bytes 0 k ++ part <+: pages c bytes 0 n := by
  obtain ⟨m, rfl⟩ : ∃ m, n = k + (m + 1) := ⟨n - k - 1, by omega⟩
  rw [pages_append, pages_succ, Nat.zero_add]
  exact (List.prefix_append_right_inj _).mpr (hp.trans (List.prefix_append _ _))

end Script

namespace Page

open Link

variable {o : Options} {c : Chip} {observed : Bool} {image : List UInt8}

/-- What is left of the image behind a page. -/
theorem taken_rest {size left page read : Nat} (hrem : Remains c size (left + 1) page read)
    {s u : Transcript ε} (ht : (s ++ u).taken <+: image.drop (page * c.pageSize))
    (hs : s.taken.length = min c.pageSize (size - read)) (hl : 0 < left) :
    s.taken.length = c.pageSize ∧ u.taken <+: image.drop ((page + 1) * c.pageSize) := by
  have hfull : s.taken.length = c.pageSize := by
    have h1 := hrem.next.read hl
    obtain ⟨h2, -⟩ := hrem.read_le
    rw [Nat.succ_mul] at h1
    omega
  refine ⟨hfull, ?_⟩
  rw [Transcript.taken_append] at ht
  obtain ⟨rest, hr⟩ := ht
  refine ⟨rest, ?_⟩
  rw [Nat.succ_mul, ← List.drop_drop, ← hr, ← hfull, List.append_assoc,
    List.drop_left]

/-- **Writing all pages** follows their script, and takes all bytes of the image. -/
theorem held_writeAll_ok (hc : c.Sound) {size left page read : Nat}
    (hrem : Remains c size left page read) {t : Transcript ε}
    (ht : 0 < left → t.taken <+: image.drop (page * c.pageSize))
    (h : Held (writeAll o c size observed left page read (Workspace.ofPage c page)) t (.ok ())) :
    t.Completes (Script.pages c (image.take size) page left) ∧
      (0 < left → t.taken.length = size - read) := by
  induction left generalizing page read t with
  | zero =>
    obtain ⟨rfl, -⟩ := held_pure_iff.mp h
    exact ⟨Transcript.quiet_nil.completes, by simp⟩
  | succ left ih =>
    have ht := ht (Nat.succ_pos left)
    rcases held_writeAll_succ hc hrem ht h with ⟨-, -, kind, hr⟩ | ⟨-, -, f, hr, -⟩ |
      ⟨s, u, rfl, hs, hl, hu⟩
    · exact absurd hr (by simp)
    · exact absurd hr (by simp)
    · have hnext : Remains c size left (page + 1) (read + s.taken.length) := by
        rw [hl]
        exact hrem.next
      obtain ⟨hc', hlen⟩ := ih hnext (fun hl' => (taken_rest hrem ht hl hl').2) hu
      rw [Script.pages_succ]
      refine ⟨hs.append hc', fun _ => ?_⟩
      rw [Transcript.taken_append, List.length_append]
      obtain ⟨hread, hlt⟩ := hrem.read_le
      -- only the last page may have fewer bytes than it has room for
      cases left with
      | zero =>
        obtain ⟨rfl, -⟩ := held_pure_iff.mp hu
        have henough := hrem.enough
        rw [Nat.zero_add, Nat.succ_mul] at henough
        rw [show Transcript.taken (ε := ε) [] = [] from rfl, List.length_nil]
        omega
      | succ left =>
        have := hlen (Nat.succ_pos left)
        have := hnext.read_le
        omega

/-- Writing the pages from `first` on stopped with `f`: `k` pages are written, and `part` of the
script of the next one is done. -/
structure Stops (c : Chip) (bytes : List UInt8) (first k : Nat) (part : List Command)
    (t : Transcript ε) (f : Failure ε) : Prop where
  effects : t.effects = Script.pages c bytes first k ++ part
  course : t.course Reader.start <+: t.operations
  cause : (part = [] ∧ (∃ kind, f = .error (.io kind)) ∧ t.taken.length / c.pageSize = k) ∨
    (part <+: Script.page c (first + k) (Image.page c.pageSize bytes (first + k)) ∧
      f.IsAt (.page (first + k)) ∧
      (part = Script.page c (first + k) (Image.page c.pageSize bytes (first + k)) →
        t.EndsInFlush))

/-- **If writing stops, it stops at one page**, which the failure tells. -/
theorem held_writeAll_error (hc : c.Sound) {size left page read : Nat}
    (hrem : Remains c size left page read) {t : Transcript ε} {f : Failure ε}
    (ht : 0 < left → t.taken <+: image.drop (page * c.pageSize))
    (h : Held (writeAll o c size observed left page read (Workspace.ofPage c page)) t
      (.error f)) :
    ∃ k part, k < left ∧ Stops c (image.take size) page k part t f := by
  induction left generalizing page read t with
  | zero => exact absurd (held_pure_iff.mp h).2 (by simp)
  | succ left ih =>
    have ht := ht (Nat.succ_pos left)
    rcases held_writeAll_succ hc hrem ht h with ⟨hs, hl, kind, hr⟩ | ⟨hs, hlate, g, hr, hat⟩ |
      ⟨s, u, rfl, hs, hl, hu⟩
    · obtain rfl := Except.error.inj hr
      exact ⟨0, [], Nat.succ_pos left, hs.effects, hs.toBreaks.course,
        Or.inl ⟨rfl, ⟨kind, rfl⟩, Nat.div_eq_of_lt hl⟩⟩
    · obtain rfl := Except.error.inj hr
      exact ⟨0, t.effects, Nat.succ_pos left, rfl, hs.course, Or.inr ⟨hs.effects, hat, hlate⟩⟩
    · have hrest (hl' : 0 < left) := taken_rest hrem ht hl hl'
      obtain ⟨k, part, hk, he, hco, cause⟩ := ih (by rw [hl]; exact hrem.next)
        (fun hl' => (hrest hl').2) hu
      have hfull := (hrest (by omega)).1
      have shift : page + (k + 1) = page + 1 + k := by omega
      refine ⟨k + 1, part, by omega, ?_, ?_, ?_⟩
      · rw [Script.pages_succ, Transcript.effects_append hs.boundary, hs.effects, he,
          List.append_assoc]
      · rw [Transcript.course_append, hs.boundary, hs.course, Transcript.operations_append]
        exact (List.prefix_append_right_inj _).mpr hco
      · rw [shift]
        rcases cause with ⟨hp, hio, hdiv⟩ | ⟨hp, hat, hlate⟩
        · refine Or.inl ⟨hp, hio, ?_⟩
          rw [Transcript.taken_append, List.length_append, hfull,
            Nat.add_div_left _ hc.pageSize_pos, hdiv]
        · exact Or.inr ⟨hp, hat, fun e => (hlate e).append_left s⟩

end Page

end SamFlash
