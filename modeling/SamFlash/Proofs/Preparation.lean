import SamFlash.Proofs.Interruption
import SamFlash.Proofs.PlannedCalls

/-!
# Runs of the applet

The applet copies whatever its parameters say, so they must be right at every branch (`Applet.run`),
also in a call that fails later. At the `k`-th branch of a program call the applet is in place, its
parameters are those of page `k`, every plane is in programming mode, and the staging buffer holds
the bytes of page `k` (`Target.Prepared`). The stack and the number of words are stored once, by
`Workspace.setUp`, and the two addresses and the entry before each branch, by `Page.write`; a branch
leaves all of them as they are.

The block of the next page is sent while the controller may still be busy with the page before, so
it goes to the other buffer: from a branch to the next ready round nothing is stored over the buffer
that the branch copies from (`BuffersKept`). A buffer is used again two pages later, and
`FlashController.awaitReady` comes in between, once in every page. This is carried along the plan of
the call, with the number of branches so far and whether the buffer of the last one is in use as the
mark (`Spare`).

The target at a branch is what the bytes up to the branch have made of it. They are a first part of
the script of the call that stops behind a branch. The blocks of the pages lie between the applet
and the stack.

Results:
* `Script.program_prefix_to_start`: a script that is cut behind a branch is cut behind the start of
  a page.
* `carries_kept`: a plan that waits between a branch and the next use of its buffer keeps it.
* **`Programmer.program_prepares_every_run`**: the two of them, for any program call.
-/

namespace SamFlash

variable {ε : Type}

/-! ## Branches in a script -/

/-- The code at an address is run. -/
def Command.branches : Command → Bool
  | go _ => true
  | _ => false

/-- What reaches beyond a list ends at its next element or beyond that one too. -/
theorem prefix_beyond {α : Type} {l m xs : List α} {x y : α} (h : xs ++ [x] <+: l ++ y :: m)
    (hx : x ∉ l) :
    (xs = l ∧ x = y) ∨ ∃ ys, xs = l ++ y :: ys ∧ ys ++ [x] <+: m := by
  obtain ⟨rest, h⟩ := h
  rw [List.append_assoc, List.singleton_append] at h
  rcases List.append_eq_append_iff.mp h with ⟨mid, rfl, hm⟩ | ⟨mid, rfl, hm⟩
  · cases mid with
    | nil =>
      obtain ⟨rfl, -⟩ := List.cons.inj hm
      exact Or.inl ⟨(List.append_nil xs).symm, rfl⟩
    | cons z mid =>
      obtain ⟨rfl, -⟩ := List.cons.inj hm
      exact absurd (List.mem_append_right xs List.mem_cons_self) hx
  · cases mid with
    | nil =>
      obtain ⟨rfl, -⟩ := List.cons.inj hm
      exact Or.inl ⟨List.append_nil l, rfl⟩
    | cons z mid =>
      obtain ⟨rfl, hrest⟩ := List.cons.inj hm
      refine Or.inr ⟨mid, rfl, rest, ?_⟩
      rw [List.append_assoc, List.singleton_append]
      exact hrest.symm

/-- What reaches beyond a list without it in it continues behind the list. -/
theorem prefix_behind {α : Type} {l m xs : List α} {x : α} (h : xs ++ [x] <+: l ++ m)
    (hx : x ∉ l) : ∃ ys, xs = l ++ ys ∧ ys ++ [x] <+: m := by
  induction l generalizing xs with
  | nil => exact ⟨xs, rfl, h⟩
  | cons y l ih =>
    rcases prefix_beyond (l := []) h List.not_mem_nil with ⟨rfl, rfl⟩ | ⟨ys, rfl, hys⟩
    · exact absurd List.mem_cons_self hx
    · obtain ⟨zs, rfl, hzs⟩ := ih hys fun hm => hx (List.mem_cons_of_mem y hm)
      exact ⟨zs, rfl, hzs⟩

namespace Script

variable {c : Chip} {bytes : List UInt8}

theorem not_branches_setUp {cmd : Command} (h : cmd ∈ setUp c) : cmd.branches = false := by
  rcases List.mem_append.mp h with h | h
  · simp only [List.mem_cons, List.not_mem_nil, or_false] at h
    rcases h with rfl | rfl | rfl <;> rfl
  · obtain ⟨plane, -, rfl⟩ := List.mem_map.mp h
    rfl

theorem not_branches_load {page : Nat} {data : List UInt8} {cmd : Command}
    (h : cmd ∈ load c page data) : cmd.branches = false := by
  simp only [load, List.mem_cons, List.not_mem_nil, or_false] at h
  rcases h with rfl | rfl | rfl | rfl <;> rfl

theorem not_branches_boot {fromFlash : Bool} {cmd : Command} (h : cmd ∈ boot c fromFlash) :
    cmd.branches = false := by
  rw [List.mem_singleton.mp h]
  rfl

/-- A page starts the applet once. -/
theorem countP_page (page : Nat) (data : List UInt8) :
    (Script.page c page data).countP Command.branches = 1 := rfl

theorem countP_pages (first n : Nat) :
    (pages c bytes first n).countP Command.branches = n := by
  induction n generalizing first with
  | zero => rfl
  | succ n ih =>
    rw [pages_succ, List.countP_append, countP_page, ih]
    omega

theorem countP_setUp : (setUp c).countP Command.branches = 0 :=
  List.countP_eq_zero.mpr fun cmd h => by simp [not_branches_setUp h]

/-- **Pages that are cut behind a branch** are cut behind the start of one of them. -/
theorem pages_prefix_to_start {tail : List Command} (ht : ∀ cmd ∈ tail, cmd.branches = false)
    {first n : Nat} {sent : List Command} {cmd : Command} (hcmd : cmd.branches = true)
    (h : sent ++ [cmd] <+: pages c bytes first n ++ tail) :
    ∃ k < n, cmd = start c ∧ sent = pages c bytes first k ++
      load c (first + k) (Image.page c.pageSize bytes (first + k)) := by
  induction n generalizing first sent with
  | zero =>
    have hmem : cmd ∈ pages c bytes first 0 ++ tail :=
      h.subset (List.mem_append_right sent List.mem_cons_self)
    rw [pages_zero, List.nil_append] at hmem
    exact absurd hcmd (by simp [ht cmd hmem])
  | succ n ih =>
    have hnot : cmd ∉ load c first (Image.page c.pageSize bytes first) := fun hm =>
      absurd hcmd (by simp [not_branches_load hm])
    rw [pages_succ, page, stage, List.append_assoc, List.append_assoc, List.append_assoc] at h
    rcases prefix_beyond h hnot with ⟨rfl, rfl⟩ | ⟨ys, rfl, hys⟩
    · exact ⟨0, Nat.succ_pos n, rfl, by rw [pages_zero, List.nil_append, Nat.add_zero]⟩
    · obtain ⟨zs, rfl, hzs⟩ := prefix_behind (l := [commit c first]) hys fun hm => by
        rw [List.mem_singleton.mp hm] at hcmd
        exact absurd hcmd (by simp [commit, Command.branches])
      obtain ⟨k, hk, rfl, rfl⟩ := ih hzs
      refine ⟨k + 1, by omega, rfl, ?_⟩
      rw [pages_succ, page, stage, show first + 1 + k = first + (k + 1) by omega]
      simp only [List.append_assoc, List.cons_append, List.nil_append]

/-- **A call that is cut behind a branch** is cut behind the start of a page. -/
theorem program_prefix_to_start {o : Options} {n : Nat} {sent : List Command} {cmd : Command}
    (hcmd : cmd.branches = true) (h : sent ++ [cmd] <+: program o c bytes n) :
    ∃ k < n, cmd = start c ∧ sent.countP Command.branches = k ∧
      sent = setUp c ++ (pages c bytes 0 k ++ load c k (Image.page c.pageSize bytes k)) := by
  have tail : ∀ cmd ∈ if o.keepBootSource then [] else boot c true, cmd.branches = false := by
    intro cmd hm
    by_cases hk : o.keepBootSource = true
    · rw [if_pos hk] at hm
      exact absurd hm List.not_mem_nil
    · rw [if_neg hk] at hm
      exact not_branches_boot hm
  have front : cmd ∉ setUp c := fun hm => absurd hcmd (by simp [not_branches_setUp hm])
  obtain ⟨rest, rfl, hrest⟩ := prefix_behind h front
  obtain ⟨k, hk, rfl, rfl⟩ := pages_prefix_to_start tail hcmd hrest
  rw [Nat.zero_add]
  refine ⟨k, hk, rfl, ?_, rfl⟩
  have loads : (load c k (Image.page c.pageSize bytes k)).countP Command.branches = 0 := rfl
  rw [List.countP_append, List.countP_append, countP_setUp, countP_pages, loads, Nat.zero_add,
    Nat.add_zero]

/-- Only the first command stores a block outside the staging buffers. -/
theorem program_blocks (hc : c.Sound) {o : Options} {n : Nat} {front back : List Command}
    {addr : Word} {data : List UInt8}
    (h : front ++ .writeBlock addr data :: back <+: program o c bytes n) :
    (front = [] ∧ addr = c.ramUserBase ∧ data = Applet.code) ∨
      (c.ramUserBase.toNat + Applet.code.length ≤ addr.toNat ∧
        addr.toNat + data.length ≤ c.ramStackTop.toNat) := by
  have staged {k : Nat} : c.ramUserBase.toNat + Applet.code.length ≤ (c.bufferAddress k).toNat ∧
      (c.bufferAddress k).toNat + c.pageSize ≤ c.ramStackTop.toNat := by
    have hfit := hc.ram_fits
    have hlen := Applet.code_length
    have hm : k % 2 * c.pageSize ≤ c.pageSize := by
      rcases Nat.mod_two_eq_zero_or_one k with e | e <;> simp [e]
    rw [hc.toNat_bufferAddress]
    omega
  cases front with
  | nil =>
    obtain ⟨rest, h⟩ := h
    obtain ⟨rfl, rfl⟩ := Command.writeBlock.inj (List.cons.inj h).1
    exact Or.inl ⟨rfl, rfl, rfl⟩
  | cons first front =>
    refine Or.inr ?_
    obtain ⟨rest, h⟩ := h
    have hmem : Command.writeBlock addr data ∈ (program o c bytes n).tail := by
      rw [← h]
      simp
    have hcases : Command.writeBlock addr data ∈ pages c bytes 0 n := by
      cases hk : o.keepBootSource <;> simpa [program, setUp, boot, hk] using hmem
    obtain ⟨k, -, hk⟩ := List.mem_flatMap.mp hcases
    simp only [page, stage, load, start, commit, List.cons_append, List.nil_append, List.mem_cons,
      List.not_mem_nil, or_false, reduceCtorEq, Command.writeBlock.injEq] at hk
    obtain ⟨rfl, rfl⟩ := hk
    rw [Image.length_page]
    exact staged

end Script

/-! ## A call sends a part of its script -/

/-- A call that has come to a branch has an image that fits. -/
theorem Halts.room_of_branches {o : Options} {c : Chip} {bytes : List UInt8} {n : Nat}
    {t : Transcript ε} {f : Failure ε} (h : Halts o c bytes n t f) {cmd : Command}
    (hm : cmd ∈ t.effects) (hcmd : cmd.branches = true) : n ≤ c.pages := by
  cases h with
  | early sent => exact absurd hcmd (by simp [Script.not_branches_setUp (sent.subset hm)])
  | page _ _ _ room => exact room
  | last _ _ room => exact room
  | boot _ _ room => exact room

namespace Programmer

open Link

variable {o : Options} {c : Chip} {size : Nat} {observed : Bool} {image : List UInt8}

/-- **However a program call goes**, what it sends is a first part of the script of the chip, which
has a branch only if the image fits; and the wire shows the first of what the host notes. -/
theorem sends_program {p q : Programmer} (hc : c ∈ Chip.all) (hp : p.MayKnow c)
    {t : Transcript ε} {r : Except (Failure ε) Unit} (hid : t.MayReport c)
    (ht : t.taken <+: image) (h : Held (program o size observed) p t r q) :
    t.effects <+: Script.program o c (image.take size) (c.pagesFor size) ∧
      (∀ cmd ∈ t.effects, cmd.branches = true → c.pagesFor size ≤ c.pages) ∧
      t.course Reader.start <+: t.operations := by
  have sound := Chip.sound_of_mem hc
  cases r with
  | error f =>
    obtain ⟨halts, course⟩ := halts_program hc hp hid ht h
    exact ⟨halts.prefix_program, fun _ => halts.room_of_branches, course⟩
  | ok _ =>
    by_cases hs : 0 < size ∧ size ≤ c.pages * c.pageSize
    · have done := (completes_program hc hp hs.1 hs.2 hid ht h).1
      have room := (remains_zero sound hs.2).pages
      rw [done.effects, done.course]
      exact ⟨List.prefix_rfl, fun _ _ _ => by omega, List.prefix_rfl⟩
    rcases held_program h with ⟨_, -, -, e, -⟩ | ⟨c', s, u, hf, hw, rfl, -⟩
    · exact absurd e (by simp)
    obtain ⟨rfl, cs, ks⟩ := finds_eq hc hp hid.of_append hf
    have done := cs.append ((follows_writing_nil sound (by omega)).completes hw).1
    rw [done.effects, done.course]
    exact ⟨List.nil_prefix, fun cmd hm => absurd hm List.not_mem_nil, List.prefix_rfl⟩

end Programmer

/-! ## Buffers in use -/

/-- The operation stores over the staging buffer of a page. -/
def Operation.Overwrites (c : Chip) (page : Nat) : Operation → Prop
  | read .. => False
  | write addr _ => addr.toNat < (c.bufferAddress page).toNat + c.pageSize ∧
      (c.bufferAddress page).toNat < addr.toNat + 4
  | store addr length => addr.toNat < (c.bufferAddress page).toNat + c.pageSize ∧
      (c.bufferAddress page).toNat < addr.toNat + length
  | branch _ => False

/-- The buffer of a page may still be copied from: its branch, counted from the first one, has come,
and no ready round behind it. -/
def InUse (c : Chip) (es : List Operation) (page : Nat) : Prop :=
  ∃ front addr behind, es = front ++ .branch addr :: behind ∧
    front.countP Operation.branches = page ∧
    ∀ xs round ys, behind = xs ++ (round ++ ys) → ¬ c.ReadyRound round

/-- No operation stores over a buffer that is in use. -/
def BuffersKept (c : Chip) (es : List Operation) : Prop :=
  Throughout (fun front op => ∀ page, InUse c front page → ¬ op.Overwrites c page) es

section Use

variable {c : Chip} {es ops : List Operation} {page : Nat}

/-- Behind operations that are no branches, the branch of a buffer in use is an earlier one. -/
theorem InUse.of_append (hops : ∀ op ∈ ops, ¬ op.branches) (h : InUse c (es ++ ops) page) :
    ∃ front addr behind, es = front ++ .branch addr :: behind ∧
      front.countP Operation.branches = page ∧
      ∀ xs round ys, behind ++ ops = xs ++ (round ++ ys) → ¬ c.ReadyRound round := by
  obtain ⟨front, addr, behind, he, hcount, hnone⟩ := h
  have late (mid : List Operation) : ops ≠ mid ++ .branch addr :: behind := by
    rintro rfl
    exact hops (.branch addr) (by simp) rfl
  rcases List.append_eq_append_iff.mp he with ⟨mid, -, hm⟩ | ⟨mid, rfl, hm⟩
  · exact absurd hm (late mid)
  · cases mid with
    | nil => exact absurd hm.symm (late [])
    | cons x mid =>
      obtain ⟨rfl, rfl⟩ := List.cons.inj hm
      exact ⟨front, addr, mid, rfl, hcount, hnone⟩

theorem InUse.of_unbranched (hops : ∀ op ∈ ops, ¬ op.branches) (h : InUse c (es ++ ops) page) :
    InUse c es page := by
  obtain ⟨front, addr, behind, he, hcount, hnone⟩ := h.of_append hops
  refine ⟨front, addr, behind, he, hcount, fun xs round ys hb => ?_⟩
  exact hnone xs round (ys ++ ops) (by rw [hb, List.append_assoc, List.append_assoc])

/-- Behind a ready round no buffer is in use. -/
theorem not_inUse_round {round : List Operation} (hr : c.ReadyRound round) :
    ¬ InUse c (es ++ round) page := by
  intro h
  obtain ⟨front, addr, behind, -, -, hnone⟩ :=
    h.of_append fun op hop => (hr.reads op hop).not_branches
  exact hnone behind round [] (by rw [List.append_nil]) hr

/-- A branch takes its buffer into use. -/
theorem InUse.of_branch {addr : Word} (h : InUse c (es ++ [.branch addr]) page) :
    page = es.countP Operation.branches ∨ InUse c es page := by
  obtain ⟨front, addr', behind, he, hcount, hnone⟩ := h
  rcases List.eq_nil_or_concat behind with rfl | ⟨behind, last, rfl⟩
  · obtain ⟨rfl, -⟩ := List.append_inj' he rfl
    exact Or.inl hcount.symm
  · rw [List.concat_eq_append, ← List.cons_append, ← List.append_assoc] at he
    refine Or.inr ⟨front, addr', behind, (List.append_inj' he rfl).1, hcount, ?_⟩
    intro xs round ys hb
    exact hnone xs round (ys ++ [last]) (by
      rw [List.concat_eq_append, hb, List.append_assoc, List.append_assoc])

/-- `k` branches have come and no buffer in use was stored over; the buffer of the last branch may
be in use, if `b` says so, and no other. -/
structure Kept (c : Chip) (k : Nat) (b : Bool) (es : List Operation) : Prop where
  branches : es.countP Operation.branches = k
  buffers : BuffersKept c es
  inUse : ∀ page, InUse c es page → b = true ∧ page + 1 = k

variable {k : Nat} {b : Bool}

theorem kept_nil (c : Chip) : Kept c 0 false [] where
  branches := rfl
  buffers := throughout_nil
  inUse := by
    rintro page ⟨front, addr, behind, he, -⟩
    exact absurd he (by simp)

theorem Kept.act (h : Kept c k b es) {op : Operation} (hb : ¬ op.branches)
    (hop : ∀ page, b = true → page + 1 = k → ¬ op.Overwrites c page) : Kept c k b (es ++ [op]) where
  branches := by rw [List.countP_append, List.countP_singleton, if_neg hb, h.branches, Nat.add_zero]
  buffers := h.buffers.concat fun page hp => hop page (h.inUse page hp).1 (h.inUse page hp).2
  inUse page hp := h.inUse page (hp.of_unbranched fun x hx => by rwa [List.mem_singleton.mp hx])

theorem Kept.branch (h : Kept c k false es) (addr : Word) :
    Kept c (k + 1) true (es ++ [.branch addr]) where
  branches := by
    rw [List.countP_append, h.branches]
    rfl
  buffers := h.buffers.concat fun _ _ => id
  inUse page hp := by
    rcases hp.of_branch with hp | hp
    · exact ⟨rfl, by rw [hp, h.branches]⟩
    · exact absurd (h.inUse page hp).1 (by simp)

end Use

/-! ## Plans that keep the buffers -/

/-- Where an operation may stand, with the number of branches before it and whether the buffer of
the last one is in use, and what these are behind it. -/
inductive Spare (c : Chip) : Nat × Bool → Operation → Nat × Bool → Prop
  | act {k : Nat} {b : Bool} {op : Operation} (hb : ¬ op.branches)
      (hop : ∀ page, b = true → page + 1 = k → ¬ op.Overwrites c page) : Spare c (k, b) op (k, b)
  | branch {k : Nat} {addr : Word} : Spare c (k, false) (.branch addr) (k + 1, true)

/-- From `k` branches, of which the last one's buffer is in use if `b` says so, the plan keeps the
buffers and comes to `k'` branches and `b'`. -/
abbrev Keeping (c : Chip) (k : Nat) (b : Bool) (p : List Step) (k' : Nat) (b' : Bool) : Prop :=
  Step.Leads (Spare c) (fun i => (i.1, false)) (k, b) p (k', b')

/-- **Every step of a plan that keeps the buffers** keeps them. -/
theorem carries_kept (c : Chip) :
    Step.Carries c (Spare c) (fun i => (i.1, false)) (fun i => Kept c i.1 i.2) where
  read hop h := by
    refine h.act hop.not_branches fun _ _ _ => ?_
    obtain ⟨addr, value, rfl⟩ := hop
    exact id
  ready hr h := ⟨h.branches, h.buffers, fun _ hp => absurd hp (not_inUse_round hr)⟩
  act ha h := by
    cases ha with
    | act hb hop => exact h.act hb hop
    | branch => exact h.branch _

/-- Reads at the beginning of a call keep the buffers. -/
theorem kept_reads {c : Chip} {es : List Operation} (h : ∀ op ∈ es, op.IsRead) :
    Kept c 0 false es := by
  have start : Kept c (0, false).1 (0, false).2 [] := kept_nil c
  exact (carries_kept c).reads h start

section Plans

variable {c : Chip} {k k' : Nat} {b b' : Bool} {p : List Step}

/-- A parameter of the applet lies below the buffers. -/
theorem Keeping.slot (hc : c.Sound) {offset : Word} (ho : offset.toNat ≤ 0x30) (value : Word)
    (rest : Keeping c k b p k' b') :
    Keeping c k b (.act (.write (c.slotAddress offset) value) :: p) k' b' := by
  refine .act (.act (by simp [Operation.branches]) fun page _ _ => ?_) rest
  rintro ⟨-, h⟩
  rw [hc.toNat_bufferAddress, hc.toNat_slotAddress (by omega)] at h
  omega

/-- The registers of the controllers lie above the buffers. -/
theorem Keeping.register (hc : c.Sound) {plane : Nat} (hplane : plane < c.planes) {offset : Word}
    (ho : offset.toNat < 0x200) (value : Word) (rest : Keeping c k b p k' b') :
    Keeping c k b (.act (.write (c.registerAddress plane offset) value) :: p) k' b' := by
  refine .act (.act (by simp [Operation.branches]) fun page _ _ => ?_) rest
  rintro ⟨h, -⟩
  have hlow := hc.ram_low
  have hm : page % 2 * c.pageSize ≤ c.pageSize := by
    rcases Nat.mod_two_eq_zero_or_one page with e | e <;> simp [e]
  rw [hc.toNat_bufferAddress, hc.toNat_registerAddress hplane ho] at h
  omega

/-- The block of a page goes to the buffer that the page before does not use. -/
theorem Keeping.block (hc : c.Sound) (rest : Keeping c k b p k' b') :
    Keeping c k b (.act (.store (c.bufferAddress k) c.pageSize) :: p) k' b' := by
  refine .act (.act (by simp [Operation.branches]) fun page _ hk => ?_) rest
  rintro ⟨h, h'⟩
  subst hk
  rw [hc.toNat_bufferAddress, hc.toNat_bufferAddress] at h h'
  -- two pages in a row have different buffers, one of which lies behind the other
  rcases Nat.mod_two_eq_zero_or_one page with e | e
  · rw [e, show (page + 1) % 2 = 1 by omega] at h
    omega
  · rw [e, show (page + 1) % 2 = 0 by omega] at h'
    omega

namespace Plan

theorem keeping_setUp (hc : c.Sound) : Keeping c 0 false (setUp c) 0 false := by
  have modes (n first : Nat) (hn : first + n ≤ c.planes) : Keeping c 0 false
      ((List.range' first n).map fun plane => .act (.write
        (c.registerAddress plane FlashController.modeOffset) FlashController.programmingMode))
      0 false := by
    induction n generalizing first with
    | zero => exact .nil
    | succ n ih =>
      rw [List.range'_succ, List.map_cons]
      exact .register hc (by omega) (by decide) _ (ih (first + 1) (by omega))
  refine .act (.act (by simp [Operation.branches]) (by simp)) ?_
  exact Keeping.slot hc (by decide) _ (.slot hc (by decide) _ (modes _ 0 (by omega)))

/-- **The plan of a page** waits for the page before it only behind its own block. -/
theorem keeping_page (hc : c.Sound) (hk : k < c.pages) (b : Bool) :
    Keeping c k b (page c k) (k + 1) true :=
  .block hc (.slot hc (by decide) _ (.slot hc (by decide) _ (.wait
    (Keeping.slot hc (by decide) _ (.act .branch
      (Keeping.register hc (hc.planeOf_lt hk) (by decide) _ .nil))))))

theorem keeping_pages (hc : c.Sound) {first n : Nat} (hn : first + n ≤ c.pages) (b : Bool) :
    ∃ b', Keeping c first b (pages c first n) (first + n) b' := by
  induction n generalizing first b with
  | zero => exact ⟨b, .nil⟩
  | succ n ih =>
    obtain ⟨b', h⟩ := ih (show first + 1 + n ≤ c.pages by omega) true
    rw [pages_succ, show first + (n + 1) = first + 1 + n by omega]
    exact ⟨b', (keeping_page hc (by omega) b).append h⟩

/-- **The plan of a program call** keeps the buffers. -/
theorem keeping_program (hc : c.Sound) (o : Options) {n : Nat} (hn : n ≤ c.pages) :
    Keeping c 0 false (program o c n) n false := by
  obtain ⟨b, h⟩ := keeping_pages hc (show 0 + n ≤ c.pages by omega) false
  rw [Nat.zero_add] at h
  refine (keeping_setUp hc).append (h.append ?_)
  by_cases hk : o.keepBootSource = true
  · rw [if_pos hk]
    exact .wait .nil
  · rw [if_neg hk]
    exact .wait (Keeping.register hc hc.planes_pos (by decide) _ (.wait .nil))

end Plan

end Plans

/-! ## The theorem -/

/-- When `bs` has been taken, a branch to `addr` is the `k`-th one and finds everything in place for
page `k` of `n` pages. -/
structure Target.Prepared (target : Target) (bytes : List UInt8) (n : Nat) (bs : List UInt8)
    (addr : Word) (k : Nat) : Prop where
  count : (Reader.start.feedAll bs).2.countP Command.branches = k
  lt : k < n
  entry : addr = target.chip.slotAddress Applet.stackOffset
  /-- The applet, its parameters and the buffer. -/
  staged : Staged target.chip k (Image.page target.chip.pageSize bytes k)
    (target.takeAll bs).ram (target.takeAll bs).mode
  /-- The mode of every plane was set by what was taken. -/
  modes : ∀ plane < target.chip.planes,
    .writeWord (target.chip.registerAddress plane FlashController.modeOffset)
      FlashController.programmingMode ∈ (Reader.start.feedAll bs).2

/-- **A branch finds everything in place**, in a stream that spells a first part of the script. -/
theorem Target.prepared_of_prefix {target : Target} {o : Options} {bytes bs rest : List UInt8}
    {n : Nat} {b : UInt8} {addr : Word} (hc : target.chip.Sound)
    (hr : target.reader = Reader.start)
    (hb : ((Reader.start.feedAll bs).1.feed b).2 = some (.go addr))
    (hs : (Reader.start.feedAll (bs ++ b :: rest)).2.filter Command.changes <+:
      Script.program o target.chip bytes n)
    (hn : n ≤ target.chip.pages) : ∃ k, target.Prepared bytes n bs addr k := by
  have hsent : (Reader.start.feedAll bs).2.filter Command.changes ++ [.go addr] <+:
      Script.program o target.chip bytes n := by
    refine List.IsPrefix.trans ?_ hs
    rw [Reader.feedAll_append, Reader.feedAll_cons, hb, List.filter_append, Option.toList_some,
      List.singleton_append,
      List.filter_cons_of_pos (show (Command.go addr).changes = true from rfl)]
    exact ⟨_, by rw [List.append_assoc, List.singleton_append]⟩
  obtain ⟨k, hk, hstart, hcount, hload⟩ := Script.program_prefix_to_start rfl hsent
  rw [List.countP_filter] at hcount
  have counts : (Reader.start.feedAll bs).2.countP Command.branches = k := by
    rw [← hcount]
    congr 1
    funext cmd
    cases cmd <;> rfl
  have reached := reached_pages hc rfl bytes (show k ≤ target.chip.pages by omega)
  obtain ⟨ram, hram, staged⟩ := staged_load hc reached.chip k
    (Image.length_page target.chip.pageSize bytes k) reached.toEquipped
  have state : target.takeAll bs =
      { target.obeyAll (Script.setUp target.chip ++ Script.pages target.chip bytes 0 k) with
        ram := ram, reader := (Reader.start.feedAll bs).1 } := by
    rw [takeAll_eq, hr, ← obeyAll_filter, hload, ← List.append_assoc, obeyAll_append, hram]
  refine ⟨k, counts, hk, Command.go.inj hstart, ?_, fun plane hp => ?_⟩
  · rw [state]
    exact staged
  · have hmem : .writeWord (target.chip.registerAddress plane FlashController.modeOffset)
        FlashController.programmingMode ∈ (Reader.start.feedAll bs).2.filter Command.changes := by
      rw [hload, Script.setUp]
      refine List.mem_append_left _ (List.mem_append_right _ (List.mem_map.mpr ⟨plane, ?_, rfl⟩))
      rw [List.mem_range'_1]
      omega
    exact (List.mem_filter.mp hmem).1

namespace Programmer

variable {o : Options} {c : Chip} {size : Nat} {observed : Bool}

/-- **However a program call goes**, it keeps the buffers. -/
theorem buffersKept_program {p q : Programmer} (hc : c ∈ Chip.all) (hp : p.MayKnow c)
    {t : Transcript ε} {r : Except (Failure ε) Unit} (hid : t.MayReport c)
    (h : Held (program o size observed) p t r q) : BuffersKept c t.operations := by
  have sound := Chip.sound_of_mem hc
  rcases held_program h with ⟨f, -, hf, -, -⟩ | ⟨c', s, u, hf, hw, rfl, -⟩
  · exact (kept_reads (reads_findChip hf)).buffers
  obtain ⟨rfl, cs, -⟩ := finds_eq hc hp hid.of_append hf
  have found : Kept c' 0 false s.operations := by
    rcases hf with ⟨-, rfl⟩ | ⟨-, hf⟩
    · exact kept_nil c'
    · exact kept_reads (reads_findChip hf)
  rw [Transcript.operations_append]
  -- a call on an image that is empty or too large has no plan, but it notes nothing either
  by_cases hs : 0 < size ∧ size ≤ c'.pages * c'.pageSize
  · have room := (remains_zero sound hs.2).pages
    have keeping := Plan.keeping_program sound o (n := c'.pagesFor size) (by omega)
    have starts : Step.Starts c' (Plan.program o c' (c'.pagesFor size)) u.operations := by
      cases r with
      | ok a => exact ((plans_writing sound hs.1 hs.2).runs hw).1.starts
      | error f => exact (plans_writing sound hs.1 hs.2).starts hw
    obtain ⟨_, kept⟩ := (carries_kept c').starts keeping starts found
    exact kept.buffers
  · rw [(held_writing_nil sound (by omega) hw).1, List.append_nil]
    exact found.buffers

/-- **Every run of the applet is prepared**, however a program call goes. At every branch that the
port takes, with `k` branches before it, the applet is in place, its parameters are those of page
`k` and so is its staging buffer, and the call has set the mode of every plane. From a branch to the
next ready round nothing is stored over the buffer of that branch, neither as the host goes about it
nor as it is done on the wire. Blocks go to the staging buffers, which lie between the applet and
the stack; only the very first one is the applet itself. -/
theorem program_prepares_every_run {p q : Programmer} {target : Target} {image : List UInt8}
    {t : Transcript ε} {r : Except (Failure ε) Unit} (hc : target.chip ∈ Chip.all)
    (hr : target.reader = Reader.start) (hp : p.MayKnow target.chip)
    (hid : t.MayReport target.chip) (hi : t.taken <+: image)
    (h : Held (program o size observed) p t r q) :
    (∀ bs b rest addr, t.accepted = bs ++ b :: rest →
      ((Reader.start.feedAll bs).1.feed b).2 = some (.go addr) →
        ∃ k, target.Prepared (image.take size) (target.chip.pagesFor size) bs addr k) ∧
      BuffersKept target.chip t.operations ∧
      BuffersKept target.chip (t.course Reader.start) ∧
      ∀ front addr data back, t.effects = front ++ .writeBlock addr data :: back →
        (front = [] ∧ addr = target.chip.ramUserBase ∧ data = Applet.code) ∨
          (target.chip.ramUserBase.toNat + Applet.code.length ≤ addr.toNat ∧
            addr.toNat + data.length ≤ target.chip.ramStackTop.toNat) := by
  have sound := Chip.sound_of_mem hc
  obtain ⟨script, room, course⟩ := sends_program hc hp hid hi h
  have kept := buffersKept_program hc hp hid h
  refine ⟨fun bs b rest addr ha hb => ?_, kept, kept.of_prefix course, ?_⟩
  · rw [Transcript.effects, Transcript.commands, ha] at script room
    refine Target.prepared_of_prefix sound hr hb script (room (.go addr) ?_ rfl)
    rw [Reader.feedAll_append, Reader.feedAll_cons, hb]
    simp [Command.changes]
  · intro front addr data back he
    exact Script.program_blocks sound (he ▸ script)

/-- What the port takes of the call with the short image, up to the byte that starts the applet. -/
def untilRun : List UInt8 := shortExchanges.accepted.take 538

set_option maxRecDepth 100000 in
theorem accepted_untilRun :
    shortExchanges.accepted = untilRun ++ 0x23 :: shortExchanges.accepted.drop 539 := by
  cbv

set_option maxRecDepth 100000 in
theorem feed_untilRun : ((Reader.start.feedAll untilRun).1.feed 0x23).2 =
    some (.go (Bench.part.slotAddress Applet.stackOffset)) := by
  cbv

set_option maxRecDepth 100000 in
theorem branches_untilRun : (Reader.start.feedAll untilRun).2.countP Command.branches = 0 := by
  cbv

/-- The one run in a call that fails at its second page was prepared. -/
theorem program_prepares_every_run_short :
    (Target.fresh Bench.part).Prepared (onePage.take 257) 2 untilRun
      (Bench.part.slotAddress Applet.stackOffset) 0 := by
  obtain ⟨prepared, -⟩ := program_prepares_every_run
    (show (Target.fresh Bench.part).chip ∈ Chip.all by decide)
    (show (Target.fresh Bench.part).reader = Reader.start from rfl) (Or.inl rfl)
    shortExchanges_mayReport
    (Bench.taken_device _ shortCall (Bench.fresh onePage) : shortExchanges.taken <+: onePage)
    (Dialogue.Held.of_run (Bench.steady Bench.part) shortCall (Bench.fresh onePage))
  obtain ⟨k, run⟩ := prepared untilRun 0x23 _ _ accepted_untilRun feed_untilRun
  obtain rfl : k = 0 := run.count.symm.trans branches_untilRun
  exact run

end Programmer

end SamFlash
