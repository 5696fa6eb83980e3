import SamFlash.Proofs.Observation
import SamFlash.Proofs.PlannedCalls
import SamFlash.Proofs.Replay

/-!
# Images that are too short

An image may turn out to have fewer bytes than its size promised, or it may break off because its
source fails. Either way the bytes up to there are of no use as a program, and what matters is that
the call does not pass for complete. This is about a target that is not to blame: the port and the
monitor work, and the flash controllers cooperate (`Bench.Attends`).

A short page by itself tells nothing, since the last page of an image may be short. `Page.next`
tells it from an image that ends early by the number of bytes that have been taken so far; the end
is seen where a page is read, so every page before it has been written, and nothing of this one. An
end in the middle of a page and one right behind a page come to the same, but for the bytes that
were taken and are dropped.

What has been done by then is `CutOff`: the commands are those of the setup and of the whole pages,
in full, with one block for each of them and one for the applet; the words for the command registers
erase and write these pages, and none of them touches the boot flag; and the observer has not been
told that the call is done. The error is that of the source, or that the file ended
(`Ending.cause`), without a stage, and the session has failed.

Results:
* `Link.Plans.attended`: an operation with a plan succeeds, and leaves the rest to what follows.
* `Page.draws_full`, `Page.draws_end`: a page that is there in full, and the end.
* `Page.runs_dry`: all pages up to the end.
* `Script.orders_pages`, `Script.blocks_pages`: what is sent for whole pages.
* **`Programmer.short_image_is_never_completed`**: a program call.
-/

namespace SamFlash

variable {ε α β : Type} {o : Options} {c : Chip}

/-- How a call fails that sees the image end early. -/
def Ending.cause : Ending → IoKind
  | empty => .unexpectedEof
  | broken kind => kind

/-- What a source may hand out, it may hand out a first part of. -/
theorem Source.Gives.of_append {src : Source} {xs ys : List (Except IoKind (List UInt8))}
    (h : src.Gives (xs ++ ys)) : src.Gives xs := by
  induction xs generalizing src with
  | nil => cases src <;> trivial
  | cons x xs ih =>
    cases src with
    | spent => trivial
    | ahead bytes ending =>
      rcases h with ⟨data, rest, hx, some, whole, later⟩ | atEnd
      · exact Or.inl ⟨data, rest, hx, some, whole, ih later⟩
      · exact Or.inr atEnd

/-! ## A target that is not to blame -/

/-- The exchanges are with a bench that works and whose flash controllers cooperate, where the
image comes from a source that has `src` to give. -/
structure Bench.Attends (o : Options) (c : Chip) (src : Source) (b : Bench) (t : Transcript ε)
    (b' : Bench) : Prop where
  idle : b.Idle
  serves : b.Serves o t.outward b'
  cooperates : Cooperates o c t.operations
  gives : src.Gives t.deliveries

namespace Bench.Attends

variable {src : Source} {b b' : Bench} {s t : Transcript ε}

/-- Exchanges that are not about the image, and what follows them. -/
theorem of_append (h : b.Attends o c src (s ++ t) b') (unread : s.Unread) :
    ∃ mid, b.Serves o s mid ∧ Cooperates o c s.operations ∧
      (mid.Idle → mid.Attends o c src t b') := by
  obtain ⟨idle, serves, cooperates, gives⟩ := h
  rw [Transcript.outward_append, unread.outward_eq] at serves
  obtain ⟨mid, first, later⟩ := Bench.serves_append_iff.mp serves
  rw [Transcript.operations_append] at cooperates
  rw [Transcript.deliveries_append, unread.deliveries_eq, List.nil_append] at gives
  exact ⟨mid, first, cooperates.of_append.1,
    fun hmid => ⟨hmid, later, cooperates.of_append.2, gives⟩⟩

/-- A first part of the exchanges. -/
theorem front (h : b.Attends o c src (s ++ t) b') : ∃ mid, b.Attends o c src s mid := by
  obtain ⟨idle, serves, cooperates, gives⟩ := h
  rw [Transcript.outward_append] at serves
  obtain ⟨mid, first, -⟩ := Bench.serves_append_iff.mp serves
  rw [Transcript.operations_append] at cooperates
  rw [Transcript.deliveries_append] at gives
  exact ⟨mid, idle, first, cooperates.of_append.1, gives.of_append⟩

end Bench.Attends

/-- A device that answers everything at once is a bench that works. -/
theorem Bench.serves_of_answers {words : Word → Word} {b b' : Bench} {t : Transcript ε}
    (h : (device words).Answers b t b') : b.Serves o t b' := by
  induction t generalizing b with
  | nil => exact h
  | cons x t ih =>
    obtain ⟨q, a⟩ := x
    have given : a = ((device words).answer q b).1 := h.1
    subst given
    exact ⟨_, takes_device words q b, ih h.2⟩

namespace Link

variable {x : Link ε α} {f : α → Link ε β} {plan : List Step} {value : α → Prop} {src : Source}
  {b b' : Bench} {t : Transcript ε} {r : Except (Failure ε) β}

/-- **An operation with a plan** that leaves the image alone succeeds, and what follows it has the
same source. -/
theorem Plans.attended (hx : Plans o c 0 x plan value)
    (unread : ∀ {t r}, Held x t r → t.Unread) (ha : b.Attends o c src t b')
    (h : Held (x >>= f) t r) :
    ∃ a s u, ∃ mid : Bench, t = s ++ u ∧ Held x s (.ok a) ∧ value a ∧ Held (f a) u r ∧
      mid.Attends o c src u b' := by
  have succeeds {s u : Transcript ε} {r : Except (Failure ε) α} (hs : Held x s r)
      (ha : b.Attends o c src (s ++ u) b') :
      (∃ a, r = .ok a) ∧ ∃ mid : Bench, mid.Attends o c src u b' := by
    obtain ⟨mid, first, cooperates, rest⟩ := ha.of_append (unread hs)
    obtain ⟨ok, idle, -⟩ := hx.thrives hs first ha.idle (Nat.zero_le _) cooperates
    exact ⟨ok, mid, rest idle⟩
  rcases held_bind_iff.mp h with ⟨g, h₁, -⟩ | ⟨a, s, u, h₁, h₂, rfl⟩
  · obtain ⟨⟨_, ok⟩, -⟩ := succeeds (u := []) h₁ (by rwa [List.append_nil])
    exact absurd ok (by simp)
  · obtain ⟨-, mid, rest⟩ := succeeds h₁ ha
    exact ⟨a, s, u, mid, rfl, h₁, (hx.runs h₁).2, h₂, rest⟩

end Link

open Link

/-! ## Reading -/

/-- A page that is there in full is not filled up. -/
theorem Image.page_of_full {pageSize k : Nat} {bytes : List UInt8}
    (h : (k + 1) * pageSize ≤ bytes.length) :
    Image.page pageSize bytes k = (bytes.drop (k * pageSize)).take pageSize := by
  have full : ((bytes.drop (k * pageSize)).take pageSize).length = pageSize := by
    rw [Nat.succ_mul] at h
    rw [List.length_take, List.length_drop]
    omega
  have same := Image.padded_of_full ((bytes.drop (k * pageSize)).take pageSize)
  rwa [full] at same

namespace Page

variable {bytes : List UInt8} {ending : Ending} {observed : Bool} {size left page read : Nat}
  {b b' : Bench} {t : Transcript ε}

/-- A page that is there in full is taken, also of an image with fewer bytes than it should have. -/
theorem draws_full {later : List (Except IoKind (List UInt8))}
    {r : Except (Failure ε) (Nat × List UInt8)} (short : read + bytes.length < size)
    (fits : size < UInt64.size) (enough : c.pageSize ≤ bytes.length)
    (hg : (Source.ahead bytes (some ending)).Gives (t.deliveries ++ later))
    (h : Held (next c size page read) t r) :
    t.taken = bytes.take c.pageSize ∧ t.outward = [] ∧
      r = .ok (read + c.pageSize, bytes.take c.pageSize) ∧
      (Source.ahead (bytes.drop c.pageSize) (some ending)).Gives later := by
  have want : min c.pageSize (size - read) = c.pageSize := by omega
  have reads {s : Transcript ε} {r : Except (Failure ε) (List UInt8)}
      {behind : List (Except IoKind (List UInt8))}
      (hs : Held (Image.read c.pageSize (size - read)) s r)
      (hg : (Source.ahead bytes (some ending)).Gives (s.deliveries ++ behind)) :
      s.outward = [] ∧ s.taken = bytes.take c.pageSize ∧ r = .ok (bytes.take c.pageSize) ∧
        (Source.ahead (bytes.drop c.pageSize) (some ending)).Gives behind := by
    have drawn := (Image.reading_of_held hs).draws (by omega) (by simp) hg
    simp only [want, Source.draw, if_pos enough] at drawn
    exact drawn
  rcases held_bind_iff.mp h with ⟨f, h₁, -⟩ | ⟨data, s, u, h₁, h₂, rfl⟩
  · exact absurd (reads h₁ hg).2.2.1 (by simp)
  rw [Transcript.deliveries_append, List.append_assoc] at hg
  obtain ⟨outward, taken, ok, left⟩ := reads h₁ hg
  obtain rfl := Except.ok.inj ok
  have full : (bytes.take c.pageSize).length = c.pageSize := by
    rw [List.length_take]
    omega
  have sum : Size.add read c.pageSize = .ok (read + c.pageSize) :=
    Size.add_eq_ok_iff.mpr ⟨rfl, by omega⟩
  have unpadded := Image.padded_of_full (bytes.take c.pageSize)
  simp only [full, sum, exact_ok, pure_bind, Nat.lt_irrefl, false_and, if_false] at h₂ unpadded
  obtain ⟨rfl, rfl⟩ := held_pure_iff.mp h₂
  rw [unpadded, List.append_nil]
  exact ⟨taken, outward, rfl, left⟩

/-- **The end of an image** that should have more bytes fails, whether it shows as no more bytes or
as a failure of the source. -/
theorem draws_end {later : List (Except IoKind (List UInt8))}
    {r : Except (Failure ε) (Nat × List UInt8)} (short : read + bytes.length < size)
    (fits : size < UInt64.size) (few : bytes.length < c.pageSize)
    (hg : (Source.ahead bytes (some ending)).Gives (t.deliveries ++ later))
    (h : Held (next c size page read) t r) :
    t.taken = bytes ∧ r = .error (.error (.io ending.cause)) := by
  have less : bytes.length < min c.pageSize (size - read) := by omega
  have reads {s : Transcript ε} {r : Except (Failure ε) (List UInt8)}
      {behind : List (Except IoKind (List UInt8))}
      (hs : Held (Image.read c.pageSize (size - read)) s r)
      (hg : (Source.ahead bytes (some ending)).Gives (s.deliveries ++ behind)) :
      s.taken = bytes ∧
        ((ending = .empty ∧ r = .ok bytes) ∨ r = .error (.error (.io ending.cause))) := by
    obtain ⟨-, taken, hr, -⟩ := (Image.reading_of_held hs).draws (by omega) (by simp) hg
    rw [List.take_of_length_le (Nat.le_of_lt less)] at taken
    simp only [Source.draw, if_neg (Nat.not_le.mpr less)] at hr
    cases ending with
    | empty => exact ⟨taken, Or.inl ⟨rfl, hr⟩⟩
    | broken kind => exact ⟨taken, Or.inr hr⟩
  rcases held_bind_iff.mp h with ⟨f, h₁, rfl⟩ | ⟨data, s, u, h₁, h₂, rfl⟩
  · obtain ⟨taken, ⟨-, ok⟩ | failed⟩ := reads h₁ hg
    · exact absurd ok (by simp)
    · exact ⟨taken, congrArg Except.error (Except.error.inj failed)⟩
  · rw [Transcript.deliveries_append, List.append_assoc] at hg
    obtain ⟨taken, ⟨rfl, ok⟩ | failed⟩ := reads h₁ hg
    · obtain rfl := Except.ok.inj ok
      have sum : Size.add read data.length = .ok (read + data.length) :=
        Size.add_eq_ok_iff.mpr ⟨rfl, by omega⟩
      rw [sum, exact_ok, pure_bind, if_pos ⟨few, short⟩] at h₂
      obtain ⟨_, v, hv, rfl⟩ := held_request_bind h₂
      obtain ⟨rfl, rfl⟩ := held_fail_iff.mp hv
      refine ⟨?_, rfl⟩
      rw [Transcript.taken_append, taken]
      exact List.append_nil data
    · exact absurd failed (by simp)

/-- **A page of an image that is too short**: if it is there in full it is followed by what is done
with it; otherwise it ends the call, and nothing of it is sent. -/
theorem attended_next {rest : List UInt8} {f : Nat × List UInt8 → Link ε Unit}
    {r : Except (Failure ε) Unit} (short : read + rest.length < size) (fits : size < UInt64.size)
    (ha : b.Attends o c (.ahead rest (some ending)) t b')
    (h : Held (next c size page read >>= f) t r) :
    (rest.length < c.pageSize ∧ r = .error (.error (.io ending.cause)) ∧ t.Completes [] ∧
        t.taken = rest ∧ t.progress = []) ∨
      (c.pageSize ≤ rest.length ∧ ∃ s u, t = s ++ u ∧ s.Completes [] ∧
        s.taken = rest.take c.pageSize ∧ s.progress = [] ∧
        b.Attends o c (.ahead (rest.drop c.pageSize) (some ending)) u b' ∧
        Held (f (read + c.pageSize, rest.take c.pageSize)) u r) := by
  obtain ⟨idle, serves, cooperates, gives⟩ := ha
  have sends {s : Transcript ε} {r : Except (Failure ε) (Nat × List UInt8)}
      (hs : Held (next c size page read) s r) : s.Completes [] := by
    obtain ⟨ho, ha, -, -⟩ := drew_next (show read ≤ size by omega) fits hs
    exact Transcript.completes_nil ho ha
  rcases Nat.lt_or_ge rest.length c.pageSize with few | enough
  · rcases held_bind_iff.mp h with ⟨g, h₁, rfl⟩ | ⟨x, s, u, h₁, -, rfl⟩
    · rw [← List.append_nil t.deliveries] at gives
      obtain ⟨taken, failed⟩ := draws_end short fits few gives h₁
      obtain rfl := Except.error.inj failed
      exact Or.inl ⟨few, rfl, sends h₁, taken, untold_next h₁⟩
    · rw [Transcript.deliveries_append] at gives
      exact absurd (draws_end short fits few gives h₁).2 (by simp)
  · rcases held_bind_iff.mp h with ⟨g, h₁, -⟩ | ⟨x, s, u, h₁, h₂, rfl⟩
    · rw [← List.append_nil t.deliveries] at gives
      exact absurd (draws_full short fits enough gives h₁).2.2.1 (by simp)
    · rw [Transcript.deliveries_append] at gives
      obtain ⟨taken, silent, ok, left⟩ := draws_full short fits enough gives h₁
      obtain rfl := Except.ok.inj ok
      rw [Transcript.outward_append, silent, List.nil_append] at serves
      rw [Transcript.operations_append] at cooperates
      exact Or.inr ⟨enough, s, u, rfl, sends h₁, taken, untold_next h₁,
        ⟨idle, serves, cooperates.of_append.2, left⟩, h₂⟩

/-! ## Pages -/

theorem held_tell_cases {step : Progress} {r : Except (Failure ε) Unit}
    (h : Held (tell observed step) t r) : t = [] ∨ t = [⟨.progress step, ()⟩] := by
  cases observed with
  | false => exact Or.inl (held_pure_iff.mp h).1
  | true => exact Or.inr (held_tell h).1

theorem unread_tell {step : Progress} {r : Except (Failure ε) Unit}
    (h : Held (tell observed step) t r) : t.Unread := by
  rcases held_tell_cases h with rfl | rfl
  · exact fun _ hx => absurd hx List.not_mem_nil
  · exact List.forall_mem_singleton.mpr (by simp)

theorem completes_tell {step : Progress} {r : Except (Failure ε) Unit}
    (h : Held (tell observed step) t r) : t.Completes [] := by
  rcases held_tell_cases h with rfl | rfl
  · exact Transcript.completes_nil rfl rfl
  · exact Transcript.completes_nil rfl rfl

theorem unfinished_tell {step : Progress} {r : Except (Failure ε) Unit} (hs : step ≠ .finish)
    (h : Held (tell observed step) t r) : .finish ∉ t.progress := by
  rcases held_tell_cases h with rfl | rfl
  · exact List.not_mem_nil
  · exact fun hm => hs (List.mem_singleton.mp hm).symm

/-- **A page with its bytes** is written, and the pages that are left follow. -/
theorem attended_proceed (hc : c.Sound) (hpage : page < c.pages) {src : Source}
    {data : List UInt8} {r : Except (Failure ε) Unit} (hd : data.length = c.pageSize)
    (ha : b.Attends o c src t b')
    (h : Held (proceed o c size observed left page read (Workspace.ofPage c page) data) t r) :
    ∃ s u, ∃ mid : Bench, t = s ++ u ∧ s.Completes (Script.page c page data) ∧ s.taken = [] ∧
      .finish ∉ s.progress ∧ mid.Attends o c src u b' ∧
      Held (writeAll o c size observed left (page + 1) read (Workspace.ofPage c (page + 1))) u
        r := by
  have fits : data.length < UInt32.size := hd ▸ hc.pageSize_lt
  have discreet : (during (.page page) (write o c (Workspace.ofPage c page) page data) :
      Link ε Workspace).Discreet o := (discreet_write fits _).during _
  obtain ⟨w, s, u, mid, rfl, h₁, rfl, h₂, later⟩ :=
    (plans_write hc hpage hd).during.attended discreet.unread ha h
  rw [hc.nextPage_eq hpage, exact_ok, pure_bind] at h₂
  obtain ⟨_, s', u, mid, rfl, h₃, -, h₄, later⟩ :=
    (plans_tell _).attended unread_tell later h₂
  obtain ⟨written, none, -⟩ := (commits_write hc hpage hd).during_isAt.completes h₁
  refine ⟨s ++ s', u, mid, (List.append_assoc s s' u).symm, ?_, ?_, ?_, later, h₄⟩
  · have page := written.append (completes_tell h₃)
    rwa [List.append_nil] at page
  · rw [Transcript.taken_append, none, (unread_tell h₃).taken_eq]
    rfl
  · rw [Transcript.progress_append, discreet.untold (fun _ => id) h₁]
    exact unfinished_tell (by simp) h₃

/-- Before an image is at its end there are pages left. -/
theorem Remains.left_ne_zero (hrem : Remains c size left page read)
    (reached : page * c.pageSize ≤ bytes.length) (short : bytes.length < size) : left ≠ 0 := by
  rintro rfl
  have enough := hrem.enough
  rw [Nat.add_zero] at enough
  omega

/-- A page of the image that is there in full is read and written, and the next ones follow. -/
theorem attended_page (hc : c.Sound) {r : Except (Failure ε) Unit}
    (hrem : Remains c size (left + 1) page read) (short : bytes.length < size)
    (full : (page + 1) * c.pageSize ≤ bytes.length)
    (ha : b.Attends o c (.ahead (bytes.drop (page * c.pageSize)) (some ending)) t b')
    (h : Held (writeAll o c size observed (left + 1) page read (Workspace.ofPage c page)) t r) :
    ∃ s u, ∃ mid : Bench, t = s ++ u ∧
      s.Completes (Script.page c page (Image.page c.pageSize bytes page)) ∧
      s.taken = (bytes.drop (page * c.pageSize)).take c.pageSize ∧ .finish ∉ s.progress ∧
      mid.Attends o c (.ahead (bytes.drop ((page + 1) * c.pageSize)) (some ending)) u b' ∧
      Held (writeAll o c size observed left (page + 1) (read + min c.pageSize (size - read))
        (Workspace.ofPage c (page + 1))) u r := by
  have same := Image.page_of_full full
  rw [Nat.succ_mul] at full
  obtain ⟨rfl, hlt⟩ := hrem.read_le
  have hpage : page < c.pages := by
    have := hrem.pages
    omega
  rcases attended_next (by rw [List.length_drop]; omega) hrem.fits ha h with
    ⟨few, -⟩ | ⟨-, s, u, rfl, sent, took, untold, later, hu⟩
  · rw [List.length_drop] at few
    omega
  rw [← same] at hu
  obtain ⟨s', u, mid, rfl, written, none, unfinished, later, hu⟩ :=
    attended_proceed hc hpage (Image.length_page _ _ _) later hu
  rw [List.drop_drop, ← Nat.succ_mul] at later
  rw [show min c.pageSize (size - page * c.pageSize) = c.pageSize by omega]
  refine ⟨s ++ s', u, mid, (List.append_assoc s s' u).symm, sent.append written, ?_, ?_, later, hu⟩
  · rw [Transcript.taken_append, took, none, List.append_nil]
  · rw [Transcript.progress_append, untold]
    exact unfinished

/-- **All pages up to the end** are written, and that is all: the call sees how the image ends. -/
theorem runs_dry (hc : c.Sound) {n : Nat} {r : Except (Failure ε) Unit}
    (hrem : Remains c size left page read) (short : bytes.length < size)
    (whole : bytes.length / c.pageSize = page + n)
    (ha : b.Attends o c (.ahead (bytes.drop (page * c.pageSize)) (some ending)) t b')
    (h : Held (writeAll o c size observed left page read (Workspace.ofPage c page)) t r) :
    r = .error (.error (.io ending.cause)) ∧ t.Completes (Script.pages c bytes page n) ∧
      t.taken = bytes.drop (page * c.pageSize) ∧ .finish ∉ t.progress := by
  have room := Nat.div_mul_le_self bytes.length c.pageSize
  have reached : page * c.pageSize ≤ bytes.length :=
    (Nat.mul_le_mul_right _ (by omega)).trans room
  obtain ⟨left, rfl⟩ := Nat.exists_eq_succ_of_ne_zero (hrem.left_ne_zero reached short)
  induction n generalizing left page read b t with
  | zero =>
    have partly := Nat.lt_div_mul_add hc.pageSize_pos (a := bytes.length)
    rw [whole, Nat.add_zero] at partly
    obtain ⟨rfl, hlt⟩ := hrem.read_le
    rcases attended_next (by rw [List.length_drop]; omega) hrem.fits ha h with
      ⟨-, failed, sent, taken, untold⟩ | ⟨enough, -⟩
    · exact ⟨failed, sent, taken, by rw [untold]; exact List.not_mem_nil⟩
    · rw [List.length_drop] at enough
      omega
  | succ n ih =>
    have full : (page + 1) * c.pageSize ≤ bytes.length :=
      (Nat.mul_le_mul_right _ (by omega)).trans room
    obtain ⟨s, u, mid, rfl, written, took, unfinished, later, hu⟩ :=
      attended_page hc hrem short full ha h
    obtain ⟨left, rfl⟩ := Nat.exists_eq_succ_of_ne_zero (hrem.next.left_ne_zero full short)
    obtain ⟨failed, sent, rest, unfinished'⟩ :=
      ih (by omega) later full left hrem.next hu
    refine ⟨failed, ?_, ?_, ?_⟩
    · rw [Script.pages_succ]
      exact written.append sent
    · rw [Transcript.taken_append, took, rest, Nat.succ_mul, ← List.drop_drop,
        List.take_append_drop]
    · rw [Transcript.progress_append]
      exact fun hm => (List.mem_append.mp hm).elim unfinished unfinished'

end Page

/-! ## What is sent for whole pages -/

/-- The block that a command brings to the target. -/
def Command.block? : Command → Option (Word × List UInt8)
  | writeBlock addr data => some (addr, data)
  | _ => none

theorem Command.block?_of_unchanging (cmd : Command) (h : cmd.changes = false) :
    cmd.block? = none := by
  cases cmd with
  | writeBlock => exact absurd h (by simp [changes])
  | _ => rfl

namespace Chip

/-- The command tells one of the flash controllers to do something. -/
def orders (c : Chip) : Command → Bool
  | .writeWord addr _ => (List.range c.planes).any fun plane =>
      addr == c.registerAddress plane FlashController.commandOffset
  | _ => false

theorem orders_of_unchanging (c : Chip) (cmd : Command) (h : cmd.changes = false) :
    c.orders cmd = false := by
  cases cmd with
  | writeWord => exact absurd h (by simp [Command.changes])
  | _ => rfl

theorem orders_command {plane : Nat} (hp : plane < c.planes) (value : Word) :
    c.orders (.writeWord (c.registerAddress plane FlashController.commandOffset) value) = true :=
  List.any_eq_true.mpr ⟨plane, List.mem_range.mpr hp, beq_self_eq_true _⟩

namespace Sound

variable (hc : c.Sound)
include hc

/-- A word that lies nowhere among the command registers is no order. -/
theorem orders_eq_false {addr : Word} (value : Word)
    (h : ∀ plane < c.planes, addr.toNat ≠ c.controllerBase.toNat + plane * 0x200 + 4) :
    c.orders (.writeWord addr value) = false := by
  refine List.any_eq_false.mpr fun plane hm same => ?_
  have hp := List.mem_range.mp hm
  have there := hc.toNat_registerAddress hp
    (show FlashController.commandOffset.toNat < 0x200 by decide)
  rw [← beq_iff_eq.mp same] at there
  exact h plane hp there

theorem orders_slot {offset : Word} (ho : offset.toNat ≤ 0x34) (value : Word) :
    c.orders (.writeWord (c.slotAddress offset) value) = false := by
  refine hc.orders_eq_false value fun plane _ => ?_
  have low := hc.ram_low
  rw [hc.toNat_slotAddress ho]
  omega

theorem orders_mode {plane : Nat} (hp : plane < c.planes) (value : Word) :
    c.orders (.writeWord (c.registerAddress plane FlashController.modeOffset) value) = false := by
  refine hc.orders_eq_false value fun other _ => ?_
  have zero : FlashController.modeOffset.toNat = 0 := rfl
  rw [hc.toNat_registerAddress hp (by decide), zero]
  omega

end Sound

end Chip

/-- A command word tells which command it is. -/
theorem FlashCommand.eq_of_word_eq {a b : FlashCommand} {x y : Word} (h : a.word x = b.word y) :
    a = b := by
  have code (cmd : FlashCommand) (arg : Word) : Target.codeOf (cmd.word arg) = cmd.code := by
    have low : (arg &&& 0xffff).toNat < 2 ^ 16 := by
      rw [UInt32.toNat_and]
      exact Nat.and_lt_two_pow _ (by decide)
    have same : cmd.word arg = cmd.word (arg &&& 0xffff) := by
      rw [word, word, UInt32.and_assoc, UInt32.and_self]
    rw [same]
    exact cmd.codeOf_word low
  exact code_inj ((code a x).symm.trans ((congrArg Target.codeOf h).trans (code b y)))

namespace Transcript

variable {t : Transcript ε}

theorem filterMap_commands {f : Command → Option β}
    (h : ∀ cmd, cmd.changes = false → f cmd = none) :
    t.commands.filterMap f = t.effects.filterMap f := by
  rw [effects, List.filterMap_filter]
  refine congrArg (List.filterMap · t.commands) (funext fun cmd => ?_)
  cases hc : cmd.changes with
  | false => exact h cmd hc
  | true => rfl

theorem filter_commands {f : Command → Bool} (h : ∀ cmd, cmd.changes = false → f cmd = false) :
    t.commands.filter f = t.effects.filter f := by
  rw [effects, List.filter_filter]
  refine congrArg (List.filter · t.commands) (funext fun cmd => ?_)
  cases hc : cmd.changes with
  | false => rw [h cmd hc, Bool.and_false]
  | true => rw [Bool.and_true]

end Transcript

namespace Script

variable {bytes : List UInt8} {n : Nat}

/-- No order is given before the first page. -/
theorem orders_setUp (hc : c.Sound) : (setUp c).filter c.orders = [] := by
  refine List.filter_eq_nil_iff.mpr fun cmd hm => ?_
  rcases List.mem_append.mp hm with hm | hm
  · simp only [List.mem_cons, List.not_mem_nil, or_false] at hm
    rcases hm with rfl | rfl | rfl
    · exact Bool.false_ne_true
    · rw [hc.orders_slot (by decide)]
      exact Bool.false_ne_true
    · rw [hc.orders_slot (by decide)]
      exact Bool.false_ne_true
  · obtain ⟨plane, hp, rfl⟩ := List.mem_map.mp hm
    rw [List.mem_range'_1] at hp
    rw [hc.orders_mode (by omega)]
    exact Bool.false_ne_true

theorem orders_page (hc : c.Sound) (hn : n < c.pages) (data : List UInt8) :
    (page c n data).filter c.orders = [commit c n] := by
  have block (addr : Word) (data : List UInt8) : c.orders (.writeBlock addr data) = false := rfl
  have go (addr : Word) : c.orders (.go addr) = false := rfl
  have destination := hc.orders_slot (show Applet.destinationOffset.toNat ≤ 0x34 by decide)
  have source := hc.orders_slot (show Applet.sourceOffset.toNat ≤ 0x34 by decide)
  have reset := hc.orders_slot (show Applet.resetOffset.toNat ≤ 0x34 by decide)
  have order := Chip.orders_command (hc.planeOf_lt hn)
  simp only [page, stage, load, start, commit, List.cons_append, List.nil_append, List.filter_cons,
    List.filter_nil, block, go, destination, source, reset, order, Bool.false_eq_true, if_false,
    if_true]

/-- **The orders for whole pages**: each page is erased and written, one after the other. -/
theorem orders_pages (hc : c.Sound) (hn : n ≤ c.pages) :
    (pages c bytes 0 n).filter c.orders = (List.range n).map (commit c) := by
  induction n with
  | zero => rfl
  | succ n ih =>
    rw [pages_concat, List.filter_append, ih (by omega), orders_page hc hn, List.range_succ,
      List.map_append, List.map_singleton]

theorem blocks_setUp (c : Chip) :
    (setUp c).filterMap Command.block? = [(c.ramUserBase, Applet.code)] := by
  have modes : ((List.range' 0 c.planes).map fun plane => Command.writeWord
      (c.registerAddress plane FlashController.modeOffset)
        FlashController.programmingMode).filterMap Command.block? = [] := by
    refine List.filterMap_eq_nil_iff.mpr fun cmd hm => ?_
    obtain ⟨plane, -, rfl⟩ := List.mem_map.mp hm
    rfl
  rw [setUp, List.filterMap_append, modes, List.append_nil]
  rfl

theorem blocks_page (c : Chip) (n : Nat) (data : List UInt8) :
    (page c n data).filterMap Command.block? = [(c.bufferAddress n, data)] := rfl

/-- **The blocks for whole pages** are those of the image. -/
theorem blocks_pages (hn : n * c.pageSize ≤ bytes.length) :
    (pages c bytes 0 n).filterMap Command.block? = (List.range n).map fun k =>
      (c.bufferAddress k, (bytes.drop (k * c.pageSize)).take c.pageSize) := by
  induction n with
  | zero => rfl
  | succ n ih =>
    have before : n * c.pageSize ≤ bytes.length :=
      (Nat.mul_le_mul_right _ (Nat.le_succ n)).trans hn
    rw [pages_concat, List.filterMap_append, ih before, blocks_page, Image.page_of_full hn,
      List.range_succ, List.map_append, List.map_singleton]

end Script

/-! ## Calls -/

/-- What has been done when an image of `bytes` is over although it should have more: its whole
pages are written, of the rest no byte has been sent, and nothing has been done that ends a call. -/
structure CutOff (c : Chip) (bytes : List UInt8) (t : Transcript ε) : Prop where
  taken : t.taken = bytes
  /-- All commands that can change the target, up to the end of the last one. -/
  sent : t.Completes (Script.setUp c ++ Script.pages c bytes 0 (bytes.length / c.pageSize))
  /-- All blocks: the applet, and the whole pages. -/
  blocks : t.commands.filterMap Command.block? = (c.ramUserBase, Applet.code) ::
    (List.range (bytes.length / c.pageSize)).map fun k =>
      (c.bufferAddress k, (bytes.drop (k * c.pageSize)).take c.pageSize)
  /-- All words for the command registers: one for each whole page. -/
  orders : t.commands.filter c.orders =
    (List.range (bytes.length / c.pageSize)).map (Script.commit c)
  erases : ∀ plane < c.planes, ∀ (cmd : FlashCommand) (arg : Word),
    .writeWord (c.registerAddress plane FlashController.commandOffset) (cmd.word arg) ∈ t.commands →
      cmd = .eraseWritePage
  unfinished : .finish ∉ t.progress

theorem CutOff.of_sent {bytes : List UInt8} {t : Transcript ε} (hc : c.Sound)
    (room : bytes.length ≤ c.pages * c.pageSize) (taken : t.taken = bytes)
    (sent : t.Completes (Script.setUp c ++ Script.pages c bytes 0 (bytes.length / c.pageSize)))
    (unfinished : .finish ∉ t.progress) : CutOff c bytes t := by
  have pages : bytes.length / c.pageSize ≤ c.pages := Nat.div_le_of_le_mul (by
    rwa [Nat.mul_comm])
  have orders : t.commands.filter c.orders =
      (List.range (bytes.length / c.pageSize)).map (Script.commit c) := by
    rw [Transcript.filter_commands c.orders_of_unchanging, sent.effects, List.filter_append,
      Script.orders_setUp hc, Script.orders_pages hc pages]
    rfl
  refine ⟨taken, sent, ?_, orders, ?_, unfinished⟩
  · rw [Transcript.filterMap_commands Command.block?_of_unchanging, sent.effects,
      List.filterMap_append, Script.blocks_setUp, Script.blocks_pages (Nat.div_mul_le_self _ _)]
    rfl
  · intro plane hp cmd arg hm
    have order := List.mem_filter.mpr ⟨hm, Chip.orders_command hp (cmd.word arg)⟩
    rw [orders] at order
    obtain ⟨k, -, same⟩ := List.mem_map.mp order
    exact (FlashCommand.eq_of_word_eq (Command.writeWord.inj same).2).symm

namespace Programmer

variable {size : Nat} {observed : Bool} {bytes : List UInt8} {ending : Ending} {p q : Programmer}
  {b b' : Bench} {t : Transcript ε} {r : Except (Failure ε) Unit}

/-- **Writing an image that is too short**, from the setup on. -/
theorem writePages_runs_dry (hc : c.Sound) (hs : size ≤ c.pages * c.pageSize)
    (short : bytes.length < size) (ha : b.Attends o c (.ahead bytes (some ending)) t b')
    (h : Link.Held (writePages o c size (c.pagesFor size) observed) t r) :
    r = .error (.error (.io ending.cause)) ∧
      t.Completes (Script.setUp c ++ Script.pages c bytes 0 (bytes.length / c.pageSize)) ∧
      t.taken = bytes ∧ .finish ∉ t.progress := by
  have discreet : (preparation c size : Link ε Workspace).Discreet o := discreet_preparation
  have plans : Plans (ε := ε) o c 0 (preparation c size) (Plan.setUp c)
      (fun w => w = Workspace.ofPage c 0) := (plans_log rfl).after fun _ => Workspace.plans_setUp hc
  rw [writePages_preparation] at h
  obtain ⟨w, s, u, mid, rfl, h₁, rfl, h₂, ha⟩ := plans.attended discreet.unread ha h
  obtain ⟨_, s', u, mid, rfl, h₃, -, h₄, ha⟩ :=
    (Page.plans_tell _).attended Page.unread_tell ha h₂
  obtain ⟨done, none, -⟩ := (follows_preparation hc).completes h₁
  have dry {v : Transcript ε} {r : Except (Failure ε) Unit} {b' : Bench}
      (ha : mid.Attends o c (.ahead bytes (some ending)) v b')
      (hv : Link.Held (Page.writeAll o c size observed (c.pagesFor size) 0 0
        (Workspace.ofPage c 0)) v r) :=
    Page.runs_dry hc (remains_zero hc hs) short (Nat.zero_add _).symm
      (by rwa [Nat.zero_mul, List.drop_zero]) hv
  rcases Link.held_bind_iff.mp h₄ with ⟨f, h₅, rfl⟩ | ⟨_, v, z, h₅, -, rfl⟩
  · obtain ⟨failed, sent, taken, unfinished⟩ := dry ha h₅
    refine ⟨by rw [Except.error.inj failed], done.append ?_, ?_, ?_⟩
    · exact (Page.completes_tell h₃).append sent
    · rw [Transcript.taken_append, Transcript.taken_append, none, (Page.unread_tell h₃).taken_eq,
        taken, Nat.zero_mul]
      rfl
    · rw [Transcript.progress_append, Transcript.progress_append,
        discreet.untold (fun _ => id) h₁, List.nil_append]
      exact fun hm => (List.mem_append.mp hm).elim (Page.unfinished_tell (by simp) h₃) unfinished
  · obtain ⟨_, ha⟩ := ha.front
    exact absurd (dry ha h₅).1 (by simp)

/-- **An image that is too short is never completed.** A program call for `size` bytes, where the
image has fewer and then ends or cannot be read any further: whatever the pieces it comes in, and
whatever its source would do behind the end, if the target is not to blame the call fails with how
the image ended, and the programmer has failed. The whole pages of the image have been written;
nothing of the rest has been sent, no other order than to erase and write these pages has been given
to a flash controller, and the observer is not told that the call is done. -/
theorem short_image_is_never_completed (hc : c ∈ Chip.all) (hp : p.MayKnow c)
    (hs : size ≤ c.pages * c.pageSize) (short : bytes.length < size) (reports : t.Reports c.id)
    (ha : b.Attends o c (.ahead bytes (some ending)) t b')
    (h : Held (program o size observed) p t r q) :
    r = .error (.error (.io ending.cause)) ∧ q.phase = .failed ∧ CutOff c bytes t := by
  have sound := Chip.sound_of_mem hc
  obtain ⟨q', -, rfl⟩ := held_tracked_iff.mp h
  rcases held_program h with ⟨f, -, lost, rfl, -⟩ | ⟨c', s, u, found, works, rfl, -, -⟩
  · have serves := ha.serves
    rw [Transcript.Unread.outward_eq (unread_findChip lost)] at serves
    exact absurd (thrives_findChip hc reports lost serves ha.idle).1 (by simp)
  obtain ⟨rfl, none, untaken⟩ := finds_eq hc hp reports.of_append.mayReport found
  have unread : s.Unread := by
    rcases found with ⟨-, rfl⟩ | ⟨-, found⟩
    · exact fun _ hx => absurd hx List.not_mem_nil
    · exact unread_findChip found
  -- the pages start on an idle bench, whether the chip was known or is found
  obtain ⟨mid, serves, -, rest⟩ := ha.of_append unread
  have idle : mid.Idle := by
    rcases found with ⟨-, rfl⟩ | ⟨-, found⟩
    · obtain rfl := serves
      exact ha.idle
    · exact (thrives_findChip hc reports.of_append found serves ha.idle).2.1
  rw [writing_eq sound (by omega) hs] at works
  obtain ⟨rfl, sent, taken, unfinished⟩ := writePages_runs_dry sound hs short (rest idle) works
  refine ⟨rfl, rfl, .of_sent sound (by omega) ?_ (none.append sent) ?_⟩
  · rw [Transcript.taken_append, untaken, taken]
    rfl
  · rw [Transcript.progress_append, found.untold]
    exact unfinished

/-- A source that hands out what it is asked for, and fails when there is no more. -/
def breaking (limit : Nat) : List UInt8 → Delivery limit × List UInt8
  | [] => (.failed .timedOut (by decide), [])
  | bytes => (.bytes (bytes.take limit) (List.length_take_le limit bytes), bytes.drop limit)

/-- A call for an image of 300 bytes, of which a page can be read. -/
def brokenOff : Dialogue Unit (Except (Failure Unit) Unit × Programmer) :=
  (program {} 300 true).run {}

/-- Its exchanges with a steady target. -/
def brokenOffExchanges : Transcript Unit :=
  brokenOff.transcript ((Bench.steady Bench.part).reading breaking)
    (Bench.fresh [], List.replicate 256 7)

set_option maxRecDepth 100000 in
theorem brokenOffExchanges_agrees :
    brokenOffExchanges.operations.all (Operation.agrees (Bench.steadyWords Bench.part)) = true := by
  cbv

set_option maxRecDepth 100000 in
theorem deliveries_brokenOffExchanges :
    brokenOffExchanges.deliveries = [.ok (List.replicate 256 7), .error .timedOut] := by
  cbv

/-- The image breaks off behind its first page. -/
theorem short_image_is_never_completed_broken_off :
    (brokenOff.run ((Bench.steady Bench.part).reading breaking)
        (Bench.fresh [], List.replicate 256 7)).1.1 = .error (.error (.io .timedOut)) ∧
      CutOff Bench.part (List.replicate 256 7) brokenOffExchanges := by
  have held : Held (program {} 300 true) {} brokenOffExchanges _ _ :=
    Dialogue.Held.of_run ((Bench.steady Bench.part).reading breaking) brokenOff
      (Bench.fresh [], List.replicate 256 7)
  have told := brokenOffExchanges_agrees
  have atEnd : (Source.ahead [] (some (.broken .timedOut))).Gives [.error .timedOut] :=
    Or.inr ⟨rfl, fun e he => by rw [← Option.mem_some.mp he]; rfl⟩
  have gives : (Source.ahead (List.replicate 256 7) (some (.broken .timedOut))).Gives
      brokenOffExchanges.deliveries := by
    rw [deliveries_brokenOffExchanges]
    exact Or.inl ⟨_, [], rfl, by decide, (List.append_nil _).symm, atEnd⟩
  have attends : (Bench.fresh []).Attends {} Bench.part
      (.ahead (List.replicate 256 7) (some (.broken .timedOut))) brokenOffExchanges _ :=
    ⟨⟨rfl, rfl⟩, Bench.serves_of_answers (Device.answers_reading breaking brokenOff
      (Bench.fresh []) (List.replicate 256 7)), .of_agrees told, gives⟩
  obtain ⟨failed, -, cut⟩ := short_image_is_never_completed
    (show Bench.part ∈ Chip.all by decide) (Or.inl rfl) (by decide)
    (by rw [List.length_replicate]; decide)
    ⟨Bench.steadyWords Bench.part, by decide, Transcript.reads_of_agrees told⟩ attends held
  exact ⟨failed, cut⟩

end Programmer

end SamFlash
