import SamFlash.Command.Reader

/-!
# The reader on what is sent

A command that is sent in full is read back as that command, whatever bytes its block consists of,
and leaves the reader between commands; part of a command is not yet a command.

What is sent is `Command.wire`: a text of letters, eight upper-case digits for every word, commas
and the terminator, and behind the text of a block its bytes. The reader (`Reader.feed`) collects a
text up to the terminator and takes it apart again with `Announcement.ofText?`. The terminator is in
no text before its end (`Command.Inner`), so the text that is collected is the text that was sent;
and the digits of a word read back as that word, in one way only. A block is announced with its
length and then taken by counting, so its bytes are never looked at. Only its length has to fit in
eight digits.

A reader that is not between commands is in the text of the one it is given, or in its block, and
has made nothing of it so far. This is why what the port has taken decides which commands the
monitor has had, wherever the bytes stop.

Results:
* `Announcement.ofText?_body`: the text of a command announces that command.
* `Reader.feedAll_wire`: the wire form of a command is read as the command.
* `Reader.commands_of_prefix`: the part of a wire form that was sent reads as nothing or as the
  command.
* `Reader.commands_of_header_lt`: a text without its terminator reads as nothing.
-/

namespace SamFlash

/-! ## Characters of a command -/

/-- Characters that a command's text may have before its terminator. -/
def Command.Inner (ch : Char) : Prop := ch.toNat < 128 ∧ ch ≠ Command.terminator

theorem Hex.inner_digit : ∀ {d : Nat}, d < 16 → Command.Inner (Hex.digit .upper d) := by
  unfold Command.Inner
  decide

theorem Hex.inner_of_mem_padded :
    ∀ (width n : Nat), n < Nat.pow 16 width →
      ∀ ch ∈ Hex.padded .upper width n, Command.Inner ch
  | 0, n, h, ch, hch => by
    have : n = 0 := by simpa using h
    simp [Hex.padded, this] at hch
  | width + 1, n, h, ch, hch => by
    have hq : n / 16 < Nat.pow 16 width := (Nat.div_lt_iff_lt_mul (by decide)).mpr h
    rw [Hex.padded, List.mem_append] at hch
    rcases hch with hch | hch
    · exact Hex.inner_of_mem_padded width (n / 16) hq ch hch
    · rw [List.mem_singleton.mp hch]
      exact Hex.inner_digit (Nat.mod_lt _ (by decide))

namespace Command

theorem inner_of_mem_argument {n : Nat} (h : n < UInt32.size) : ∀ ch ∈ argument n, Inner ch :=
  Hex.inner_of_mem_padded 8 n h

theorem inner_of_mem_body (c : Command) (h : c.payload.length < UInt32.size) :
    ∀ ch ∈ c.body, Inner ch := by
  have word (w : Word) : ∀ ch ∈ argument w.toNat, Inner ch := inner_of_mem_argument w.toNat_lt_size
  have letters : ∀ ch ∈ ['N', 'w', 'W', 'S', 'G', ',', '4'], Inner ch := by
    intro ch hch
    simp only [List.mem_cons, List.not_mem_nil, or_false] at hch
    unfold Inner
    rcases hch with rfl | rfl | rfl | rfl | rfl | rfl | rfl <;> decide
  intro ch hch
  cases c with
  | binaryMode => exact letters ch (by simp_all [body])
  | readWord addr =>
    simp only [body, List.mem_cons, List.mem_append, List.not_mem_nil, or_false] at hch
    rcases hch with rfl | hch | rfl | rfl
    · exact letters _ (by simp)
    · exact word addr ch hch
    · exact letters _ (by simp)
    · exact letters _ (by simp)
  | writeWord addr value =>
    simp only [body, List.mem_cons, List.mem_append] at hch
    rcases hch with rfl | hch | rfl | hch
    · exact letters _ (by simp)
    · exact word addr ch hch
    · exact letters _ (by simp)
    · exact word value ch hch
  | writeBlock addr data =>
    simp only [body, List.mem_cons, List.mem_append] at hch
    rcases hch with rfl | hch | rfl | hch
    · exact letters _ (by simp)
    · exact word addr ch hch
    · exact letters _ (by simp)
    · exact inner_of_mem_argument h ch hch
  | go addr =>
    simp only [body, List.mem_cons] at hch
    rcases hch with rfl | hch
    · exact letters _ (by simp)
    · exact word addr ch hch

theorem header_eq (c : Command) :
    c.header = c.body.map Char.toUInt8 ++ [terminator.toUInt8] := by
  simp [header, text]

theorem wire_eq_header {c : Command} (h : c.payload = []) : c.wire = c.header := by
  rw [wire, h, List.append_nil]

/-- An inner character survives the way over the wire. -/
theorem Inner.ofNat_toUInt8 {ch : Char} (h : Inner ch) : Char.ofNat ch.toUInt8.toNat = ch := by
  have : ch.toUInt8.toNat = ch.toNat := by
    have := h.1
    show (ch.val.toNat).toUInt8.toNat = _
    simp only [Nat.toUInt8, UInt8.toNat_ofNat']
    exact Nat.mod_eq_of_lt (by show ch.toNat < _; omega)
  rw [this, Char.ofNat_toNat]

theorem Inner.toUInt8_ne {ch : Char} (h : Inner ch) : ch.toUInt8 ≠ terminator.toUInt8 := by
  intro e
  have h' := h.ofNat_toUInt8
  rw [e] at h'
  exact h.2 (h'.symm.trans (by decide))

end Command

/-! ## What a text announces -/

/-- What the text of a command says. -/
def Command.announcement : Command → Announcement
  | writeBlock addr data => .block addr data.length
  | c => .whole c

namespace Announcement

theorem pair?_argument (a : Word) {n : Nat} (h : n < UInt32.size) :
    pair? (Command.argument a.toNat ++ ',' :: Command.argument n) = some (a, UInt32.ofNat n) := by
  have hl : (Command.argument a.toNat).length = 8 := Command.length_argument a.toNat_lt_size
  have hn : Hex.word? (Command.argument n) = some (UInt32.ofNat n) := by
    have := Hex.word?_padded (UInt32.ofNat n)
    rwa [UInt32.toNat_ofNat', Nat.mod_eq_of_lt h] at this
  have ha : Hex.word? (Command.argument a.toNat) = some a := Hex.word?_padded a
  simp only [pair?, List.take_left' hl, List.drop_left' hl, ha, hn, Option.map_some]

/-- **The text of a command announces that command.** -/
theorem ofText?_body (c : Command) (h : c.payload.length < UInt32.size) :
    ofText? c.body = some c.announcement := by
  cases c with
  | binaryMode => rfl
  | readWord addr =>
    have hl : (Command.argument addr.toNat).length = 8 := Command.length_argument addr.toNat_lt_size
    have ha : Hex.word? (Command.argument addr.toNat) = some addr := Hex.word?_padded addr
    simp only [Command.body, ofText?, List.take_left' hl, List.drop_left' hl, ha,
      Command.announcement]
  | writeWord addr value =>
    simp only [Command.body, ofText?, pair?_argument addr value.toNat_lt_size, Option.map_some,
      UInt32.ofNat_toNat, Command.announcement]
  | writeBlock addr data =>
    have hd : data.length < UInt32.size := h
    simp only [Command.body, ofText?, pair?_argument addr hd, Option.map_some,
      UInt32.toNat_ofNat', Nat.mod_eq_of_lt hd, Command.announcement]
  | go addr =>
    have ha : Hex.word? (Command.argument addr.toNat) = some addr := Hex.word?_padded addr
    simp only [Command.body, ofText?, ha, Option.map_some, Command.announcement]

end Announcement

/-! ## Reading it -/

namespace Reader

theorem feedAll_nil (r : Reader) : r.feedAll [] = (r, []) := rfl

/-- Inner characters are collected. -/
theorem feedAll_inner (cs : List Char) (h : ∀ ch ∈ cs, Command.Inner ch) (collected : List UInt8) :
    (text collected).feedAll (cs.map Char.toUInt8) =
      (text ((cs.map Char.toUInt8).reverse ++ collected), []) := by
  induction cs generalizing collected with
  | nil => rfl
  | cons ch cs ih =>
    have hne : ch.toUInt8 ≠ Command.terminator.toUInt8 := (h ch List.mem_cons_self).toUInt8_ne
    have hcs : ∀ ch ∈ cs, Command.Inner ch := fun x hx => h x (List.mem_cons_of_mem ch hx)
    rw [List.map_cons, feedAll_cons]
    simp only [feed, if_neg hne]
    rw [ih hcs]
    simp

theorem collectedText_inner {cs : List Char} (h : ∀ ch ∈ cs, Command.Inner ch) :
    collectedText ((cs.map Char.toUInt8).reverse ++ []) = cs := by
  rw [List.append_nil, collectedText, List.reverse_reverse, List.map_map]
  exact (List.map_congr_left fun ch hch => (h ch hch).ofNat_toUInt8).trans (List.map_id cs)

/-- A block is taken byte by byte, and complete with its last one. -/
theorem feedAll_block (addr : Word) (data taken : List UInt8) {missing : Nat}
    (h : data.length = missing + 1) :
    (block addr missing taken).feedAll data =
      (start, [.writeBlock addr (taken.reverse ++ data)]) := by
  induction data generalizing missing taken with
  | nil => simp at h
  | cons b data ih =>
    rw [feedAll_cons, feed_block]
    cases missing with
    | zero =>
      have : data = [] := List.length_eq_zero_iff.mp (by simpa using h)
      subst this
      simp [feedAll_nil]
    | succ missing =>
      simp only
      rw [ih (b :: taken) (by simpa using h)]
      simp

/-- **What is sent for a command is read as the command.** -/
theorem feedAll_wire (c : Command) (h : c.payload.length < UInt32.size) :
    start.feedAll c.wire = (start, [c]) := by
  have inner := c.inner_of_mem_body h
  rw [Command.wire, Command.header_eq, feedAll_append, feedAll_append, start,
    feedAll_inner _ inner []]
  simp only [feedAll_cons, feedAll_nil, feed, if_true, collectedText_inner inner,
    Announcement.ofText?_body c h]
  cases c with
  | binaryMode => rfl
  | readWord addr => rfl
  | writeWord addr value => rfl
  | go addr => rfl
  | writeBlock addr data =>
    cases data with
    | nil => rfl
    | cons b bs =>
      have := feedAll_block addr (b :: bs) [] (show (b :: bs).length = bs.length + 1 from rfl)
      simp only [Command.announcement, List.length_cons, Command.payload, this]
      rfl

/-- Part of what is sent for a command reads as nothing, or already as the command. -/
theorem commands_of_prefix {c : Command} (h : c.payload.length < UInt32.size) {bs : List UInt8}
    (hp : bs <+: c.wire) : (start.feedAll bs).2 <+: [c] := by
  obtain ⟨rest, hr⟩ := hp
  have hw := feedAll_wire c h
  rw [← hr, feedAll_append] at hw
  exact ⟨_, congrArg Prod.snd hw⟩

/-- A text that lacks its terminator, or more, reads as nothing. -/
theorem commands_of_header_lt {c : Command} (h : c.payload.length < UInt32.size)
    {bs : List UInt8} {b : UInt8} (hp : bs ++ [b] <+: c.header) : (start.feedAll bs).2 = [] := by
  rw [Command.header_eq] at hp
  have hb : bs <+: c.body.map Char.toUInt8 := by
    have hlen := hp.length_le
    simp only [List.length_append, List.length_map, List.length_singleton] at hlen
    exact List.prefix_of_prefix_length_le ((List.prefix_append bs [b]).trans hp)
      (List.prefix_append _ _) (by rw [List.length_map]; omega)
  obtain ⟨cs, hcs, rfl⟩ := List.prefix_map_iff.mp hb
  have inner : ∀ ch ∈ cs, Command.Inner ch :=
    fun ch hch => c.inner_of_mem_body h ch (hcs.subset hch)
  rw [start, feedAll_inner cs inner []]

end Reader

end SamFlash
