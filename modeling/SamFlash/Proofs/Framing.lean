import SamFlash.Proofs.Wire

/-!
# Streams of commands

The wire forms of commands one after the other (`Command.stream`), and what the monitor makes of
them when they arrive in full or in part. Nothing separates a command from the next one, and a block
may hold terminators and whole texts of commands. What keeps both ends together is that no text
contains a terminator before its end, and that a block is exactly as long as its text announces. A
block can only be announced if its length fits in the eight digits of the text
(`Command.Announceable`); nothing else is asked of the commands, neither of their addresses nor of
their number.

The two ends are `Command.wire` and `Reader.feedAll`, and the stream is what the port takes:
`Transcript.commands` reads a transcript in this way, whatever was sent and wherever it stopped. A
stream that stops in the middle of a command reads as the commands before it. The reader then has
the text of that command, or some of its block, and the commands of a prefix are a prefix of the
commands; so a call that is cut off between any two bytes has had some of its commands carried out,
in order, and no other.

Results:
* `Reader.feedAll_stream`: a stream is read as the commands that it consists of, with nothing left.
* `Command.cut`: a prefix of a stream is some commands in full, and less than the next one.
* `Reader.commands_of_lt`: less than a command is read as nothing.
* `Reader.le_length_commands_iff`: a command of the stream is read as soon as its last byte is
  there, and not before.
* `Command.stream_injective`: no two sequences of commands look the same on the wire.
* `Reader.framing_round_trip`: a stream gives back its commands, and every prefix of it a prefix of
  them.
-/

namespace SamFlash

namespace Command

/-- What commands in a row put on the wire. -/
def stream (cs : List Command) : List UInt8 := cs.flatMap wire

theorem stream_cons (c : Command) (cs : List Command) : stream (c :: cs) = c.wire ++ stream cs :=
  List.flatMap_cons

theorem stream_append (cs ds : List Command) : stream (cs ++ ds) = stream cs ++ stream ds :=
  List.flatMap_append

/-- The block of every command can be announced. -/
def Announceable (cs : List Command) : Prop := ∀ c ∈ cs, c.payload.length < UInt32.size

theorem Announceable.of_cons {c : Command} {cs : List Command} (h : Announceable (c :: cs)) :
    c.payload.length < UInt32.size ∧ Announceable cs :=
  List.forall_mem_cons.mp h

theorem Announceable.take {cs : List Command} (h : Announceable cs) (k : Nat) :
    Announceable (cs.take k) :=
  fun c hc => h c (List.mem_of_mem_take hc)

/-- A prefix of a stream ends in the middle of a command, right before one, or at the end of the
stream. -/
theorem cut {cs : List Command} {bs : List UInt8} (h : bs <+: stream cs) :
    ∃ k part, bs = stream (cs.take k) ++ part ∧
      (part = [] ∨ ∃ c, cs[k]? = some c ∧ part <+: c.wire ∧ part.length < c.wire.length) := by
  induction cs generalizing bs with
  | nil => exact ⟨0, bs, rfl, Or.inl (List.prefix_nil.mp h)⟩
  | cons c cs ih =>
    rw [stream_cons] at h
    by_cases hl : bs.length < c.wire.length
    · have hb : bs <+: c.wire :=
        List.prefix_of_prefix_length_le h (List.prefix_append _ _) (by omega)
      exact ⟨0, bs, rfl, Or.inr ⟨c, rfl, hb, hl⟩⟩
    · -- the first command is there in full, and the rest is a prefix of what follows it
      obtain ⟨rest, rfl⟩ : c.wire <+: bs :=
        List.prefix_of_prefix_length_le (List.prefix_append _ _) h (by omega)
      obtain ⟨k, part, hrest, hpart⟩ := ih ((List.prefix_append_right_inj _).mp h)
      refine ⟨k + 1, part, ?_, ?_⟩
      · rw [List.take_succ_cons, stream_cons, hrest, List.append_assoc]
      · rwa [List.getElem?_cons_succ]

end Command

namespace Reader

/-! ## Streams in full -/

/-- **A stream** is read as the commands that it consists of, and the reader is between commands
again. -/
theorem feedAll_stream {cs : List Command} (h : Command.Announceable cs) :
    start.feedAll (Command.stream cs) = (start, cs) := by
  induction cs with
  | nil => rfl
  | cons c cs ih =>
    obtain ⟨first, others⟩ := h.of_cons
    rw [Command.stream_cons, feedAll_append, feedAll_wire c first, ih others]
    rfl

/-! ## Less than a command -/

/-- The text that announces a block makes the reader wait for it. -/
theorem feedAll_header_block {addr : Word} {data : List UInt8} (h : data.length < UInt32.size)
    {missing : Nat} (hm : data.length = missing + 1) :
    start.feedAll (Command.writeBlock addr data).header = (block addr missing [], []) := by
  have inner := (Command.writeBlock addr data).inner_of_mem_body h
  have announced := Announcement.ofText?_body (.writeBlock addr data) h
  rw [Command.header_eq, feedAll_append, start, feedAll_inner _ inner []]
  simp only [feedAll_cons, feedAll_nil, feed, if_true, collectedText_inner inner, announced,
    Command.announcement, hm]
  rfl

/-- A block that is not there in full completes nothing. -/
theorem commands_of_block_le {addr : Word} {data taken : List UInt8} {missing : Nat}
    (h : data.length ≤ missing) : ((block addr missing taken).feedAll data).2 = [] := by
  induction data generalizing missing taken with
  | nil => rfl
  | cons b data ih =>
    rw [List.length_cons] at h
    obtain ⟨left, rfl⟩ : ∃ left, missing = left + 1 := ⟨missing - 1, by omega⟩
    rw [feedAll_cons, feed_block]
    exact ih (by omega)

/-- **Less than a command** is read as nothing. -/
theorem commands_of_lt {c : Command} (h : c.payload.length < UInt32.size) {part : List UInt8}
    (hp : part <+: c.wire) (hl : part.length < c.wire.length) : (start.feedAll part).2 = [] := by
  have header : c.header <+: c.wire := List.prefix_append _ _
  by_cases ht : part.length < c.header.length
  · -- the terminator is still to come
    obtain ⟨rest, hr⟩ := List.prefix_of_prefix_length_le hp header (by omega)
    cases rest with
    | nil =>
      rw [← hr, List.append_nil] at ht
      exact absurd ht (Nat.lt_irrefl _)
    | cons b rest => exact commands_of_header_lt h (b := b) ⟨rest, by simpa using hr⟩
  · -- the text is there, and some of the block is missing
    obtain ⟨data, rfl⟩ := List.prefix_of_prefix_length_le header hp (by omega)
    have short : data.length < c.payload.length := by
      rw [Command.wire, List.length_append, List.length_append] at hl
      omega
    cases c with
    | writeBlock addr block =>
      have hm : block.length = block.length - 1 + 1 := (Nat.sub_add_cancel (by
        have : data.length < block.length := short
        omega)).symm
      have waiting : start.feedAll (Command.writeBlock addr block).header =
          (.block addr (block.length - 1) [], []) := feedAll_header_block h hm
      rw [feedAll_append, waiting]
      exact commands_of_block_le (Nat.le_sub_one_of_lt short)
    | binaryMode => exact absurd short (Nat.not_lt_zero _)
    | readWord addr => exact absurd short (Nat.not_lt_zero _)
    | writeWord addr value => exact absurd short (Nat.not_lt_zero _)
    | go addr => exact absurd short (Nat.not_lt_zero _)

/-! ## Streams in part -/

/-- Some commands in full and less than the next one are read as those commands. -/
theorem commands_of_stream_append {cs : List Command} (h : Command.Announceable cs) {k : Nat}
    {part : List UInt8}
    (hp : part = [] ∨ ∃ c, cs[k]? = some c ∧ part <+: c.wire ∧ part.length < c.wire.length) :
    (start.feedAll (Command.stream (cs.take k) ++ part)).2 = cs.take k := by
  have nothing : (start.feedAll part).2 = [] := by
    rcases hp with rfl | ⟨c, hc, hw, hl⟩
    · rfl
    · exact commands_of_lt (h c (List.mem_of_getElem? hc)) hw hl
  rw [feedAll_append, feedAll_stream (h.take k), nothing, List.append_nil]

/-- **A command of a stream** has been read exactly when the stream has arrived up to its last
byte. -/
theorem le_length_commands_iff {cs : List Command} (h : Command.Announceable cs) {bs : List UInt8}
    (hb : bs <+: Command.stream cs) {k : Nat} (hk : k ≤ cs.length) :
    k ≤ (start.feedAll bs).2.length ↔ Command.stream (cs.take k) <+: bs := by
  constructor
  · intro hle
    obtain ⟨n, part, rfl, hpart⟩ := Command.cut hb
    rw [commands_of_stream_append h hpart, List.length_take] at hle
    obtain ⟨between, hn⟩ := List.take_prefix_take_left (l := cs) (show k ≤ n by omega)
    rw [← hn, Command.stream_append, List.append_assoc]
    exact List.prefix_append _ _
  · rintro ⟨later, rfl⟩
    rw [feedAll_append, feedAll_stream (h.take k), List.length_append, List.length_take]
    omega

/-- **Framing.** Any commands, with whatever bytes in their blocks, are read back from the stream
that they make, and the reader is then between commands. From a part of the stream, wherever it is
cut off, the reader gets a part of the commands, and no other command. -/
theorem framing_round_trip {cs : List Command} (h : ∀ c ∈ cs, c.payload.length < UInt32.size) :
    start.feedAll (Command.stream cs) = (start, cs) ∧
      ∀ bs, bs <+: Command.stream cs → (start.feedAll bs).2 <+: cs := by
  refine ⟨feedAll_stream h, fun bs hb => ?_⟩
  obtain ⟨k, part, rfl, hpart⟩ := Command.cut hb
  rw [commands_of_stream_append h hpart]
  exact List.take_prefix k cs

/-- A block that spells a terminator and a command, between two other commands. -/
theorem framing_round_trip_spelled :
    start.feedAll (Command.stream
        [.binaryMode, .writeBlock 0x20001000 (Command.go 0).header, .go 0x20001034]) =
      (start, [.binaryMode, .writeBlock 0x20001000 (Command.go 0).header, .go 0x20001034]) :=
  (framing_round_trip (by decide)).1

end Reader

/-- No two sequences of commands look the same on the wire. -/
theorem Command.stream_injective {cs ds : List Command} (hc : Announceable cs)
    (hd : Announceable ds) (h : stream cs = stream ds) : cs = ds := by
  have read := Reader.feedAll_stream hc
  rw [h, Reader.feedAll_stream hd] at read
  exact (congrArg Prod.snd read).symm

end SamFlash
