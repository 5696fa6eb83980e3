import SamFlash.Command.Reader
import SamFlash.Dialogue

/-!
# What a transcript shows

Views of the exchanges of a dialogue: the bytes that the port took, the commands they spell, the
bytes that were received, the pauses, what was told about progress and what was taken of the image.

Results:
* `Transcript.accepted_append` and its kin: every view of two transcripts in a row is the two views
  in a row.
* `Transcript.commands_append`: the commands of two transcripts in a row are those of the first one,
  and those that the second one completes from where the first one stopped.
-/

namespace SamFlash

/-- The exchanges of a dialogue, in order. -/
abbrev Transcript (ε : Type) := List (Exchange ε)

namespace Exchange

variable {ε : Type}

/-- The byte that the port took. -/
def accepted? : Exchange ε → Option UInt8
  | ⟨.write b, attempts⟩ =>
    match attempts.settle with
    | .ok _ => some b
    | .error _ => none
  | _ => none

/-- The byte that was received. -/
def received? : Exchange ε → Option UInt8
  | ⟨.read, .byte b⟩ => some b
  | _ => none

/-- The pause that was made. -/
def pause? : Exchange ε → Option Word
  | ⟨.delay ms, _⟩ => some ms
  | _ => none

/-- What was told about progress. -/
def progress? : Exchange ε → Option Progress
  | ⟨.progress p, _⟩ => some p
  | _ => none

/-- The bytes that were taken of the image. -/
def taken : Exchange ε → List UInt8
  | ⟨.image _, delivery⟩ =>
    match delivery.settle with
    | .ok data => data.val
    | .error _ => []
  | _ => []

end Exchange

namespace Transcript

variable {ε : Type}

/-- The bytes that the port took. -/
def accepted (t : Transcript ε) : List UInt8 := t.filterMap Exchange.accepted?

/-- The bytes that were received. -/
def received (t : Transcript ε) : List UInt8 := t.filterMap Exchange.received?

/-- The pauses. -/
def pauses (t : Transcript ε) : List Word := t.filterMap Exchange.pause?

/-- What was told about progress. -/
def progress (t : Transcript ε) : List Progress := t.filterMap Exchange.progress?

/-- The bytes that were taken of the image. -/
def taken (t : Transcript ε) : List UInt8 := t.flatMap Exchange.taken

/-- The commands that the port was given in full. -/
def commands (t : Transcript ε) : List Command := (Reader.start.feedAll t.accepted).2

theorem accepted_append (s t : Transcript ε) : accepted (s ++ t) = accepted s ++ accepted t :=
  List.filterMap_append

theorem received_append (s t : Transcript ε) : received (s ++ t) = received s ++ received t :=
  List.filterMap_append

theorem progress_append (s t : Transcript ε) : progress (s ++ t) = progress s ++ progress t :=
  List.filterMap_append

theorem taken_append (s t : Transcript ε) : taken (s ++ t) = taken s ++ taken t :=
  List.flatMap_append

theorem commands_append (s t : Transcript ε) :
    commands (s ++ t) =
      commands s ++ ((Reader.start.feedAll s.accepted).1.feedAll t.accepted).2 := by
  unfold commands
  rw [accepted_append, Reader.feedAll_append]

end Transcript

end SamFlash
