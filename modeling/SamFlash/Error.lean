import SamFlash.Arithmetic
import SamFlash.Text.Hex

/-!
# What can go wrong in a session

An `Error` is a cause with the data that identifies it. A failure of the serial link that strikes
once flash is being written carries the `Stage` it struck at; `Error.during` adds the stage to a
link failure that has none, and leaves every other error alone.

Results:
* `Error.during_during`: the stage that is added first stays.
* `Error.during_eq_self_iff`: an error is left alone exactly when it is no bare link failure.
-/

namespace SamFlash

/-- The point in a session that an operation belongs to. -/
inductive Stage where
  /-- Bringing a page to flash, from its first byte to its write command. -/
  | page (n : Nat)
  /-- Around the change of the boot source. -/
  | bootFlag
  deriving DecidableEq, Repr

/-- How a stage is named in messages. -/
def Stage.text : Stage → String
  | page n => "page " ++ toString n
  | bootFlag => "boot flag update"

/-- The ways in which reading a file or a device can fail. -/
inductive IoKind where
  | notFound
  | permissionDenied
  | connectionRefused
  | connectionReset
  | hostUnreachable
  | networkUnreachable
  | connectionAborted
  | notConnected
  | addrInUse
  | addrNotAvailable
  | networkDown
  | brokenPipe
  | alreadyExists
  | wouldBlock
  | notADirectory
  | isADirectory
  | directoryNotEmpty
  | readOnlyFilesystem
  | staleNetworkFileHandle
  | invalidInput
  | invalidData
  | timedOut
  | writeZero
  | storageFull
  | notSeekable
  | quotaExceeded
  | fileTooLarge
  | resourceBusy
  | executableFileBusy
  | deadlock
  | crossesDevices
  | tooManyLinks
  | invalidFilename
  | argumentListTooLong
  | interrupted
  | unsupported
  | unexpectedEof
  | outOfMemory
  | other
  deriving DecidableEq, Repr

namespace IoKind

/-- All kinds. -/
def all : List IoKind :=
  [notFound, permissionDenied, connectionRefused, connectionReset, hostUnreachable,
    networkUnreachable, connectionAborted, notConnected, addrInUse, addrNotAvailable, networkDown,
    brokenPipe, alreadyExists, wouldBlock, notADirectory, isADirectory, directoryNotEmpty,
    readOnlyFilesystem, staleNetworkFileHandle, invalidInput, invalidData, timedOut, writeZero,
    storageFull, notSeekable, quotaExceeded, fileTooLarge, resourceBusy, executableFileBusy,
    deadlock, crossesDevices, tooManyLinks, invalidFilename, argumentListTooLong, interrupted,
    unsupported, unexpectedEof, outOfMemory, other]

/-- The name of a kind in messages. -/
def name : IoKind → String
  | notFound => "NotFound"
  | permissionDenied => "PermissionDenied"
  | connectionRefused => "ConnectionRefused"
  | connectionReset => "ConnectionReset"
  | hostUnreachable => "HostUnreachable"
  | networkUnreachable => "NetworkUnreachable"
  | connectionAborted => "ConnectionAborted"
  | notConnected => "NotConnected"
  | addrInUse => "AddrInUse"
  | addrNotAvailable => "AddrNotAvailable"
  | networkDown => "NetworkDown"
  | brokenPipe => "BrokenPipe"
  | alreadyExists => "AlreadyExists"
  | wouldBlock => "WouldBlock"
  | notADirectory => "NotADirectory"
  | isADirectory => "IsADirectory"
  | directoryNotEmpty => "DirectoryNotEmpty"
  | readOnlyFilesystem => "ReadOnlyFilesystem"
  | staleNetworkFileHandle => "StaleNetworkFileHandle"
  | invalidInput => "InvalidInput"
  | invalidData => "InvalidData"
  | timedOut => "TimedOut"
  | writeZero => "WriteZero"
  | storageFull => "StorageFull"
  | notSeekable => "NotSeekable"
  | quotaExceeded => "QuotaExceeded"
  | fileTooLarge => "FileTooLarge"
  | resourceBusy => "ResourceBusy"
  | executableFileBusy => "ExecutableFileBusy"
  | deadlock => "Deadlock"
  | crossesDevices => "CrossesDevices"
  | tooManyLinks => "TooManyLinks"
  | invalidFilename => "InvalidFilename"
  | argumentListTooLong => "ArgumentListTooLong"
  | interrupted => "Interrupted"
  | unsupported => "Unsupported"
  | unexpectedEof => "UnexpectedEof"
  | outOfMemory => "OutOfMemory"
  | other => "Other"

theorem mem_all (k : IoKind) : k ∈ all := by
  cases k <;> decide

end IoKind

/-- Port errors can be described. -/
class PortError (ε : Type) where
  describe : ε → String

instance : PortError IoKind := ⟨IoKind.name⟩

/-- Why an operation on the target failed; `ε` is what the serial port reports. -/
inductive Error (ε : Type) where
  /-- The port failed. -/
  | serial (e : ε)
  /-- The monitor did not answer in time. -/
  | responseTimeout (expected received : Nat)
  /-- The port failed at a stage. -/
  | transfer (stage : Stage) (e : ε)
  /-- The monitor did not answer in time at a stage. -/
  | transferTimeout (stage : Stage) (expected received : Nat)
  /-- The chip is not in the table. -/
  | unknownChip (id : Word)
  /-- The image has more bytes than flash. -/
  | imageTooLarge (size capacity : Nat)
  /-- There is no such page. -/
  | pageOutOfRange (page pages : Nat)
  /-- A flash command met a locked page. -/
  | flashLock (plane : Nat) (stage : Stage)
  /-- A plane never became ready. -/
  | flashCommandTimeout (plane : Nat) (stage : Stage) (tries : Word)
  /-- The image could not be read to its end. -/
  | io (kind : IoKind)
  deriving DecidableEq, Repr

namespace Error

variable {ε : Type}

/-- The message of an error. -/
def message [PortError ε] : Error ε → String
  | serial e => "serial error: " ++ PortError.describe e
  | responseTimeout expected received =>
    "response timeout (received " ++ toString received ++ " of " ++ toString expected ++ " bytes)"
  | transfer stage e => "serial error at " ++ stage.text ++ ": " ++ PortError.describe e
  | transferTimeout stage expected received =>
    "response timeout at " ++ stage.text ++ " (received " ++ toString received ++ " of " ++
      toString expected ++ " bytes)"
  | unknownChip id => "unknown chip id 0x" ++ Hex.word id
  | imageTooLarge size capacity =>
    "image of " ++ toString size ++ " bytes exceeds flash capacity of " ++ toString capacity ++
      " bytes"
  | pageOutOfRange page pages =>
    "page " ++ toString page ++ " is out of range (" ++ toString pages ++ " pages)"
  | flashLock plane stage =>
    "flash lock error on plane " ++ toString plane ++ " at " ++ stage.text
  | flashCommandTimeout plane stage tries =>
    "flash command timeout on plane " ++ toString plane ++ " at " ++ stage.text ++ " after " ++
      toString tries ++ " polls"
  | io kind => "error reading image: " ++ kind.name

/-- Adds the stage to a link failure that has none. -/
def during (stage : Stage) : Error ε → Error ε
  | serial e => transfer stage e
  | responseTimeout expected received => transferTimeout stage expected received
  | e => e

/-- A link failure without a stage. -/
def IsBareLink : Error ε → Prop
  | serial _ => True
  | responseTimeout .. => True
  | _ => False

theorem during_during (s t : Stage) (e : Error ε) : (e.during s).during t = e.during s := by
  cases e <;> rfl

theorem during_eq_self_iff (s : Stage) (e : Error ε) : e.during s = e ↔ ¬ e.IsBareLink := by
  cases e <;> simp [during, IsBareLink]

theorem not_isBareLink_during (s : Stage) (e : Error ε) : ¬ (e.during s).IsBareLink := by
  cases e <;> simp [during, IsBareLink]

end Error

/-- How an operation can stop short: with an error of the session, or because an exact computation
has no result. -/
inductive Failure (ε : Type) where
  | error (e : Error ε)
  | fault (f : ArithmeticFault)
  deriving DecidableEq, Repr

namespace Failure

variable {ε : Type}

/-- What is reported of a failed operation. -/
def message [PortError ε] : Failure ε → String
  | error e => e.message
  | fault f => f.message

/-- Adds the stage to a link failure that has none. -/
def during (stage : Stage) : Failure ε → Failure ε
  | error e => error (e.during stage)
  | fault f => fault f

theorem during_during (s t : Stage) (f : Failure ε) :
    (f.during s).during t = f.during s := by
  cases f with
  | error e => exact congrArg error (Error.during_during s t e)
  | fault f => rfl

end Failure

end SamFlash
