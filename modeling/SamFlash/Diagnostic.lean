import SamFlash.Error
import SamFlash.FlashController
import SamFlash.Text.ByteSize

/-!
# Diagnostics

What the library and its command line report while they work. A diagnostic is a value; its level
and its text are functions of it, so a listener that does not want a level never builds the text.

Results:
* `LogFilter.admits_mono`: a more verbose filter admits whatever a less verbose one does.
-/

namespace SamFlash

/-- How much a diagnostic matters. -/
inductive Level where
  | error
  | warn
  | info
  | debug
  | trace
  deriving DecidableEq, Repr

namespace Level

/-- All levels, the most important first. -/
def all : List Level := [error, warn, info, debug, trace]

/-- The position of a level; a larger one is more verbose. -/
def rank : Level → Nat
  | error => 1
  | warn => 2
  | info => 3
  | debug => 4
  | trace => 5

/-- The name of a level in lower case. -/
def name : Level → String
  | error => "error"
  | warn => "warn"
  | info => "info"
  | debug => "debug"
  | trace => "trace"

/-- The name of a level in upper case. -/
def label : Level → String
  | error => "ERROR"
  | warn => "WARN"
  | info => "INFO"
  | debug => "DEBUG"
  | trace => "TRACE"

end Level

/-- Which levels are wanted: none, or all up to the given one. -/
structure LogFilter where
  most : Option Level
  deriving DecidableEq, Repr

namespace LogFilter

/-- The number of levels that pass. -/
def rank (f : LogFilter) : Nat :=
  match f.most with
  | none => 0
  | some l => l.rank

/-- The level passes the filter. -/
def admits (f : LogFilter) (l : Level) : Bool := l.rank ≤ f.rank

theorem admits_mono {f g : LogFilter} (h : f.rank ≤ g.rank) {l : Level}
    (hl : f.admits l = true) : g.admits l = true := by
  unfold admits at *
  rw [decide_eq_true_iff] at *
  exact Nat.le_trans hl h

/-- The filter with the given name, in any mixture of letter cases. -/
def ofName? (s : String) : Option LogFilter :=
  let t := s.toLower
  if t = "off" then some ⟨none⟩
  else (Level.all.find? fun l => l.name == t).map fun l => ⟨some l⟩

end LogFilter

/-- An event worth reporting. -/
inductive Diagnostic where
  -- the link and the monitor
  | binaryModeRequested
  | acknowledgementMissing (received : Nat)
  | receiveTimeout (received expected : Nat)
  | wordRead (addr value : Word)
  | wordWritten (addr value : Word)
  | blockWritten (addr : Word) (count : Nat)
  | branched (addr : Word)
  | armVector (vector : Word)
  | cortexVector (vector : Word)
  -- the word copy applet
  | appletLoading (base : Word)
  | appletStack (value : Word)
  | appletWords (value : Word)
  | appletSource (value : Word)
  | appletDestination (value : Word)
  | appletRun
  -- the programming session
  | connecting
  | chipUnknown (id : Word)
  | chipFound (name : String) (id : Word)
  | imageTooLarge (size capacity : Nat)
  | imageEmpty
  | writing (size pages : Nat) (chip : String)
  | imageEnded (read size : Nat)
  | padding (page count : Nat)
  | pageStaged (page : Nat) (addr buffer : Word)
  | flashCommand (plane : Nat) (command : FlashCommand) (arg : Word)
  | lockError (plane : Nat) (stage : Stage)
  | commandTimeout (plane : Nat) (stage : Stage)
  | bootSource (fromFlash : Bool)
  | settling (ms : Word)
  | programmingComplete
  -- the command line
  | openingPort
  | contactingMonitor
  | chipName (name : String) (id : Word)
  | flashLayout (capacity : Nat) (base : Word) (pages pageSize planes lockRegions : Nat)
  | fileOpened (path : String) (size : Nat)
  | programmingFailed (message : String)
  | finished
  deriving DecidableEq, Repr

namespace Diagnostic

/-- How much the event matters. -/
def level : Diagnostic → Level
  | binaryModeRequested => .debug
  | acknowledgementMissing _ => .warn
  | receiveTimeout .. => .error
  | wordRead .. => .trace
  | wordWritten .. => .trace
  | blockWritten .. => .trace
  | branched _ => .trace
  | armVector _ => .debug
  | cortexVector _ => .debug
  | appletLoading _ => .debug
  | appletStack _ => .trace
  | appletWords _ => .trace
  | appletSource _ => .trace
  | appletDestination _ => .trace
  | appletRun => .trace
  | connecting => .debug
  | chipUnknown _ => .error
  | chipFound .. => .info
  | imageTooLarge .. => .error
  | imageEmpty => .warn
  | writing .. => .info
  | imageEnded .. => .error
  | padding .. => .debug
  | pageStaged .. => .debug
  | flashCommand .. => .debug
  | lockError .. => .error
  | commandTimeout .. => .error
  | bootSource _ => .info
  | settling _ => .debug
  | programmingComplete => .info
  | openingPort => .info
  | contactingMonitor => .info
  | chipName .. => .info
  | flashLayout .. => .info
  | fileOpened .. => .info
  | programmingFailed _ => .error
  | finished => .info

/-- A word with its marker. -/
def word (w : Word) : String := "0x" ++ Hex.word w

/-- What is reported of the event. -/
def text : Diagnostic → String
  | binaryModeRequested => "Switching monitor to binary mode"
  | acknowledgementMissing received =>
    "Binary mode ack missing (" ++ toString received ++ " bytes received)"
  | receiveTimeout received expected =>
    "Receive timeout (" ++ toString received ++ " of " ++ toString expected ++ " bytes)"
  | wordRead addr value => "read_word(addr=" ++ word addr ++ ")=" ++ word value
  | wordWritten addr value => "write_word(addr=" ++ word addr ++ ", " ++ word value ++ ")"
  | blockWritten addr count =>
    "write_block(addr=" ++ word addr ++ ", count=" ++ toString count ++ ")"
  | branched addr => "go(addr=" ++ word addr ++ ")"
  | armVector vector => "ARM7 reset vector " ++ word vector ++ ", reading SAM7 chip id"
  | cortexVector vector => "Cortex-M reset vector " ++ word vector ++ ", reading SAM3 chip id"
  | appletLoading base => "Loading word copy applet at " ++ word base
  | appletStack value => "set_stack(" ++ word value ++ ")"
  | appletWords value => "set_words(" ++ word value ++ ")"
  | appletSource value => "set_source(" ++ word value ++ ")"
  | appletDestination value => "set_destination(" ++ word value ++ ")"
  | appletRun => "run()"
  | connecting => "Connecting to monitor"
  | chipUnknown id => "Unknown chip id " ++ word id
  | chipFound name id => "Found " ++ name ++ " (chip id " ++ word id ++ ")"
  | imageTooLarge size capacity =>
    "Image too large: " ++ toString size ++ " > " ++ toString capacity ++ " bytes"
  | imageEmpty => "Empty image, leaving flash and boot source untouched"
  | writing size pages chip =>
    "Writing " ++ toString size ++ " bytes (" ++ toString pages ++ " pages) to " ++ chip
  | imageEnded read size =>
    "Image ended after " ++ toString read ++ " of " ++ toString size ++ " bytes"
  | padding page count =>
    "Padding page " ++ toString page ++ " with " ++ toString count ++ " bytes"
  | pageStaged page addr buffer =>
    "Page " ++ toString page ++ " -> " ++ word addr ++ " via " ++ word buffer
  | flashCommand plane command arg =>
    "FCR" ++ toString plane ++ " " ++ command.name ++ " 0x" ++ Hex.plain arg.toNat
  | lockError plane stage =>
    "Flash lock error on plane " ++ toString plane ++ " at " ++ stage.text
  | commandTimeout plane stage =>
    "Flash command timeout on plane " ++ toString plane ++ " at " ++ stage.text
  | bootSource fromFlash => "Setting boot source to " ++ if fromFlash then "flash" else "ROM"
  | settling ms => "Waiting " ++ toString ms ++ " ms for boot flag to latch"
  | programmingComplete => "Programming complete"
  | openingPort => "Connecting to serial port"
  | contactingMonitor => "Connecting to monitor"
  | chipName name id => "Chip: " ++ name ++ " (id: " ++ Hex.word id ++ ")"
  | flashLayout capacity base pages pageSize planes lockRegions =>
    "Flash: " ++ ByteSize.text capacity ++ " at " ++ word base ++ " (" ++ toString pages ++
      " pages of " ++ toString pageSize ++ " bytes, " ++ toString planes ++ " plane(s), " ++
      toString lockRegions ++ " lock regions)"
  | fileOpened path size => "Writing " ++ path ++ " (" ++ ByteSize.text size ++ ")"
  | programmingFailed message => "Programming failed: " ++ message
  | finished => "Done"

end Diagnostic

end SamFlash
