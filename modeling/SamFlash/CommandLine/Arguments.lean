import SamFlash.CommandLine.Scan
import SamFlash.Diagnostic
import SamFlash.Options
import SamFlash.Text.Decimal

/-!
# Arguments

The options of the command line and what they mean. The options of a session can be given on their
own, and together with those of the program.

Results:
* `Arguments.sessionOptions_keepBootSource`: a program that selects the ROM itself never lets
  programming select flash.
-/

namespace SamFlash

/-! ## Options of a session -/

namespace Options

/-- The options of a session. -/
def grammar : CommandLine.Grammar :=
  [("response-timeout-ms", .defaulted), ("poll-delay-ms", .defaulted), ("fsr-retries", .defaulted),
    ("fsr-poll-ms", .defaulted), ("settle-ms", .defaulted), ("no-boot-flash", .flag)]

/-- Reads a number of 32 bits. -/
def readWord (s : String) : Except String Word :=
  (Decimal.readWord s).mapError Decimal.Fault.message

/-- The options that were given; the others have their defaults. -/
def ofScan (s : CommandLine.Scan) : Except CommandLine.UsageError Options := do
  let responseTimeout ←
    s.valueOr "response-timeout-ms" ({} : Options).responseTimeout readWord
  let pollDelay ← s.valueOr "poll-delay-ms" ({} : Options).pollDelay readWord
  let statusRetries ← s.valueOr "fsr-retries" ({} : Options).statusRetries readWord
  let statusDelay ← s.valueOr "fsr-poll-ms" ({} : Options).statusDelay readWord
  let settleTime ← s.valueOr "settle-ms" ({} : Options).settleTime readWord
  let keepBootSource ← s.flag "no-boot-flash"
  return { responseTimeout, pollDelay, statusRetries, statusDelay, settleTime, keepBootSource }

/-- The options that a command line of their own gives. -/
def ofArguments (words : List String) : Except CommandLine.UsageError Options := do
  let s ← CommandLine.scan grammar none words
  s.complete grammar
  ofScan s

end Options

/-! ## Options of the program -/

/-- What the program was asked to do. -/
structure Arguments where
  /-- The serial port. -/
  port : String
  /-- Its speed. -/
  baud : Nat
  /-- The image to write, if any. -/
  file : Option String
  /-- Only show what chip it is. -/
  info : Bool
  /-- Make the chip start from the monitor's ROM. -/
  bootRom : Bool
  /-- What is shown of the log. -/
  filter : LogFilter
  options : Options
  deriving DecidableEq, Repr

namespace Arguments

/-- All options. -/
def grammar : CommandLine.Grammar :=
  [("port", .defaulted), ("baud", .defaulted), ("file", .mandatory), ("info", .flag),
    ("boot-rom", .flag)] ++ Options.grammar ++ [("log-level", .defaulted)]

/-- Reads a number of 64 bits. -/
def readSize (s : String) : Except String Nat :=
  (Decimal.readSize s).mapError Decimal.Fault.message

/-- Reads the name of a log level. -/
def readFilter (s : String) : Except String LogFilter :=
  match LogFilter.ofName? s with
  | some f => .ok f
  | none => .error "attempted to convert a string that doesn't match an existing log level"

/-- What a command line asks for. -/
def parse (words : List String) : Except CommandLine.UsageError Arguments := do
  let s ← CommandLine.scan grammar none words
  s.complete grammar
  let port ← s.valueOr "port" "/dev/ttyACM0" .ok
  let baud ← s.valueOr "baud" 115200 readSize
  let file ← s.mandatoryValue? "file"
  let info ← s.flag "info"
  let bootRom ← s.flag "boot-rom"
  let options ← Options.ofScan s
  let filter ← s.valueOr "log-level" ⟨some .info⟩ readFilter
  return { port, baud, file, info, bootRom, filter, options }

/-- The options of the session: when the ROM is asked for, it is selected at the end, and
programming leaves the boot source alone. -/
def sessionOptions (a : Arguments) : Options :=
  if a.bootRom then { a.options with keepBootSource := true } else a.options

theorem sessionOptions_keepBootSource (a : Arguments) (h : a.bootRom = true) :
    a.sessionOptions.keepBootSource = true := by
  simp [sessionOptions, h]

end Arguments

end SamFlash
