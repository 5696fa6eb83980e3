import SamFlash.CommandLine.Arguments
import SamFlash.Programmer
import SamFlash.Text.Quoted

/-!
# A run of the program

The port is opened and set up, the chip is identified and described, and then, in this order and as
far as it is asked for, an image is written and the ROM is selected as boot source. A failure ends
the run with a report: what was being done, and what went wrong.
-/

namespace SamFlash

/-- The speeds that a serial line can have. -/
def LineSettings.speeds : List Nat :=
  [50, 75, 110, 134, 150, 200, 300, 600, 1200, 1800, 2400, 4800, 9600, 19200, 38400, 57600, 115200,
    230400, 460800, 500000, 576000, 921600, 1000000, 1152000, 1500000, 2000000, 2500000, 3000000,
    3500000, 4000000]

/-- The line of the monitor: eight data bits, one stop bit, no parity and no flow control. -/
def LineSettings.forMonitor (baud : Nat) : LineSettings where
  baud := baud
  dataBits := 8
  stopBits := 1
  parity := false
  hardwareFlow := false
  softwareFlow := false

/-- The text of a system failure with its number. -/
def SystemFault.numbered (f : SystemFault) : String :=
  f.text ++ " (os error " ++ toString f.code ++ ")"

/-- The failure of a setting that is not supported. -/
def SystemFault.invalidArgument : SystemFault := ⟨"Invalid argument", 22⟩

namespace CommandLine

/-- A part of a run, which gives a value or the lines of a report. -/
abbrev Run (α : Type) := ExceptT (List String) (Dialogue IoKind) α

namespace Run

variable {α : Type}

/-- A single request. -/
def request (r : Request) : Run (r.Answer IoKind) :=
  ExceptT.mk (Dialogue.ask r fun a => .done (.ok a))

/-- Reports a diagnostic. -/
def log (d : Diagnostic) : Run Unit := request (.log d)

/-- Ends the run with a report. -/
def fail (report : List String) : Run α := ExceptT.mk (.done (.error report))

/-- Ends the run with a report of what was being done and what went wrong. -/
def failDoing (doing cause : String) : Run α :=
  fail ["Error: " ++ doing, "", "Caused by:", "    " ++ cause]

/-- A value, or the report of what was being done and what went wrong. -/
def orFailDoing (doing : String) : Except String α → Run α
  | .ok a => ExceptT.mk (.done (.ok a))
  | .error cause => failDoing doing cause

/-- An operation of the programmer: its outcome, and the programmer after it. -/
def call (x : Programmer.Call IoKind α) (p : Programmer) :
    Run (Except (Failure IoKind) α × Programmer) :=
  ExceptT.lift (x.run p)

end Run

/-- Opens the port and sets up its line. -/
def openPort (path : String) (baud : Nat) : Run Unit := do
  let doing := "Error connecting to serial port " ++ path
  let opened ← Run.request (.openPort path)
  Run.orFailDoing doing (opened.mapError SystemFault.text)
  if baud ∈ LineSettings.speeds then
    let configured ← Run.request (.configure (.forMonitor baud))
    Run.orFailDoing doing (configured.mapError SystemFault.text)
  else
    Run.failDoing doing SystemFault.invalidArgument.text

/-- Shows what chip it is. -/
def describe (c : Chip) : Run Unit := do
  Run.log (.chipName c.name c.id)
  match c.capacity with
  | .ok capacity =>
    Run.log (.flashLayout capacity c.flashBase c.pages c.pageSize c.planes c.lockRegions)
  | .error f => Run.fail ["Error: " ++ f.message]

/-- Writes the image file. -/
def writeFile (o : Options) (path : String) (p : Programmer) : Run Programmer := do
  let opened ← Run.request (.openImage path)
  let size ← Run.orFailDoing ("Error opening " ++ Text.quoted path)
    (opened.mapError SystemFault.numbered)
  Run.log (.fileOpened path size)
  let (outcome, p) ← Run.call (Programmer.program o size true) p
  match outcome with
  | .ok _ => return p
  | .error f =>
    Run.log (.programmingFailed f.message)
    Run.fail ["Error: " ++ f.message]

/-- Selects the ROM as boot source. -/
def selectRom (o : Options) (p : Programmer) : Run Unit := do
  let (outcome, _) ← Run.call (Programmer.setBootSource o false) p
  Run.orFailDoing "Error setting boot source" (outcome.mapError Failure.message)

/-- The whole run. -/
def run (a : Arguments) : Run Unit := do
  Run.log .openingPort
  openPort a.port a.baud
  Run.log .contactingMonitor
  let (outcome, p) ← Run.call (Programmer.identify a.sessionOptions) {}
  let chip ← Run.orFailDoing "Error connecting to monitor" (outcome.mapError Failure.message)
  describe chip
  if a.info then return
  let p ← match a.file with
    | none => pure p
    | some path => writeFile a.sessionOptions path p
  if a.bootRom then selectRom a.sessionOptions p
  Run.log .finished

end CommandLine

end SamFlash
