import SamFlash.CommandLine.Session

/-!
# The program

The outer layer: it holds the dialogue of a run with a serial port, a file and the console. A task
of its own waits for received bytes, so that looking for one never blocks. The speed of the line is
left as the system has it; the other settings are those of a line in raw mode.
-/

namespace SamFlash.Console

/-- What the program works with. -/
structure Host where
  filter : LogFilter
  port : IO.Ref (Option IO.FS.Handle)
  /-- Received bytes that nobody has looked for yet. -/
  inbox : IO.Ref (List UInt8)
  /-- The rest of the image. -/
  image : IO.Ref (List UInt8)

/-- The kind of a failure of the system. -/
def kindOf : IO.Error → IoKind
  | .noFileOrDirectory .. => .notFound
  | .permissionDenied .. => .permissionDenied
  | .alreadyExists .. => .alreadyExists
  | .timeExpired .. => .timedOut
  | .interrupted .. => .interrupted
  | .inappropriateType .. => .isADirectory
  | .invalidArgument .. => .invalidInput
  | .resourceVanished .. => .brokenPipe
  | .unexpectedEof .. => .unexpectedEof
  | .unsupportedOperation .. => .unsupported
  | _ => .other

/-- The text and number of a failure of the system. -/
def faultOf : IO.Error → SystemFault
  | .noFileOrDirectory _ code _ => ⟨"No such file or directory", code.toNat⟩
  | .permissionDenied _ code _ => ⟨"Permission denied", code.toNat⟩
  | .inappropriateType _ code details => ⟨details, code.toNat⟩
  | .invalidArgument _ code details => ⟨details, code.toNat⟩
  | .noSuchThing _ code details => ⟨details, code.toNat⟩
  | .resourceBusy code details => ⟨details, code.toNat⟩
  | e => ⟨toString e, 0⟩

/-- Moves received bytes to the inbox, for as long as the port gives any. -/
partial def collect (port : IO.FS.Handle) (inbox : IO.Ref (List UInt8)) : IO Unit := do
  let bytes ← port.read 1
  if bytes.size ≠ 0 then
    inbox.modify (· ++ bytes.toList)
    collect port inbox

/-- Does something with the open port. -/
def Host.withPort {α : Type} (h : Host) (use : IO.FS.Handle → IO α) : IO (Except IoKind α) := do
  match ← h.port.get with
  | none => return .error .notConnected
  | some port => try return .ok (← use port) catch e => return .error (kindOf e)

/-- Shows a diagnostic: errors where errors go, the others where output goes. -/
def Host.show (h : Host) (d : Diagnostic) : IO Unit := do
  if h.filter.admits d.level then
    let line := "[" ++ d.level.label ++ "] " ++ d.text
    if d.level = .error then IO.eprintln line else IO.println line

/-- Answers a request. -/
def Host.answer (h : Host) : (r : Request) → IO (r.Answer IoKind)
  | .write b => do
    match ← h.withPort fun port => port.write (ByteArray.mk #[b]) with
    | .ok _ => return .accepted
    | .error kind => return .failed kind
  | .flush => do
    match ← h.withPort fun port => port.flush with
    | .ok _ => return .accepted
    | .error kind => return .failed kind
  | .read => do
    match ← h.inbox.get with
    | [] => return .notReady
    | b :: _ =>
      h.inbox.modify List.tail
      return .byte b
  | .delay ms => IO.sleep ms
  | .log d => h.show d
  | .progress _ => return ()
  | .image limit => do
    let rest ← h.image.get
    h.image.set (rest.drop limit)
    return .bytes (rest.take limit) (List.length_take_le limit rest)
  | .openPort path => do
    try
      let port ← IO.FS.Handle.mk path .readWrite
      h.port.set (some port)
      let _ ← IO.asTask (collect port h.inbox) .dedicated
      return .ok ()
    catch e => return .error (faultOf e)
  | .configure _ => return .ok ()
  | .openImage path => do
    try
      let bytes ← IO.FS.readBinFile path
      h.image.set bytes.toList
      return .ok bytes.size
    catch e => return .error (faultOf e)

/-- Runs the program. -/
def run (a : Arguments) : IO UInt32 := do
  let host : Host :=
    { filter := a.filter, port := ← IO.mkRef none, inbox := ← IO.mkRef [],
      image := ← IO.mkRef [] }
  match ← Dialogue.interpret host.answer (CommandLine.run a).run with
  | .ok _ => return 0
  | .error report =>
    report.forM fun line => IO.eprintln line
    return 1

/-- The options, for whoever asks for help. -/
def usage : String :=
  "options: " ++ String.intercalate " " (Arguments.grammar.map fun p => p.2.shown p.1)

end SamFlash.Console

/-- Runs the program with its arguments. -/
def main (words : List String) : IO UInt32 := do
  match SamFlash.Arguments.parse words with
  | .ok a => SamFlash.Console.run a
  | .error .help =>
    IO.println SamFlash.Console.usage
    return 0
  | .error .version =>
    IO.println "1"
    return 0
  | .error e =>
    IO.eprintln e.message
    return 1
