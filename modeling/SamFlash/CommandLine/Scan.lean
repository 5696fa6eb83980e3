/-!
# Scanning a command line

A command line is a list of words. An option is `--name`; one that takes a value has it in the same
word after `=`, or in the word that follows. More than two hyphens in front count as two, and
further `=` signs in front of a value are dropped. A word that follows an option is its value unless
it starts with a hyphen; a hyphen alone is a value. After the word `--` everything is taken as it
is. There are no positional arguments, so a word that is neither an option nor a value is refused.

An option that has a default may be given without its value and then keeps the default. Every
option may be given once.
-/

namespace SamFlash.CommandLine

/-- What may follow an option. -/
inductive Kind where
  /-- Nothing; a value in the same word is ignored. -/
  | flag
  /-- A value, which has a default. -/
  | defaulted
  /-- A value, which has no default. -/
  | mandatory
  deriving DecidableEq, Repr

/-- The options that are known. -/
abbrev Grammar := List (String × Kind)

/-- Why a command line is refused, or what it asks for instead of a run. -/
inductive UsageError where
  | unexpected (argument : String)
  | invalidValue (name reason : String)
  | missingValue (name : String)
  | repeated (name : String) (kind : Kind)
  | help
  | version
  deriving DecidableEq, Repr

/-- How an option is shown. -/
def Kind.shown (kind : Kind) (name : String) : String :=
  match kind with
  | flag => "--" ++ name
  | _ => "--" ++ name ++ " <" ++ name ++ ">"

/-- What is reported of a command line that is refused. -/
def UsageError.message : UsageError → String
  | unexpected argument =>
    "error: Found argument '" ++ argument ++
      "' which wasn't expected, or isn't valid in this context"
  | invalidValue name reason =>
    "error: Invalid value for '" ++ Kind.defaulted.shown name ++ "': " ++ reason
  | missingValue name =>
    "error: The argument '" ++ Kind.mandatory.shown name ++
      "' requires a value but none was supplied"
  | repeated name kind =>
    "error: The argument '" ++ kind.shown name ++
      "' was provided more than once, but cannot be used multiple times"
  | help => "error: help was asked for"
  | version => "error: the version was asked for"

/-- What a word looks like. -/
inductive Shape where
  /-- Two hyphens alone. -/
  | separator
  /-- `--name` or `--name=value`. -/
  | long (name : String) (value : Option String)
  /-- A hyphen and a letter, and whatever follows. -/
  | short (letter : Char)
  /-- Anything else. -/
  | plain
  deriving DecidableEq, Repr

/-- What a word looks like. -/
def Shape.ofWord (word : String) : Shape :=
  match word.toList with
  | ['-', '-'] => separator
  | '-' :: '-' :: cs =>
    let body := cs.dropWhile (· == '-')
    let name := String.ofList (body.takeWhile (· != '='))
    match body.dropWhile (· != '=') with
    | [] => long name none
    | _ :: value => long name (some (String.ofList (value.dropWhile (· == '='))))
  | '-' :: c :: _ => short c
  | _ => plain

/-- An option that was given. -/
structure Occurrence where
  name : String
  value : Option String
  deriving DecidableEq, Repr

/-- The options that were given, in order, and the one at the end that still waits for its value. -/
structure Scan where
  given : List Occurrence
  unfinished : Option String
  deriving DecidableEq, Repr

namespace Scan

/-- Puts an option in front. -/
def push (o : Occurrence) (s : Scan) : Scan := { s with given := o :: s.given }

/-- Puts the option that waited for a value in front, without one. -/
def pushWaiting (waiting : Option String) (s : Scan) : Scan :=
  match waiting with
  | some name => s.push ⟨name, none⟩
  | none => s

/-- How often an option was given. -/
def count (s : Scan) (name : String) : Nat := s.given.countP fun o => o.name == name

/-- The values that an option was given. -/
def values (s : Scan) (name : String) : List String :=
  s.given.filterMap fun o => if o.name == name then o.value else none

end Scan

/-- Scans the words; `waiting` is the option that may take the next word as its value. -/
def scan (g : Grammar) : (waiting : Option String) → List String → Except UsageError Scan
  | waiting, [] => .ok { given := (waiting.map fun name => ⟨name, none⟩).toList, unfinished := waiting }
  | waiting, word :: words =>
    match Shape.ofWord word with
    | .separator =>
      match words with
      | [] => .ok { given := (waiting.map fun name => ⟨name, none⟩).toList, unfinished := waiting }
      | next :: _ => .error (.unexpected next)
    | .long name value =>
      match g.lookup name, value with
      | some .flag, _ =>
        (scan g none words).map fun s => (s.push ⟨name, none⟩).pushWaiting waiting
      | some _, some value =>
        (scan g none words).map fun s => (s.push ⟨name, some value⟩).pushWaiting waiting
      | some _, none => (scan g (some name) words).map (Scan.pushWaiting waiting)
      | none, _ =>
        if name = "help" then .error .help
        else if name = "version" then .error .version
        else .error (.unexpected ("--" ++ name))
    | .short letter =>
      if letter = 'h' then .error .help
      else if letter = 'V' then .error .version
      else .error (.unexpected (String.ofList ['-', letter]))
    | .plain =>
      match waiting with
      | some name => (scan g none words).map (Scan.push ⟨name, some word⟩)
      | none => .error (.unexpected word)

namespace Scan

variable {α : Type}

/-- The value of an option, read in its own way. -/
def value? (s : Scan) (name : String) (kind : Kind) (read : String → Except String α) :
    Except UsageError (Option α) := do
  let values ← (s.values name).mapM fun v => (read v).mapError (UsageError.invalidValue name)
  if 1 < s.count name then .error (.repeated name kind) else .ok values.head?

/-- The value of an option that has a default. -/
def valueOr (s : Scan) (name : String) (default : α) (read : String → Except String α) :
    Except UsageError α :=
  (s.value? name .defaulted read).map (·.getD default)

/-- The value of an option that has no default; it cannot be given without one. -/
def mandatoryValue? (s : Scan) (name : String) : Except UsageError (Option String) :=
  if s.count name ≠ 0 ∧ s.values name = [] then .error (.missingValue name)
  else s.value? name .mandatory .ok

/-- A flag was given. -/
def flag (s : Scan) (name : String) : Except UsageError Bool :=
  if 1 < s.count name then .error (.repeated name .flag) else .ok (s.count name != 0)

/-- The option at the end may wait for a value only if it has a default or had a value before. -/
def complete (s : Scan) (g : Grammar) : Except UsageError Unit :=
  match s.unfinished with
  | some name =>
    if g.lookup name = some .mandatory ∧ s.values name = [] then .error (.missingValue name)
    else .ok ()
  | none => .ok ()

end Scan

end SamFlash.CommandLine
