import EmailMarkup.Direction
/-!
# Command line arguments

Options can stand anywhere, and at most once each. The value of a long option follows it or is
attached by `=`; that of a short one follows it or is attached as it is. Short options without values
can be written together. After `--` nothing is an option.
-/
namespace EmailMarkup.CommandLine

/-! ## Options -/

inductive Switch where
  | output
  | config
  | includeRoot
  | noSanitize
  | lang
  | dir
  | json
  | verbose
  | help
  | version
  deriving DecidableEq, Repr

namespace Switch

def all : List Switch :=
  [output, config, includeRoot, noSanitize, lang, dir, json, verbose, help, version]

def long : Switch → String
  | output => "output"
  | config => "config"
  | includeRoot => "include-root"
  | noSanitize => "no-sanitize"
  | lang => "lang"
  | dir => "dir"
  | json => "json"
  | verbose => "verbose"
  | help => "help"
  | version => "version"

def short? : Switch → Option Char
  | output => some 'o'
  | verbose => some 'v'
  | help => some 'h'
  | version => some 'V'
  | _ => none

def takesValue : Switch → Bool
  | output | config | includeRoot | lang | dir => true
  | _ => false

/-- Whether an option can have this value: a path is not empty, and a direction is known. -/
def accepts (s : Switch) (value : String) : Bool :=
  match s with
  | output | config | includeRoot => !value.isEmpty
  | dir => (Direction.parse? value).isSome
  | _ => true

def ofLong? (name : String) : Option Switch := all.find? fun s => s.long == name

def ofShort? (c : Char) : Option Switch := all.find? fun s => s.short? == some c

end Switch

/-! ## Commands -/

/-- What is to be compiled, and how. -/
structure Command where
  /-- The path of the template; `-` is the standard input. -/
  input : String
  output : Option String := none
  config : Option String := none
  includeRoot : Option String := none
  sanitize : Bool := true
  language : Option String := none
  direction : Option Direction := none
  json : Bool := false
  verbose : Bool := false
  deriving DecidableEq, Repr

/-- Why arguments are not understood. -/
inductive UsageFault where
  | unknown (argument : String)
  | repeated (option : Switch)
  | withoutValue (option : Switch)
  | needlessValue (option : Switch)
  | badValue (option : Switch) (value : String)
  | noInput
  deriving DecidableEq, Repr

def UsageFault.message : UsageFault → String
  | unknown argument => s!"unexpected argument '{argument}' found"
  | repeated option => s!"the argument '--{option.long}' cannot be used multiple times"
  | withoutValue option => s!"a value is required for '--{option.long}' but none was supplied"
  | needlessValue option => s!"unexpected value for '--{option.long}' found; no more were expected"
  | badValue option value => s!"invalid value '{value}' for '--{option.long}'"
  | noInput => "the following required arguments were not provided: <INPUT>"

/-- Why reading the arguments ends before a command is known. -/
inductive Stop where
  | help
  | version
  | fault (f : UsageFault)
  deriving DecidableEq, Repr

/-! ## Reading -/

/-- What the arguments read so far say. -/
structure Reading where
  input : Option String := none
  /-- The options with their values, the last one first. -/
  given : List (Switch × String) := []
  /-- The option that still waits for its value. -/
  pending : Option Switch := none
  /-- Whether nothing more is an option. -/
  literal : Bool := false

namespace Reading

/-- Refuses to go on while an option waits for its value. -/
def settled (r : Reading) : Except Stop Unit :=
  match r.pending with
  | some s => .error (.fault (.withoutValue s))
  | none => .ok ()

def give (r : Reading) (s : Switch) (value : String) : Except Stop Reading :=
  if (r.given.lookup s).isSome then .error (.fault (.repeated s))
  else if !s.accepts value then .error (.fault (.badValue s value))
  else .ok { r with given := (s, value) :: r.given, pending := none }

def flag (r : Reading) (s : Switch) : Except Stop Reading :=
  match s with
  | .help => .error .help
  | .version => .error .version
  | s => r.give s ""

/-- Reads what is no option. -/
def positional (r : Reading) (argument : String) : Except Stop Reading :=
  if r.input.isSome then .error (.fault (.unknown argument)) else .ok { r with input := some argument }

/-- Reads a long option, given by what follows its dashes. -/
def long (r : Reading) (text : String) : Except Stop Reading := do
  let name := text.toList.takeWhile (· != '=')
  let value := text.toList.drop name.length
  match Switch.ofLong? (String.ofList name) with
  | none => throw (.fault (.unknown ("--" ++ text)))
  | some s =>
    r.settled
    match s.takesValue, value with
    | true, [] => return { r with pending := some s }
    | true, _ :: value => r.give s (String.ofList value)
    | false, [] => r.flag s
    | false, _ :: _ => throw (.fault (.needlessValue s))

/-- Reads short options, given by what follows their dash. -/
def short (r : Reading) : List Char → Except Stop Reading
  | [] => .ok r
  | c :: rest => do
    match Switch.ofShort? c with
    | none => throw (.fault (.unknown s!"-{c}"))
    | some s =>
      r.settled
      if s.takesValue then
        match rest with
        | [] => return { r with pending := some s }
        | '=' :: value => r.give s (String.ofList value)
        | value => r.give s (String.ofList value)
      else short (← r.flag s) rest

def step (r : Reading) (argument : String) : Except Stop Reading :=
  if r.literal then r.positional argument
  else match argument.toList with
    | ['-', '-'] => do
      r.settled
      return { r with literal := true }
    | '-' :: '-' :: rest => r.long (String.ofList rest)
    | '-' :: c :: rest => r.short (c :: rest)
    | _ =>
      match r.pending with
      | some s => r.give s argument
      | none => r.positional argument

def command (r : Reading) : Except Stop Command := do
  r.settled
  match r.input with
  | none => throw (.fault .noInput)
  | some input =>
    let value (s : Switch) : Option String := r.given.lookup s
    return {
      input
      output := value .output
      config := value .config
      includeRoot := value .includeRoot
      sanitize := (value .noSanitize).isNone
      language := value .lang
      direction := (value .dir).bind Direction.parse?
      json := (value .json).isSome
      verbose := (value .verbose).isSome }

end Reading

def parse (arguments : List String) : Except Stop Command := do
  (← arguments.foldlM Reading.step {}).command

end EmailMarkup.CommandLine
