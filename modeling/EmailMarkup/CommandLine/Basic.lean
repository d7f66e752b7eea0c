import EmailMarkup.CommandLine.Arguments
import EmailMarkup.Compiler
import EmailMarkup.Configuration.File
/-!
# The command line

A run reads a template, compiles it and writes the result. Warnings go to the error stream, and so
does a failure with its causes.
-/
namespace EmailMarkup.CommandLine

open EmailMarkup.Files

/-! ## What a run tells -/

/-- A failure: what could not be done, and why, each cause before its own cause. -/
structure Failure where
  what : String
  causes : List String := []
  deriving DecidableEq, Repr

/-- The messages of an error. One of the file system has the words of the file system as its
cause. -/
def errorChain (e : Error) : List String :=
  match e with
  | .file fault => [e.message, fault.message]
  | _ => [e.message]

def Failure.ofError (e : Error) : Failure :=
  match errorChain e with
  | [] => ⟨"", []⟩
  | what :: causes => ⟨what, causes⟩

/-- A failure that an error caused. -/
def Failure.because (what : String) (e : Error) : Failure := ⟨what, errorChain e⟩

/-- A cause, with its further lines indented. -/
def causeText (first further cause : String) : String :=
  first ++ Text.replace cause "\n" ("\n" ++ further)

/-- The text of causes. They are numbered if there are several. -/
def causesText (causes : List String) : String :=
  match causes with
  | [] => ""
  | [cause] => "\n\nCaused by:\n" ++ causeText "    " "    " cause
  | causes =>
    "\n\nCaused by:" ++ String.join (causes.zipIdx.map fun (cause, i) =>
      "\n" ++ causeText s!"    {i}: " "       " cause)

def Failure.text (f : Failure) : String := "Error: " ++ f.what ++ causesText f.causes ++ "\n"

def warningText (d : Diagnostic) : String :=
  s!"\x1b[1m\x1b[33mwarning:\x1b[39m\x1b[0m \x1b[2m[{d.component}]\x1b[0m {d.message}\n"

def diagnosticJson (d : Diagnostic) : String :=
  "    \x7b\n      \"component\": " ++ Text.json d.component ++ ",\n      \"message\": " ++
    Text.json d.message ++ "\n    \x7d"

def outputJson (o : Output) : String :=
  let diagnostics :=
    if o.diagnostics.isEmpty then "[]"
    else "[\n" ++ ",\n".intercalate (o.diagnostics.map diagnosticJson) ++ "\n  ]"
  "\x7b\n  \"html\": " ++ Text.json o.html ++ ",\n  \"title\": " ++ Text.json o.title ++
    ",\n  \"preview_text\": " ++ Text.json o.preview ++ ",\n  \"diagnostics\": " ++ diagnostics ++
    "\n\x7d"

/-! ## Runs -/

/-- What a run needs of its machine. -/
structure Host (m : Type → Type) where
  files : FileSystem m
  write : (path content : String) → m (Except FileFault Unit)
  input : m (Except FileFault String)

/-- What a run leaves: its exit code, its output, and what it says on the error stream. -/
structure Report where
  code : Nat := 0
  output : String := ""
  errors : String := ""
  deriving DecidableEq, Repr

section

variable {m : Type → Type} [Monad m]

/-- Turns the error of a step into a failure. -/
def attempt {α : Type} (fail : Error → Failure) (x : ExceptT Error m α) : ExceptT Failure m α :=
  ExceptT.adapt fail x

def readInput (h : Host m) (input : String) : ExceptT Failure m String := do
  if input == "-" then
    match ← h.input with
    | .ok source => return source
    | .error fault => throw ⟨"Failed to read stdin", [fault.message]⟩
  else
    match ← h.files.readPath input with
    | .ok source => return source
    | .error fault => throw ⟨s!"Failed to read {input}", [fault.message]⟩

/-- The configuration of a command: the file it names, then its own options on top. -/
def configuration (h : Host m) (c : Command) : ExceptT Failure m (Configuration m) := do
  let config ← match c.config with
    | none => pure {}
    | some path =>
      let file ← attempt (.because s!"Failed to load config {path}") (Configuration.File.load h.files path)
      attempt .ofError (file.apply h.files {})
  let config ← match c.includeRoot with
    | none => pure config
    | some root =>
      let base ← attempt (.because s!"Invalid include root {root}") (Include.baseDirectory h.files root)
      pure { config with resolver := some (Include.fromFiles h.files base) }
  let config := { config with
    sanitize := config.sanitize && c.sanitize
    direction := c.direction.getD config.direction }
  let config := (c.language.map config.withLanguage).getD config
  attempt .ofError (liftM config.check)

/-- Writes the result where the command says. -/
def deliver (h : Host m) (c : Command) (text : String) : ExceptT Failure m String := do
  match c.output with
  | none => return text
  | some path =>
    match ← h.write path text with
    | .ok () => return ""
    | .error fault => throw ⟨s!"Failed to write {path}", [fault.message]⟩

def compile (h : Host m) (c : Command) : ExceptT Failure m Output := do
  let source ← readInput h c.input
  let config ← configuration h c
  attempt (.because s!"Failed to compile {c.input}") (Compiler.compile config source)

def run (h : Host m) (c : Command) : m Report := do
  match ← (compile h c).run with
  | .error failure => return { code := 1, errors := failure.text }
  | .ok o =>
    let warnings := String.join (o.diagnostics.map warningText)
    match ← (deliver h c (if c.json then outputJson o else o.html)).run with
    | .error failure => return { code := 1, errors := warnings ++ failure.text }
    | .ok output => return { output, errors := warnings }

def usage : String := "Usage: quokka [OPTIONS] <INPUT>\n"

def helpText : String :=
  "Quokka: compile responsive email markup to HTML\n\n" ++ usage ++ "\n" ++
  "Arguments:\n" ++
  "  <INPUT>  Template to compile, or `-` for stdin\n\n" ++
  "Options:\n" ++
  "  -o, --output <FILE>       Write the HTML here instead of stdout\n" ++
  "      --config <FILE>       JSON configuration file\n" ++
  "      --include-root <DIR>  Directory `mj-include` paths are resolved against\n" ++
  "      --no-sanitize         Emit attribute values unescaped\n" ++
  "      --lang <LANG>         Document language\n" ++
  "      --dir <DIR>           Document direction: ltr, rtl or auto\n" ++
  "      --json                Print the full result as JSON\n" ++
  "  -v, --verbose             Log debug output to stderr\n" ++
  "  -h, --help                Print help\n" ++
  "  -V, --version             Print version\n\n" ++
  "EXAMPLES:\n" ++
  "    # Compile to stdout\n" ++
  "    quokka newsletter.mjml\n\n" ++
  "    # Compile to a file, resolving mj-include against ./partials\n" ++
  "    quokka newsletter.mjml -o newsletter.html --include-root partials\n\n" ++
  "    # Read stdin, print title, preview, html and diagnostics as JSON\n" ++
  "    cat newsletter.mjml | quokka - --json\n"

/-- Runs the program with the given arguments. -/
def respond (h : Host m) (arguments : List String) : m Report := do
  match parse arguments with
  | .ok c => run h c
  | .error .help => return { output := helpText }
  | .error .version => return { output := "quokka 0.1.0\n" }
  | .error (.fault f) => return { code := 2, errors := s!"error: {f.message}\n\n" ++ usage }

end

end EmailMarkup.CommandLine
