import EmailMarkup.Template.Fault
import EmailMarkup.Text.Quoted
/-!
# Errors

Every way in which compiling can fail is a constructor that carries its cause. The wording is in the
`message` functions, the broad kind in `Error.kind`.
-/
namespace EmailMarkup

/-! ## Files -/

/-- Why the file system refused something. -/
inductive FileFault where
  | notFound
  | notDirectory
  | isDirectory
  | nameTooLong
  | nulInName
  | notText
  | other (text : String) (code : Nat)
  deriving DecidableEq, Repr

def FileFault.message : FileFault → String
  | notFound => "No such file or directory (os error 2)"
  | notDirectory => "Not a directory (os error 20)"
  | isDirectory => "Is a directory (os error 21)"
  | nameTooLong => "File name too long (os error 36)"
  | nulInName => "file name contained an unexpected NUL byte"
  | notText => "stream did not contain valid UTF-8"
  | other text code => s!"{text} (os error {code})"

/-! ## Includes -/

/-- Why an include could not be put in its place. -/
inductive IncludeFault where
  | tooDeep (limit : Nat)
  | withoutPath
  | circular (path : String)
  | unknownKind (path declared : String)
  | oversized (path : String) (size limit : Nat)
  | notInMap (path : String)
  | noRoute (path : String)
  | noResolver (path : String)
  | blankPath
  | notFound (path : String)
  | outside (path : String)
  | unreadable (path : String) (fault : FileFault)
  deriving DecidableEq, Repr

namespace IncludeFault

def message : IncludeFault → String
  | tooDeep limit => s!"Maximum include depth exceeded ({limit}). Possible circular include."
  | withoutPath => "mj-include requires a 'path' attribute"
  | circular path => s!"Circular include detected for path: {path}"
  | unknownKind _ declared => s!"Unknown mj-include type: {declared}"
  | oversized path size limit =>
    s!"Included content from '{path}' exceeds maximum size ({size} > {limit} characters)"
  | notInMap path => s!"Template not found in map: {path}"
  | noRoute path => s!"No resolver matched prefix for path: {path}"
  | noResolver path => s!"No resolver found: {path}"
  | blankPath => "Include path cannot be empty"
  | notFound path => s!"Include file not found: {path}"
  | outside _ => "Include path escapes base directory"
  | unreadable path fault => s!"Failed to read include file: {path} ({fault.message})"

/-- The path of the include, for faults that are about one. -/
def path? : IncludeFault → Option String
  | tooDeep _ | withoutPath | blankPath | oversized .. => none
  | circular path | unknownKind path _ | notInMap path | noRoute path | noResolver path
  | notFound path | outside path | unreadable path _ => some path

end IncludeFault

/-! ## Settings -/

/-- Why a setting is refused. -/
inductive SettingFault where
  | zeroLimit (name : String)
  | zeroIncludeDepth
  | zeroIncludeLimit
  | noDelegates
  | zeroLifetime
  | zeroCapacity
  | blankTag (tag : String)
  | frozen (tag : String)
  | invalidFile
  deriving DecidableEq, Repr

def SettingFault.message : SettingFault → String
  | zeroLimit name => s!"{name} must be positive, got 0"
  | zeroIncludeDepth => "max_include_depth must be positive, got: 0"
  | zeroIncludeLimit => "include size and nesting limits must be positive"
  | noDelegates => "At least one resolver is required"
  | zeroLifetime => "ttl must be a positive duration"
  | zeroCapacity => "maxEntries must be greater than 0"
  | blankTag tag => "custom component tag cannot be blank: " ++ Text.literal tag
  | frozen tag => s!"component registry is frozen; cannot register <{tag}>"
  | invalidFile => "invalid configuration file"

/-! ## All errors -/

/-- The broad kind of an error. -/
inductive ErrorKind where
  | markup
  | limit
  | inclusion
  | setting
  | rendering
  | file
  deriving DecidableEq, Repr

def ErrorKind.name : ErrorKind → String
  | markup => "parse"
  | limit => "validation"
  | inclusion => "include"
  | setting => "configuration"
  | rendering => "render"
  | file => "io"

/-- Why compiling failed. -/
inductive Error where
  | template (fault : Template.Fault)
  | oversized (size limit : Nat)
  | inclusion (fault : IncludeFault)
  | setting (fault : SettingFault)
  | rendering (text : String)
  | file (fault : FileFault)
  /-- An error of a resolver that the caller brings, in its own words. -/
  | reported (kind : ErrorKind) (text : String)
  deriving DecidableEq, Repr

namespace Error

/-- The broad kind of an error. A template that nests too deep and a text that is too long exceed a
limit; they are not faults of markup or of an include. -/
def kind : Error → ErrorKind
  | template (.tooDeep _) => .limit
  | template _ => .markup
  | oversized .. => .limit
  | inclusion (.oversized ..) => .limit
  | inclusion _ => .inclusion
  | setting _ => .setting
  | rendering _ => .rendering
  | file _ => .file
  | reported kind _ => kind

def message : Error → String
  | template fault => fault.message
  | oversized size limit => s!"Input size {size} characters exceeds maximum allowed {limit}"
  | inclusion fault => fault.message
  | setting fault => fault.message
  | rendering text => text
  | file fault => "I/O error: " ++ fault.message
  | reported .file text => "I/O error: " ++ text
  | reported _ text => text

/-- Where in a template the error is, when known. -/
def position? : Error → Option Template.Position
  | template fault => fault.position?
  | _ => none

/-- The include path that the error is about, if it is about one. -/
def path? : Error → Option String
  | inclusion fault => fault.path?
  | _ => none

end Error

end EmailMarkup
