import EmailMarkup.Component.Registry
import EmailMarkup.Direction
import EmailMarkup.Include.Basic
import EmailMarkup.Template.Basic
/-!
# Configuration

What a caller can choose. Limits are checked once, before anything is compiled.
-/
namespace EmailMarkup

/-- The settings of a compiler. Includes are asked for in the monad `m`. -/
structure Configuration (m : Type → Type) where
  /-- The largest template or include, and how deep elements and includes may nest. -/
  limits : Include.Limits := { inputSize := 1048576, nestingDepth := Template.defaultMaxDepth }
  /-- Whether attribute values are escaped and links that run scripts are taken out. -/
  sanitize : Bool := true
  language : String := "und"
  direction : Direction := .auto
  /-- Where includes come from. Without a resolver they stay. -/
  resolver : Option (Include.Resolver m) := none
  /-- Components of the caller's, one for each tag. -/
  components : List (String × Custom) := []

namespace Configuration

variable {m : Type → Type}

/-- Sets the language. A blank one is undetermined. -/
def withLanguage (c : Configuration m) (language : String) : Configuration m :=
  { c with language := if Text.isBlankText language then "und" else language }

def addComponent (c : Configuration m) (tag : String) (custom : Custom) : Configuration m :=
  { c with components := (tag, custom) :: c.components.filter fun e => e.1 != tag }

/-- The limits by name. -/
def namedLimits (c : Configuration m) : List (String × Nat) :=
  [("max_input_size", c.limits.inputSize), ("max_nesting_depth", c.limits.nestingDepth),
    ("max_include_depth", c.limits.includeDepth)]

/-- Why a configuration cannot be used: a limit of zero, or a component with a blank tag. -/
def fault? (c : Configuration m) : Option SettingFault :=
  match c.namedLimits.find? fun l => l.2 == 0 with
  | some (name, _) => some (.zeroLimit name)
  | none => (c.components.find? fun e => Text.isBlankText e.1).map fun e => .blankTag e.1

/-- Refuses a configuration that cannot be used. -/
def check (c : Configuration m) : Except Error (Configuration m) :=
  match c.fault? with
  | some fault => .error (.setting fault)
  | none => .ok c

/-- The registry of a compiler with this configuration. Nothing more can be added to it. -/
def registry (c : Configuration m) : Registry := ⟨c.components, true⟩

def shown (c : Configuration m) : String :=
  let fields := c.namedLimits.map (fun (name, limit) => (name, toString limit)) ++
    [("sanitize_output", toString c.sanitize), ("language", Text.literal c.language),
      ("direction", c.direction.shown), ("resolver", toString c.resolver.isSome),
      ("custom_components", Registry.shownList c.registry.tags)]
  "Configuration \x7b " ++ ", ".intercalate (fields.map fun (name, value) => name ++ ": " ++ value) ++
    " \x7d"

end Configuration

end EmailMarkup
