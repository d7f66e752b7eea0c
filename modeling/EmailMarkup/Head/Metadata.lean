import EmailMarkup.Layout.Length
import EmailMarkup.Text.Blank
/-!
# What the head says about a mail
-/
namespace EmailMarkup.Head

/-- Title, preview and the other values that hold for the whole mail. -/
structure Metadata where
  title : String := ""
  preview : String := ""
  /-- The width below which columns stack, as written. -/
  breakpoint : String := "480px"
  /-- The width of the body in pixels. -/
  width : Nat := 600
  /-- The background of the body. -/
  background : String := ""
  /-- Comments of the head. -/
  comments : List String := []
  /-- What goes before everything else. -/
  fileStart : List String := []
  /-- Markup that goes to the end of the head. -/
  raw : List String := []
  deriving DecidableEq, Repr, Inhabited

namespace Metadata

def breakpointPixels (m : Metadata) : Int := Layout.wholePixels m.breakpoint 480

/-- Sets the breakpoint, unless the new one is blank. -/
def setBreakpoint (m : Metadata) (breakpoint : String) : Metadata :=
  match Text.trim breakpoint with
  | "" => m
  | breakpoint => { m with breakpoint }

def addComment (m : Metadata) (comment : String) : Metadata :=
  { m with comments := m.comments ++ [comment] }

/-- Adds to what goes before everything else. -/
def addFileStart (m : Metadata) (content : String) : Metadata :=
  if content.isEmpty then m else { m with fileStart := m.fileStart ++ [content] }

/-- Adds markup for the end of the head, unless it is blank. -/
def addRaw (m : Metadata) (markup : String) : Metadata :=
  if Text.isBlankText markup then m else { m with raw := m.raw ++ [markup] }

end Metadata

end EmailMarkup.Head
