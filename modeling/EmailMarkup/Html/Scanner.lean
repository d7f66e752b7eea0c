import EmailMarkup.Html.Document
/-!
# Scanning by byte offsets

The elements of HTML are read once more here, as a program reads them that goes over the bytes of the text: it keeps
an offset, looks at single bytes, and cuts out the text between two offsets. Each of these can go wrong. There is no byte
past the end, and no text to cut out if an offset is past the end or inside a character. A loop that does not end runs
out of fuel. In all these cases there is no result, so `scan?` has one only if nothing goes wrong.

A byte is looked at as the character of its number. Those of ASCII characters stand for themselves, and all others for
characters that the scanner does not tell apart.
-/
namespace EmailMarkup.Html

open EmailMarkup.Text
open Document (byteLength)

/-! ## Bytes -/

/-- The bytes of a text in UTF-8. -/
def bytes (s : List Char) : List UInt8 := s.flatMap String.utf8EncodeChar

/-- The bytes of a text, each as the character of its number. -/
def octets (s : List Char) : List Char := (bytes s).map Char.ofUInt8

def octet? (s : String) (i : Nat) : Option Char := s.toByteArray.data[i]?.map Char.ofUInt8

/-- The text between two offsets that are no further than the end, in this order and between characters. -/
def slice? (s : String) (start stop : Nat) : Option String :=
  if h : String.Pos.Raw.IsValid s ⟨start⟩ ∧ String.Pos.Raw.IsValid s ⟨stop⟩ ∧ start ≤ stop then
    some (String.extract (⟨⟨start⟩, h.1⟩ : s.Pos) ⟨⟨stop⟩, h.2.1⟩)
  else none

def sliceFrom? (s : String) (start : Nat) : Option String := slice? s start s.utf8ByteSize

/-- How many bytes stand before the first `pat`. -/
def find? (pat : List Char) (s : String) : Option Nat := (cut pat s.toList).map fun (before, _) => byteLength before

namespace Scanner

/-! ## Attributes -/

section

variable (html : String)

/-- Goes on from `pos` while it is before `limit` and the byte there is in `p`. -/
def advance? (p : Char → Bool) (limit pos : Nat) : Option Nat :=
  if pos < limit then
    match octet? html pos with
    | none => none
    | some c => if p c then advance? p limit (pos + 1) else some pos
  else some pos
termination_by limit - pos

/-- Whether there is an equals sign before `limit`. -/
def equalsAt? (limit pos : Nat) : Option Bool :=
  if limit ≤ pos then some false else (octet? html pos).map (· == '=')

/-- An attribute value, where it stands if it is quoted, and the offset behind it. -/
def value? (limit pos : Nat) : Option (String × Option (Nat × Nat) × Nat) := do
  let quote ← octet? html pos
  if quote == '"' || quote == '\'' then
    let rest ← slice? html (pos + 1) limit
    let stop := ((octets rest.toList).findIdx? (· == quote)).elim limit (pos + 1 + ·)
    return (← slice? html (pos + 1) stop, some (pos + 1, stop), min (stop + 1) limit)
  else
    let stop ← advance? html (fun c => !isAsciiBlank c && c != '>') limit pos
    return (← slice? html pos stop, none, stop)

/-- The attributes between `pos` and `limit`, and where the quoted `style` value stands, after those that are found
already. -/
def attributes? (limit : Nat) : Nat → Attributes → Option (Nat × Nat) → Nat → Option (Attributes × Option (Nat × Nat))
  | 0, _, _, _ => none
  | fuel + 1, found, style, pos => do
    let start ← advance? html isAsciiBlank limit pos
    if limit ≤ start then return (found, style)
    else
      let stop ← advance? html isNameChar limit start
      if stop = start then attributes? limit fuel found style (start + 1)
      else
        let name := lower (← slice? html start stop)
        let pos ← advance? html isAsciiBlank limit stop
        if ← equalsAt? html limit pos then
          let pos ← advance? html isAsciiBlank limit (pos + 1)
          if limit ≤ pos then attributes? limit fuel (found.insert name "") style pos
          else
            let (value, place, next) ← value? html limit pos
            attributes? limit fuel (found.insert name value) (if name == "style" then place.or style else style) next
        else attributes? limit fuel (found.insert name "") style pos

end

/-! ## Elements -/

structure TagSpan where
  start : Nat
  stop : Nat
  /-- Start and end of the quoted `style` value. -/
  style : Option (Nat × Nat)
  deriving DecidableEq, Repr

/-- The elements read so far, and where their start tags stand, at the places of their numbers. -/
structure Progress where
  building : Building := {}
  spans : List (Option TagSpan) := []

namespace Progress

def add (p : Progress) (name : String) (attributes : Attributes) (opens : Bool) (span : TagSpan) : Progress :=
  let id := p.building.forest.size
  ⟨p.building.add name attributes opens, (p.spans.rightpad (id + 1) none).set id (some span)⟩

def stop (p : Progress) (name : String) : Progress := { p with building := p.building.stop name }

def span? (p : Progress) (id : Nat) : Option TagSpan := p.spans[id]?.join

end Progress

variable (html : String)

/-- Goes past what is passed over as a whole. The offset stays if there is no such thing, and there is none if it has
no end. -/
def skipSpecial? (pos : Nat) : Option (Option Nat) := do
  let rest ← sliceFrom? html pos
  let past (skip : Nat) (close : List Char) : Option (Option Nat) := do
    let inner ← sliceFrom? rest skip
    return (find? close inner).map fun i => pos + skip + i + byteLength close
  if startsWith ['<', '!', '-', '-'] rest.toList then past 4 ['-', '-', '>']
  else if (stripFold? ['<', '!', 'd', 'o', 'c', 't', 'y', 'p', 'e'] (octets rest.toList)).isSome then past 0 ['>']
  else if startsWith ['<', '!', '[', 'C', 'D', 'A', 'T', 'A', '['] rest.toList then past 9 [']', ']', '>']
  else if startsWith ['<', '?'] rest.toList then past 0 ['?', '>']
  else return some pos

def stopTag? (p : Progress) (pos : Nat) : Option (Nat × Progress) := do
  match find? ['>'] (← sliceFrom? html pos) with
  | none => return (html.utf8ByteSize, p)
  | some i => return (pos + i + 1, p.stop (lower (trim (← slice? html (pos + 2) (pos + i)))))

/-- The offset of the `>` that ends the start tag at `pos`. -/
def tagEnd? (pos : Nat) : Option Nat :=
  (cutOutside ⟨[], []⟩ '>' {} ((octets html.toList).drop (pos + 1))).map fun (before, _) => pos + 1 + before.length

/-- The offset of the `>` that ends the end tag of a raw element, if there is one behind `pos`. -/
def rawEnd? (name : String) (pos : Nat) : Option (Option Nat) :=
  match cutFold (octets ('<' :: '/' :: name.toList)) ((octets html.toList).drop pos) with
  | none => some none
  | some (before, _) => do
    let close := pos + before.length
    return (find? ['>'] (← sliceFrom? html close)).map (close + ·)

/-- Whether there is a slash before `stop`, and behind `start`. -/
def closed? (start stop : Nat) : Option Bool :=
  if start < stop then (octet? html (stop - 1)).map (· == '/') else some false

/-- Adds the element of a start tag, and passes over its content with the end tag if this is raw. -/
def element? (p : Progress) (name : String) (attributes : Attributes) (closed : Bool) (span : TagSpan) :
    Option (Nat × Progress) :=
  let opens := !closed && !voidElements.contains name
  let p := p.add name attributes opens span
  if opens && rawElements.contains name then do
    match ← rawEnd? html name span.stop with
    | some stop => return (stop + 1, p.stop name)
    | none => return (span.stop, p)
  else some (span.stop, p)

def startTag? (p : Progress) (pos : Nat) : Option (Nat × Progress) :=
  match tagEnd? html pos with
  | none => some (html.utf8ByteSize, p)
  | some stop => do
    let closed ← closed? html (pos + 1) stop
    let limit := if closed then stop - 1 else stop
    let content ← slice? html (pos + 1) limit
    let length := byteLength (content.toList.takeWhile fun c => !isAsciiBlank c)
    let name := lower (← slice? content 0 length)
    if name.isEmpty || startsWith ['!'] name.toList then return (stop + 1, p)
    else
      let (attributes, style) ← attributes? html limit (limit + 1) .empty none (pos + 1 + length)
      element? html p name attributes closed ⟨pos, stop + 1, style⟩

/-- Reads what begins with `<`; the offset behind it is missing if nothing more is to be read. -/
def angle? (p : Progress) (pos : Nat) : Option (Option Nat × Progress) := do
  match ← skipSpecial? html pos with
  | none => return (none, p)
  | some next =>
    let (next, p) ←
      if pos < next then some (next, p)
      else if octet? html (pos + 1) == some '/' then stopTag? html p pos
      else startTag? html p pos
    return (if next < html.utf8ByteSize then some next else none, p)

/-- Reads the elements behind an offset. -/
def run? : Nat → Progress → Nat → Option Progress
  | 0, _, _ => none
  | fuel + 1, p, pos => do
    match find? ['<'] (← sliceFrom? html pos) with
    | none => return p
    | some i =>
      match ← angle? html p (pos + i) with
      | (none, p) => return p
      | (some next, p) => run? fuel p next

def scan? : Option Progress := run? html (html.utf8ByteSize + 1) {} 0

/-! ## Places for attributes -/

/-- Goes back from `pos` over spaces, as far as `limit`. -/
def retreat? (limit : Nat) : Nat → Option Nat
  | 0 => some 0
  | pos + 1 =>
    if limit < pos + 1 then
      match octet? html pos with
      | none => none
      | some c => if c == ' ' then retreat? limit pos else some (pos + 1)
    else some (pos + 1)

/-- Where new attributes of a start tag go. -/
def insertionPoint? (s : TagSpan) : Option Nat :=
  let pos := s.stop - 1
  if 0 < pos && octet? html (pos - 1) == some '/' then retreat? html s.start (pos - 1) else some pos

end Scanner

end EmailMarkup.Html
