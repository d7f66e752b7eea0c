/-!
# Blank characters

Three sets of characters count as blank in different places: Unicode `White_Space` when author
text is trimmed or cut into words, five ASCII characters inside rendered HTML, and four in template
markup. Trimming and cutting are written once for any set.
-/
namespace EmailMarkup.Text

/-! ## The three sets -/

/-- Unicode `White_Space`. -/
def isBlank (c : Char) : Bool :=
  let n := c.toNat
  (0x09 ≤ n && n ≤ 0x0D) || n == 0x20 || n == 0x85 || n == 0xA0 || n == 0x1680 ||
    (0x2000 ≤ n && n ≤ 0x200A) || n == 0x2028 || n == 0x2029 || n == 0x202F || n == 0x205F ||
    n == 0x3000

/-- Space, tab, newline, form feed and carriage return: the blanks of HTML. -/
def isAsciiBlank (c : Char) : Bool :=
  c == ' ' || c == '\t' || c == '\n' || c == '\x0c' || c == '\r'

/-- Space, tab, newline and carriage return: the blanks of template markup. -/
def isMarkupBlank (c : Char) : Bool :=
  c == ' ' || c == '\t' || c == '\n' || c == '\r'

/-! ## Trimming -/

def trimStart (p : Char → Bool) (cs : List Char) : List Char := cs.dropWhile p

def trimEnd (p : Char → Bool) (cs : List Char) : List Char := (cs.reverse.dropWhile p).reverse

def trimBoth (p : Char → Bool) (cs : List Char) : List Char := trimEnd p (trimStart p cs)

/-- `s` without the Unicode blanks at its ends. -/
def trim (s : String) : String := String.ofList (trimBoth isBlank s.toList)

def trimAscii (s : String) : String := String.ofList (trimBoth isAsciiBlank s.toList)

/-- Whether `s` holds Unicode blanks only. -/
def isBlankText (s : String) : Bool := s.toList.all isBlank

/-! ## Cutting -/

/-- The pieces of a text between the characters in `p`, empty pieces included. -/
def pieces (p : Char → Bool) : List Char → List (List Char)
  | [] => [[]]
  | c :: r =>
    if p c then [] :: pieces p r
    else match pieces p r with
      | [] => [[c]]
      | w :: ws => (c :: w) :: ws

/-- The non-empty pieces between the characters in `p`. -/
def wordsBy (p : Char → Bool) (cs : List Char) : List (List Char) :=
  (pieces p cs).filter (fun w => !w.isEmpty)

/-- The words of `s` between Unicode blanks. -/
def words (s : String) : List String := (wordsBy isBlank s.toList).map String.ofList

/-- The words of `s` between ASCII blanks. -/
def asciiWords (s : String) : List String := (wordsBy isAsciiBlank s.toList).map String.ofList

theorem length_dropWhile_le (p : Char → Bool) (cs : List Char) :
    (cs.dropWhile p).length ≤ cs.length :=
  (List.dropWhile_sublist p).length_le

theorem length_trimStart_le (p : Char → Bool) (cs : List Char) :
    (trimStart p cs).length ≤ cs.length :=
  length_dropWhile_le p cs

end EmailMarkup.Text
