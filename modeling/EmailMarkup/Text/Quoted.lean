import EmailMarkup.Text.Printable
/-!
# Quoted text

Two written forms of a text between double quotes. `literal` is for people: what cannot be seen is
written by its code point. `json` is for programs: only the quote, the backslash and the control
characters are escaped, and all else stands as it is.
-/
namespace EmailMarkup.Text

/-- The hexadecimal digits of `n`, small letters. -/
def hexDigits (n : Nat) : List Char := Nat.toDigits 16 n

def literalChar (c : Char) : List Char :=
  match c with
  | '\x00' => ['\\', '0']
  | '\t' => ['\\', 't']
  | '\r' => ['\\', 'r']
  | '\n' => ['\\', 'n']
  | '"' => ['\\', '"']
  | '\\' => ['\\', '\\']
  | _ => if isPrintable c then [c] else ['\\', 'u', '\x7b'] ++ hexDigits c.toNat ++ ['\x7d']

/-- `s` between quotes, with everything invisible written by its code point. -/
def literal (s : String) : String :=
  String.ofList (['"'] ++ s.toList.flatMap literalChar ++ ['"'])

def jsonChar (c : Char) : List Char :=
  match c with
  | '"' => ['\\', '"']
  | '\\' => ['\\', '\\']
  | '\x08' => ['\\', 'b']
  | '\t' => ['\\', 't']
  | '\n' => ['\\', 'n']
  | '\x0c' => ['\\', 'f']
  | '\r' => ['\\', 'r']
  | _ =>
    if c.toNat < 0x10 then ['\\', 'u', '0', '0', '0'] ++ hexDigits c.toNat
    else if c.toNat < 0x20 then ['\\', 'u', '0', '0'] ++ hexDigits c.toNat
    else [c]

def json (s : String) : String :=
  String.ofList (['"'] ++ s.toList.flatMap jsonChar ++ ['"'])

end EmailMarkup.Text
