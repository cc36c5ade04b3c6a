import Mt22.Text.Classes
import Mt22.Text.Printable

/-!
# Quoted text

Messages show paths, patterns and operators between double quotes, in a form in which every
character can be seen: the quote and the backslash take a backslash, four control characters
have a letter, and any other character that leaves no mark of its own is written by its code
point.
-/

namespace Mt22.Text

/-- The halfwidth sound marks of Katakana, which extend a letter but have a place of their own. -/
def isSoundMark (c : Char) : Bool := 0xff9e ≤ c.toNat && c.toNat ≤ 0xff9f

/-- A character that a reader can see where it stands. -/
def isPlain (c : Char) : Bool :=
  isPrintable c && !isIgnorable c && (!isCombining c || isSoundMark c)

/-- A character as it is written between quotes. -/
def quoteChar (c : Char) : List Char :=
  match c with
  | '"' => ['\\', '"']
  | '\\' => ['\\', '\\']
  | '\n' => ['\\', 'n']
  | '\r' => ['\\', 'r']
  | '\t' => ['\\', 't']
  | '\x00' => ['\\', '0']
  | c => if isPlain c then [c] else ['\\', 'u', '\x7b'] ++ Nat.toDigits 16 c.toNat ++ ['\x7d']

/-- A text between double quotes. -/
def quoted (s : String) : String :=
  String.ofList ('"' :: s.toList.flatMap quoteChar ++ ['"'])

end Mt22.Text
