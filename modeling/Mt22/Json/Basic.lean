import Mt22.Number.Layout

/-!
# JSON

JSON values, and their text in two forms: compact, without any white space, and indented by two
blanks.
-/

namespace Mt22

/-- A JSON value.  Members of an object keep their order. -/
inductive Json where
  | null
  | bool (value : Bool)
  | int (value : Int)
  | float (value : Number.Binary64)
  | str (text : String)
  | arr (items : List Json)
  | obj (members : List (String × Json))

namespace Json

/-- Numbers in JSON: positional from `0.00001` up to sixteen digits before the point, an
exponent with its sign, a tie to even digits, and `null` for what is not finite. -/
def layout : Number.Layout where
  leastPositional := -5
  greatestPositional := 15
  signedExponent := true
  tie := .even
  infinity := "null"
  minusInfinity := "null"
  notANumber := "null"

/-- A digit of a number in base sixteen. -/
def hexDigit (n : Nat) : Char := Nat.digitChar (n % 16)

/-- A character inside a string: quote, backslash and control characters are escaped. -/
def escapeChar (c : Char) : List Char :=
  match c with
  | '"' => ['\\', '"']
  | '\\' => ['\\', '\\']
  | '\x08' => ['\\', 'b']
  | '\x0c' => ['\\', 'f']
  | '\n' => ['\\', 'n']
  | '\r' => ['\\', 'r']
  | '\t' => ['\\', 't']
  | c =>
    if c.toNat < 0x20 then ['\\', 'u', '0', '0', hexDigit (c.toNat / 16), hexDigit c.toNat]
    else [c]

/-- A string between quotes. -/
def quote (s : String) : String :=
  String.ofList ('"' :: s.toList.flatMap escapeChar ++ ['"'])

/-- The text of a value that holds no others. -/
def leaf : Json → String
  | null => "null"
  | bool value => if value then "true" else "false"
  | int value => toString value
  | float value => layout.write value
  | str text => quote text
  | arr _ => "[]"
  | obj _ => "\x7b\x7d"

mutual

/-- A value without any white space. -/
def compact : Json → String
  | arr items => "[" ++ ",".intercalate (compactItems items) ++ "]"
  | obj members => "\x7b" ++ ",".intercalate (compactMembers members) ++ "\x7d"
  | v => v.leaf

def compactItems : List Json → List String
  | [] => []
  | v :: vs => v.compact :: compactItems vs

def compactMembers : List (String × Json) → List String
  | [] => []
  | (k, v) :: rest => (quote k ++ ":" ++ v.compact) :: compactMembers rest

end

/-- The start of a line at a depth. -/
def newLine (depth : Nat) : String := "\n" ++ String.ofList (List.replicate (2 * depth) ' ')

/-- The lines of a container, between its brackets.  An empty one is closed at once. -/
def bracketed (left right : String) (depth : Nat) (lines : List String) : String :=
  if lines.isEmpty then left ++ right
  else
    left ++ newLine (depth + 1) ++ ("," ++ newLine (depth + 1)).intercalate lines ++
      newLine depth ++ right

mutual

/-- A value with each item and each member on a line of its own; the value starts at a depth. -/
def indented (depth : Nat) : Json → String
  | arr items => bracketed "[" "]" depth (indentedItems (depth + 1) items)
  | obj members => bracketed "\x7b" "\x7d" depth (indentedMembers (depth + 1) members)
  | v => v.leaf

def indentedItems (depth : Nat) : List Json → List String
  | [] => []
  | v :: vs => v.indented depth :: indentedItems depth vs

def indentedMembers (depth : Nat) : List (String × Json) → List String
  | [] => []
  | (k, v) :: rest => (quote k ++ ": " ++ v.indented depth) :: indentedMembers depth rest

end

/-- The indented text of a value. -/
def pretty (v : Json) : String := v.indented 0

/-- A value that may be missing. -/
def ofOption {α : Type} (f : α → Json) : Option α → Json
  | none => null
  | some a => f a

end Json

end Mt22
