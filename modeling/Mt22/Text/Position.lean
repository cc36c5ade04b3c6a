/-!
# Lines and columns

A place in a text is a number of bytes from its start; people are shown a line and a column.
Both count from one, a column is a character, and a line ends after each line feed.  A carriage
return is a character like any other, so a line feed after one starts the same next line.
-/

namespace Mt22.Text

/-- A line and a column of a text, counted from one. -/
structure Position where
  line : Nat
  column : Nat
deriving DecidableEq

namespace Position

/-- Where every text starts. -/
def first : Position := ⟨1, 1⟩

/-- The position after one more character. -/
def advance (p : Position) (c : Char) : Position :=
  if c = '\n' then ⟨p.line + 1, 1⟩ else ⟨p.line, p.column + 1⟩

/-- The position after the whole of a text. -/
def after (text : List Char) : Position :=
  text.foldl advance first

end Position

/-- The characters that lie in the first `offset` bytes of a text. -/
def before : Nat → List Char → List Char
  | _, [] => []
  | offset, c :: rest =>
    if c.utf8Size ≤ offset then c :: before (offset - c.utf8Size) rest else []

/-- The position that lies `offset` bytes into a text. -/
def positionAt (text : List Char) (offset : Nat) : Position :=
  Position.after (before offset text)

/-- The bytes that a text takes. -/
def byteSize (text : List Char) : Nat :=
  text.foldr (fun c n => c.utf8Size + n) 0

end Mt22.Text
