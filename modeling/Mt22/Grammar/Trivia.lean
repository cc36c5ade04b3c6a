/-!
# Trivia

White space and comments may stand between tokens.  A block comment runs from `/*` to the first
`*/`; without one it is no comment at all.  A line comment runs from `//` to the end of the
line, which it leaves unread.  `Trivia.skip` takes the longest run.
-/

namespace Mt22.Trivia

/-- White space of the grammar. -/
def isSpace (c : Char) : Bool :=
  c = ' ' || c = '\t' || c = '\r' || c = '\n' || c = '\x0c'

/-- A character that ends a line comment. -/
def isLineEnd (c : Char) : Bool := c = '\n' || c = '\r'

/-- The text up to and with the first `*/`, and what follows it. -/
def closeBlock? : List Char → Option (List Char × List Char)
  | '*' :: '/' :: rest => some (['*', '/'], rest)
  | c :: rest => (closeBlock? rest).map fun (text, after) => (c :: text, after)
  | [] => none

/-- One white space character or one comment, and what follows it. -/
def piece? : List Char → Option (List Char × List Char)
  | '/' :: '*' :: rest => (closeBlock? rest).map fun (text, after) => ('/' :: '*' :: text, after)
  | '/' :: '/' :: rest =>
    some ('/' :: '/' :: rest.takeWhile (!isLineEnd ·), rest.dropWhile (!isLineEnd ·))
  | c :: rest => if isSpace c then some ([c], rest) else none
  | [] => none

/-- At most as many pieces of trivia as `limit` is long, and what follows them. -/
def pieces : (limit : List Char) → List Char → List Char × List Char
  | [], s => ([], s)
  | _ :: limit, s =>
    match piece? s with
    | none => ([], s)
    | some (text, rest) =>
      let (more, after) := pieces limit rest
      (text ++ more, after)

/-- The longest run of trivia at the start of a text, and what follows it.  Every piece has a
character, so a text has no more pieces than characters. -/
def skip (s : List Char) : List Char × List Char := pieces s s

end Mt22.Trivia
