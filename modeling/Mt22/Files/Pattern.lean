/-!
# Wildcard patterns

A pattern is a path in which a component may hold wildcards: `*` for any run of characters, `?`
for any one, `[…]` for one of a set and `[!…]` for one outside it.  The component `**` stands
for any number of folders.  All other characters stand for themselves.

`Pattern.parse` reads a pattern, `matchesName` holds when a component matches a name.
-/

namespace Mt22

/-- Why a text is no pattern. -/
inductive PatternFault where
  | wildcards
  | recursive
  | range
deriving DecidableEq

def PatternFault.message : PatternFault → String
  | wildcards => "wildcards are either regular `*` or recursive `**`"
  | recursive => "recursive wildcards must form a single path component"
  | range => "invalid range pattern"

namespace Pattern

/-- A piece of a component. -/
inductive Token where
  | char (c : Char)
  /-- Any character. -/
  | any
  /-- Any run of characters, the empty one included. -/
  | run
  /-- Any number of folders. -/
  | folders
  /-- A character in one of the ranges, or in none of them when `negated`. -/
  | set (negated : Bool) (ranges : List (Char × Char))
deriving DecidableEq

/-- The ranges between the brackets of a set: `a-z` is a range, any other character one by
itself. -/
def ranges : List Char → List (Char × Char)
  | a :: '-' :: b :: rest => (a, b) :: ranges rest
  | a :: rest => (a, a) :: ranges rest
  | [] => []

/-- What stands between a bracket and the next closing one, and what follows that.  The first
character never closes the set. -/
def setBody? : List Char → Option (List Char × List Char)
  | first :: rest =>
    match rest.dropWhile (· != ']') with
    | _ :: after => some (first :: rest.takeWhile (· != ']'), after)
    | [] => none
  | [] => none

/-- A set, after its opening bracket, and what follows it. -/
def set? : List Char → Option (Token × List Char)
  | '!' :: rest => (setBody? rest).map fun (body, after) => (.set true (ranges body), after)
  | rest => (setBody? rest).map fun (body, after) => (.set false (ranges body), after)

/-- A component may start after this character, or at the start of the text. -/
def startsComponent : Option Char → Bool
  | none => true
  | some c => c = '/'

/-- The tokens of a text that stands after `previous`, in at most `limit` steps.  `**` must fill
a component, and takes the separator after it. -/
def tokenize : Nat → Option Char → List Char → Except PatternFault (List Token)
  | _, _, [] => .ok []
  | 0, _, _ => .ok []
  | limit + 1, previous, c :: rest =>
    match c with
    | '?' => return .any :: (← tokenize limit (some c) rest)
    | '*' =>
      match rest with
      | '*' :: '*' :: _ => .error .wildcards
      | '*' :: after =>
        if startsComponent previous && startsComponent after.head? then do
          return .folders :: (← tokenize limit (some '/') (after.drop 1))
        else .error .recursive
      | _ => return .run :: (← tokenize limit (some c) rest)
    | '[' =>
      match set? rest with
      | some (token, after) => return token :: (← tokenize limit (some ']') after)
      | none => .error .range
    | c => return .char c :: (← tokenize limit (some c) rest)

/-- The tokens of a text. -/
def tokens (text : List Char) : Except PatternFault (List Token) := tokenize text.length none text

/-- A component of a pattern. -/
inductive Component where
  /-- A name without wildcards, which may also be `.` or `..` or empty. -/
  | name (s : String)
  /-- A name with wildcards. -/
  | wild (tokens : List Token)
  /-- Any number of folders. -/
  | folders
deriving DecidableEq

/-- The character that a token stands for, if it is no wildcard. -/
def Token.char? : Token → Option Char
  | .char c => some c
  | _ => none

/-- The component with some tokens. -/
def Component.ofTokens (ts : List Token) : Component :=
  if ts = [.folders] then .folders
  else match ts.mapM Token.char? with
    | some cs => .name (String.ofList cs)
    | none => .wild ts

/-- Components with every run of `**` made one. -/
def collapse (cs : List Component) : List Component :=
  cs.foldr (fun c rest => if c = .folders && rest.head? = some .folders then rest else c :: rest) []

end Pattern

/-- A pattern: where it starts, its components, and whether it wants folders only. -/
structure Pattern where
  absolute : Bool
  components : List Pattern.Component
  foldersOnly : Bool
deriving DecidableEq

namespace Pattern

/-- Reads a pattern.  The whole text is checked before its components, which are divided by `/`;
a last separator divides nothing but asks for folders. -/
def parse (text : String) : Except PatternFault Pattern := do
  let chars := text.toList
  let _ ← tokens chars
  let absolute := chars.head? = some '/'
  let foldersOnly := chars.getLast? = some '/'
  let relative := if absolute then chars.drop 1 else chars
  let pieces := relative.splitOn '/'
  let pieces := if pieces.getLast? = some [] && pieces.length != 1 then pieces.dropLast else pieces
  let components ← pieces.mapM fun piece => do return Component.ofTokens (← tokens piece)
  return ⟨absolute, collapse components, foldersOnly⟩

namespace Token

/-- A token that stands for one character matches it. -/
def matchesChar (c : Char) : Token → Bool
  | char d => c = d
  | any => true
  | set negated ranges => (ranges.any fun r => r.1 ≤ c && c ≤ r.2) != negated
  | run | folders => false

/-- Tokens match a name as a whole. -/
def matchAll : List Token → List Char → Bool
  | [], name => name.isEmpty
  | run :: ts, name => matchRun (matchAll ts) name
  | folders :: ts, name => matchRun (matchAll ts) name
  | _ :: _, [] => false
  | t :: ts, c :: name => t.matchesChar c && matchAll ts name
where
  /-- Some end of a name matches. -/
  matchRun (rest : List Char → Bool) : List Char → Bool
    | [] => rest []
    | c :: name => rest (c :: name) || matchRun rest name

end Token

/-- A component matches a name. -/
def Component.matchesName (name : String) : Component → Bool
  | .name s => s = name
  | .wild ts => Token.matchAll ts name.toList
  | .folders => false

end Pattern

end Mt22
