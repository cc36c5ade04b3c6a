import Mt22.Text.Classes
import Mt22.Text.Emoji

/-!
# Columns taken by a text

On a grid of columns most characters take one, wide characters two, and some none.  Neighbours
may share their columns, though: a picture with its skin tone, pictures with a joiner between
them and the two halves of a flag are one picture, some letters form ligatures, and a variation
selector changes the form of the character before it.

What a character takes therefore depends on what follows it.  `columns` reads a text from its
end and keeps a `Following`, which holds what the next character to the left has to know.
-/

namespace Mt22.Text

/-- The columns that a character takes by itself. -/
def charColumns (c : Char) : Nat :=
  if c.toNat = 0x17d8 then 3
  else if c.toNat = 0x17a4 then 2
  else if isZeroWidth c then 0
  else if isWide c then 2
  else 1

/-! ### Letters -/

/-- The zero width joiner. -/
def isJoiner (c : Char) : Bool := c.toNat = 0x200d

/-- Arabic letters shaped like alef. -/
def isAlef (c : Char) : Bool :=
  inRanges [(0x0622, 0x0623), (0x0625, 0x0625), (0x0627, 0x0627), (0x0671, 0x0673),
    (0x0675, 0x0675), (0x0773, 0x0774), (0x0870, 0x0882)] c

/-- Arabic letters shaped like lam. -/
def isLam (c : Char) : Bool :=
  inRanges [(0x0644, 0x0644), (0x06b5, 0x06b8), (0x076a, 0x076a), (0x08a6, 0x08a6),
    (0x08c7, 0x08c7)] c

/-- Khmer letters that fit below the letter before them. -/
def isSubscript (c : Char) : Bool :=
  inRanges [(0x1780, 0x1782), (0x1784, 0x1787), (0x1789, 0x178c), (0x178e, 0x1793),
    (0x1795, 0x1798), (0x179b, 0x179d), (0x17a0, 0x17a0), (0x17a2, 0x17a2), (0x17a7, 0x17a7),
    (0x17ab, 0x17ac), (0x17af, 0x17af)] c

/-- Tifinagh consonants. -/
def isTifinagh (c : Char) : Bool := inRanges [(0x2d31, 0x2d65), (0x2d6f, 0x2d6f)] c

/-- The first half of a Lisu tone. -/
def isFirstTone (c : Char) : Bool := inRanges [(0xa4f8, 0xa4fb)] c

/-- The second half of a Lisu tone. -/
def isSecondTone (c : Char) : Bool := inRanges [(0xa4fc, 0xa4fd)] c

/-- Quotation marks that have a full-width form. -/
def isCurlyQuote (c : Char) : Bool := inRanges [(0x2018, 0x2019), (0x201c, 0x201d)] c

/-- The end of a ligature, as far as it has been read. -/
inductive Ligature where
  /-- Hebrew lamed, which an alef joins. -/
  | lamed
  /-- Buginese ya, which a with the vowel sign i joins. -/
  | ya
  /-- Buginese ya with the vowel sign i of the letter that joins it. -/
  | vowelYa
  /-- A Tifinagh consonant, which another one joins. -/
  | consonant
  /-- A Tifinagh consonant with a visible joiner before it. -/
  | heldConsonant
  /-- The second half of a Lisu tone. -/
  | tone
  /-- Old Turkic orkhon i, which orkhon ec joins. -/
  | orkhonI
  /-- A Khmer letter that the coeng sign puts below the letter before it. -/
  | subscript
deriving DecidableEq

/-! ### What follows -/

/-- How many regional indicators stand before a joiner and a picture. -/
inductive IndicatorRun where
  | one
  /-- A positive even number: flags, the last of which the joiner joins. -/
  | even
  /-- An odd number above one: flags and one indicator, which joins nothing. -/
  | odd
deriving DecidableEq

/-- What follows a place, as far as it can share its columns with what comes before. -/
inductive Context where
  /-- Nothing that matters. -/
  | plain
  | lineFeed
  | skinTone
  /-- One regional indicator. -/
  | indicator
  /-- Two regional indicators or more. -/
  | indicators
  | picture
  /-- A joiner and a picture. -/
  | joinedPicture
  /-- A keycap, a joiner and a picture. -/
  | joinedKeycap
  /-- Regional indicators, a joiner and a picture. -/
  | joinedIndicators (run : IndicatorRun)
  /-- Tags, which are `digits` digits and then `letters` letters, the tag that ends them, a
  joiner and a picture. -/
  | joinedTags (letters digits : Nat)
  | alef
  /-- The end of a ligature, and whether a joiner stands before it. -/
  | ligature (l : Ligature) (joined : Bool)
  /-- The Kirat Rai vowel sign e. -/
  | vowelE
  /-- The Kirat Rai vowel sign ai, which is e twice. -/
  | vowelAi
deriving DecidableEq

/-- The form that a variation selector gives to the character before it. -/
inductive Variation where
  | picture
  | text
  | fullWidth
deriving DecidableEq

/-- What follows a place: a variation selector, if one stands right there, and the context
after it. -/
structure Following where
  variation : Option Variation
  context : Context
deriving DecidableEq

namespace Context

/-- Letters, to which a variation selector before them makes no difference. -/
def isLetter : Context → Bool
  | alef | ligature .. => true
  | _ => false

/-- Pictures that wait for a picture before their joiner. -/
def isJoined : Context → Bool
  | joinedPicture | joinedKeycap => true
  | _ => false

/-- The context that a character is by itself. -/
def ofChar (c : Char) : Context :=
  match c.toNat with
  | 0x000a => lineFeed
  | 0x05dc => ligature .lamed false
  | 0x1a10 => ligature .ya false
  | 0x10c03 => ligature .orkhonI false
  | 0x16d67 => vowelE
  | 0x16d68 => vowelAi
  | _ =>
    if isAlef c then alef
    else if isSubscript c then ligature .subscript false
    else if isTifinagh c then ligature .consonant false
    else if isSecondTone c then ligature .tone false
    else if isRegionalIndicator c then indicator
    else if isTone c then skinTone
    else if isPicture c then picture
    else plain

/-- A letter before the end of a ligature: the columns it adds to those of the ligature's end,
and the context it leaves. -/
def beforeLigature (c : Char) (joined : Bool) : Ligature → Option (Int × Context)
  | .lamed => if joined && c.toNat = 0x05d0 then some (0, plain) else none
  | .ya => if joined && c.toNat = 0x1a17 then some (0, ligature .vowelYa joined) else none
  | .vowelYa => if c.toNat = 0x1a15 then some (0, plain) else none
  | .consonant =>
    if c.toNat = 0x2d7f then some (1, ligature .heldConsonant joined)
    else if joined && isTifinagh c then some (0, plain)
    else none
  | .heldConsonant => if isTifinagh c then some (-1, plain) else none
  | .tone => if isFirstTone c then some (0, plain) else none
  | .orkhonI => if joined && c.toNat = 0x10c32 then some (0, plain) else none
  | .subscript => if c.toNat = 0x17d2 then some (-1, plain) else none

/-- A character before tags: the tags are those of a flag if they are three to six letters, or
three digits before at most four letters. -/
def beforeTags (c : Char) (letters digits : Nat) : Option (Int × Context) :=
  if inRanges [(0xe0061, 0xe007a)] c then
    if digits = 0 ∧ letters < 6 then some (0, joinedTags (letters + 1) 0) else none
  else if inRanges [(0xe0030, 0xe0039)] c then
    if (digits = 0 ∧ letters ≤ 4) ∨ (0 < digits ∧ digits < 3) then
      some (0, joinedTags letters (digits + 1))
    else none
  else if c.toNat = 0x1f3f4 then
    if digits = 3 ∨ (digits = 0 ∧ 3 ≤ letters) then some (0, picture) else none
  else none

/-- A character that shares its columns with what follows: the columns it adds, and the context
it leaves. -/
def before? (c : Char) : Context → Option (Int × Context)
  | plain | joinedKeycap => none
  | lineFeed => if c = '\r' then some (0, plain) else none
  | skinTone =>
    if takesTone c then some (0, picture)
    else if isJoiner c then some (0, joinedPicture)
    else none
  | indicator => if isRegionalIndicator c then some (1, indicators) else none
  | indicators =>
    if isRegionalIndicator c then some (1, indicators)
    else if isJoiner c then some (0, joinedPicture)
    else none
  | picture => if isJoiner c then some (0, joinedPicture) else none
  | joinedPicture =>
    if c.toNat = 0x20e3 then some (0, joinedKeycap)
    else if isRegionalIndicator c then some (1, joinedIndicators .one)
    else if isTone c then some (0, skinTone)
    else if c.toNat = 0xe007f then some (0, joinedTags 0 0)
    else if isPicture c then some (0, picture)
    else none
  | joinedIndicators .one =>
    if isRegionalIndicator c then some (-1, joinedIndicators .even) else none
  | joinedIndicators .even =>
    if isRegionalIndicator c then some (3, joinedIndicators .odd)
    else if isJoiner c then some (0, joinedPicture)
    else none
  | joinedIndicators .odd =>
    if isRegionalIndicator c then some (-1, joinedIndicators .even)
    else if isJoiner c then some (0, joinedPicture)
    else none
  | joinedTags letters digits => beforeTags c letters digits
  | alef =>
    if isLam c then some (0, plain)
    else if isTransparent c then some (0, alef)
    else none
  | ligature l joined =>
    if isJoiner c then some (0, ligature l true)
    else if isIgnorableMark c then some (0, ligature l joined)
    else beforeLigature c joined l
  | vowelE =>
    match c.toNat with
    | 0x16d63 | 0x16d69 => some (0, plain)
    | 0x16d67 => some (0, vowelAi)
    | 0x16d68 => some (1, vowelE)
    | _ => none
  | vowelAi => if c.toNat = 0x16d63 then some (0, plain) else none

/-- A character before a context: the columns it adds, and the context it leaves. -/
def before (c : Char) (context : Context) : Int × Context :=
  (context.before? c).getD (charColumns c, ofChar c)

end Context

namespace Variation

/-- The variation selectors. -/
def ofChar? (c : Char) : Option Variation :=
  match c.toNat with
  | 0xfe0f => some picture
  | 0xfe0e => some text
  | 0xfe01 => some fullWidth
  | _ => none

/-- A character in the form that a selector gives it before a context: the columns it adds and
the context it leaves.  A character without that form is left as it is. -/
def give? (c : Char) (context : Context) : Variation → Option (Int × Context)
  | picture =>
    if hasPictureForm c then some (if context.isJoined then 0 else 2, .picture) else none
  | text => if hasTextForm c then some (1, .plain) else none
  | fullWidth => if isCurlyQuote c then some (2, .plain) else none

/-- What follows the place before a selector. -/
def following (v : Variation) (context : Context) : Following :=
  ⟨some v, if context.isLetter || (v = picture && context.isJoined) then context else .plain⟩

end Variation

namespace Following

/-- Nothing follows. -/
def nothing : Following := ⟨none, .plain⟩

/-- The context that is left when a selector has no effect. -/
def passed (next : Following) : Context :=
  if next.variation = none || next.context.isLetter then next.context else .plain

/-- A character before what follows it: the columns it adds, and what follows the place before
it. -/
def before (c : Char) (next : Following) : Int × Following :=
  match next.variation.bind (Variation.give? c next.context), Variation.ofChar? c with
  | some (added, context), _ => (added, ⟨none, context⟩)
  | none, some v => (0, v.following next.passed)
  | none, none =>
    let (added, context) := next.passed.before c
    (added, ⟨none, context⟩)

end Following

/-- The columns that a text takes, and what it is to the character before it. -/
def measure : List Char → Int × Following
  | [] => (0, .nothing)
  | c :: rest =>
    let (sum, next) := measure rest
    let (added, here) := next.before c
    (added + sum, here)

/-- The columns that a text takes. -/
def columns (s : String) : Nat := (measure s.toList).1.toNat

end Mt22.Text
