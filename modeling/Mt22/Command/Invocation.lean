/-!
# Invocations

What a command line asks for.  Options come before or after the files; short ones may be joined
(`-vfjson`), a value may follow at once, after `=`, or as the next argument; `--` ends the
options.
-/

namespace Mt22

/-- How `build` writes programs. -/
inductive BuildFormat where
  | text | json
deriving DecidableEq

/-- How `check` writes its summary. -/
inductive CheckFormat where
  | table | json
deriving DecidableEq

/-- What is done with the scripts that are named. -/
inductive Task where
  | build (format : BuildFormat) (output : Option String)
  | check (format : CheckFormat)
deriving DecidableEq

/-- What a command line asks for. -/
inductive Invocation where
  | run (verbosity : Nat) (task : Task) (files : List String)
  | nothing
  | version
  | help
  /-- The command line is wrong. -/
  | misuse
deriving DecidableEq

namespace Invocation

/-- A subcommand. -/
inductive Verb where
  | build | check
deriving DecidableEq

/-- What has been read of the arguments of a subcommand. -/
structure Settings where
  verbosity : Nat
  format : Option String
  output : Option String
  files : List String

/-- Nothing has been read. -/
def Settings.empty : Settings := ⟨0, none, none, []⟩

/-- An option. -/
inductive Flag where
  | verbose | format | output | help | version
deriving DecidableEq

/-- The option with a long name. -/
def Flag.ofLong? : String → Option Flag
  | "verbose" => some verbose
  | "format" => some format
  | "output" => some output
  | "help" => some help
  | "version" => some version
  | _ => none

/-- The option with a letter. -/
def Flag.ofShort? : Char → Option Flag
  | 'v' => some verbose
  | 'f' => some format
  | 'o' => some output
  | 'h' => some help
  | 'V' => some version
  | _ => none

/-- The option is known after a subcommand. -/
def Verb.knows : Verb → Flag → Bool
  | _, .verbose | _, .format | _, .help => true
  | build, .output => true
  | check, .output => false
  | _, .version => false

/-- The formats of a subcommand. -/
def Verb.formats : Verb → List String
  | build => ["text", "json"]
  | check => ["table", "json"]

/-- Why the reading of arguments stops. -/
inductive Stop where
  | version | help | misuse
deriving DecidableEq

/-- An argument. -/
inductive Argument where
  /-- `--` -/
  | divider
  /-- `--name` or `--name=value` -/
  | long (name : String) (value : Option String)
  /-- `-` and letters -/
  | short (letters : List Char)
  | plain (text : String)
deriving DecidableEq

/-- The form of an argument.  A single `-` is a plain text. -/
def Argument.ofString (s : String) : Argument :=
  match s.toList with
  | ['-', '-'] => divider
  | '-' :: '-' :: rest =>
    let name := String.ofList (rest.takeWhile (· != '='))
    match rest.dropWhile (· != '=') with
    | [] => long name none
    | _ :: value => long name (some (String.ofList value))
  | '-' :: c :: rest => short (c :: rest)
  | _ => plain s

/-- The value of an option: the one that is attached to it, or else the next argument, if that
is plain. -/
def takeValue (attached : Option String) (rest : List String) :
    Except Stop (String × List String) :=
  match attached, rest with
  | some v, rest => .ok (v, rest)
  | none, v :: rest =>
    match Argument.ofString v with
    | .plain _ => .ok (v, rest)
    | _ => .error .misuse
  | none, [] => .error .misuse

/-- Gives an option its value, which it must not have already. -/
def Settings.give (s : Settings) (verb : Verb) (flag : Flag) (value : String) :
    Except Stop Settings :=
  match flag with
  | .format =>
    if s.format.isSome || !verb.formats.contains value then .error .misuse
    else .ok { s with format := some value }
  | .output => if s.output.isSome then .error .misuse else .ok { s with output := some value }
  | _ => .error .misuse

/-- The value that follows a letter at once, after an optional `=`. -/
def attachedValue : List Char → Option String
  | [] => none
  | '=' :: value => some (String.ofList value)
  | value => some (String.ofList value)

/-- Joined letters: options without a value, and at the end perhaps one with a value. -/
def readLetters (verb : Verb) (s : Settings) (rest : List String) :
    List Char → Except Stop (Settings × List String)
  | [] => .ok (s, rest)
  | c :: letters => do
    match (Flag.ofShort? c).filter verb.knows with
    | none => .error .misuse
    | some .help => .error .help
    | some .version => .error .version
    | some .verbose => readLetters verb { s with verbosity := s.verbosity + 1 } rest letters
    | some flag =>
      let (value, rest) ← takeValue (attachedValue letters) rest
      return (← s.give verb flag value, rest)

/-- A long option. -/
def readLong (verb : Verb) (s : Settings) (rest : List String) (name : String)
    (attached : Option String) : Except Stop (Settings × List String) := do
  match (Flag.ofLong? name).filter verb.knows with
  | none => .error .misuse
  | some .help => if attached.isSome then .error .misuse else .error .help
  | some .version => if attached.isSome then .error .misuse else .error .version
  | some .verbose =>
    if attached.isSome then .error .misuse
    else return ({ s with verbosity := s.verbosity + 1 }, rest)
  | some flag =>
    let (value, rest) ← takeValue attached rest
    return (← s.give verb flag value, rest)

/-- The arguments of a subcommand, in at most `limit` steps. -/
def readSettings (verb : Verb) : Nat → Settings → List String → Except Stop Settings
  | _, s, [] => .ok s
  | 0, s, _ => .ok s
  | limit + 1, s, a :: rest => do
    match Argument.ofString a with
    | .divider => return { s with files := s.files ++ rest }
    | .plain text => readSettings verb limit { s with files := s.files ++ [text] } rest
    | .long name attached =>
      let (s, rest) ← readLong verb s rest name attached
      readSettings verb limit s rest
    | .short letters =>
      let (s, rest) ← readLetters verb s rest letters
      readSettings verb limit s rest

/-- The task of a subcommand with its settings. -/
def Settings.task (s : Settings) : Verb → Task
  | .build => .build (if s.format = some "json" then .json else .text) s.output
  | .check => .check (if s.format = some "json" then .json else .table)

def ofStop : Stop → Invocation
  | .version => version
  | .help => help
  | .misuse => misuse

/-- What a subcommand asks for.  At least one file must be named; the verbosity given after the
subcommand goes before the one given in front of it. -/
def ofVerb (verb : Verb) (verbosity : Nat) (args : List String) : Invocation :=
  match readSettings verb args.length .empty args with
  | .error stop => ofStop stop
  | .ok s =>
    if s.files.isEmpty then misuse
    else run (if s.verbosity = 0 then verbosity else s.verbosity) (s.task verb) s.files

/-- Joined letters in front of the subcommand: the verbosity after them. -/
def readGlobalLetters (verbosity : Nat) : List Char → Except Stop Nat
  | [] => .ok verbosity
  | c :: letters =>
    match Flag.ofShort? c with
    | some .verbose => readGlobalLetters (verbosity + 1) letters
    | some .help => .error .help
    | some .version => .error .version
    | _ => .error .misuse

/-- A long option in front of the subcommand: the verbosity after it. -/
def readGlobalLong (verbosity : Nat) (name : String) (attached : Option String) : Except Stop Nat :=
  if attached.isSome then .error .misuse
  else match Flag.ofLong? name with
    | some .verbose => .ok (verbosity + 1)
    | some .help => .error .help
    | some .version => .error .version
    | _ => .error .misuse

/-- What a command line asks for, after options that raised the verbosity. -/
def parseFrom (verbosity : Nat) : List String → Invocation
  | [] => nothing
  | a :: rest =>
    match Argument.ofString a with
    | .divider => if rest.isEmpty then nothing else misuse
    | .plain "build" => ofVerb .build verbosity rest
    | .plain "check" => ofVerb .check verbosity rest
    | .plain "help" => help
    | .plain _ => misuse
    | .long name attached =>
      match readGlobalLong verbosity name attached with
      | .ok v => parseFrom v rest
      | .error stop => ofStop stop
    | .short letters =>
      match readGlobalLetters verbosity letters with
      | .ok v => parseFrom v rest
      | .error stop => ofStop stop

/-- What a command line asks for. -/
def parse (args : List String) : Invocation := parseFrom 0 args

end Invocation

end Mt22
