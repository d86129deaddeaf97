import SmallLisp.Text.Quoted

/-!
# Command-line options

Options are found anywhere among the words of the command line and taken out of them, with their
values, in a fixed order: help, prelude, no prelude, expansion limit, dump, expressions. Of two
spellings the first is looked for first. The first word that is left is the file, and there may be
no other.
-/

namespace SmallLisp

/-- Why a command line is refused. -/
inductive OptionFault where
  /-- An option that stands last, where its value is missing. -/
  | missingValue (option : String)
  /-- A value that is no number, with the reason. -/
  | notNumber (value reason : String)
  /-- Words that nothing has taken. -/
  | leftOver (words : List String)
deriving DecidableEq

/-- What the environment says about options. -/
structure OptionEnv where
  /-- The path of the prelude. -/
  prelude : Option String
  /-- The expansion limit, as text. -/
  expansionLimit : Option String

/-- The options of a run. -/
structure Options where
  /-- The path of the prelude, if it is not the prelude of the language. -/
  preludePath : Option String
  /-- Whether the prelude is evaluated. -/
  loadPrelude : Bool
  /-- How many expansions a form may take. -/
  expansionLimit : Nat
  /-- Expressions to evaluate, in order. -/
  exprs : List String
  /-- A file to evaluate. -/
  file : Option String
  /-- Whether the registry is listed at the end. -/
  dump : Bool
deriving DecidableEq

namespace Options

/-- The options without any word. -/
def defaults : Options := ⟨none, true, 10000, [], none, false⟩

/-- The first number that is too large for an expansion limit: limits have 64 bits. -/
def limitBound : Nat := 18446744073709551616

/-- Reads digits from left to right onto a number; the first fault counts. -/
def digitsOnto : (n : Nat) → List Char → Except String Nat
  | n, [] => .ok n
  | n, c :: cs =>
    if !c.isDigit then .error "invalid digit found in string"
    else
      let m := 10 * n + (c.toNat - '0'.toNat)
      if m < limitBound then digitsOnto m cs
      else .error "number too large to fit in target type"

/-- Reads an expansion limit: digits, perhaps after a plus sign. -/
def parseLimit (text : String) : Except String Nat :=
  match text.toList with
  | [] => .error "cannot parse integer from empty string"
  | ['+'] => .error "invalid digit found in string"
  | '+' :: cs => digitsOnto 0 cs
  | cs => digitsOnto 0 cs

/-- The options that the environment gives. A limit that is no number counts as none. -/
def ofEnv (env : OptionEnv) : Options :=
  let limit := env.expansionLimit.bind fun text => (parseLimit text).toOption
  { defaults with
    preludePath := env.prelude, expansionLimit := limit.getD defaults.expansionLimit }

/-- Takes the first occurrence of a flag out of the words; of two spellings, the first one that
occurs. -/
def takeFlag (spellings : List String) (words : List String) : Bool × List String :=
  match spellings.find? words.contains with
  | some spelling => (true, words.erase spelling)
  | none => (false, words)

/-- Takes the first occurrence of an option out of the words, with the word after it. -/
def takeOption (spelling : String) : List String →
    Except OptionFault (Option (String × List String))
  | [] => .ok none
  | word :: words =>
    if word = spelling then
      match words with
      | value :: rest => .ok (some (value, rest))
      | [] => .error (.missingValue spelling)
    else do
      match ← takeOption spelling words with
      | some (value, rest) => return some (value, word :: rest)
      | none => return none

/-- Takes an option that may be missing out of the words. -/
def takeOptional (spelling : String) (words : List String) :
    Except OptionFault (Option String × List String) := do
  match ← takeOption spelling words with
  | some (value, rest) => return (some value, rest)
  | none => return (none, words)

/-- Takes all occurrences of an option out of the words, at most `count` of them. -/
def takeEach (spelling : String) : (count : Nat) → List String →
    Except OptionFault (List String × List String)
  | 0, words => .ok ([], words)
  | count + 1, words => do
    match ← takeOption spelling words with
    | some (value, rest) =>
      let (values, rest) ← takeEach spelling count rest
      return (value :: values, rest)
    | none => return ([], words)

/-- Takes all occurrences of an option out of the words: all of the first spelling, then all of
the second. -/
def takeAll (short long : String) (words : List String) :
    Except OptionFault (List String × List String) := do
  let (values, words) ← takeEach short words.length words
  let (more, words) ← takeEach long words.length words
  return (values ++ more, words)

/-- Reads the words of a command line; nothing if help is wanted. -/
def parse (env : OptionEnv) (words : List String) : Except OptionFault (Option Options) := do
  let (help, words) := takeFlag ["-h", "--help"] words
  if help then return none
  let fromEnv := ofEnv env
  let (path, words) ← takeOptional "--prelude" words
  let (bare, words) := takeFlag ["--no-prelude"] words
  let (limitText, words) ← takeOptional "--macroexpand-limit" words
  let limit ←
    match limitText with
    | none => pure fromEnv.expansionLimit
    | some text => (parseLimit text).mapError (.notNumber text)
  let (dump, words) := takeFlag ["--dump"] words
  let (exprs, words) ← takeAll "-e" "--eval" words
  match words with
  | _ :: word :: rest => throw (.leftOver (word :: rest))
  | rest =>
    return some {
      preludePath := path.or fromEnv.preludePath
      loadPrelude := !bare
      expansionLimit := limit
      exprs
      file := rest.head?
      dump }

/-- How the command line is used. -/
def usage : String :=
"Usage: loam [options] [file]

With no file and no -e, starts an interactive REPL.

Options:
  -h, --help                  Print this help message
  -e, --eval <expr>           Evaluate an expression (repeatable)
  --prelude <path>            Load the prelude from <path>
  --no-prelude                Don't load the prelude
  --macroexpand-limit <n>     Give up on macroexpansion after n steps (default: 10000)
  --dump                      Print every namespace and var before exiting"

end Options

/-- The message about a refused command line. -/
def OptionFault.message : OptionFault → String
  | missingValue option => "the '" ++ option ++ "' option doesn't have an associated value"
  | notNumber value reason => "failed to parse '" ++ value ++ "': " ++ reason
  | leftOver words =>
    "unexpected arguments: [" ++ String.intercalate ", " (words.map Text.quote) ++ "]"

end SmallLisp
