import SmallLisp.Token
import SmallLisp.Value.Printer

/-!
# Errors

The ways in which reading, analysis and evaluation fail, and the message of each. Only an error
that ends before the text does is mended by more text: `Error.isIncomplete`.
-/

namespace SmallLisp

/-- The forms whose meaning is built in. -/
inductive SpecialForm where
  | quote | define | defineMacro | branch | sequence | bind | function | theVar
deriving DecidableEq

namespace SpecialForm

/-- The name that a special form is called by. -/
def name : SpecialForm → String
  | quote => "quote"
  | define => "def"
  | defineMacro => "defmacro"
  | branch => "if"
  | sequence => "do"
  | bind => "let"
  | function => "fn"
  | theVar => "var"

/-- All special forms. -/
def all : List SpecialForm :=
  [quote, define, defineMacro, branch, sequence, bind, function, theVar]

/-- The special form of a name. -/
def ofName? (name : String) : Option SpecialForm := all.find? (·.name == name)

/-- How many arguments a special form takes, in words. -/
def arity : SpecialForm → String
  | quote => "1"
  | define => "1 or 2"
  | defineMacro => "at least 2"
  | branch => "2 or 3"
  | theVar => "1"
  | sequence | bind | function => "any number of"

end SpecialForm

/-- Why a symbol names no var that could be made. -/
inductive InternFault where
  /-- The symbol has no namespace part. -/
  | unqualified (s : Symbol)
  /-- There is no namespace of that name. -/
  | missingNamespace (s : Symbol)

/-- Why tokens make no form. -/
inductive ParseFault where
  /-- The text ends inside a bracket, or after a quote mark. -/
  | endOfInput (inside : Option Bracket)
  /-- A map has a key without a value. -/
  | oddMap
  /-- A bracket is closed that is not the innermost open one. -/
  | unexpectedClosing (b : Bracket)

/-- Why a form has no meaning. -/
inductive AnalysisFault where
  | unresolvedSymbol (s : Symbol)
  | unresolvedVar (s : Symbol)
  | varOfNonSymbol (v : Value)
  | arity (form : SpecialForm) (got : Nat)
  | targetNotSymbol (form : SpecialForm) (v : Value)
  | foreignTarget (s : Symbol)
  | macroParamsNotVector (v : Value)
  | bindingsNotVector
  | oddBindings
  | paramsNotVector
  | nothingAfterRest
  | tooManyAfterRest
  | qualifiedLocal (s : Symbol)
  | localNotSymbol (v : Value)

/-- Why an evaluation fails. -/
inductive EvalFault where
  | currentNotNamespace (v : Var) (value : Value)
  | currentUnbound (v : Var)
  | unboundVar (v : Var)
  | unboundLocal (s : Symbol)
  | unboundCallee (v : Var)
  | unboundMacro (v : Var)
  | wrongArgCount (f : Value) (got : Nat)
  | notCallable (f : Value)
  /-- A native takes exactly `expected` arguments. -/
  | nativeArity (f : Native) (expected got : Nat)
  /-- A native takes a number of arguments that the text describes. -/
  | nativeArityIn (f : Native) (expected : String)
  | getArity (got : Nat)
  | noSequence (f : Native) (v : Value)
  | notSymbol (f : Native) (v : Value)
  | notNumber (f : Native) (v : Value)
  | notNamed (f : Native) (v : Value)
  | overflow (f : Native)
  | divisionByZero

/-- Why a file has no text. -/
inductive FileFault where
  | notFound
  | notPermitted
  /-- What stands before a slash is no directory. -/
  | notDirectory
  | isDirectory
  /-- The path, or a name in it, is longer than the system allows. -/
  | nameTooLong
  /-- The path holds the character NUL. -/
  | nulInPath
  | invalidUtf8
  | other (reason : String)

/-- An error. -/
inductive Error where
  | intern (fault : InternFault)
  /-- A keyword with two colons and a namespace part. -/
  | aliasedKeyword
  | assertionFailed
  | unreadableFile (path : String) (fault : FileFault)
  | noSequence (v : Value)
  | lex (e : LexError)
  | parse (fault : ParseFault)
  | analysis (fault : AnalysisFault)
  | eval (fault : EvalFault)
  /-- A form that is still changing after `limit` expansions. -/
  | expansionLimit (form : Value) (limit : Nat)

/-- The message of a failure to make a var. -/
def InternFault.message : InternFault → String
  | unqualified s => "can't intern var; sym isn't qualified: " ++ s.text
  | missingNamespace s => "can't intern var; namespace doesn't exist: " ++ s.text

/-- The message of a lexical fault. -/
def LexFault.message : LexFault → String
  | unterminatedString => "unterminated string"
  | invalidEscape c => "invalid escape \\" ++ c.toString
  | invalidNumber text => "invalid number: " ++ text
  | invalidKeyword => "invalid keyword"

/-- The message of a fault in the tokens. -/
def ParseFault.message : ParseFault → String
  | endOfInput none => "unexpected end of input after quote"
  | endOfInput (some .round) => "unexpected end of input in list"
  | endOfInput (some .square) => "unexpected end of input in vector"
  | endOfInput (some .curly) => "unexpected end of input in map"
  | oddMap => "map literal must contain an even number of forms"
  | unexpectedClosing b => "unexpected '" ++ b.closer.toString ++ "'"

/-- The message of a fault in a form. -/
def AnalysisFault.message : AnalysisFault → String
  | unresolvedSymbol s => "unable to resolve symbol: " ++ s.text ++ " in this context"
  | unresolvedVar s => "unable to resolve var: " ++ s.text
  | varOfNonSymbol v => "var expects a symbol, got " ++ v.text
  | arity form got => form.name ++ " expects " ++ form.arity ++ " argument(s), got " ++ toString got
  | targetNotSymbol form v =>
    "first argument to " ++ form.name ++ " must be a symbol, got " ++ v.text
  | foreignTarget s => "can't create a var for " ++ s.text ++ " outside the current namespace"
  | macroParamsNotVector v => "defmacro parameters must be a vector, got " ++ v.text
  | bindingsNotVector => "let requires a vector of bindings"
  | oddBindings => "let requires an even number of forms in its binding vector"
  | paramsNotVector => "fn requires a parameter vector"
  | nothingAfterRest => "expected a parameter after &"
  | tooManyAfterRest => "only one parameter may follow &"
  | qualifiedLocal s => "can't bind qualified name: " ++ s.text
  | localNotSymbol v => "expected a symbol to bind, got " ++ v.text

/-- The message of a failed evaluation. -/
def EvalFault.message : EvalFault → String
  | currentNotNamespace v value => v.text ++ " is bound to " ++ value.text ++ ", not a namespace"
  | currentUnbound v => v.text ++ " is unbound"
  | unboundVar v => "unbound var: " ++ v.text
  | unboundLocal s => "unbound local: " ++ s.text
  | unboundCallee v => "attempting to call unbound var: " ++ v.text
  | unboundMacro v => "macro " ++ v.text ++ " is unbound"
  | wrongArgCount f got => "wrong number of args (" ++ toString got ++ ") passed to " ++ f.text
  | notCallable f => f.text ++ " (" ++ f.typeName ++ ") is not callable"
  | nativeArity f expected got =>
    f.name ++ ": expected " ++ toString expected ++ " argument(s), got " ++ toString got
  | nativeArityIn f expected => f.name ++ ": expected " ++ expected
  | getArity got => "get: expected 2 or 3 arguments, got " ++ toString got
  | noSequence f v => f.name ++ ": don't know how to create a sequence from " ++ v.text
  | notSymbol f v => f.name ++ ": expected a symbol, got " ++ v.text
  | notNumber f v => f.name ++ ": expected number, got " ++ v.text
  | notNamed f v => f.name ++ ": expected a string, symbol or keyword, got " ++ v.text
  | overflow f => f.name ++ ": integer overflow"
  | divisionByZero => "/: divide by zero"

/-- The reason why a file has no text. -/
def FileFault.message : FileFault → String
  | notFound => "No such file or directory (os error 2)"
  | notPermitted => "Permission denied (os error 13)"
  | notDirectory => "Not a directory (os error 20)"
  | isDirectory => "Is a directory (os error 21)"
  | nameTooLong => "File name too long (os error 36)"
  | nulInPath => "file name contained an unexpected NUL byte"
  | invalidUtf8 => "stream did not contain valid UTF-8"
  | other reason => reason

namespace Error

/-- The message of an error. -/
def message : Error → String
  | intern fault => fault.message
  | aliasedKeyword => "unimplemented: auto-resolved ns aliases"
  | assertionFailed => "assertion failed"
  | unreadableFile path fault => "unable to map file " ++ path ++ " due to error: " ++ fault.message
  | noSequence v => "expected a sequence: " ++ v.text
  | lex e => "lex error at " ++ toString e.position ++ ": " ++ e.fault.message
  | parse fault => "parse error: " ++ fault.message
  | analysis fault => "analysis error: " ++ fault.message
  | eval fault => fault.message
  | expansionLimit form limit =>
    "macroexpansion of " ++ form.text ++ " did not settle after " ++ toString limit ++ " steps"

/-- Whether the text stopped inside a form, so that more text could complete it. -/
def isIncomplete : Error → Bool
  | parse (.endOfInput _) => true
  | lex ⟨_, .unterminatedString⟩ => true
  | _ => false

end Error

end SmallLisp
