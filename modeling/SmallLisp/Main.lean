import SmallLisp.CommandLine

/-!
# The program

The outer layer of the command line: it reads the files that the options name, and then passes
lines in and text out.
-/

namespace SmallLisp

/-- Why a file has no text, by the error of the attempt to read it. The numbers of errors come with
either sign. -/
def faultOf (e : IO.Error) : FileFault :=
  match e with
  | .noFileOrDirectory .. => .notFound
  | .permissionDenied .. => .notPermitted
  | .inappropriateType _ code _ =>
    if code == 21 || code == 0 - 21 then .isDirectory else .notDirectory
  | .invalidArgument _ code details =>
    if code == 36 || code == 0 - 36 then .nameTooLong else .other details
  | e => .other e.toString

/-- The text of a file, or why there is none. -/
def readFileText (path : String) : IO (Except FileFault String) := do
  try
    match String.fromUTF8? (← IO.FS.readBinFile path) with
    | some text => return .ok text
    | none => return .error .invalidUtf8
  catch e => return .error (faultOf e)

/-- The files that the options name. -/
def readFiles (options : Options) : IO Files := do
  let paths := options.preludePath.toList ++ options.file.toList
  let texts ← paths.mapM fun path => return (path, ← readFileText path)
  return fun path => (texts.lookup path).getD (.error .notFound)

/-- Writes out what the loop has printed and reported, and forgets it. -/
def flushRepl (repl : Repl) : IO Repl := do
  (← IO.getStdout).putStr repl.world.output
  (← IO.getStdout).flush
  (← IO.getStderr).putStr repl.errors
  return { repl with world := { repl.world with output := "" }, errors := "" }

/-- Passes the lines of standard input to the loop until they end. -/
partial def runLoop (options : Options) (repl : Repl) : IO UInt32 := do
  let repl ← flushRepl repl
  let line ← (← IO.getStdin).getLine
  if line.isEmpty then
    let report := CommandLine.finish options repl.world repl.errors
    (← IO.getStdout).putStr report.output
    return 0
  let lines := Repl.linesOf line
  runLoop options (lines.foldl (Repl.feed CommandLine.mainSite Session.usualDepth) repl)

/-- Runs the program with the words of its command line. -/
def runMain (words : List String) : IO UInt32 := do
  let env : OptionEnv :=
    ⟨← IO.getEnv "LOAM_PRELUDE", ← IO.getEnv "LOAM_MACROEXPAND_LIMIT"⟩
  let files ←
    match Options.parse env words with
    | .ok (some options) => readFiles options
    | _ => pure fun _ => .error .notFound
  match CommandLine.start files env Session.usualDepth words with
  | .loop options repl => runLoop options repl
  | .done report =>
    (← IO.getStdout).putStr report.output
    (← IO.getStderr).putStr report.errors
    return UInt32.ofNat report.code

end SmallLisp

/-- The program. -/
def main (words : List String) : IO UInt32 := SmallLisp.runMain words
