import SmallLisp.Options
import SmallLisp.Repl

/-!
# Runs from the command line

A run makes a registry with the standard library and the prelude. Given expressions or a file it
evaluates them, the expressions first, and prints the last value; given neither it is a
read-eval-print loop over its input. It may end with a listing of the registry. A run fails with
code 1 if an evaluation fails, outside the loop, and with code 2 if its words are refused.
-/

namespace SmallLisp

/-- What a run leaves behind. -/
structure Report where
  /-- The exit code. -/
  code : Nat
  /-- What it printed. -/
  output : String
  /-- What it reported. -/
  errors : String

namespace CommandLine

/-- Where a run evaluates. -/
def mainSite : Site := ⟨0, 0⟩

/-- A run begun: it is over, or it waits for lines. -/
inductive Start where
  /-- The run is over. -/
  | done (report : Report)
  /-- The run is a loop over lines. -/
  | loop (options : Options) (repl : Repl)

/-- Evaluates the expressions in order, for the last value. -/
def evalExprs (depth : Nat) (exprs : List String) : Action (Option Value) :=
  exprs.foldlM (fun _ text => Session.evalText mainSite depth text) none

/-- Evaluates the expressions and then the file, for the last value. -/
def evalAll (files : Files) (depth : Nat) (options : Options) : Action (Option Value) := do
  let last ← evalExprs depth options.exprs
  match options.file with
  | some path => Session.evalFile files mainSite depth path
  | none => pure last

/-- The end of a run: the listing, if it is wanted. -/
def finish (options : Options) (w : World) (errors : String) : Report :=
  let w := if options.dump then w.print (w.dump mainSite.registry) else w
  ⟨0, w.output, errors⟩

/-- Evaluates what the words give, and prints the last value. -/
def runGiven (files : Files) (depth : Nat) (options : Options) (w : World) : Report :=
  match (evalAll files depth options).run w with
  | .ok (some v) w => finish options (w.print (v.text ++ "\n")) ""
  | .ok none w => finish options w ""
  | .error halt w => ⟨1, w.output, halt.report⟩

/-- Begins a run with the given options. -/
def startWith (files : Files) (depth : Nat) (options : Options) : Start :=
  let (r, w) := World.empty.newRegistry mainSite.thread options.expansionLimit
  let w := w.addStandardLibrary r
  let loaded :=
    if options.loadPrelude then
      (Session.evalPrelude files mainSite depth options.preludePath).run w
    else .ok none w
  match loaded with
  | .error halt w => .done ⟨1, w.output, halt.report⟩
  | .ok _ w =>
    if options.exprs.isEmpty && options.file.isNone then .loop options (Repl.start w)
    else .done (runGiven files depth options w)

/-- Begins a run. -/
def start (files : Files) (env : OptionEnv) (depth : Nat) (words : List String) : Start :=
  match Options.parse env words with
  | .ok (some options) => startWith files depth options
  | .ok none => .done ⟨0, Options.usage ++ "\n", ""⟩
  | .error fault => .done ⟨2, "", fault.message ++ "\n" ++ Options.usage ++ "\n"⟩

/-- A whole run over the given input. -/
def run (files : Files) (env : OptionEnv) (depth : Nat) (words : List String) (input : String) :
    Report :=
  match start files env depth words with
  | .done report => report
  | .loop options repl =>
    let repl := (Repl.linesOf input).foldl (Repl.feed mainSite depth) repl
    finish options repl.world repl.errors

end CommandLine

end SmallLisp
