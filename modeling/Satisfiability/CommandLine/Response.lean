import Satisfiability.CommandLine.Arguments
import Satisfiability.CommandLine.Files
import Satisfiability.Problem

/-!
# Responses

A command answers with lines of text and an exit code. The answer is on a line that begins with `s`,
values of a model are on lines that begin with `v`, and comments on lines that begin with `c`.
-/

namespace Satisfiability.CommandLine

open Search (SplitMix)

structure Response where
  code : Nat
  lines : List String
  deriving Repr, DecidableEq

namespace Response

def text (response : Response) : String := String.join (response.lines.map (· ++ "\n"))

def after (response : Response) (lines : List String) : Response :=
  { response with lines := lines ++ response.lines }

def failure (comment : String) : Response := ⟨1, ["c " ++ comment]⟩

def ofFault : Fault → Response
  | .reading cause => failure ("Error parsing the formula: " ++ Fault.readingWord cause)
  | .outOfRange => ⟨101, []⟩
  | fault => failure ("Context error: " ++ fault.message)

def ofFileFault (fault : FileFault) : Response := failure ("Error reading input: " ++ fault.message)

def modelLines {α : Type} (valueText : α → String) (model : NameMap α) : List String :=
  model.toList.map fun (name, value) => "v " ++ name ++ " " ++ valueText value

def satisfiable (modelLines : List String) : Response := ⟨10, modelLines ++ ["s SATISFIABLE"]⟩

def unsatisfiable : Response := ⟨20, ["s UNSATISFIABLE"]⟩

def unknown : Response := ⟨30, ["s UNKNOWN"]⟩

def ofAnswer (showModel : Bool) : Except Fault Answer → Response
  | .error fault => ofFault fault
  | .ok (.satisfiable model) =>
    satisfiable (if showModel then modelLines (fun value => toString value) model else [])
  | .ok .unsatisfiable => unsatisfiable
  | .ok .unknown => unknown

/-- The response with values for the variables of a formula of linear arithmetic. -/
def ofWitness (showModel : Bool) : Except Fault (Option (NameMap Float)) → Response
  | .error fault => ofFault fault
  | .ok (some witness) => satisfiable (if showModel then modelLines Decimal.text witness else [])
  | .ok none => unsatisfiable

end Response

/-- The configuration that some arguments ask for, with a comment for each value out of bounds. -/
def Arguments.config (arguments : Arguments) : Config × List String :=
  let base : Config := { timeLimit := arguments.timeLimit }
  let apply := fun (setting : Setting Float) (value : Option Float) (name : String) =>
    match value with
    | none => (setting, [])
    | some value =>
      match setting.set value with
      | (true, setting) => (setting, [])
      | (false, setting) =>
        (setting, ["c " ++ name ++ " " ++ Decimal.text value ++ " is outside (0.0, 1.0)"])
  let (activityDecay, decayLines) :=
    apply base.activityDecay arguments.activityDecay "Activity decay"
  let (randomDecisionBias, biasLines) :=
    apply base.randomDecisionBias arguments.randomDecisionBias "Random decision bias"
  let bland := { base.linear.bland with value := arguments.flags.contains .bland }
  ({ base with activityDecay, randomDecisionBias, linear := { base.linear with bland } },
    decayLines ++ biasLines)

def formulaText (files : Files) (fromFile : Bool) (input : String) : Except FileFault String :=
  if fromFile then (files input).bind joinedLines else .ok input

def respond (files : Files) (mode : Mode) (input : String) (arguments : Arguments)
    (config : Config) : Response :=
  let showModel := arguments.flags.contains .model
  let random : SplitMix := ⟨0⟩
  let onFormula := fun (solve : String → Response) =>
    match formulaText files (arguments.flags.contains .file) input with
    | .error fault => .ofFileFault fault
    | .ok text => solve text
  match mode with
  | .normalForm => onFormula fun text => .ofAnswer showModel (solveNormalForm config random text)
  | .formula => onFormula fun text => .ofAnswer showModel (solveFormula config random text)
  | .moduloEquality =>
    onFormula fun text => .ofAnswer showModel (solveModuloEquality config random text)
  | .arithmetic => onFormula fun text => .ofWitness showModel (solveArithmetic config.linear text)
  | .clauseFile =>
    match files input with
    | .ok bytes => .ofAnswer showModel (solveClauseFile config random bytes)
    -- a directory can be opened, and fails like a first line that cannot be read
    | .error .directory => .ofFault (.reading (.literal 1))
    | .error fault => .failure ("Could not load " ++ input ++ ": " ++ fault.message)

def versionLine : String := "otter_smt pup (it's still growing)"

def usageLines : List String :=
  ["Determines whether a formula is satisfiable or unsatisfiable",
    "",
    "Usage: otter_smt [OPTIONS] <mode> <input>",
    "",
    "Modes: cnf, dimacs, sat, smt, lp",
    "",
    "Options:",
    "  -f, --file                          Read the formula from the file at the input path",
    "  -m, --model                         Display a model of a satisfiable formula",
    "  -t, --time-limit <seconds>          Time limit in seconds",
    "      --bland                         Let the smallest column enter from the first pivot on",
    "      --activity-decay <factor>       The factor for activities, 0.5 if not given",
    "      --random-decision-bias <bias>   How likely a decision is random, 0.0 if not given",
    "  -h, --help                          Print help",
    "  -V, --version                       Print version"]

def run (files : Files) : Request → Response
  | .version => ⟨0, [versionLine]⟩
  | .usage => ⟨0, usageLines⟩
  | .refused => ⟨2, []⟩
  | .solve mode input arguments =>
    let (config, comments) := arguments.config
    (respond files mode input arguments config).after comments

end Satisfiability.CommandLine
