import Satisfiability.Decimal.Positional

/-!
# Arguments

A command names a mode and an input, among which flags and options may stand anywhere. Flags of one
letter may be joined in one word. An option takes a value, which is the rest of its word, with or
without an equals sign in front of it, or else the next word; a long option takes it behind an
equals sign or as the next word. No flag and no option is given twice. Behind the word `--`
everything is mode or input. Words are looked at from left to right, and the first one that ends the
reading decides.
-/

namespace Satisfiability.CommandLine

inductive Mode where
  /-- A propositional formula in conjunctive normal form. -/
  | normalForm
  | clauseFile
  | formula
  | moduloEquality
  | arithmetic
  deriving Repr, DecidableEq

def Mode.ofWord? (word : String) : Option Mode :=
  if word = "cnf" then some normalForm
  else if word = "dimacs" then some clauseFile
  else if word = "sat" then some formula
  else if word = "smt" then some moduloEquality
  else if word = "lp" then some arithmetic
  else none

inductive Flag where
  /-- The input is the path of a file that holds the formula. -/
  | file
  | model
  /-- The linear engine lets the smallest column enter from the first pivot on. -/
  | bland
  deriving Repr, DecidableEq

inductive Parameter where
  | timeLimit
  | activityDecay
  | randomDecisionBias
  deriving Repr, DecidableEq

structure Arguments where
  mode : Option Mode := none
  input : Option String := none
  flags : List Flag := []
  timeLimit : Option Nat := none
  activityDecay : Option Float := none
  randomDecisionBias : Option Float := none

inductive Request where
  | solve (mode : Mode) (input : String) (arguments : Arguments)
  | version
  | usage
  | refused

inductive Item where
  | flag (flag : Flag)
  /-- A parameter, with its value unless that is the next word. -/
  | parameter (parameter : Parameter) (value : Option String)
  | version
  | usage
  | plain (text : String)
  | unknown

def letterItem (letter : Char) : Item :=
  if letter = 'f' then .flag .file
  else if letter = 'm' then .flag .model
  else if letter = 'V' then .version
  else if letter = 'h' then .usage
  else .unknown

def letterItems : List Char → List Item
  | [] => []
  | 't' :: [] => [.parameter .timeLimit none]
  | 't' :: '=' :: value => [.parameter .timeLimit (some (String.ofList value))]
  | 't' :: value => [.parameter .timeLimit (some (String.ofList value))]
  | letter :: rest => letterItem letter :: letterItems rest

def nameItem (name : String) (value : Option String) : Item :=
  if name = "time-limit" then .parameter .timeLimit value
  else if name = "activity-decay" then .parameter .activityDecay value
  else if name = "random-decision-bias" then .parameter .randomDecisionBias value
  else if value.isSome then .unknown
  else if name = "file" then .flag .file
  else if name = "model" then .flag .model
  else if name = "bland" then .flag .bland
  else if name = "version" then .version
  else if name = "help" then .usage
  else .unknown

def itemsOf (word : String) : List Item :=
  match word.toList with
  | '-' :: '-' :: text =>
    let value := match text.dropWhile (· != '=') with
      | [] => none
      | _ :: value => some (String.ofList value)
    [nameItem (String.ofList (text.takeWhile (· != '='))) value]
  | '-' :: letter :: letters => letterItems (letter :: letters)
  | _ => [.plain word]

namespace Arguments

def orRefused {α : Type} : Option α → Except Request α
  | some a => .ok a
  | none => .error .refused

def once {α : Type} (old new : Option α) : Except Request (Option α) :=
  if old.isSome then .error .refused else (orRefused new).map some

def setParameter (arguments : Arguments) (parameter : Parameter) (value : String) :
    Except Request Arguments :=
  match parameter with
  | .timeLimit =>
    (once arguments.timeLimit (Text.unsigned? value.toList)).map fun timeLimit =>
      { arguments with timeLimit }
  | .activityDecay =>
    (once arguments.activityDecay (Decimal.read? value.toList)).map fun activityDecay =>
      { arguments with activityDecay }
  | .randomDecisionBias =>
    (once arguments.randomDecisionBias (Decimal.read? value.toList)).map fun randomDecisionBias =>
      { arguments with randomDecisionBias }

def addPlain (arguments : Arguments) (text : String) : Except Request Arguments :=
  match arguments.mode, arguments.input with
  | none, _ => (orRefused (Mode.ofWord? text)).map fun mode => { arguments with mode := some mode }
  | some _, none => .ok { arguments with input := some text }
  | some _, some _ => .error .refused

def raise (arguments : Arguments) (flag : Flag) : Except Request Arguments :=
  if arguments.flags.contains flag then .error .refused
  else .ok { arguments with flags := flag :: arguments.flags }

/-- Takes what a word says. The result names the parameter whose value is the next word, if there is
one. -/
def take (arguments : Arguments) : List Item → Except Request (Arguments × Option Parameter)
  | [] => .ok (arguments, none)
  | .flag flag :: rest => (arguments.raise flag).bind fun arguments => take arguments rest
  | .parameter parameter (some value) :: rest =>
    (arguments.setParameter parameter value).bind fun arguments => take arguments rest
  | .parameter parameter none :: _ => .ok (arguments, some parameter)
  | .version :: _ => .error .version
  | .usage :: _ => .error .usage
  | .plain text :: rest => (arguments.addPlain text).bind fun arguments => take arguments rest
  | .unknown :: _ => .error .refused

/-- Reads words, of which the first one is the value of a parameter if one is awaited. -/
def read (arguments : Arguments) (awaited : Option Parameter) :
    List String → Except Request Arguments
  | [] => if awaited.isSome then .error .refused else .ok arguments
  | word :: rest =>
    match awaited with
    | some parameter =>
      -- what looks like an option is no value
      if word.front = '-' then .error .refused
      else (arguments.setParameter parameter word).bind fun arguments => arguments.read none rest
    | none =>
      -- two dashes alone end the options
      if word = "--" then rest.foldlM addPlain arguments
      else
        (arguments.take (itemsOf word)).bind fun (arguments, awaited) => arguments.read awaited rest

end Arguments

def Request.ofWords (words : List String) : Request :=
  match ({} : Arguments).read none words with
  | .error request => request
  | .ok arguments =>
    match arguments.mode, arguments.input with
    | some mode, some input => .solve mode input arguments
    | _, _ => .refused

end Satisfiability.CommandLine
