import Satisfiability.Clause.Key

/-!
# Faults

Everything that can go wrong, by cause, and the words for it. Two causes have no words of their own:
an index without an entry, and a loop that used up its budget. The budgets suffice wherever each
literal is justified by its reason.
-/

namespace Satisfiability.Text

inductive ReadingFault where
  | unexpectedEnd
  /-- The symbol at this position cannot stand there. -/
  | unexpectedSymbol (position : Nat)
  /-- A whole phrase was read, and symbols follow it from this position. -/
  | trailingInput (position : Nat)
  /-- The formula is no conjunction of disjunctions of literals. -/
  | notCnf
  | problemSpecification
  /-- The literal on this line of a clause file, or in a single clause, is malformed. -/
  | literal (line : Nat)
  | notLinear (term : String)
  /-- The formula with this text is no linear constraint. -/
  | notArithmetic (formula : String)
  deriving Repr, DecidableEq

end Satisfiability.Text

namespace Satisfiability

open Text (ReadingFault)

inductive AnalysisFault where
  | emptyResolution
  /-- Resolution has ended with more than one literal of the level. -/
  | noAssertion
  /-- A literal to be resolved on was not implied by a clause. -/
  | missingReason
  | noDecision
  deriving Repr, DecidableEq

inductive AtomFault where
  | exhausted
  | unknown
  deriving Repr, DecidableEq

inductive PropagationFault where
  | conflict (key : ClauseKey)
  | corruptWatch
  deriving Repr, DecidableEq

inductive ClauseFault where
  | missing
  | emptyClause
  /-- A clause of one literal was to be stored as a longer one. -/
  | unitClause
  | storageExhausted
  deriving Repr, DecidableEq

inductive TheoryFault where
  | unknownAtom (atom : Atom)
  /-- The level to return to is above the current one. -/
  | invalidLevel
  /-- The atom was asserted before with the other value. -/
  | reasserted (atom : Atom)
  deriving Repr, DecidableEq

inductive SimplexFault where
  | singularBasis
  | iterationLimit
  | auxiliaryUnbounded
  | dimension
  deriving Repr, DecidableEq

inductive Fault where
  | analysis (cause : AnalysisFault)
  | atoms (cause : AtomFault)
  | propagation (cause : PropagationFault)
  | clauses (cause : ClauseFault)
  | reading (cause : ReadingFault)
  | theory (cause : TheoryFault)
  | simplex (cause : SimplexFault)
  | backjump
  /-- The operation is not allowed in the present state. -/
  | invalidState
  /-- An index has no entry, or an entry is not what its index promises. -/
  | outOfRange
  | outOfFuel
  deriving Repr, DecidableEq

namespace Fault

def withArgument (word argument : String) : String := word ++ "(" ++ argument ++ ")"

def quoted (text : String) : String := "\"" ++ text ++ "\""

def analysisWord : AnalysisFault → String
  | .emptyResolution => "EmptyResolution"
  | .noAssertion => "NoAssertion"
  | .missingReason => "MissingReason"
  | .noDecision => "NoDecision"

def atomWord : AtomFault → String
  | .exhausted => "AtomsExhausted"
  | .unknown => "UnknownAtom"

def literalInFull (literal : Literal) : String :=
  "CLiteral \x7b atom: " ++ Nat.repr literal.atom ++ ", polarity: " ++ toString literal.positive
    ++ " \x7d"

def keyInFull : ClauseKey → String
  | .unit source literal => withArgument (source.word ++ "Unit") (literalInFull literal)
  | .stored source index => withArgument source.word (Nat.repr index)

def propagationWord : PropagationFault → String
  | .conflict key => withArgument "Conflict" (keyInFull key)
  | .corruptWatch => "CorruptWatch"

def clauseWord : ClauseFault → String
  | .missing => "Missing"
  | .emptyClause => "EmptyClause"
  | .unitClause => "UnitClause"
  | .storageExhausted => "StorageExhausted"

def readingWord : ReadingFault → String
  | .unexpectedEnd => "UnexpectedEnd"
  | .unexpectedSymbol position => withArgument "UnexpectedSymbol" (Nat.repr position)
  | .trailingInput position => withArgument "TrailingInput" (Nat.repr position)
  | .notCnf => "NotCnf"
  | .problemSpecification => "ProblemSpecification"
  | .literal line => withArgument "Literal" (Nat.repr line)
  | .notLinear term => withArgument "NotLinear" (quoted term)
  | .notArithmetic formula => withArgument "NotArithmetic" (quoted formula)

def theoryWord : TheoryFault → String
  | .unknownAtom atom => withArgument "UnknownAtom" (Nat.repr atom)
  | .invalidLevel => "InvalidLevel"
  | .reasserted atom => withArgument "Reasserted" (Nat.repr atom)

def simplexWord : SimplexFault → String
  | .singularBasis => "SingularBasis"
  | .iterationLimit => "IterationLimit"
  | .auxiliaryUnbounded => "AuxiliaryUnbounded"
  | .dimension => "Dimension"

def message : Fault → String
  | analysis cause => "analysis error: " ++ analysisWord cause
  | atoms cause => "atom database error: " ++ atomWord cause
  | propagation cause => "propagation error: " ++ propagationWord cause
  | clauses cause => "clause database error: " ++ clauseWord cause
  | reading cause => "parse error: " ++ readingWord cause
  | theory cause => "theory error: " ++ theoryWord cause
  | simplex cause => "simplex error: " ++ simplexWord cause
  | backjump => "backjump error"
  | invalidState => "invalid state"
  -- no words are laid down for the two that follow
  | outOfRange => "index out of range"
  | outOfFuel => "budget used up"

def kind : Fault → String
  | analysis _ => "Analysis"
  | atoms _ => "AtomDB"
  | propagation _ => "BCP"
  | clauses _ => "ClauseDB"
  | reading _ => "Parse"
  | theory _ => "Theory"
  | simplex _ => "Simplex"
  | backjump => "Backjump"
  | invalidState => "InvalidState"
  | outOfRange => "OutOfRange"
  | outOfFuel => "OutOfFuel"

end Fault

/-- An operation on a state, which leaves a state behind even where it fails. -/
abbrev Step (σ α : Type) : Type := ExceptT Fault (StateM σ) α

end Satisfiability
