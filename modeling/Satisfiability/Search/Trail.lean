import Satisfiability.Literal

/-!
# The trail

The literals made true so far, in order and by level. The ground level, number zero, holds what is
true without any decision. Each further level is opened for a decision and holds the decision with
its consequences.
-/

namespace Satisfiability.Search

structure Trail where
  ground : List Literal := []
  /-- The literals of each open level, the oldest first; the newest level first. -/
  levels : List (List Literal) := []
  deriving Repr, DecidableEq

namespace Trail

def level (trail : Trail) : Nat := trail.levels.length

def hasDecision (trail : Trail) : Bool := !trail.levels.isEmpty

def byLevel (trail : Trail) : List (List Literal) := trail.ground :: trail.levels.reverse

def literals (trail : Trail) : List Literal := trail.byLevel.flatten

def size (trail : Trail) : Nat := trail.ground.length + trail.levels.flatten.length

def top (trail : Trail) : List Literal := trail.levels.headD trail.ground

def decision? (trail : Trail) : Option Literal := trail.levels.head?.bind List.head?

def atLevel? (trail : Trail) (level : Nat) : Option (List Literal) := trail.byLevel[level]?

def decisionAt? (trail : Trail) (level : Nat) : Option Literal :=
  if level = 0 then none else (trail.atLevel? level).bind List.head?

def push (trail : Trail) (literal : Literal) : Trail :=
  match trail.levels with
  | [] => { trail with ground := trail.ground ++ [literal] }
  | top :: below => { trail with levels := (top ++ [literal]) :: below }

def openLevel (trail : Trail) : Trail := { trail with levels := [] :: trail.levels }

/-- Closes the newest level and gives its literals back. The ground cannot be closed. -/
def closeLevel (trail : Trail) : List Literal × Trail :=
  match trail.levels with
  | [] => ([], trail)
  | top :: below => (top, { trail with levels := below })

end Trail

end Satisfiability.Search
