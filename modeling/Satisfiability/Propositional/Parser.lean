import Satisfiability.Text.Cursor
import Satisfiability.Propositional.Printer

/-!
# Reading propositional formulas

The reader of the fully parenthesised notation: a letter from `p` to `z` with digits is a variable,
`T` and `F` are the truth values, `~` negates, and a binary formula stands in parentheses.
-/

namespace Satisfiability.Propositional

open Satisfiability.Text

/-- The connectives in the order in which their symbols are tried: a symbol comes before those that
it begins or ends with. -/
def Connective.readingOrder : List Connective := [.iff, .implies, .nand, .nor, .and, .or, .xor]

def Connective.read? (c : Cursor) : Option (Connective × c.NotLonger) :=
  readingOrder.findSome? fun connective =>
    (c.eatAll? connective.symbol).map fun d => (connective, d)

namespace Formula

def read (c : Cursor) : Except ReadingFault (Formula × c.Shorter) :=
  match c.next? with
  | none => .error .unexpectedEnd
  | some (s, d) =>
    if s = 'T' then .ok (truth true, d)
    else if s = 'F' then .ok (truth false, d)
    else if s = '~' then
      match read d.1 with
      | .error fault => .error fault
      | .ok (inner, e) => .ok (not inner, d.andThen e.weaken)
    else if 'p' ≤ s ∧ s ≤ 'z' then
      let (digits, e) := d.1.span Char.isDigit
      .ok (var (String.ofList (s :: digits)), d.andThen e)
    else if s = '(' then
      match read d.1 with
      | .error fault => .error fault
      | .ok (first, e) =>
        let e := d.andThen e.weaken
        match Connective.read? e.1 with
        | none => .error e.1.unexpected
        | some (connective, f) =>
          let f := e.andThen f
          match read f.1 with
          | .error fault => .error fault
          | .ok (second, g) =>
            let g := f.andThen g.weaken
            match g.1.expect ')' with
            | .error fault => .error fault
            | .ok h => .ok (binary connective first second, g.andThen h.weaken)
    else .error c.unexpected
termination_by c.rest.length
decreasing_by all_goals exact Cursor.Shorter.length_lt _

def parse (text : String) : Except ReadingFault Formula := Cursor.readAll read text

end Formula

end Satisfiability.Propositional
