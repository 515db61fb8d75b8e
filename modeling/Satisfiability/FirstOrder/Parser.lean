import Satisfiability.Text.Cursor
import Satisfiability.FirstOrder.Formula

/-!
# Reading first-order terms and formulas

The readers of the notation: `f(x,c)` applies a function, `R(x)` a relation, `x=y` equates two
terms, `~` negates, `(φ&ψ)`, `(φ|ψ)` and `(φ->ψ)` combine, `Ax[φ]` and `Ex[φ]` quantify.
-/

namespace Satisfiability.FirstOrder

open Satisfiability.Text

namespace Term

mutual

def read (c : Cursor) : Except ReadingFault (Term × c.Shorter) :=
  match c.next? with
  | none => .error .unexpectedEnd
  | some (s, d) =>
    -- the underscore alone is a constant; names begin with other symbols
    if s = '_' then .ok (const "_", d)
    else if isNameSymbol s = false then .error (.unexpectedSymbol c.position)
    else
      let (more, e) := d.1.span isNameSymbol
      let e := d.andThen e
      let name := String.ofList (s :: more)
      if beginsConstant s then .ok (const name, e)
      else if beginsVariable s then .ok (var name, e)
      else if beginsFunction s then
        match e.1.expect '(' with
        | .error fault => .error fault
        | .ok f =>
          let f := e.andThen f.weaken
          match read f.1 with
          | .error fault => .error fault
          | .ok (first, g) =>
            let g := f.andThen g.weaken
            match readMore g.1 with
            | .error fault => .error fault
            | .ok (others, h) =>
              let h := g.andThen h
              match h.1.expect ')' with
              | .error fault => .error fault
              | .ok i => .ok (app name (first :: others), h.andThen i.weaken)
      else .error (.unexpectedSymbol c.position)
termination_by c.rest.length
decreasing_by all_goals exact Cursor.Shorter.length_lt _

def readMore (c : Cursor) : Except ReadingFault (List Term × c.NotLonger) :=
  match c.eat? ',' with
  | none => .ok ([], .here)
  | some d =>
    match read d.1 with
    | .error fault => .error fault
    | .ok (first, e) =>
      let e := d.andThen e.weaken
      match readMore e.1 with
      | .error fault => .error fault
      | .ok (others, f) => .ok (first :: others, (e.andThen f).weaken)
termination_by c.rest.length
decreasing_by all_goals exact Cursor.Shorter.length_lt _

end

def parse (text : String) : Except ReadingFault Term := Cursor.readAll read text

end Term

namespace Formula

/-- Reads the arguments of a relation behind its opening parenthesis, which may close at once. -/
def readArguments (c : Cursor) : Except ReadingFault (List Term × c.Shorter) :=
  match c.eat? ')' with
  | some d => .ok ([], d)
  | none =>
    match Term.read c with
    | .error fault => .error fault
    | .ok (first, d) =>
      match Term.readMore d.1 with
      | .error fault => .error fault
      | .ok (others, e) =>
        let e := d.andThen e
        match e.1.expect ')' with
        | .error fault => .error fault
        | .ok f => .ok (first :: others, e.andThen f.weaken)

def readConnective? (c : Cursor) : Option ((Formula → Formula → Formula) × c.NotLonger) :=
  match c.eat? '&' with
  | some d => some (and, d.weaken)
  | none =>
    match c.eat? '|' with
    | some d => some (or, d.weaken)
    | none => (c.eatAll? ['-', '>']).map fun d => (implies, d)

def readEquality (c : Cursor) : Except ReadingFault (Formula × c.Shorter) :=
  match Term.read c with
  | .error fault => .error fault
  | .ok (left, d) =>
    match d.1.expect '=' with
    | .error fault => .error fault
    | .ok e =>
      let e := d.andThen e.weaken
      match Term.read e.1 with
      | .error fault => .error fault
      | .ok (right, f) => .ok (equality left right, e.andThen f.weaken)

def read (c : Cursor) : Except ReadingFault (Formula × c.Shorter) :=
  match c.next? with
  | none => .error .unexpectedEnd
  | some (s, d) =>
    if s = '~' then
      match read d.1 with
      | .error fault => .error fault
      | .ok (inner, e) => .ok (not inner, d.andThen e.weaken)
    else if s = 'A' ∨ s = 'E' then
      let (name, e) := d.1.span isNameSymbol
      let name := String.ofList name
      let e := d.andThen e
      if isVariable name = false then .error (.unexpectedSymbol d.1.position)
      else
        match e.1.expect '[' with
        | .error fault => .error fault
        | .ok f =>
          let f := e.andThen f.weaken
          match read f.1 with
          | .error fault => .error fault
          | .ok (body, g) =>
            let g := f.andThen g.weaken
            match g.1.expect ']' with
            | .error fault => .error fault
            | .ok h => .ok (if s = 'A' then forAll name body else exist name body,
                g.andThen h.weaken)
    else if beginsRelation s then
      let (more, e) := d.1.span isNameSymbol
      let e := d.andThen e
      match e.1.expect '(' with
      | .error fault => .error fault
      | .ok f =>
        let f := e.andThen f.weaken
        match readArguments f.1 with
        | .error fault => .error fault
        | .ok (arguments, g) =>
          .ok (relation (String.ofList (s :: more)) arguments, f.andThen g.weaken)
    else if s = '(' then
      match read d.1 with
      | .error fault => .error fault
      | .ok (first, e) =>
        let e := d.andThen e.weaken
        match readConnective? e.1 with
        | none => .error e.1.unexpected
        | some (connective, f) =>
          let f := e.andThen f
          match read f.1 with
          | .error fault => .error fault
          | .ok (second, g) =>
            let g := f.andThen g.weaken
            match g.1.expect ')' with
            | .error fault => .error fault
            | .ok h => .ok (connective first second, g.andThen h.weaken)
    -- whatever else there is has to begin a term
    else readEquality c
termination_by c.rest.length
decreasing_by all_goals exact Cursor.Shorter.length_lt _

def parse (text : String) : Except ReadingFault Formula := Cursor.readAll read text

end Formula

end Satisfiability.FirstOrder
