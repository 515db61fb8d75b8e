import Satisfiability.Text.Words
import Satisfiability.Fault

/-!
# Reading symbols from a text

A cursor stands between the symbols read and the symbols still to be read. Blank characters are no
symbols: they are dropped when the cursor is made, so a position counts the symbols before it.

A reader takes a cursor and returns a value with a cursor further on. That it is further on is part
of the result (`Cursor.Shorter`), which is what lets readers call themselves.
-/

namespace Satisfiability.Text

/-- A place in a text without blanks: how many symbols were read, and the symbols that remain. -/
structure Cursor where
  position : Nat
  rest : List Char
  deriving Repr, DecidableEq

namespace Cursor

def ofString (text : String) : Cursor :=
  ⟨0, text.toList.filter (!isBlank ·)⟩

abbrev Shorter (c : Cursor) : Type := { d : Cursor // d.rest.length < c.rest.length }

abbrev NotLonger (c : Cursor) : Type := { d : Cursor // d.rest.length ≤ c.rest.length }

namespace Shorter

variable {c : Cursor}

def andThen (d : c.Shorter) (e : d.1.NotLonger) : c.Shorter :=
  ⟨e.1, Nat.lt_of_le_of_lt e.2 d.2⟩

theorem length_lt (d : c.Shorter) : d.1.rest.length < c.rest.length := d.2

def weaken (d : c.Shorter) : c.NotLonger :=
  ⟨d.1, Nat.le_of_lt d.2⟩

end Shorter

namespace NotLonger

variable {c : Cursor}

def here : c.NotLonger := ⟨c, Nat.le_refl _⟩

def andThen (d : c.NotLonger) (e : d.1.NotLonger) : c.NotLonger :=
  ⟨e.1, Nat.le_trans e.2 d.2⟩

end NotLonger

def next? : (c : Cursor) → Option (Char × c.Shorter)
  | ⟨_, []⟩ => none
  | ⟨position, s :: rest⟩ => some (s, ⟨⟨position + 1, rest⟩, Nat.lt_succ_self _⟩)

def unexpected (c : Cursor) : ReadingFault :=
  if c.rest.isEmpty then .unexpectedEnd else .unexpectedSymbol c.position

def eat? (c : Cursor) (symbol : Char) : Option c.Shorter :=
  match c.next? with
  | some (s, d) => if s = symbol then some d else none
  | none => none

def expect (c : Cursor) (symbol : Char) : Except ReadingFault c.Shorter :=
  match c.eat? symbol with
  | some d => .ok d
  | none => .error c.unexpected

/-- The cursor behind all of `symbols`, if they come next in this order. -/
def eatAll? : (c : Cursor) → (symbols : List Char) → Option c.NotLonger
  | _, [] => some .here
  | c, s :: more =>
    match c.eat? s with
    | none => none
    | some d =>
      match d.1.eatAll? more with
      | none => none
      | some e => some (d.andThen e).weaken

/-- The longest run of symbols that satisfy `p`, and the cursor behind it. -/
def span (p : Char → Bool) : (c : Cursor) → List Char × c.NotLonger
  | ⟨position, rest⟩ =>
    (rest.takeWhile p,
      ⟨⟨position + (rest.takeWhile p).length, rest.dropWhile p⟩,
        (List.dropWhile_sublist p).length_le⟩)

def finish (c : Cursor) : Except ReadingFault Unit :=
  if c.rest.isEmpty then .ok () else .error (.trailingInput c.position)

/-- Reads a whole text with one reader: the reader has to reach the end. -/
def readAll {α : Type} (reader : (c : Cursor) → Except ReadingFault (α × c.Shorter))
    (text : String) : Except ReadingFault α :=
  match reader (ofString text) with
  | .error fault => .error fault
  | .ok (a, c) =>
    match c.1.finish with
    | .error fault => .error fault
    | .ok () => .ok a

end Cursor

end Satisfiability.Text
