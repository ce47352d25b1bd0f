/-!
# Locations and marks

A location is what a reader of the style sheet is told, a line and a column. A mark is a place
that a source can go back to; its offset is counted in whatever unit the source counts in.

Lines and columns have no largest value here. Nothing that is read depends on them: they are carried
along, handed out, and taken back from marks. So where they are kept in 32 bits, only what they say
can differ, and not before the text is that long, since neither exceeds the number of code points
before it by more than one.
-/
namespace Stylesheet

/-- A line and a column, both counted from 1. A column is a code point. -/
structure Location where
  line : Nat
  column : Nat
  deriving DecidableEq, Repr, Inhabited

namespace Location

/-- The location of the first code point. -/
def start : Location := ⟨1, 1⟩

/-- The location after one code point. Only LF starts a line. -/
def advance (l : Location) (c : Char) : Location :=
  if c = '\n' then ⟨l.line + 1, 1⟩ else ⟨l.line, l.column + 1⟩

/-- The location after a text. -/
def advanceAll (l : Location) (cs : List Char) : Location := cs.foldl advance l

instance : ToString Location where
  toString l := l.line.repr ++ ":" ++ l.column.repr

@[simp] theorem advanceAll_nil (l : Location) : l.advanceAll [] = l := rfl

@[simp] theorem advanceAll_cons (l : Location) (c : Char) (cs : List Char) :
    l.advanceAll (c :: cs) = (l.advance c).advanceAll cs := rfl

@[simp] theorem advanceAll_append (l : Location) (cs ds : List Char) :
    l.advanceAll (cs ++ ds) = (l.advanceAll cs).advanceAll ds := by
  simp [advanceAll]

end Location

/-- A place in the input, to go back to. -/
structure Mark where
  offset : Nat
  location : Location
  deriving DecidableEq, Repr, Inhabited

end Stylesheet
