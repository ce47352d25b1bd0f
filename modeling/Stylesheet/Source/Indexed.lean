import Stylesheet.Source

/-!
# Indexed sources

A source over an array of code points and an index into it. It takes its code points as they are,
without normalizing line endings, and counts offsets in code points.
-/
namespace Stylesheet

/-- A source over an array. -/
structure IndexedSource where
  chars : Array Char
  index : Nat
  /-- Where the text consumed since it was last taken begins. -/
  spanStart : Nat
  location : Location
  deriving Repr

namespace IndexedSource

def ofString (text : String) : IndexedSource :=
  { chars := text.toList.toArray, index := 0, spanStart := 0, location := .start }

def peek (s : IndexedSource) : Option Char := s.chars[s.index]?

def consume (s : IndexedSource) : Option Char × IndexedSource :=
  match s.peek with
  | none => (none, s)
  | some c => (some c, { s with index := s.index + 1, location := s.location.advance c })

/-- How many code points stand after the index. -/
def left (s : IndexedSource) : Nat := s.chars.size - s.index

instance : Source IndexedSource where
  peek s := (s.peek, s)
  consume := consume
  position s := ⟨s.index, s.location⟩
  reset mark s := { s with index := mark.offset, location := mark.location }
  takeText s :=
    (String.ofList (s.chars.extract s.spanStart s.index).toList, { s with spanStart := s.index })
  remaining := left
  remaining_peek_le _ := Nat.le_refl _
  remaining_consume_le s := by
    cases h : s.peek with
    | none => simp [consume, h]
    | some c => simp only [consume, h, left]; omega
  remaining_consume_lt s hs := by
    obtain ⟨c, h⟩ := Option.isSome_iff_exists.mp hs
    have hlt : s.index < s.chars.size := (Array.getElem?_eq_some_iff.mp h).1
    simp only [consume, show s.peek = some c from h, left]
    omega

end IndexedSource
end Stylesheet
