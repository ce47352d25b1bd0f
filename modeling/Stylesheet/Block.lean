/-!
# Blocks

The three kinds of brackets that nest in a style sheet.
-/
namespace Stylesheet

inductive Block where
  /-- Also opened by the name of a function. -/
  | parenthesis
  | squareBracket
  | curlyBracket
  deriving DecidableEq, Repr, Inhabited

namespace Block

/-- Every kind of block once. -/
def all : List Block := [parenthesis, squareBracket, curlyBracket]

def openingChar : Block → Char
  | parenthesis => '('
  | squareBracket => '['
  | curlyBracket => '{'

def closingChar : Block → Char
  | parenthesis => ')'
  | squareBracket => ']'
  | curlyBracket => '}'

/-- The block that a code point opens. -/
def ofOpening? (c : Char) : Option Block := all.find? (·.openingChar = c)

/-- The block that a code point may close. -/
def ofClosing? (c : Char) : Option Block := all.find? (·.closingChar = c)

theorem ofOpening?_openingChar (b : Block) : ofOpening? b.openingChar = some b := by
  cases b <;> decide

theorem ofClosing?_closingChar (b : Block) : ofClosing? b.closingChar = some b := by
  cases b <;> decide

theorem openingChar_of_ofOpening? {c : Char} {b : Block} (h : ofOpening? c = some b) :
    b.openingChar = c := by
  simpa using List.find?_some h

theorem closingChar_of_ofClosing? {c : Char} {b : Block} (h : ofClosing? c = some b) :
    b.closingChar = c := by
  simpa using List.find?_some h

end Block
end Stylesheet
