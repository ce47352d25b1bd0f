import Stylesheet.Block
import Stylesheet.CodePoint

/-!
# Leads

The first code point of a token narrows down what the token can be. A lead is one of the classes
that make a difference.
-/
namespace Stylesheet

inductive Lead where
  /-- A solidus, which may open a comment. -/
  | solidus
  | whitespace
  | quote
  | numberSign
  | opening (block : Block)
  | closing (block : Block)
  | comma
  | colon
  | semicolon
  /-- A point or a plus sign, which may begin a number. -/
  | pointOrPlus
  /-- A less-than sign, which may open an HTML comment. -/
  | lessThan
  | atSign
  | digit
  /-- A hyphen, which may close an HTML comment, or begin a name or a number. -/
  | hyphen
  /-- A name-start code point, or a backslash, which may begin an escape. -/
  | name
  | other
  deriving DecidableEq, Repr

namespace Lead

open CodePoint

/-- The lead that a code point is. -/
def of (c : Char) : Lead :=
  if c = '/' then solidus
  else if isWhitespace c then whitespace
  else if isQuote c then quote
  else if c = '#' then numberSign
  else if c = ',' then comma
  else if c = ':' then colon
  else if c = ';' then semicolon
  else if c = '.' ∨ c = '+' then pointOrPlus
  else if c = '<' then lessThan
  else if c = '@' then atSign
  else if c = '-' then hyphen
  else if isDigit c then digit
  else if c = '\\' ∨ isNameStart c then name
  else match Block.ofOpening? c, Block.ofClosing? c with
    | some block, _ => opening block
    | none, some block => closing block
    | none, none => other

theorem of_openingChar (b : Block) : of b.openingChar = opening b := by cases b <;> decide

theorem of_closingChar (b : Block) : of b.closingChar = closing b := by cases b <;> decide

end Lead
end Stylesheet
