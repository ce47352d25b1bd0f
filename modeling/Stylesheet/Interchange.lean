import Stylesheet.Token

/-!
# Interchange

Tokens and their parts as values of a self-describing data format, so that they can be stored and
read back. A record is written with the names of its fields. It is read in that form, other
fields ignored, or as the list of its fields in order. A kind is written as its name. It is read
in that form, or as an object with nothing under that name and no other.
-/
namespace Stylesheet

/-- A value of the data format. -/
inductive Value where
  | null
  | boolean (b : Bool)
  | integer (n : Int)
  /-- A number written with a decimal point: this many times the negated power of ten. -/
  | decimal (mantissa : Int) (places : Nat)
  | string (s : String)
  | array (items : List Value)
  | object (fields : List (String × Value))
  deriving Repr, Inhabited

namespace Value

def string? : Value → Option String
  | string s => some s
  | _ => none

/-- The name of the case that a value picks, out of cases that hold nothing. -/
def case? : Value → Option String
  | string name => some name
  | object [(name, null)] => some name
  | _ => none

/-- The number of a line or a column, which has 32 bits. -/
def ordinal? : Value → Option Nat
  | integer n => if 0 ≤ n ∧ n.toNat < UInt32.size then some n.toNat else none
  | _ => none

/-- The two fields of a record with these names. -/
def twoFields? (first second : String) : Value → Option (Value × Value)
  | object fields => do return (← fields.lookup first, ← fields.lookup second)
  | array [a, b] => some (a, b)
  | _ => none

end Value

namespace Kind

/-- The name of the kind in the data format. -/
def tag : Kind → String
  | whitespace => "Whitespace"
  | comment => "Comment"
  | ident => "Ident"
  | function => "Function"
  | atKeyword => "AtKeyword"
  | hash => "Hash"
  | string => "String"
  | badString => "BadString"
  | url => "Url"
  | badUrl => "BadUrl"
  | number => "Number"
  | percentage => "Percentage"
  | dimension => "Dimension"
  | delim => "Delim"
  | comma => "Comma"
  | colon => "Colon"
  | semicolon => "Semicolon"
  | openParen => "OpenParen"
  | closeParen => "CloseParen"
  | openBracket => "OpenBracket"
  | closeBracket => "CloseBracket"
  | openBrace => "OpenBrace"
  | closeBrace => "CloseBrace"
  | cdo => "CDO"
  | cdc => "CDC"
  | done => "Done"
  | error => "Error"

def ofTag? (tag : String) : Option Kind := all.find? (·.tag = tag)

theorem ofTag?_tag (k : Kind) : ofTag? k.tag = some k := by cases k <;> decide

def toValue (k : Kind) : Value := .string k.tag

def ofValue? (v : Value) : Option Kind := v.case?.bind ofTag?

theorem ofValue?_toValue (k : Kind) : ofValue? k.toValue = some k := ofTag?_tag k

end Kind

namespace Block

/-- The name of the block in the data format. -/
def tag : Block → String
  | parenthesis => "Parenthesis"
  | squareBracket => "SquareBracket"
  | curlyBracket => "CurlyBracket"

def ofTag? (tag : String) : Option Block := all.find? (·.tag = tag)

theorem ofTag?_tag (b : Block) : ofTag? b.tag = some b := by cases b <;> decide

def toValue (b : Block) : Value := .string b.tag

def ofValue? (v : Value) : Option Block := v.case?.bind ofTag?

theorem ofValue?_toValue (b : Block) : ofValue? b.toValue = some b := ofTag?_tag b

end Block

namespace Token

def toValue (t : Token) : Value :=
  .object [("kind", t.kind.toValue), ("text", .string t.text)]

def ofValue? (v : Value) : Option Token := do
  let (kind, text) ← v.twoFields? "kind" "text"
  return ⟨← Kind.ofValue? kind, ← text.string?⟩

theorem ofValue?_toValue (t : Token) : ofValue? t.toValue = some t := by
  simp [ofValue?, toValue, Value.twoFields?, Kind.ofValue?_toValue, Value.string?,
    List.lookup_cons]

end Token

namespace Location

def toValue (l : Location) : Value :=
  .object [("line", .integer l.line), ("column", .integer l.column)]

def ofValue? (v : Value) : Option Location := do
  let (line, column) ← v.twoFields? "line" "column"
  return ⟨← line.ordinal?, ← column.ordinal?⟩

end Location
end Stylesheet
