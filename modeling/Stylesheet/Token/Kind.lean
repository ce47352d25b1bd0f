import Stylesheet.Block

/-!
# Kinds of tokens

Every token has one of these kinds. Two of them end a list of tokens: `done` when the whole
style sheet was read, `error` when it could not be.
-/
namespace Stylesheet

inductive Kind where
  /-- A run of whitespace, as long as it goes. -/
  | whitespace
  | comment
  | ident
  /-- A name with the parenthesis that follows it. -/
  | function
  | atKeyword
  | hash
  | string
  /-- A string that its line, or the input, ends inside of. -/
  | badString
  | url
  /-- An unquoted URL that holds what it may not. -/
  | badUrl
  | number
  | percentage
  | dimension
  /-- A code point that nothing else is made of. -/
  | delim
  | comma
  | colon
  | semicolon
  | openParen
  | closeParen
  | openBracket
  | closeBracket
  | openBrace
  | closeBrace
  /-- The mark that opens an HTML comment. -/
  | cdo
  /-- The mark that closes an HTML comment. -/
  | cdc
  | done
  | error
  deriving DecidableEq, Repr, Inhabited

namespace Kind

/-- Every kind once. -/
def all : List Kind :=
  [whitespace, comment, ident, function, atKeyword, hash, string, badString, url, badUrl,
   number, percentage, dimension, delim, comma, colon, semicolon, openParen, closeParen,
   openBracket, closeBracket, openBrace, closeBrace, cdo, cdc, done, error]

theorem mem_all (k : Kind) : k ∈ all := by cases k <;> decide

/-- The name of the kind, as it is printed. -/
def name : Kind → String
  | whitespace => "whitespace"
  | comment => "comment"
  | ident => "ident"
  | function => "function"
  | atKeyword => "at-keyword"
  | hash => "hash"
  | string => "string"
  | badString => "bad-string"
  | url => "url"
  | badUrl => "bad-url"
  | number => "number"
  | percentage => "percentage"
  | dimension => "dimension"
  | delim => "delim"
  | comma => "comma"
  | colon => "colon"
  | semicolon => "semicolon"
  | openParen => "open-paren"
  | closeParen => "close-paren"
  | openBracket => "open-bracket"
  | closeBracket => "close-bracket"
  | openBrace => "open-brace"
  | closeBrace => "close-brace"
  | cdo => "cdo"
  | cdc => "cdc"
  | done => "done"
  | error => "error"

/-- The kind of that name. -/
def ofName? (name : String) : Option Kind := all.find? (·.name = name)

theorem ofName?_name (k : Kind) : ofName? k.name = some k := by cases k <;> decide

theorem name_of_ofName? {name : String} {k : Kind} (h : ofName? name = some k) :
    k.name = name := by
  simpa using List.find?_some h

instance : ToString Kind := ⟨name⟩

/-- The kinds of malformed tokens, after which reading goes on. -/
def isBad (k : Kind) : Bool := k = badString || k = badUrl

/-- The block that a token of this kind opens. -/
def opens? : Kind → Option Block
  | function | openParen => some .parenthesis
  | openBracket => some .squareBracket
  | openBrace => some .curlyBracket
  | _ => none

/-- The block that a token of this kind closes. -/
def closes? : Kind → Option Block
  | closeParen => some .parenthesis
  | closeBracket => some .squareBracket
  | closeBrace => some .curlyBracket
  | _ => none

/-- The kind of the bracket that opens a block. -/
def opening : Block → Kind
  | .parenthesis => openParen
  | .squareBracket => openBracket
  | .curlyBracket => openBrace

/-- The kind of the bracket that closes a block. -/
def closing : Block → Kind
  | .parenthesis => closeParen
  | .squareBracket => closeBracket
  | .curlyBracket => closeBrace

@[simp] theorem opens?_opening (b : Block) : (opening b).opens? = some b := by cases b <;> rfl

@[simp] theorem closes?_closing (b : Block) : (closing b).closes? = some b := by cases b <;> rfl

end Kind
end Stylesheet
