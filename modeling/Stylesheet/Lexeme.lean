import Stylesheet.Lexeme.Lead
import Stylesheet.Scan.Comment
import Stylesheet.Scan.Number
import Stylesheet.Scan.Quoted
import Stylesheet.Scan.Url

/-!
# Lexemes

A lexeme is what the input alone says about a token: how far it goes, and its kind, but for a
closing bracket, which is a token of its own kind only if the block that it closes is the
innermost one. Where tokens begin and end is therefore the same whatever blocks are open.
-/
namespace Stylesheet

inductive Lexeme where
  /-- A token whose kind does not depend on the open blocks. -/
  | token (kind : Kind)
  /-- A bracket that closes this block if it is the innermost one. -/
  | closing (block : Block)
  /-- A comment that the input ends inside of. -/
  | unterminatedComment
  deriving DecidableEq, Repr

namespace Scan

open CodePoint

variable {σ : Type} [Source σ]

/-- The next code point, as a lexeme of its own. -/
def single (kind : Kind) : Scan σ Lexeme := do
  let _ ← consume
  return .token kind

/-- Whether a quote comes next, whitespace before it or none. -/
def quoteAhead : Scan σ Bool := do
  let _ ← acceptWhile isWhitespace
  return (← peek).any isQuote

/-- What stands behind the parenthesis of a URL: a quoted URL, which makes a function of the
text up to that parenthesis, or an unquoted one, which is a token with it. -/
def urlRest : Scan σ Kind := do
  if ← keepIf (! ·) quoteAhead then return .function
  else if ← unquotedUrl then return .url
  else return .badUrl

/-- A name that is not behind an at sign: a URL, a function or an identifier. -/
def nameLike : Scan σ (Option Kind) := do
  if ← acceptTextIgnoringCase "url(" then return some (← urlRest)
  else if ← identifier then
    if ← acceptChar '(' then return some .function else return some .ident
  else return none

/-- The lexeme that begins with this code point, which is the next one. -/
def lexeme (c : Char) : Scan σ Lexeme :=
  match Lead.of c with
  | .solidus => do
    if ← acceptText "/*" then
      if ← comment then return .token .comment else return .unterminatedComment
    else single .delim
  | .whitespace => do
    let _ ← acceptWhile isWhitespace
    return .token .whitespace
  | .quote => do
    let _ ← consume
    if ← quoted c then return .token .string else return .token .badString
  | .numberSign => do
    let _ ← consume
    if ← lookahead nameUnit then
      name
      return .token .hash
    else return .token .delim
  | .opening block => single (.opening block)
  | .closing block => do
    let _ ← consume
    return .closing block
  | .comma => single .comma
  | .colon => single .colon
  | .semicolon => single .semicolon
  | .pointOrPlus => do
    if ← lookahead numberStart then return .token (← numeric) else single .delim
  | .lessThan => do
    if ← acceptText "<!--" then return .token .cdo else single .delim
  | .atSign => do
    let _ ← consume
    if ← attempt identifier then return .token .atKeyword else return .token .delim
  | .digit => return .token (← numeric)
  | .hyphen => do
    if ← acceptText "-->" then return .token .cdc
    else
      match ← attempt? nameLike with
      | some kind => return .token kind
      | none => if ← lookahead numberStart then return .token (← numeric) else single .delim
  | .name => do
    match ← attempt? nameLike with
    | some kind => return .token kind
    | none => single .delim
  | .other => single .delim

end Scan
end Stylesheet
