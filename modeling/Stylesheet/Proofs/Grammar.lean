import Stylesheet.Lexeme
import Stylesheet.Proofs.Patterns

/-!
# The grammar of lexemes

What scanners read, said about texts alone. Each judgement has two texts: `Name taken rest` says
that in front of `rest` a name goes as far as `taken`, and no further. What follows comes in only
as what does not come next.
-/
namespace Stylesheet

open CodePoint

/-- What follows a code point if it begins a token of more than itself. Where it always does, or
is a token of a kind of its own, anything will do. -/
def Lead.goesOn (c : Char) : Pattern :=
  match Lead.of c with
  | .solidus => .text ['*']
  | .numberSign => .nameUnit
  | .pointOrPlus => if c = '.' then .one isDigit else .unsigned
  | .lessThan => .text ['!', '-', '-']
  | .atSign => .identifier
  | .hyphen => Pattern.text ['-', '>'] ++ .hyphenated ++ .unsigned
  | .name => if c = '\\' then .one (!isNewline ·) else .anything
  | .other => []
  | _ => .anything

namespace Grammar

/-- At most one code point of the class, and one if it comes next. -/
inductive Optional (p : Char → Bool) : List Char → List Char → Prop
  | taken {c : Char} (h : p c = true) (rest : List Char) : Optional p [c] rest
  | absent {rest : List Char} (h : (Pattern.one p).fits rest = false) : Optional p [] rest

/-- All code points of the class that come next. -/
structure Run (p : Char → Bool) (taken rest : List Char) : Prop where
  all : ∀ c ∈ taken, p c = true
  stops : (Pattern.one p).fits rest = false

/-- An escape behind its backslash. -/
inductive EscapeBody : List Char → List Char → Prop
  | plain {c : Char} (hn : isNewline c = false) (hx : isHexDigit c = false) (rest : List Char) :
      EscapeBody [c] rest
  | hex {digits space rest : List Char} (hd : ∀ d ∈ digits, isHexDigit d = true)
      (hne : digits ≠ []) (hle : digits.length ≤ 6)
      (hstop : digits.length < 6 → (Pattern.one isHexDigit).fits (space ++ rest) = false)
      (hs : Optional isWhitespace space rest) : EscapeBody (digits ++ space) rest

inductive Name : List Char → List Char → Prop
  | stop {rest : List Char} (h : Pattern.nameUnit.fits rest = false) : Name [] rest
  | char {c : Char} {taken rest : List Char} (hc : isNameChar c = true) (h : Name taken rest) :
      Name (c :: taken) rest
  | escape {body taken rest : List Char} (he : EscapeBody body (taken ++ rest))
      (h : Name taken rest) : Name ('\\' :: (body ++ taken)) rest

inductive Identifier : List Char → List Char → Prop
  | hyphens {taken rest : List Char} (h : Name taken rest) : Identifier ('-' :: '-' :: taken) rest
  | start {hyphen taken rest : List Char} {c : Char} (hh : hyphen = [] ∨ hyphen = ['-'])
      (hc : isNameStart c = true) (h : Name taken rest) : Identifier (hyphen ++ c :: taken) rest
  | escape {hyphen body taken rest : List Char} (hh : hyphen = [] ∨ hyphen = ['-'])
      (he : EscapeBody body (taken ++ rest)) (h : Name taken rest) :
      Identifier (hyphen ++ '\\' :: (body ++ taken)) rest

inductive Fraction : List Char → List Char → Prop
  | taken {digits rest : List Char} (hd : Run isDigit digits rest) (hne : digits ≠ []) :
      Fraction ('.' :: digits) rest
  | absent {rest : List Char} (h : Pattern.fraction.fits rest = false) : Fraction [] rest

inductive Exponent : List Char → List Char → Prop
  | taken {mark : Char} {sign digits rest : List Char} (hm : isExponentMark mark = true)
      (hs : Optional isSign sign (digits ++ rest)) (hd : Run isDigit digits rest)
      (hne : digits ≠ []) : Exponent (mark :: (sign ++ digits)) rest
  | absent {rest : List Char} (h : Pattern.exponent.fits rest = false) : Exponent [] rest

/-- A number has digits before the point or behind it. -/
inductive Number : List Char → List Char → Prop
  | intro {sign whole fraction exponent rest : List Char}
      (hs : Optional isSign sign (whole ++ (fraction ++ (exponent ++ rest))))
      (hw : Run isDigit whole (fraction ++ (exponent ++ rest)))
      (hf : Fraction fraction (exponent ++ rest)) (he : Exponent exponent rest)
      (hne : whole ≠ [] ∨ fraction ≠ []) :
      Number (sign ++ (whole ++ (fraction ++ exponent))) rest

inductive Numeric : Kind → List Char → List Char → Prop
  | percentage {number rest : List Char} (h : Number number ('%' :: rest)) :
      Numeric .percentage (number ++ ['%']) rest
  | dimension {number unit rest : List Char} (h : Number number (unit ++ rest))
      (hu : Identifier unit rest) : Numeric .dimension (number ++ unit) rest
  | number {number rest : List Char} (h : Number number rest)
      (hp : (Pattern.one (· = '%')).fits rest = false)
      (hi : Pattern.identifier.fits rest = false) : Numeric .number number rest

/-- A comment behind its opening mark. -/
inductive Comment : List Char → Prop
  | close : Comment ['*', '/']
  | pass {c : Char} {taken : List Char} (hc : c = '*' → taken.head? ≠ some '/')
      (h : Comment taken) : Comment (c :: taken)

/-- What stands between the quotes of a string, or behind the one quote of a bad one. -/
inductive Quoted (quote : Char) : List Char → List Char → Prop
  | stop {rest : List Char} (h : (Pattern.quoted quote).fits rest = false) : Quoted quote [] rest
  | char {c : Char} {taken rest : List Char} (hq : c ≠ quote) (hb : c ≠ '\\') (hn : c ≠ '\n')
      (h : Quoted quote taken rest) : Quoted quote (c :: taken) rest
  | lineEnding {taken rest : List Char} (h : Quoted quote taken rest) :
      Quoted quote ('\\' :: '\n' :: taken) rest
  | escape {body taken rest : List Char} (he : EscapeBody body (taken ++ rest))
      (h : Quoted quote taken rest) : Quoted quote ('\\' :: (body ++ taken)) rest

/-- What stands in an unquoted URL behind the whitespace that it begins with. The flags say
whether the URL was well formed up to here, and whether it is at the end. -/
inductive UrlBody : Bool → Bool → List Char → List Char → Prop
  | stop {good : Bool} {rest : List Char} (h : (Pattern.one (· ≠ ')')).fits rest = false) :
      UrlBody good good [] rest
  | char {good result : Bool} {c : Char} {taken rest : List Char} (hc : isUrlChar c = true)
      (h : UrlBody good result taken rest) : UrlBody good result (c :: taken) rest
  | space {good result : Bool} {space taken rest : List Char}
      (hs : Run isWhitespace space (taken ++ rest)) (hne : space ≠ [])
      (h : UrlBody (good && (Pattern.one (· = ')')).fits (taken ++ rest)) result taken rest) :
      UrlBody good result (space ++ taken) rest
  | escape {good result : Bool} {body taken rest : List Char}
      (he : EscapeBody body (taken ++ rest)) (h : UrlBody good result taken rest) :
      UrlBody good result ('\\' :: (body ++ taken)) rest
  | bad {good result : Bool} {c : Char} {taken rest : List Char} (hc : isUrlChar c = false)
      (hp : c ≠ ')') (hw : isWhitespace c = false)
      (hb : c = '\\' → (Pattern.one (!isNewline ·)).fits (taken ++ rest) = false)
      (h : UrlBody false result taken rest) : UrlBody good result (c :: taken) rest

/-- The four code points that an unquoted URL begins with, in any case. -/
def isUrlMark (cs : List Char) : Bool := cs.map Char.toLower = "url(".toList

/-- A token that begins like a name. -/
inductive NameLike : Kind → List Char → List Char → Prop
  | ident {name rest : List Char} (h : Identifier name rest)
      (hp : (Pattern.one (· = '(')).fits rest = false) : NameLike .ident name rest
  | function {name rest : List Char} (h : Identifier name ('(' :: rest))
      (hu : isUrlMark (name ++ ['(']) = false) : NameLike .function (name ++ ['(']) rest
  | quotedUrl {mark space rest : List Char} {quote : Char} (hm : isUrlMark mark = true)
      (hs : ∀ c ∈ space, isWhitespace c = true) (hq : isQuote quote = true) :
      NameLike .function mark (space ++ quote :: rest)
  | url {mark space body rest : List Char} {good : Bool} (hm : isUrlMark mark = true)
      (hs : Run isWhitespace space (body ++ ')' :: rest))
      (hq : (Pattern.one isQuote).fits (body ++ ')' :: rest) = false)
      (h : UrlBody true good body (')' :: rest)) :
      NameLike (if good then .url else .badUrl) (mark ++ (space ++ (body ++ [')']))) rest
  | endlessUrl {mark space body : List Char} {good : Bool} (hm : isUrlMark mark = true)
      (hs : Run isWhitespace space body) (hq : (Pattern.one isQuote).fits body = false)
      (h : UrlBody true good body []) : NameLike .badUrl (mark ++ (space ++ body)) []

/-- In front of `rest`, what is taken is read as the lexeme. -/
inductive Reading : Lexeme → List Char → List Char → Prop
  | whitespace {space rest : List Char} (h : Run isWhitespace space rest) (hne : space ≠ []) :
      Reading (.token .whitespace) space rest
  | comment {body : List Char} (h : Comment body) (rest : List Char) :
      Reading (.token .comment) ('/' :: '*' :: body) rest
  | unterminatedComment {body : List Char} (h : ¬ ['*', '/'] <:+: body) :
      Reading .unterminatedComment ('/' :: '*' :: body) []
  | string {quote : Char} {content rest : List Char} (hq : isQuote quote = true)
      (h : Quoted quote content (quote :: rest)) :
      Reading (.token .string) (quote :: (content ++ [quote])) rest
  | badString {quote : Char} {content rest : List Char} (hq : isQuote quote = true)
      (h : Quoted quote content rest) (he : (Pattern.one (· ≠ '\n')).fits rest = false) :
      Reading (.token .badString) (quote :: content) rest
  | loneBackslash {quote : Char} {content rest : List Char} (hq : isQuote quote = true)
      (h : Quoted quote content ('\\' :: rest)) :
      Reading (.token .badString) (quote :: (content ++ ['\\'])) rest
  | hash {name rest : List Char} (h : Name name rest) (hne : name ≠ []) :
      Reading (.token .hash) ('#' :: name) rest
  | atKeyword {name rest : List Char} (h : Identifier name rest) :
      Reading (.token .atKeyword) ('@' :: name) rest
  | opening (block : Block) (rest : List Char) :
      Reading (.token (.opening block)) [block.openingChar] rest
  | closing (block : Block) (rest : List Char) : Reading (.closing block) [block.closingChar] rest
  | comma (rest : List Char) : Reading (.token .comma) [','] rest
  | colon (rest : List Char) : Reading (.token .colon) [':'] rest
  | semicolon (rest : List Char) : Reading (.token .semicolon) [';'] rest
  | numeric {kind : Kind} {taken rest : List Char} (h : Numeric kind taken rest) :
      Reading (.token kind) taken rest
  | cdo (rest : List Char) : Reading (.token .cdo) ['<', '!', '-', '-'] rest
  | cdc (rest : List Char) : Reading (.token .cdc) ['-', '-', '>'] rest
  | nameLike {kind : Kind} {taken rest : List Char} (h : NameLike kind taken rest)
      (hc : (Pattern.text ['-', '-', '>']).fits (taken ++ rest) = false) :
      Reading (.token kind) taken rest
  | delim {c : Char} {rest : List Char} (h : (Lead.goesOn c).fits rest = false) :
      Reading (.token .delim) [c] rest

end Grammar
end Stylesheet
