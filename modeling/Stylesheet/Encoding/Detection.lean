/-!
# Detecting the encoding of a style sheet

In this order: a byte order mark, the label that came with the style sheet, the `@charset` rule
at its very start, the encoding of its environment, UTF-8. Which encodings there are, and what
the labels name, is up to a registry.
-/
namespace Stylesheet.Encoding

/-- What detection has to know of a standard: the encodings that have a part of their own in it,
and what the labels name. -/
structure Registry (ε : Type) where
  utf8 : ε
  utf16be : ε
  utf16le : ε
  ofLabel? : String → Option ε

/-- How many bytes the encoding depends on at most. -/
def sniffLength : Nat := 1024

/-! ## The `@charset` rule -/

/-- The bytes of a text in ASCII. -/
def asciiBytes (text : String) : List UInt8 := text.toList.map fun c => c.toNat.toUInt8

/-- The label that bytes spell. A byte outside ASCII is in no label. -/
def labelOfBytes (bytes : List UInt8) : String :=
  String.ofList (bytes.map fun b => Char.ofNat b.toNat)

def charsetOpening : List UInt8 := asciiBytes "@charset \""

def charsetClosing : List UInt8 := asciiBytes "\";"

/-- The label of a `@charset` rule, written in this one form at the very start. The rule has to
end within the first `sniffLength` bytes. -/
def charsetLabel? (bytes : List UInt8) : Option String :=
  if charsetOpening.isPrefixOf bytes then
    let rest := (bytes.take sniffLength).drop charsetOpening.length
    let label := rest.takeWhile (· ≠ 0x22)
    if charsetClosing.isPrefixOf (rest.drop label.length) then some (labelOfBytes label)
    else none
  else none

namespace Registry

variable {ε : Type} (r : Registry ε)

/-! ## The decision -/

/-- The encoding that the byte order mark at the start of the bytes gives away. -/
def ofByteOrderMark? : List UInt8 → Option ε
  | 0xEF :: 0xBB :: 0xBF :: _ => some r.utf8
  | 0xFF :: 0xFE :: _ => some r.utf16le
  | 0xFE :: 0xFF :: _ => some r.utf16be
  | _ => none

variable [DecidableEq ε]

/-- What is meant by an encoding that bytes of ASCII name: they cannot stand in UTF-16, so UTF-8
is meant if they say so. -/
def overAscii (e : ε) : ε := if e = r.utf16be ∨ e = r.utf16le then r.utf8 else e

variable (bytes : List UInt8)

/-- The encoding of a `@charset` rule. -/
def ofCharsetRule? : Option ε := ((charsetLabel? bytes).bind r.ofLabel?).map r.overAscii

/-- The encoding of a style sheet, given its bytes or the first `sniffLength` of them. -/
def detect (protocolLabel? : Option String) (environment? : Option ε) : ε :=
  (r.ofByteOrderMark? bytes
    <|> protocolLabel?.bind r.ofLabel?
    <|> r.ofCharsetRule? bytes
    <|> environment?).getD r.utf8

end Registry
end Stylesheet.Encoding
