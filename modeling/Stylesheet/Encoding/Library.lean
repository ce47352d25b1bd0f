import Stylesheet.Encoding.Detection

/-!
# Libraries of encodings

What a style sheet is decoded with: a registry of encodings, and for each of them the text of
bytes that are all there, and a decoder for bytes that come in pieces. A decoder writes UTF-8 into
a buffer of limited room, so a call of it may return before all of its input is read; the rest is
then given to it again. Of a library no more is known than what is said here: what a call has read
when it says that there was room for everything, that there is such room, and, where texts are
compared, that pieces come to the text of the whole.
-/
namespace Stylesheet.Encoding

/-- How many bytes are read at a time, and given to a decoder in one call, at most. -/
def chunkLength : Nat := 8192

/-- Why a call of a decoder returns. -/
inductive CallResult where
  /-- All of the input is read, and what it completes is written. -/
  | inputEmpty
  /-- There is no room for what comes next. -/
  | outputFull
  deriving DecidableEq, Repr

/-- What a call of a decoder comes to. -/
structure Decoded (δ : Type) where
  result : CallResult
  /-- How many bytes of the input were read. -/
  read : Nat
  /-- What was written. -/
  chars : List Char
  decoder : δ
  deriving Repr

/-- A library with encodings `ε` and decoders `δ`. -/
structure Library (ε δ : Type) extends Registry ε where
  /-- The text of bytes that are all there, without the byte order mark of the encoding. -/
  decodeAll : ε → List UInt8 → List Char
  /-- A decoder before the first byte. It drops the byte order mark of the encoding. -/
  newDecoder : ε → δ
  /-- A length in UTF-8 that a call with so many bytes of input does not exceed, unless it is too
  large to be counted. -/
  maxLength? : δ → Nat → Option Nat
  /-- A call with room for so many bytes of UTF-8. The last bytes of a text are said to be so, and
  then what the end of the text completes is written as well. -/
  decode : δ → List UInt8 → (room : Nat) → (last : Bool) → Decoded δ
  /-- A call whose input is said to be empty has read all of it. -/
  read_eq : ∀ d bytes room last, (decode d bytes room last).result = .inputEmpty →
    (decode d bytes room last).read = bytes.length
  /-- A call with room for the maximal length does not run out of it. -/
  result_eq : ∀ d bytes room last n, maxLength? d bytes.length = some n → n ≤ room →
    (decode d bytes room last).result = .inputEmpty
  /-- The maximal length for so few bytes can be counted. -/
  isSome_maxLength? : ∀ d n, n ≤ chunkLength → (maxLength? d n).isSome = true

namespace Library

variable {ε δ : Type} (L : Library ε δ)

/-- The text of a style sheet and the encoding it was found to be in. -/
def decodeStylesheet [DecidableEq ε] (bytes : List UInt8) (protocolLabel? : Option String)
    (environment? : Option ε) : String × ε :=
  let e := L.detect bytes protocolLabel? environment?
  (String.ofList (L.decodeAll e bytes), e)

/-- The decoder comes from one of this encoding by calls none of which was the last. Together they
have read these bytes and written these code points. -/
inductive Fed (e : ε) : List UInt8 → List Char → δ → Prop
  | new : Fed e [] [] (L.newDecoder e)
  | call {given : List UInt8} {written : List Char} {d : δ} (h : Fed e given written d)
      (bytes : List UInt8) (room : Nat) :
      Fed e (given ++ bytes.take (L.decode d bytes room false).read)
        (written ++ (L.decode d bytes room false).chars) (L.decode d bytes room false).decoder

/-- Bytes in pieces come to the text of the whole, once the last call has read all that is left. -/
def Faithful : Prop :=
  ∀ {e : ε} {given : List UInt8} {written : List Char} {d : δ}, L.Fed e given written d →
    ∀ bytes room, (L.decode d bytes room true).result = .inputEmpty →
      written ++ (L.decode d bytes room true).chars = L.decodeAll e (given ++ bytes)

end Library
end Stylesheet.Encoding
