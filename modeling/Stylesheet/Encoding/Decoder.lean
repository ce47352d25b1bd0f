import Stylesheet.Encoding
import Stylesheet.Encoding.Library
import Stylesheet.Encoding.SingleByte
import Stylesheet.Encoding.Utf16

/-!
# Decoders

A library to run with, over the encodings that are known here: `Scheme.decode` for all the bytes at
once, and `Decoder` for bytes that come in pieces. Neither fails; what means nothing becomes U+FFFD.
A byte order mark at the very start is dropped. An encoding that is known by name only has no
decoder here. This is one library among others, and what is shown of reading holds of any.
-/
namespace Stylesheet

namespace Encoding

/-- How an encoding is decoded. -/
inductive Scheme where
  | utf8
  | utf16 (order : ByteOrder)
  /-- Each byte is a code point. -/
  | table (char : UInt8 → Char)
  /-- Any text at all is one U+FFFD. -/
  | refused

/-- An encoding that is known by name only is refused, as one that is not safe to decode is. -/
def scheme : Encoding → Scheme
  | .utf8 => .utf8
  | .utf16be => .utf16 .bigEndian
  | .utf16le => .utf16 .littleEndian
  | .windows1252 => .table windows1252Char
  | .userDefined => .table userDefinedChar
  | _ => .refused

def Scheme.decode : Scheme → List UInt8 → List Char
  | utf8, bytes => Utf8.decode bytes
  | utf16 order, bytes => Utf16.decode order bytes
  | table char, bytes => bytes.map char
  | refused, bytes => if bytes.isEmpty then [] else [replacementChar]

/-- The byte order mark, decoded. -/
def byteOrderMark : Char := '\uFEFF'

/-- A text without the byte order mark that it begins with. -/
def dropByteOrderMark : List Char → List Char
  | [] => []
  | c :: rest => if c = byteOrderMark then rest else c :: rest

/-- The text that bytes stand for. -/
def decode (e : Encoding) (bytes : List UInt8) : List Char :=
  dropByteOrderMark (e.scheme.decode bytes)

end Encoding

namespace Decoder

/-- What has been read of the code point that comes next. -/
inductive State where
  | utf8 (open? : Option Encoding.Utf8.Sequence)
  | utf16 (order : Encoding.ByteOrder) (state : Encoding.Utf16.State)
  | table (char : UInt8 → Char)
  /-- Whether the one U+FFFD of the text has been given. -/
  | refused (given : Bool)

/-- The state before the first byte. -/
def State.ofScheme : Encoding.Scheme → State
  | .utf8 => utf8 none
  | .utf16 order => utf16 order .start
  | .table char => table char
  | .refused => refused false

/-- Reads a byte. -/
def State.step : State → UInt8 → List Char × State
  | utf8 open?, b =>
    let (chars, open?) := Encoding.Utf8.step open? b
    (chars, utf8 open?)
  | utf16 order state, b =>
    let (chars, state) := Encoding.Utf16.step order state b
    (chars, utf16 order state)
  | table char, b => ([char b], table char)
  | refused given, _ => (if given then [] else [replacementChar], refused true)

/-- Reads the end of the text. -/
def State.finish : State → List Char
  | utf8 open? => Encoding.Utf8.finish open?
  | utf16 _ state => Encoding.Utf16.finish state
  | table _ => []
  | refused _ => []

theorem State.length_step_le (s : State) (b : UInt8) : (s.step b).1.length ≤ 2 := by
  cases s with
  | utf8 open? => exact Encoding.Utf8.length_step_le open? b
  | utf16 order state => exact Encoding.Utf16.length_step_le order state b
  | table char => simp [step]
  | refused given => cases given <;> simp [step]

theorem State.length_finish_le (s : State) : s.finish.length ≤ 1 := by
  cases s with
  | utf8 open? => exact Encoding.Utf8.length_finish_le open?
  | utf16 order state => exact Encoding.Utf16.length_finish_le state
  | table char => simp [finish]
  | refused given => simp [finish]

end Decoder

/-- A text in the course of being decoded. -/
structure Decoder where
  state : Decoder.State
  /-- No code point has been decoded yet, so a byte order mark is still to be dropped. -/
  atStart : Bool

namespace Decoder

open Encoding (Decoded)

def ofEncoding (e : Encoding) : Decoder := ⟨.ofScheme e.scheme, true⟩

/-- Drops the byte order mark from the first code points of the text. -/
def handOut (d : Decoder) (chars : List Char) (state : State) : List Char × Decoder :=
  if d.atStart then (Encoding.dropByteOrderMark chars, ⟨state, chars.isEmpty⟩)
  else (chars, ⟨state, false⟩)

/-- The code points that a byte completes. -/
def step (d : Decoder) (b : UInt8) : List Char × Decoder :=
  d.handOut (d.state.step b).1 (d.state.step b).2

/-- The code points that the end of the text completes. -/
def flush (d : Decoder) : List Char × Decoder := d.handOut d.state.finish d.state

/-- How much room code points take. -/
def size (chars : List Char) : Nat := (String.ofList chars).utf8ByteSize

/-- Reads bytes, and the end behind the last ones, as long as there is room for what they
complete. -/
def decode (last : Bool) : Decoder → List UInt8 → Nat → Decoded Decoder
  | d, [], room =>
    if last then
      if size d.flush.1 ≤ room then ⟨.inputEmpty, 0, d.flush.1, d.flush.2⟩
      else ⟨.outputFull, 0, [], d⟩
    else ⟨.inputEmpty, 0, [], d⟩
  | d, b :: rest, room =>
    if size (d.step b).1 ≤ room then
      let more := decode last (d.step b).2 rest (room - size (d.step b).1)
      { more with read := more.read + 1, chars := (d.step b).1 ++ more.chars }
    else ⟨.outputFull, 0, [], d⟩

/-! ## The contract of a call -/

theorem size_le (chars : List Char) : size chars ≤ 4 * chars.length := by
  induction chars with
  | nil => exact Nat.le_refl 0
  | cons c rest ih =>
    have hc := c.utf8Size_le_four
    have hsize : size (c :: rest) = c.utf8Size + size rest := by simp [size]
    rw [List.length_cons]
    omega

theorem size_handOut_le (d : Decoder) (chars : List Char) (state : State) :
    size (d.handOut chars state).1 ≤ 4 * chars.length := by
  have hle := size_le (d.handOut chars state).1
  have hlength : (d.handOut chars state).1.length ≤ chars.length := by
    unfold handOut
    split
    · cases chars with
      | nil => exact Nat.le_refl 0
      | cons c rest =>
        simp only [Encoding.dropByteOrderMark]
        split
        · exact Nat.le_succ _
        · exact Nat.le_refl _
    · exact Nat.le_refl _
  omega

theorem size_step_le (d : Decoder) (b : UInt8) : size (d.step b).1 ≤ 8 := by
  have hle := d.size_handOut_le (d.state.step b).1 (d.state.step b).2
  have hlength := d.state.length_step_le b
  rw [step]
  omega

theorem size_flush_le (d : Decoder) : size d.flush.1 ≤ 4 := by
  have hle := d.size_handOut_le d.state.finish d.state
  have hlength := d.state.length_finish_le
  rw [flush]
  omega

variable {d : Decoder} {bytes : List UInt8} {room : Nat} {last : Bool}

theorem read_decode (h : (d.decode last bytes room).result = .inputEmpty) :
    (d.decode last bytes room).read = bytes.length := by
  induction bytes generalizing d room with
  | nil =>
    rw [decode] at h ⊢
    split
    · split
      · rfl
      · rfl
    · rfl
  | cons b rest ih =>
    rw [decode] at h ⊢
    split at h
    case isTrue hroom =>
      rw [if_pos hroom]
      exact congrArg (· + 1) (ih h)
    case isFalse => contradiction

/-- What a byte completes takes eight bytes at most, and what the end completes takes four. -/
theorem result_decode (h : 8 * bytes.length + 4 ≤ room) :
    (d.decode last bytes room).result = .inputEmpty := by
  induction bytes generalizing d room with
  | nil =>
    have hflush := d.size_flush_le
    rw [decode]
    split
    · rw [if_pos (Nat.le_trans hflush h)]
    · rfl
  | cons b rest ih =>
    have hstep := d.size_step_le b
    rw [List.length_cons] at h
    rw [decode, if_pos (by omega)]
    exact ih (by omega)

end Decoder

namespace Encoding

/-- The encodings that are known here, and the decoders for them. -/
def library : Library Encoding Decoder where
  toRegistry := known
  decodeAll := decode
  newDecoder := .ofEncoding
  maxLength? _ n := some (8 * n + 4)
  decode d bytes room last := d.decode last bytes room
  read_eq _ _ _ _ h := Decoder.read_decode h
  result_eq d bytes room last n hn hle := by
    obtain rfl := Option.some.inj hn
    exact Decoder.result_decode hle
  isSome_maxLength? _ _ _ := rfl

/-- The text of a style sheet and the encoding it was found to be in, in this library. -/
def decodeStylesheet (bytes : List UInt8) (protocolLabel? : Option String)
    (environment? : Option Encoding) : String × Encoding :=
  library.decodeStylesheet bytes protocolLabel? environment?

end Encoding
end Stylesheet
