import Stylesheet.Encoding.Utf8

/-!
# UTF-16

Decoding that never fails: a surrogate without its partner becomes one U+FFFD, and so does
whatever is left over at the end, an odd byte, a high surrogate or both. `decode` reads a whole
text; `step` reads it a byte at a time.
-/
namespace Stylesheet.Encoding

/-- Which byte of a unit comes first. -/
inductive ByteOrder where
  | bigEndian
  | littleEndian
  deriving DecidableEq, Repr

namespace Utf16

/-- The unit of two bytes in the order they are read in. -/
def unit : ByteOrder → UInt8 → UInt8 → Nat
  | .bigEndian, first, second => first.toNat * 256 + second.toNat
  | .littleEndian, first, second => second.toNat * 256 + first.toNat

def isHighSurrogate (u : Nat) : Bool := 0xD800 ≤ u && u < 0xDC00

def isLowSurrogate (u : Nat) : Bool := 0xDC00 ≤ u && u < 0xE000

/-- The code point of a surrogate pair. -/
def pair (high low : Nat) : Char :=
  Char.ofNat (0x10000 + (high - 0xD800) * 0x400 + (low - 0xDC00))

/-! ## Whole texts -/

def decode (order : ByteOrder) : List UInt8 → List Char
  | [] => []
  | [_] => [replacementChar]
  | first :: second :: rest =>
    let u := unit order first second
    if isHighSurrogate u then
      match rest with
      | third :: fourth :: rest' =>
        if isLowSurrogate (unit order third fourth) then
          pair u (unit order third fourth) :: decode order rest'
        else replacementChar :: decode order (third :: fourth :: rest')
      | _ => [replacementChar]
    else if isLowSurrogate u then replacementChar :: decode order rest
    else Char.ofNat u :: decode order rest
termination_by bytes => bytes.length
decreasing_by
  all_goals
    simp only [List.length_cons]
    omega

/-! ## A byte at a time -/

/-- What has been read of a code point that is not complete. -/
structure State where
  /-- The first byte of a unit. -/
  byte? : Option UInt8
  /-- The first unit of a surrogate pair. -/
  high? : Option Nat
  deriving DecidableEq, Repr

def State.start : State := ⟨none, none⟩

/-- Reads a unit that no high surrogate stands before. -/
def beginUnit (u : Nat) : List Char × Option Nat :=
  if isHighSurrogate u then ([], some u)
  else if isLowSurrogate u then ([replacementChar], none)
  else ([Char.ofNat u], none)

/-- Reads a unit. One that does not complete a pair is then read on its own. -/
def stepUnit : Option Nat → Nat → List Char × Option Nat
  | none, u => beginUnit u
  | some high, u =>
    if isLowSurrogate u then ([pair high u], none)
    else (replacementChar :: (beginUnit u).1, (beginUnit u).2)

def step (order : ByteOrder) (s : State) (b : UInt8) : List Char × State :=
  match s.byte? with
  | none => ([], { s with byte? := some b })
  | some first =>
    let (chars, high?) := stepUnit s.high? (unit order first b)
    (chars, ⟨none, high?⟩)

/-- Reads the end of the text. -/
def finish (s : State) : List Char :=
  if s.byte?.isSome || s.high?.isSome then [replacementChar] else []

theorem length_beginUnit_le (u : Nat) : (beginUnit u).1.length ≤ 1 := by
  unfold beginUnit
  split
  · simp
  · split <;> simp

theorem length_stepUnit_le (high? : Option Nat) (u : Nat) :
    (stepUnit high? u).1.length ≤ 2 := by
  have hb := length_beginUnit_le u
  cases high? with
  | none => exact Nat.le_succ_of_le hb
  | some high =>
    simp only [stepUnit]
    split <;> simp
    omega

theorem length_step_le (order : ByteOrder) (s : State) (b : UInt8) :
    (step order s b).1.length ≤ 2 := by
  unfold step
  split
  · simp
  · exact length_stepUnit_le _ _

theorem length_finish_le (s : State) : (finish s).length ≤ 1 := by
  unfold finish
  split <;> simp

end Utf16
end Stylesheet.Encoding
