/-!
# UTF-8

Decoding that never fails: each maximal run of bytes that begins a sequence and does not complete
one becomes one U+FFFD. `decode` reads a whole text; `step` reads it a byte at a time and keeps
the sequence that is still open.
-/
namespace Stylesheet

/-- What stands for bytes that mean nothing. -/
def replacementChar : Char := '\uFFFD'

namespace Encoding.Utf8

/-- A sequence that has begun and is not complete. -/
structure Sequence where
  /-- How many bytes are still to come, less one. -/
  more : Nat
  /-- The least and the greatest byte that may come next. -/
  low : UInt8
  high : UInt8
  /-- The bits of the code point so far. -/
  bits : Nat
  deriving DecidableEq, Repr

/-- What a byte is at the start of a sequence. -/
inductive Lead where
  | complete (c : Char)
  | opens (sequence : Sequence)
  | invalid
  deriving DecidableEq, Repr

/-- The second byte is bounded so that no code point has two forms, is a surrogate, or lies
beyond U+10FFFF. -/
def Lead.of (b : UInt8) : Lead :=
  if b < 0x80 then complete (Char.ofNat b.toNat)
  else if b < 0xC2 then invalid
  else if b < 0xE0 then opens ⟨0, 0x80, 0xBF, b.toNat - 0xC0⟩
  else if b < 0xF0 then
    opens ⟨1, if b = 0xE0 then 0xA0 else 0x80, if b = 0xED then 0x9F else 0xBF, b.toNat - 0xE0⟩
  else if b < 0xF5 then
    opens ⟨2, if b = 0xF0 then 0x90 else 0x80, if b = 0xF4 then 0x8F else 0xBF, b.toNat - 0xF0⟩
  else invalid

/-- What a byte makes of an open sequence. -/
inductive Continuation where
  | complete (c : Char)
  | opens (sequence : Sequence)
  /-- The byte does not belong to the sequence. -/
  | broken
  deriving DecidableEq, Repr

def Sequence.continue (s : Sequence) (b : UInt8) : Continuation :=
  if s.low ≤ b ∧ b ≤ s.high then
    let bits := s.bits * 64 + (b.toNat - 0x80)
    match s.more with
    | 0 => .complete (Char.ofNat bits)
    | more + 1 => .opens ⟨more, 0x80, 0xBF, bits⟩
  else .broken

/-! ## Whole texts -/

/-- The code point that an open sequence comes to, and the bytes behind it. -/
def Sequence.close (s : Sequence) : List UInt8 → Char × List UInt8
  | [] => (replacementChar, [])
  | b :: rest =>
    match s.continue b with
    | .complete c => (c, rest)
    | .opens s => s.close rest
    | .broken => (replacementChar, b :: rest)

theorem Sequence.length_close_le (s : Sequence) (bytes : List UInt8) :
    (s.close bytes).2.length ≤ bytes.length := by
  induction bytes generalizing s with
  | nil => simp [close]
  | cons b rest ih =>
    simp only [close]
    split
    · simp
    · exact Nat.le_succ_of_le (ih _)
    · simp

def decode : List UInt8 → List Char
  | [] => []
  | b :: rest =>
    match Lead.of b with
    | .complete c => c :: decode rest
    | .opens s => (s.close rest).1 :: decode (s.close rest).2
    | .invalid => replacementChar :: decode rest
termination_by bytes => bytes.length
decreasing_by
  · simp
  · exact Nat.lt_succ_of_le (s.length_close_le rest)
  · simp

/-! ## A byte at a time -/

/-- Reads a byte between sequences. -/
def begin (b : UInt8) : List Char × Option Sequence :=
  match Lead.of b with
  | .complete c => ([c], none)
  | .opens s => ([], some s)
  | .invalid => ([replacementChar], none)

/-- Reads a byte. One that breaks a sequence is then read as if it stood between sequences. -/
def step : Option Sequence → UInt8 → List Char × Option Sequence
  | none, b => begin b
  | some s, b =>
    match s.continue b with
    | .complete c => ([c], none)
    | .opens s => ([], some s)
    | .broken => (replacementChar :: (begin b).1, (begin b).2)

/-- Reads the end of the text. -/
def finish : Option Sequence → List Char
  | none => []
  | some _ => [replacementChar]

theorem length_begin_le (b : UInt8) : (begin b).1.length ≤ 1 := by
  unfold begin
  split <;> simp

theorem length_step_le (s : Option Sequence) (b : UInt8) : (step s b).1.length ≤ 2 := by
  have hb := length_begin_le b
  cases s with
  | none => exact Nat.le_succ_of_le hb
  | some s =>
    simp only [step]
    split
    · exact Nat.le_succ 1
    · exact Nat.zero_le 2
    · exact Nat.succ_le_succ hb

theorem length_finish_le (s : Option Sequence) : (finish s).length ≤ 1 := by
  cases s <;> simp [finish]

end Encoding.Utf8
end Stylesheet
