import Stylesheet.LineEnding
import Stylesheet.Source

/-!
# Buffered sources

A source over a stream of raw code points. Line endings are normalized as the stream is pulled,
one code point at a time and only when one is asked for. What was pulled since text was last
taken is held on two sides of the place where the source stands, so going back and forth moves
code points from one side to the other.
-/
namespace Stylesheet

/-- A source over a stream. Offsets are UTF-8 lengths of the normalized input. -/
structure BufferedSource (ι : Type) where
  input : LineEnding.Normalizer ι
  /-- Consumed since text was last taken, the latest first. -/
  passed : List Char
  /-- Pulled and not consumed. -/
  ahead : List Char
  offset : Nat
  location : Location
  deriving Repr

namespace BufferedSource

variable {ι : Type}

section Moves

/-- Moves back to an offset, at most to the start of the span. The location is left behind. -/
def rewind (target : Nat) : List Char → List Char → Nat → List Char × List Char × Nat
  | [], ahead, offset => ([], ahead, offset)
  | c :: passed, ahead, offset =>
    if target < offset then rewind target passed (c :: ahead) (offset - c.utf8Size)
    else (c :: passed, ahead, offset)

/-- Moves forward to an offset, at most to the end of what was pulled. -/
def wind (target : Nat) : List Char → List Char → Nat → List Char × List Char × Nat
  | passed, [], offset => (passed, [], offset)
  | passed, c :: ahead, offset =>
    if offset < target then wind target (c :: passed) ahead (offset + c.utf8Size)
    else (passed, c :: ahead, offset)

/-- Goes to a mark of the current span. -/
def reset (mark : Mark) (s : BufferedSource ι) : BufferedSource ι :=
  let (passed, ahead, offset) := rewind mark.offset s.passed s.ahead s.offset
  let (passed, ahead, offset) := wind mark.offset passed ahead offset
  { s with passed, ahead, offset, location := mark.location }

def position (s : BufferedSource ι) : Mark := ⟨s.offset, s.location⟩

/-- The text of the span, which ends here, so the next one starts here. -/
def takeText (s : BufferedSource ι) : String × BufferedSource ι :=
  (String.ofList s.passed.reverse, { s with passed := [] })

end Moves

variable [CharStream ι]

def ofStream (input : ι) : BufferedSource ι :=
  { input := .ofStream input, passed := [], ahead := [], offset := 0, location := .start }

/-- The next code point. The stream is pulled only if none is held already. -/
def peek (s : BufferedSource ι) : Option Char × BufferedSource ι :=
  match s.ahead with
  | c :: _ => (some c, s)
  | [] =>
    let (c?, input) := s.input.next
    (c?, { s with input, ahead := c?.toList })

/-- The next code point is the first one held after looking at it. -/
def consume (s : BufferedSource ι) : Option Char × BufferedSource ι :=
  let s := s.peek.2
  match s.ahead with
  | [] => (none, s)
  | c :: ahead =>
    (some c, { s with
      passed := c :: s.passed
      ahead
      offset := s.offset + c.utf8Size
      location := s.location.advance c })

def remaining (s : BufferedSource ι) : Nat := s.input.left + s.ahead.length

theorem remaining_peek_le (s : BufferedSource ι) : s.peek.2.remaining ≤ s.remaining := by
  obtain ⟨input, passed, ahead, offset, location⟩ := s
  cases ahead with
  | cons c ahead => exact Nat.le_refl _
  | nil =>
    have hle := input.left_next_le
    have hlt := input.left_next_lt
    cases hn : input.next with
    | mk c? rest =>
      rw [hn] at hle hlt
      cases c? with
      | none => simpa [peek, remaining, hn] using hle
      | some c => simpa [peek, remaining, hn] using Nat.succ_le_of_lt (hlt rfl)

/-- What is looked at is the first code point held. -/
theorem head_ahead_peek (s : BufferedSource ι) : s.peek.2.ahead.head? = s.peek.1 := by
  obtain ⟨input, passed, ahead, offset, location⟩ := s
  cases ahead with
  | cons d ahead => rfl
  | nil => cases h : input.next.1 <;> simp [peek, h]

theorem peek_of_ahead {s : BufferedSource ι} {c : Char} {rest : List Char}
    (h : s.ahead = c :: rest) : s.peek = (some c, s) := by
  simp [peek, h]

theorem remaining_consume_le (s : BufferedSource ι) : s.consume.2.remaining ≤ s.remaining := by
  refine Nat.le_trans ?_ s.remaining_peek_le
  cases ha : s.peek.2.ahead with
  | nil => simp [consume, ha]
  | cons c rest => simp [consume, ha, remaining]

theorem remaining_consume_lt (s : BufferedSource ι) (h : s.peek.1.isSome = true) :
    s.peek.2.consume.2.remaining < s.remaining := by
  refine Nat.lt_of_lt_of_le ?_ s.remaining_peek_le
  have hh := s.head_ahead_peek
  cases ha : s.peek.2.ahead with
  | nil => rw [ha] at hh; simp [← hh] at h
  | cons c rest => simp [consume, peek_of_ahead ha, ha, remaining]

instance : Source (BufferedSource ι) where
  peek := peek
  consume := consume
  position := position
  reset := reset
  takeText := takeText
  remaining := remaining
  remaining_peek_le := remaining_peek_le
  remaining_consume_le := remaining_consume_le
  remaining_consume_lt := remaining_consume_lt

/-- A source over a text held in memory. -/
def ofString (text : String) : BufferedSource (List Char) := ofStream text.toList

/-- The stream under the source, as far as it has not been pulled. -/
def stream (s : BufferedSource ι) : ι := s.input.input

end BufferedSource
end Stylesheet
