import Stylesheet.CharStream

/-!
# Line endings

CR LF, a CR alone and FF each become one LF before anything else looks at a style sheet. The
rule is given twice: `normalize` for a whole text, and `Normalizer` for a stream, which has to
pull one code point past a CR to see whether an LF belongs to it.
-/
namespace Stylesheet.LineEnding

/-- Every line ending of a text, written as LF. -/
def normalize : List Char → List Char
  | [] => []
  | '\r' :: '\n' :: rest => '\n' :: normalize rest
  | '\r' :: rest => '\n' :: normalize rest
  | '\x0c' :: rest => '\n' :: normalize rest
  | c :: rest => c :: normalize rest

/-- A stream whose line endings are normalized as they are pulled. -/
structure Normalizer (ι : Type) where
  input : ι
  /-- The code point that followed a CR and was not its LF. -/
  pending : Option Char
  deriving Repr

namespace Normalizer

variable {ι : Type} [CharStream ι]

def ofStream (input : ι) : Normalizer ι := ⟨input, none⟩

/-- The code point set aside, or else the next one of the stream, as it stands there. -/
def pull (n : Normalizer ι) : Option Char × Normalizer ι :=
  match n.pending with
  | some c => (some c, { n with pending := none })
  | none =>
    let (c?, input) := CharStream.next n.input
    (c?, ⟨input, none⟩)

/-- Drops the LF that belongs to a CR just pulled, and sets aside anything else. -/
def finishReturn (n : Normalizer ι) : Normalizer ι :=
  match CharStream.next n.input with
  | (none, input) => ⟨input, none⟩
  | (some c, input) => ⟨input, if c = '\n' then none else some c⟩

/-- The next code point, line endings normalized. An end of the stream right after a CR is
taken for the end of that line, and a later pull goes on behind it. -/
def next (n : Normalizer ι) : Option Char × Normalizer ι :=
  match n.pull with
  | (none, n) => (none, n)
  | (some c, n) =>
    if c = '\r' then (some '\n', n.finishReturn)
    else if c = '\x0c' then (some '\n', n)
    else (some c, n)

/-- How many code points may still come. -/
def left (n : Normalizer ι) : Nat := CharStream.left n.input + n.pending.toList.length

theorem left_pull_le (n : Normalizer ι) : n.pull.2.left ≤ n.left := by
  obtain ⟨input, pending⟩ := n
  cases pending <;> simp [pull, left, CharStream.left_next_le]

theorem left_pull_lt (n : Normalizer ι) (h : n.pull.1.isSome = true) :
    n.pull.2.left < n.left := by
  obtain ⟨input, pending⟩ := n
  cases pending with
  | none => simpa [pull, left] using CharStream.left_next_lt input (by simpa [pull] using h)
  | some c => simp [pull, left]

theorem pending_pull (n : Normalizer ι) : n.pull.2.pending = none := by
  obtain ⟨input, pending⟩ := n
  cases pending <;> rfl

theorem left_finishReturn_le (n : Normalizer ι) (h : n.pending = none) :
    n.finishReturn.left ≤ n.left := by
  have hle := CharStream.left_next_le n.input
  have hlt := CharStream.left_next_lt n.input
  cases hn : CharStream.next n.input with
  | mk c? input =>
    rw [hn] at hle hlt
    cases c? with
    | none => simpa [finishReturn, left, hn, h] using hle
    | some c =>
      have hlt : CharStream.left input < CharStream.left n.input := hlt rfl
      by_cases hc : c = '\n' <;> simp [finishReturn, left, hn, h, hc] <;> omega

theorem left_next_le (n : Normalizer ι) : n.next.2.left ≤ n.left := by
  have hle := n.left_pull_le
  have hp := n.pending_pull
  cases hn : n.pull with
  | mk c? m =>
    rw [hn] at hle hp
    have hf := m.left_finishReturn_le hp
    cases c? with
    | none => simpa [next, hn] using hle
    | some c =>
      simp only [next, hn]
      split
      · exact Nat.le_trans hf hle
      · split <;> exact hle

theorem left_next_lt (n : Normalizer ι) (h : n.next.1.isSome = true) :
    n.next.2.left < n.left := by
  have hlt := n.left_pull_lt
  have hp := n.pending_pull
  cases hn : n.pull with
  | mk c? m =>
    rw [hn] at hlt hp
    have hf := m.left_finishReturn_le hp
    cases c? with
    | none => simp [next, hn] at h
    | some c =>
      have hlt := hlt rfl
      simp only [next, hn]
      split
      · exact Nat.lt_of_le_of_lt hf hlt
      · split <;> exact hlt

instance : CharStream (Normalizer ι) where
  next := next
  left := left
  left_next_le := left_next_le
  left_next_lt := left_next_lt

end Normalizer
end Stylesheet.LineEnding
