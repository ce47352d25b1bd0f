/-!
# Streams of code points

A stream is pulled one code point at a time. It may report an end and go on afterwards: an end
is an answer to one pull, and nothing here remembers it.

Streams are finite: what one can still yield is bounded by a measure, which is what every loop over
a stream terminates by. Nothing is lost by this on an endless stream. Any number of calls that
return have pulled it finitely often, and to them it is the list of the answers that they got,
which is a stream as well.
-/
namespace Stylesheet

/-- Anything that code points can be pulled from. -/
class CharStream (ι : Type) where
  /-- The next code point, or `none` at an end, which need not be the last one. -/
  next : ι → Option Char × ι
  /-- A bound on how many code points are still to come. -/
  left : ι → Nat
  left_next_le : ∀ s, left (next s).2 ≤ left s
  left_next_lt : ∀ s, (next s).1.isSome = true → left (next s).2 < left s

namespace CharStream

/-- A list of code points ends for good. -/
instance : CharStream (List Char) where
  next
    | [] => (none, [])
    | c :: rest => (some c, rest)
  left := List.length
  left_next_le s := by cases s <;> simp
  left_next_lt s := by cases s <;> simp

/-- A list of answers. An absent code point is an end after which the stream goes on; past the
list the stream has ended for good. -/
instance : CharStream (List (Option Char)) where
  next
    | [] => (none, [])
    | c? :: rest => (c?, rest)
  left := List.length
  left_next_le s := by cases s <;> simp
  left_next_lt s := by cases s <;> simp

@[simp] theorem next_nil : next ([] : List Char) = (none, []) := rfl

@[simp] theorem next_cons (c : Char) (cs : List Char) : next (c :: cs) = (some c, cs) := rfl

@[simp] theorem next_answers_nil : next ([] : List (Option Char)) = (none, []) := rfl

@[simp] theorem next_answers_cons (c? : Option Char) (cs : List (Option Char)) :
    next (c? :: cs) = (c?, cs) := rfl

end CharStream
end Stylesheet
