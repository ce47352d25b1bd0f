import Stylesheet.Location

/-!
# Sources

A source is what a scanner reads: one code point of lookahead, marks to go back to, and the text
consumed since it was last taken. Looking ahead may change a source, since it may have to pull
from a stream behind it. An end of input is an answer, not a state, so a source that said it had
ended may go on. Like a stream a source is finite, and stands for an endless one as far as that is
read by calls that return.
-/
namespace Stylesheet

/-- What scanners read. Going back is allowed to any mark made since text was last taken. -/
class Source (σ : Type) where
  /-- The next code point, left in place. -/
  peek : σ → Option Char × σ
  /-- The next code point, consumed. -/
  consume : σ → Option Char × σ
  position : σ → Mark
  reset : Mark → σ → σ
  /-- The text consumed since the last call, which starts a new span. -/
  takeText : σ → String × σ
  /-- A bound on how many code points can still be consumed without going back. -/
  remaining : σ → Nat
  remaining_peek_le : ∀ s, remaining (peek s).2 ≤ remaining s
  remaining_consume_le : ∀ s, remaining (consume s).2 ≤ remaining s
  remaining_consume_lt : ∀ s, (peek s).1.isSome = true →
    remaining (consume (peek s).2).2 < remaining s

namespace Source

variable {σ : Type} [Source σ]

/-- Where the next code point stands. -/
def location (s : σ) : Location := (position s).location

end Source
end Stylesheet
