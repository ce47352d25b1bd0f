import Stylesheet.Scan.Name

/-!
# Unquoted URLs
-/
namespace Stylesheet.Scan

open CodePoint

variable {σ : Type} [Source σ]

/-- One round of `unquotedUrl`: a code point, an escape or a run of whitespace, with what it
makes of a URL that was well formed up to there or was not. -/
def urlUnit (wellFormed : Bool) : Scan σ (Round Bool Bool) := do
  match ← peek with
  | none => return .finish false
  | some c =>
    let _ ← consume
    if isUrlChar c then return .again wellFormed
    else if c = ')' then return .finish wellFormed
    else if isWhitespace c then
      let _ ← acceptWhile isWhitespace
      if ← acceptChar ')' then return .finish wellFormed else return .again false
    else if c = '\\' then
      if ← escapeBody then return .again wellFormed else return .again false
    else return .again false

theorem Advances.urlUnit (wellFormed : Bool) :
    Advances (σ := σ) Round.GoesOn (urlUnit wellFormed) := by
  refine .peek_bind (.of_not (by simp [Round.GoesOn])) fun c s hc _ => ?_
  refine Nat.lt_of_le_of_lt ?_ (remaining_consume_lt hc)
  refine Steady.ite (.pure _) (.ite (.pure _) (.ite ?_ (.ite ?_ (.pure _)))) _
  · exact .bind (.acceptWhile _) fun _ => .bind (.accept _) fun _ => .ite (.pure _) (.pure _)
  · exact .bind .escapeBody fun _ => .ite (.pure _) (.pure _)

/-- An unquoted URL behind its opening parenthesis and the whitespace after that, up to the
parenthesis that closes it or the end of the input. The answer is whether the URL is well formed:
whitespace stands at its ends only, and everything else in it is a URL code point or an escape.
What is not well formed is read to the end all the same. -/
def unquotedUrl : Scan σ Bool := iterate urlUnit .urlUnit true

end Stylesheet.Scan
