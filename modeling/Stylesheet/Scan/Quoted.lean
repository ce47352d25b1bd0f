import Stylesheet.Scan.Name

/-!
# Quoted strings
-/
namespace Stylesheet.Scan

variable {σ : Type} [Source σ]

/-- One round of `quoted`: a code point or an escape, an escaped line ending included. -/
def quotedUnit (quote : Char) : Scan σ (Round Unit Bool) := do
  match ← peek with
  | none => return .finish false
  | some c =>
    if c = '\n' then return .finish false
    else
      let _ ← consume
      if c = '\\' then
        if ← acceptChar '\n' then return .again ()
        else if ← escapeBody then return .again ()
        else return .finish false
      else if c = quote then return .finish true
      else return .again ()

theorem Advances.quotedUnit (quote : Char) :
    Advances (σ := σ) Round.GoesOn (quotedUnit quote) := by
  refine .peek_bind (.of_not (by simp [Round.GoesOn])) fun c s hc ha => ?_
  dsimp only at ha ⊢
  split at ha
  · exact ha.elim
  · rename_i hn
    rw [if_neg hn]
    refine Nat.lt_of_le_of_lt ?_ (remaining_consume_lt hc)
    refine Steady.ite (.bind (.accept _) fun _ => .ite (.pure _) ?_) (.ite (.pure _) (.pure _)) _
    exact .bind .escapeBody fun _ => .ite (.pure _) (.pure _)

/-- A string behind its opening quote. The answer is whether the quote came again. A line ends
the string unless its LF is escaped, and is then left in place. -/
def quoted (quote : Char) : Scan σ Bool :=
  iterate (fun _ => quotedUnit quote) (fun _ => .quotedUnit quote) ()

end Stylesheet.Scan
