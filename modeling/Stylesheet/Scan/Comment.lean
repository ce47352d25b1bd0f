import Stylesheet.Scan.Accept

/-!
# Comments
-/
namespace Stylesheet.Scan

variable {σ : Type} [Source σ]

/-- One round of `comment`: a code point, and a solidus with the asterisk before it. -/
def commentUnit : Scan σ (Round Unit Bool) := do
  match ← peek with
  | none => return .finish false
  | some c =>
    let _ ← consume
    if c = '*' then
      if ← acceptChar '/' then return .finish true else return .again ()
    else return .again ()

theorem Advances.commentUnit : Advances (σ := σ) Round.GoesOn commentUnit := by
  refine .peek_bind (.of_not (by simp [Round.GoesOn])) fun c s hc _ => ?_
  refine Nat.lt_of_le_of_lt ?_ (remaining_consume_lt hc)
  exact Steady.ite (.bind (.accept _) fun _ => .ite (.pure _) (.pure _)) (.pure _) _

/-- A comment behind its opening mark, up to the first closing mark. The answer is whether there
was one. -/
def comment : Scan σ Bool := iterate (fun _ => commentUnit) (fun _ => .commentUnit) ()

end Stylesheet.Scan
