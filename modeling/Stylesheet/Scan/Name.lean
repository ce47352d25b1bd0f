import Stylesheet.Scan.Backtrack

/-!
# Escapes and names

An escape is a backslash and a code point, or a backslash and the digits of a code point in
hexadecimal. A name is a run of name code points and escapes; an identifier is a name that begins
like one.
-/
namespace Stylesheet.Scan

open CodePoint

variable {σ : Type} [Source σ]

/-- What follows the backslash of an escape: any code point but a newline. A hexadecimal digit
takes up to five more with it, and one whitespace after them. -/
def escapeBody : Scan σ Bool := do
  match ← peek with
  | none => return false
  | some c =>
    if isNewline c then return false
    else
      let _ ← consume
      if isHexDigit c then
        acceptUpTo isHexDigit 5
        let _ ← accept isWhitespace
        return true
      else return true

/-- An escape with its backslash. -/
def escape : Scan σ Bool := do
  if ← acceptChar '\\' then escapeBody else return false

theorem Steady.escapeBody : Steady (σ := σ) escapeBody := by
  refine .bind .peek fun c? => ?_
  cases c? with
  | none => exact .pure _
  | some c =>
    refine .ite (.pure _) (.bind .consume fun _ => .ite ?_ (.pure _))
    exact .bind (.acceptUpTo _ _) fun _ => .bind (.accept _) fun _ => .pure _

theorem Advances.escape : Advances (σ := σ) (· = true) escape :=
  .bind (.accept _) (.accept _) (fun _ _ => .ite .escapeBody (.pure _))
    fun a ha => by simpa [ha] using Advances.of_not (by simp)

/-- One step of a name: a name code point or an escape. -/
def nameUnit : Scan σ Bool := do
  if ← accept isNameChar then return true else escape

/-- One round of `name`: a run of name code points and the escape behind it. -/
def nameRun : Scan σ (Round Unit Unit) := do
  let _ ← acceptWhile isNameChar
  if ← attempt escape then return .again () else return .finish ()

theorem Advances.nameRun : Advances (σ := σ) Round.GoesOn nameRun := by
  refine .after (.acceptWhile _) fun _ s ha => ?_
  rw [bind_apply] at ha ⊢
  split at ha
  · rename_i he
    rw [if_pos he]
    exact Advances.escape.attempt s he
  · exact ha.elim

/-- The rest of a name, as long as it goes. A backslash that begins no escape is left alone. -/
def name : Scan σ Unit := iterate (fun _ => nameRun) (fun _ => .nameRun) ()

/-- Two hyphens. One that stands alone is consumed as well. -/
def twoHyphens : Scan σ Bool := do
  if ← acceptChar '-' then acceptChar '-' else return false

/-- A name that begins like an identifier: with two hyphens, or with a name-start code point or
an escape, after one hyphen at most. -/
def identifier : Scan σ Bool := do
  if ← twoHyphens then
    name
    return true
  else if ← accept isNameStart then
    name
    return true
  else if ← escape then
    name
    return true
  else return false

end Stylesheet.Scan
