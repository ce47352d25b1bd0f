import Stylesheet.CodePoint
import Stylesheet.Scan.Accept

/-!
# Going back

A scan that turns out not to apply is undone by returning to the mark made before it. Everything
that goes back is an instance of `keepIf`: an attempt keeps what it consumed if it succeeded, a
look ahead never does, and a literal is an attempt at its code points.
-/
namespace Stylesheet.Scan

variable {σ α : Type} [Source σ]

/-- Runs a scan and goes back to where it began unless its answer is to be kept. -/
def keepIf (keep : α → Bool) (scan : Scan σ α) : Scan σ α := do
  let start ← position
  let answer ← scan
  if keep answer then return answer
  else
    reset start
    return answer

/-- Undoes a scan that says it does not apply. -/
def attempt (scan : Scan σ Bool) : Scan σ Bool := keepIf id scan

/-- Undoes a scan that has no answer. -/
def attempt? (scan : Scan σ (Option α)) : Scan σ (Option α) := keepIf Option.isSome scan

/-- Undoes a scan whatever it says. -/
def lookahead (scan : Scan σ Bool) : Scan σ Bool := keepIf (fun _ => false) scan

theorem keepIf_of_keep {keep : α → Bool} {scan : Scan σ α} {s : σ}
    (h : keep (scan s).1 = true) : keepIf keep scan s = scan s := by
  simp [keepIf, position, h]

theorem keepIf_of_not_keep {keep : α → Bool} {scan : Scan σ α} {s : σ}
    (h : keep (scan s).1 = false) :
    keepIf keep scan s = ((scan s).1, Source.reset (Source.position s) (scan s).2) := by
  simp [keepIf, position, reset, h]

@[simp] theorem keepIf_answer (keep : α → Bool) (scan : Scan σ α) (s : σ) :
    (keepIf keep scan s).1 = (scan s).1 := by
  cases h : keep (scan s).1
  · rw [keepIf_of_not_keep h]
  · rw [keepIf_of_keep h]

/-- An attempt that succeeds has advanced if what it attempted has. -/
theorem Advances.attempt {scan : Scan σ Bool} (h : Advances (· = true) scan) :
    Advances (· = true) (attempt scan) := by
  intro s ha
  have ha : (scan s).1 = true := by simpa [Scan.attempt] using ha
  rw [Scan.attempt, keepIf_of_keep (by simpa using ha)]
  exact h s ha

/-- Consumes the code points of a text one by one, up to the first that differs. -/
def acceptEach (same : Char → Char → Bool) : List Char → Scan σ Bool
  | [] => return true
  | expected :: rest => do
    if ← accept (same · expected) then acceptEach same rest else return false

/-- Consumes all of a text or none of it. -/
def acceptText (text : String) : Scan σ Bool := attempt (acceptEach (· = ·) text.toList)

/-- Consumes all of a text, in any case of its ASCII letters, or none of it. -/
def acceptTextIgnoringCase (text : String) : Scan σ Bool :=
  attempt (acceptEach CodePoint.sameIgnoringCase text.toList)

end Stylesheet.Scan
