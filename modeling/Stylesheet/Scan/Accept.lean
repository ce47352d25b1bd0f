import Stylesheet.Scan

/-!
# Accepting code points

The scans that look at one code point at a time: take it if it belongs to a class, take a run of
a class, or pass over everything up to a class.
-/
namespace Stylesheet.Scan

variable {σ α : Type} [Source σ]

/-- Whether the input has come to an end here. -/
def atEnd : Scan σ Bool := do return (← peek).isNone

/-- Consumes the next code point if it is in the class. -/
def accept (p : Char → Bool) : Scan σ Bool := do
  match ← peek with
  | none => return false
  | some c =>
    if p c then
      let _ ← consume
      return true
    else return false

/-- Consumes the next code point if it is this one. -/
def acceptChar (c : Char) : Scan σ Bool := accept (· = c)

theorem Steady.accept (p : Char → Bool) : Steady (σ := σ) (accept p) := by
  refine Steady.peek.bind fun c? => ?_
  cases c? with
  | none => exact .pure _
  | some c => exact .ite (Steady.consume.bind fun _ => .pure _) (.pure _)

theorem Advances.accept (p : Char → Bool) : Advances (σ := σ) (· = true) (accept p) := by
  refine Advances.peek_bind (.of_not (by simp)) fun c s hc ha => ?_
  dsimp only at ha ⊢
  split at ha
  · rename_i hp
    rw [if_pos hp]
    exact remaining_consume_lt hc
  · simp at ha

/-- One round of `acceptWhile`, with the count so far. -/
def acceptNext (p : Char → Bool) (n : Nat) : Scan σ (Round Nat Nat) := do
  if ← accept p then return .again (n + 1) else return .finish n

theorem Steady.acceptNext (p : Char → Bool) (n : Nat) : Steady (σ := σ) (acceptNext p n) :=
  .bind (.accept p) fun _ => .ite (.pure _) (.pure _)

theorem Advances.acceptNext (p : Char → Bool) (n : Nat) :
    Advances (σ := σ) Round.GoesOn (acceptNext p n) := by
  refine .bind (.accept p) (.accept p) (fun _ _ => .ite (.pure _) (.pure _)) fun a ha => ?_
  rw [if_neg ha]
  exact .of_not (by simp [Round.GoesOn])

/-- Consumes code points of the class as long as there are any, and counts them. -/
def acceptWhile (p : Char → Bool) : Scan σ Nat := iterate (acceptNext p) (.acceptNext p) 0

theorem Steady.acceptWhile (p : Char → Bool) : Steady (σ := σ) (acceptWhile p) :=
  .iterate (.acceptNext p) 0

/-- Consumes at most so many code points of the class. -/
def acceptUpTo (p : Char → Bool) : Nat → Scan σ Unit
  | 0 => return ()
  | n + 1 => do if ← accept p then acceptUpTo p n else return ()

theorem Steady.acceptUpTo (p : Char → Bool) (n : Nat) : Steady (σ := σ) (acceptUpTo p n) := by
  induction n with
  | zero => exact .pure _
  | succ n ih => exact .bind (.accept p) fun _ => .ite ih (.pure _)

/-- One round of `skipUntil`. -/
def skipNext (stop : Char → Bool) : Scan σ (Round Unit (Option Char)) := do
  match ← peek with
  | none => return .finish none
  | some c =>
    if stop c then return .finish (some c)
    else
      let _ ← consume
      return .again ()

theorem Advances.skipNext (stop : Char → Bool) :
    Advances (σ := σ) Round.GoesOn (skipNext stop) := by
  refine .peek_bind (.of_not (by simp [Round.GoesOn])) fun c s hc ha => ?_
  dsimp only at ha ⊢
  split at ha
  · exact ha.elim
  · rename_i hs
    rw [if_neg hs]
    exact remaining_consume_lt hc

/-- Consumes code points up to the first one of the class, which stays in place and is the
answer. There is no answer if the input ends before. -/
def skipUntil (stop : Char → Bool) : Scan σ (Option Char) :=
  iterate (fun _ => skipNext stop) (fun _ => .skipNext stop) ()

end Stylesheet.Scan
