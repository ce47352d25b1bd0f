import Stylesheet.Source

/-!
# Scans

A scan reads from a source and gives an answer together with the source it leaves. This module
holds the sequencing of scans and the one loop they are built with. The loop asks for a proof
that each of its rounds consumes something, so every scan is total, whatever its source does.
-/
namespace Stylesheet

/-- A reading of a source. -/
def Scan (σ α : Type) : Type := σ → α × σ

namespace Scan

variable {σ α β : Type}

instance : Monad (Scan σ) where
  pure a := fun s => (a, s)
  bind scan next := fun s => next (scan s).1 (scan s).2

@[simp] theorem pure_apply (a : α) (s : σ) : (pure a : Scan σ α) s = (a, s) := rfl

@[simp] theorem bind_apply (scan : Scan σ α) (next : α → Scan σ β) (s : σ) :
    (scan >>= next) s = next (scan s).1 (scan s).2 := rfl

@[simp] theorem map_apply (f : α → β) (scan : Scan σ α) (s : σ) :
    (f <$> scan) s = (f (scan s).1, (scan s).2) := rfl

section Primitives

variable [Source σ]

/-- The next code point, left in place. -/
def peek : Scan σ (Option Char) := Source.peek

/-- The next code point, consumed. -/
def consume : Scan σ (Option Char) := Source.consume

/-- Where the scan stands. -/
def position : Scan σ Mark := fun s => (Source.position s, s)

/-- Back, or forward, to a mark of the current span. -/
def reset (mark : Mark) : Scan σ Unit := fun s => ((), Source.reset mark s)

/-- What was consumed since text was last taken. -/
def takeText : Scan σ String := Source.takeText

end Primitives

/-! ## Progress -/

section Progress

variable [Source σ]

/-- The scan leaves no more input than it found. -/
def Steady (scan : Scan σ α) : Prop :=
  ∀ s, Source.remaining (scan s).2 ≤ Source.remaining s

/-- Whenever the answer is one of `answers`, the scan has consumed something. -/
def Advances (answers : α → Prop) (scan : Scan σ α) : Prop :=
  ∀ s, answers (scan s).1 → Source.remaining (scan s).2 < Source.remaining s

theorem Steady.pure (a : α) : Steady (σ := σ) (Pure.pure a) := fun _ => Nat.le_refl _

theorem Steady.bind {scan : Scan σ α} {next : α → Scan σ β} (h : Steady scan)
    (hn : ∀ a, Steady (next a)) : Steady (scan >>= next) :=
  fun s => Nat.le_trans (hn _ _) (h s)

theorem Steady.ite {p : Prop} [Decidable p] {a b : Scan σ α} (ha : Steady a) (hb : Steady b) :
    Steady (if p then a else b) := by
  split <;> assumption

theorem Steady.peek : Steady (peek (σ := σ)) := Source.remaining_peek_le

theorem Steady.consume : Steady (consume (σ := σ)) := Source.remaining_consume_le

theorem Advances.ite {answers : α → Prop} {p : Prop} [Decidable p] {a b : Scan σ α}
    (ha : Advances answers a) (hb : Advances answers b) :
    Advances answers (if p then a else b) := by
  split <;> assumption

theorem Advances.of_not {answers : α → Prop} {a : α} (h : ¬ answers a) :
    Advances (σ := σ) answers (Pure.pure a) :=
  fun _ ha => absurd ha h

/-- A scan that goes on after an answer that consumed something has advanced, if it does not go
back afterwards. After any other answer the rest has to see to it. -/
theorem Advances.bind {first : α → Prop} {answers : β → Prop} {scan : Scan σ α}
    {next : α → Scan σ β} (h : Steady scan) (hf : Advances first scan)
    (hn : ∀ a, first a → Steady (next a)) (ho : ∀ a, ¬ first a → Advances answers (next a)) :
    Advances answers (scan >>= next) := by
  intro s ha
  by_cases hs : first (scan s).1
  · exact Nat.lt_of_le_of_lt (hn _ hs _) (hf s hs)
  · exact Nat.lt_of_lt_of_le (ho _ hs _ ha) (h s)

theorem Advances.after {answers : β → Prop} {scan : Scan σ α} {next : α → Scan σ β}
    (h : Steady scan) (hn : ∀ a, Advances answers (next a)) : Advances answers (scan >>= next) :=
  fun s ha => Nat.lt_of_lt_of_le (hn _ _ ha) (h s)

/-- A code point that was looked at is there to be consumed. -/
theorem remaining_consume_lt {s : σ} {c : Char} (h : (Scan.peek s).1 = some c) :
    Source.remaining (Scan.consume (Scan.peek s).2).2 < Source.remaining s :=
  Source.remaining_consume_lt s (Option.isSome_iff_exists.mpr ⟨c, h⟩)

/-- To see that a scan advances which looks at a code point first, see to each one. -/
theorem Advances.peek_bind {answers : β → Prop} {next : Option Char → Scan σ β}
    (hend : Advances answers (next none))
    (hsome : ∀ c s, (Scan.peek s).1 = some c → answers (next (some c) (Scan.peek s).2).1 →
      Source.remaining (next (some c) (Scan.peek s).2).2 < Source.remaining s) :
    Advances answers (Scan.peek >>= next) := by
  intro s ha
  cases hc : (Scan.peek s).1 with
  | none =>
    rw [bind_apply, hc] at ha ⊢
    exact Nat.lt_of_lt_of_le (hend _ ha) (Steady.peek s)
  | some c =>
    rw [bind_apply, hc] at ha ⊢
    exact hsome c s hc ha

end Progress

/-! ## The loop -/

/-- What one round of a loop decides. -/
inductive Round (β α : Type) where
  /-- Another round, with what has been gathered so far. -/
  | again (b : β)
  | finish (a : α)

/-- The round asks for another one. -/
def Round.GoesOn : Round β α → Prop
  | again _ => True
  | finish _ => False

variable [Source σ]

/-- Repeats a round until it finishes. Each round that asks for another one has consumed
something, so the loop ends with the input at the latest. -/
def iterate (round : β → Scan σ (Round β α)) (advances : ∀ b, Advances Round.GoesOn (round b))
    (b : β) (s : σ) : α × σ :=
  match _h : round b s with
  | (.again b', s') => iterate round advances b' s'
  | (.finish a, s') => (a, s')
termination_by Source.remaining s
decreasing_by
  have hlt := advances b s
  rw [_h] at hlt
  exact hlt trivial

/-- What a loop does is its first round, and then the loop again if that round asks for it. -/
theorem iterate_eq (round : β → Scan σ (Round β α))
    (advances : ∀ b, Advances Round.GoesOn (round b)) (b : β) (s : σ) :
    iterate round advances b s =
      match round b s with
      | (.again b', s') => iterate round advances b' s'
      | (.finish a, s') => (a, s') := by
  rw [iterate]
  split <;> simp_all

theorem Steady.iterate {round : β → Scan σ (Round β α)}
    {advances : ∀ b, Advances Round.GoesOn (round b)} (h : ∀ b, Steady (round b)) (b : β) :
    Steady (iterate round advances b) := by
  intro s
  induction hn : Source.remaining s using Nat.strongRecOn generalizing b s with
  | ind n ih =>
    have hs := h b s
    have ha := advances b s
    rw [iterate_eq]
    split <;> rename_i heq <;> rw [heq] at hs
    · rw [heq] at ha
      exact hn ▸ Nat.le_trans (ih _ (hn ▸ ha trivial) _ _ rfl) hs
    · exact hn ▸ hs

end Scan
end Stylesheet
