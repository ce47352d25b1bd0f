import Mathlib.Data.List.Induction
import Stylesheet.Proofs.Drain

/-!
# Ends that are not the last

A stream may report an end and go on. Line endings are then those of the texts between the ends,
each taken for itself. A stream can be given a record of what was pulled from it, and a normalizer
is accounted for by that record: what it has given is the normalized record, but for at most one
code point that it holds back. Main statement: every pull keeps this account.
-/
namespace Stylesheet

/-- The texts between the ends, each of them normalized, one after another. -/
def LineEnding.normalizeEach (answers : List (Option Char)) : List Char :=
  (answers.splitOn none).flatMap fun segment => normalize (segment.filterMap id)

namespace LineEnding

theorem normalizeEach_append_none (xs ys : List (Option Char)) :
    normalizeEach (xs ++ none :: ys) = normalizeEach xs ++ normalizeEach ys := by
  rw [normalizeEach, List.splitOn_append_cons_self, List.flatMap_append]
  rfl

theorem normalizeEach_map_some (cs : List Char) : normalizeEach (cs.map some) = normalize cs := by
  have hone : (cs.map some).splitOn none = [cs.map some] :=
    List.splitOn_eq_singleton (by simp)
  rw [normalizeEach, hone, List.flatMap_singleton, List.filterMap_map]
  exact congrArg normalize (List.filterMap_some)

@[simp] theorem normalizeEach_nil : normalizeEach [] = [] := rfl

/-- Behind the last end, if there is one, stands a text without any. -/
theorem exists_last_segment (answers : List (Option Char)) :
    ∃ cs : List Char, answers = cs.map some ∨
      ∃ earlier, answers = earlier ++ none :: cs.map some := by
  induction answers using List.reverseRecOn with
  | nil => exact ⟨[], .inl rfl⟩
  | append_singleton answers c? ih =>
    cases c? with
    | none => exact ⟨[], .inr ⟨answers, rfl⟩⟩
    | some c =>
      obtain ⟨cs, rfl | ⟨earlier, rfl⟩⟩ := ih
      · exact ⟨cs ++ [c], .inl (by simp)⟩
      · exact ⟨cs ++ [c], .inr ⟨earlier, by simp⟩⟩

/-- More of a text is normalized apart from what came before it, unless a CR and its LF are on the
two sides of the seam. -/
theorem normalizeEach_append_of_seam (answers : List (Option Char)) (more : List Char)
    (h : answers.getLast? = some (some '\r') → more.head? ≠ some '\n') :
    normalizeEach (answers ++ more.map some) = normalizeEach answers ++ normalize more := by
  obtain ⟨cs, rfl | ⟨earlier, rfl⟩⟩ := exists_last_segment answers
  · have hseam : cs.getLast? = some '\r' → more.head? ≠ some '\n' := by
      intro hlast
      exact h (by rw [List.getLast?_map, hlast, Option.map_some])
    rw [← List.map_append, normalizeEach_map_some, normalizeEach_map_some,
      normalize_append_of_seam hseam]
  · have hseam : cs.getLast? = some '\r' → more.head? ≠ some '\n' := by
      intro hlast
      refine h ?_
      rw [List.getLast?_append, List.getLast?_cons, List.getLast?_map, hlast]
      rfl
    rw [List.append_assoc, List.cons_append, ← List.map_append, normalizeEach_append_none,
      normalizeEach_append_none, normalizeEach_map_some, normalizeEach_map_some,
      normalize_append_of_seam hseam, List.append_assoc]

/-- An end adds nothing. -/
theorem normalizeEach_concat_none (answers : List (Option Char)) :
    normalizeEach (answers ++ [none]) = normalizeEach answers := by
  rw [normalizeEach_append_none, normalizeEach_nil, List.append_nil]

theorem normalizeEach_concat {answers : List (Option Char)} {c : Char}
    (h : answers.getLast? = some (some '\r') → c ≠ '\n') :
    normalizeEach (answers ++ [some c]) = normalizeEach answers ++ normalize [c] :=
  normalizeEach_append_of_seam answers [c] (by simpa using h)

/-- An LF that follows its CR adds nothing. -/
theorem normalizeEach_concat_return_newline (answers : List (Option Char)) :
    normalizeEach (answers ++ [some '\r', some '\n']) = normalizeEach (answers ++ [some '\r']) := by
  have hboth := normalizeEach_append_of_seam answers ['\r', '\n'] (by simp)
  have hone := normalizeEach_append_of_seam answers ['\r'] (by simp)
  exact hboth.trans hone.symm

theorem normalizeEach_concat_isPrefix (answers : List (Option Char)) (c? : Option Char) :
    normalizeEach answers <+: normalizeEach (answers ++ [c?]) := by
  cases c? with
  | none => exact ⟨[], by rw [List.append_nil, normalizeEach_concat_none]⟩
  | some c =>
    by_cases hseam : answers.getLast? = some (some '\r') ∧ c = '\n'
    · obtain ⟨hlast, rfl⟩ := hseam
      obtain ⟨before, rfl⟩ := List.getLast?_eq_some_iff.mp hlast
      have hnothing := normalizeEach_concat_return_newline before
      refine ⟨[], ?_⟩
      rw [List.append_nil, List.append_assoc, List.singleton_append, hnothing]
    · rw [normalizeEach_concat fun hlast hc => hseam ⟨hlast, hc⟩]
      exact List.prefix_append _ _

/-- What is pulled later takes nothing back. -/
theorem normalizeEach_isPrefix {answers more : List (Option Char)} (h : answers <+: more) :
    normalizeEach answers <+: normalizeEach more := by
  obtain ⟨later, rfl⟩ := h
  induction later using List.reverseRecOn with
  | nil => exact ⟨[], by rw [List.append_nil, List.append_nil]⟩
  | append_singleton later c? ih =>
    rw [← List.append_assoc]
    exact ih.trans (normalizeEach_concat_isPrefix _ c?)

end LineEnding

/-! ## Records -/

/-- A stream with a record of what was pulled from it. -/
structure Recorded (ι : Type) where
  stream : ι
  /-- Everything it has answered, the latest last. -/
  answers : List (Option Char)

namespace Recorded

variable {ι : Type}

def ofStream (stream : ι) : Recorded ι := ⟨stream, []⟩

variable [CharStream ι]

instance : CharStream (Recorded ι) where
  next r := ((CharStream.next r.stream).1,
    ⟨(CharStream.next r.stream).2, r.answers ++ [(CharStream.next r.stream).1]⟩)
  left r := CharStream.left r.stream
  left_next_le r := CharStream.left_next_le r.stream
  left_next_lt r := CharStream.left_next_lt r.stream

theorem next_eq {stream rest : ι} {c? : Option Char} (h : CharStream.next stream = (c?, rest))
    (answers : List (Option Char)) :
    CharStream.next (⟨stream, answers⟩ : Recorded ι) = (c?, ⟨rest, answers ++ [c?]⟩) := by
  change ((CharStream.next stream).1,
    (⟨(CharStream.next stream).2, answers ++ [(CharStream.next stream).1]⟩ : Recorded ι)) = _
  rw [h]

end Recorded

namespace LineEnding.Normalizer

variable {ι : Type}

/-- The normalizer without the record of its stream. -/
def unrecorded (n : Normalizer (Recorded ι)) : Normalizer ι := ⟨n.input.stream, n.pending⟩

section Unrecorded

variable [CharStream ι] (n : Normalizer (Recorded ι))

theorem pull_unrecorded : n.unrecorded.pull = (n.pull.1, n.pull.2.unrecorded) := by
  obtain ⟨⟨stream, answers⟩, pending⟩ := n
  cases pending <;> rfl

theorem finishReturn_unrecorded : n.unrecorded.finishReturn = n.finishReturn.unrecorded := by
  obtain ⟨⟨stream, answers⟩, pending⟩ := n
  cases hn : CharStream.next stream with
  | mk c? rest =>
    have hr := Recorded.next_eq hn answers
    cases c? <;> simp only [finishReturn, unrecorded, hn, hr]

/-- Keeping a record changes nothing. -/
theorem next_unrecorded : n.unrecorded.next = (n.next.1, n.next.2.unrecorded) := by
  rw [Normalizer.next, Normalizer.next, pull_unrecorded]
  generalize n.pull = r
  obtain ⟨c?, m⟩ := r
  cases c? with
  | none => rfl
  | some c =>
    simp only
    split
    · rw [finishReturn_unrecorded]
    · split <;> rfl

end Unrecorded

/-- What the normalizer has given so far, by its record. A code point that it holds back was
pulled last, behind a CR that it is not the LF of. -/
inductive Gave : Normalizer (Recorded ι) → List Char → Prop
  | level {stream : ι} {answers : List (Option Char)}
      (h : answers.getLast? ≠ some (some '\r')) :
      Gave ⟨⟨stream, answers⟩, none⟩ (normalizeEach answers)
  | behind {stream : ι} {answers : List (Option Char)} {c : Char} (h : c ≠ '\n') :
      Gave ⟨⟨stream, answers ++ [some c]⟩, some c⟩ (normalizeEach answers)

theorem gave_ofStream (stream : ι) : (ofStream (Recorded.ofStream stream)).Gave [] :=
  .level (by simp)

variable {n : Normalizer (Recorded ι)} {out : List Char}

/-- What was given is the beginning of the normalized record, and all of it if nothing is held
back. -/
theorem Gave.isPrefix (h : n.Gave out) : out <+: normalizeEach n.input.answers := by
  cases h with
  | level => exact List.prefix_rfl
  | behind => exact normalizeEach_concat_isPrefix _ _

theorem Gave.eq_of_pending_eq_none (h : n.Gave out) (hp : n.pending = none) :
    out = normalizeEach n.input.answers := by
  cases h with
  | level => rfl
  | behind => contradiction

variable [CharStream ι]

theorem Gave.pull_none (h : n.Gave out) {p : Normalizer (Recorded ι)} (hp : n.pull = (none, p)) :
    p.Gave out := by
  cases h with
  | behind => simp [pull] at hp
  | @level stream answers hlast =>
    cases hn : CharStream.next stream with
    | mk c? rest =>
      simp only [pull, Recorded.next_eq hn] at hp
      obtain ⟨rfl, rfl⟩ := Prod.mk.inj hp
      rw [← normalizeEach_concat_none]
      exact .level (by simp)

/-- What is pulled is the last of the record, and joins it as a text of its own. -/
theorem Gave.pull_some (h : n.Gave out) {c : Char} {p : Normalizer (Recorded ι)}
    (hp : n.pull = (some c, p)) :
    ∃ answers, p.input.answers = answers ++ [some c] ∧
      normalizeEach (answers ++ [some c]) = out ++ normalize [c] := by
  cases h with
  | @level stream answers hlast =>
    cases hn : CharStream.next stream with
    | mk c? rest =>
      simp only [pull, Recorded.next_eq hn] at hp
      obtain ⟨rfl, rfl⟩ := Prod.mk.inj hp
      exact ⟨answers, rfl, normalizeEach_concat fun hreturn => absurd hreturn hlast⟩
  | @behind stream answers d hd =>
    obtain ⟨hc, rfl⟩ := Prod.mk.inj hp
    obtain rfl := Option.some.inj hc
    exact ⟨answers, rfl, normalizeEach_concat fun _ => hd⟩

/-- Whatever follows a CR, its line ending has been given. -/
theorem gave_finishReturn (stream : ι) (answers : List (Option Char)) :
    (finishReturn ⟨⟨stream, answers ++ [some '\r']⟩, none⟩).Gave
      (normalizeEach (answers ++ [some '\r'])) := by
  cases hn : CharStream.next stream with
  | mk c? rest =>
    simp only [finishReturn, Recorded.next_eq hn]
    cases c? with
    | none =>
      rw [← normalizeEach_concat_none]
      exact .level (by simp)
    | some c =>
      by_cases hc : c = '\n'
      · subst hc
        rw [← normalizeEach_concat_return_newline,
          List.append_cons answers (some '\r') [some '\n']]
        exact .level (by simp)
      · simp only [if_neg hc]
        exact .behind hc

/-- Every pull keeps the account. -/
theorem Gave.next (h : n.Gave out) : n.next.2.Gave (out ++ n.next.1.toList) := by
  have hpending := n.pending_pull
  rw [Normalizer.next]
  cases hp : n.pull with
  | mk c? p =>
    cases c? with
    | none => simpa using h.pull_none hp
    | some c =>
      obtain ⟨answers, ha, hjoin⟩ := h.pull_some hp
      rw [hp] at hpending
      obtain ⟨⟨stream, record⟩, pending⟩ := p
      obtain rfl : pending = none := hpending
      obtain rfl : record = answers ++ [some c] := ha
      by_cases hr : c = '\r'
      · subst hr
        have hgave := gave_finishReturn stream answers
        rw [hjoin] at hgave
        exact hgave
      · have hlevel : Gave ⟨⟨stream, answers ++ [some c]⟩, none⟩
            (normalizeEach (answers ++ [some c])) := .level (by simpa using hr)
        rw [hjoin] at hlevel
        simp only [if_neg hr]
        by_cases hf : c = '\x0c'
        · subst hf
          exact hlevel
        · rw [normalize_cons hr hf] at hlevel
          simp only [if_neg hf]
          exact hlevel

theorem pending_of_next_eq_none {n : Normalizer ι} (h : n.next.1 = none) :
    n.next.2.pending = none := by
  have hpending := n.pending_pull
  rw [Normalizer.next] at h ⊢
  cases hp : n.pull with
  | mk c? p =>
    rw [hp] at h hpending
    cases c? with
    | none => exact hpending
    | some c =>
      simp only at h
      split at h
      · contradiction
      · split at h <;> contradiction

end LineEnding.Normalizer
end Stylesheet
