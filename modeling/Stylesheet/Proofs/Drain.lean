import Stylesheet.LineEnding

/-!
# What a stream comes to

`CharStream.drain` pulls a stream until it reports an end. A stream is fused if it reports an end
only once and for all, so that what it comes to is all there is of it. Main statement: pulling a
normalizer over a fused stream is reading the normalized text of that stream.
-/
namespace Stylesheet

namespace CharStream

variable {ι : Type} [CharStream ι]

/-- The code points up to the first end. -/
def drain (s : ι) : List Char :=
  match _h : next s with
  | (none, _) => []
  | (some c, rest) => c :: drain rest
termination_by left s
decreasing_by
  have hlt := left_next_lt s
  rw [_h] at hlt
  exact hlt rfl

theorem drain_of_none {s rest : ι} (h : next s = (none, rest)) : drain s = [] := by
  rw [drain]
  split <;> simp_all

theorem drain_of_some {s rest : ι} {c : Char} (h : next s = (some c, rest)) :
    drain s = c :: drain rest := by
  rw [drain]
  split <;> simp_all

@[simp] theorem drain_list (cs : List Char) : drain cs = cs := by
  induction cs with
  | nil => exact drain_of_none next_nil
  | cons c cs ih => rw [drain_of_some (next_cons c cs), ih]

/-- Streams that have ended once they report an end. -/
class Fused (ι : Type) [CharStream ι] : Prop where
  next_eq_none : ∀ s : ι, (next s).1 = none → (next (next s).2).1 = none

theorem drain_eq_nil_of_none [Fused ι] {s rest : ι} (h : next s = (none, rest)) :
    drain rest = [] := by
  have hn := Fused.next_eq_none s (by rw [h])
  rw [h] at hn
  cases hr : next rest with
  | mk c? rest' =>
    rw [hr] at hn
    obtain rfl : c? = none := hn
    exact drain_of_none hr

instance : Fused (List Char) where
  next_eq_none s h := by
    cases s with
    | nil => rfl
    | cons c rest => simp at h

end CharStream

namespace LineEnding

/-! ## The rule, case by case -/

theorem normalize_return_newline (rest : List Char) :
    normalize ('\r' :: '\n' :: rest) = '\n' :: normalize rest := by
  simp [normalize]

theorem normalize_return {rest : List Char} (h : rest.head? ≠ some '\n') :
    normalize ('\r' :: rest) = '\n' :: normalize rest := by
  cases rest with
  | nil => rfl
  | cons c rest =>
    rw [normalize]
    intro tail htail
    obtain ⟨rfl, rfl⟩ := List.cons.inj htail
    exact h rfl

theorem normalize_formFeed (rest : List Char) :
    normalize ('\x0c' :: rest) = '\n' :: normalize rest := by
  simp [normalize]

theorem normalize_cons {c : Char} (hr : c ≠ '\r') (hf : c ≠ '\x0c') (rest : List Char) :
    normalize (c :: rest) = c :: normalize rest := by
  rw [normalize] <;> simp_all

theorem length_normalize_le (cs : List Char) : (normalize cs).length ≤ cs.length := by
  induction cs using normalize.induct with
  | case1 => exact Nat.le_refl _
  | case2 rest ih =>
    rw [normalize_return_newline]
    simp only [List.length_cons]
    omega
  | case3 rest h ih =>
    rw [normalize_return (by cases rest <;> simp_all)]
    simpa using ih
  | case4 rest ih =>
    rw [normalize_formFeed]
    simpa using ih
  | case5 c rest hn hr hf ih =>
    rw [normalize_cons hr hf]
    simpa using ih

/-- A normalized text has no line endings but LF. -/
theorem ne_of_mem_normalize {c : Char} {cs : List Char} (h : c ∈ normalize cs) :
    c ≠ '\r' ∧ c ≠ '\x0c' := by
  induction cs using normalize.induct with
  | case1 => contradiction
  | case2 rest ih =>
    rw [normalize_return_newline] at h
    obtain rfl | h := List.mem_cons.mp h
    · decide
    · exact ih h
  | case3 rest hn ih =>
    rw [normalize_return (by cases rest <;> simp_all)] at h
    obtain rfl | h := List.mem_cons.mp h
    · decide
    · exact ih h
  | case4 rest ih =>
    rw [normalize_formFeed] at h
    obtain rfl | h := List.mem_cons.mp h
    · decide
    · exact ih h
  | case5 d rest hn hr hf ih =>
    rw [normalize_cons hr hf] at h
    obtain rfl | h := List.mem_cons.mp h
    · exact ⟨hr, hf⟩
    · exact ih h

theorem normalize_eq_self {cs : List Char} (h : ∀ c ∈ cs, c ≠ '\r' ∧ c ≠ '\x0c') :
    normalize cs = cs := by
  induction cs with
  | nil => rfl
  | cons c cs ih =>
    obtain ⟨hr, hf⟩ := h c List.mem_cons_self
    rw [normalize_cons hr hf, ih fun d hd => h d (List.mem_cons_of_mem c hd)]

/-- Two texts are normalized apart unless a CR and its LF are on the two sides of the seam. -/
theorem normalize_append_of_seam {cs more : List Char}
    (h : cs.getLast? = some '\r' → more.head? ≠ some '\n') :
    normalize (cs ++ more) = normalize cs ++ normalize more := by
  induction cs using normalize.induct with
  | case1 => rfl
  | case2 rest ih =>
    have hrest : rest.getLast? = some '\r' → more.head? ≠ some '\n' := by
      cases rest <;> simp_all
    rw [List.cons_append, List.cons_append, normalize_return_newline, normalize_return_newline,
      ih hrest, List.cons_append]
  | case3 rest hn ih =>
    cases rest with
    | nil =>
      rw [List.cons_append, List.nil_append, normalize_return (h rfl)]
      rfl
    | cons d rest =>
      have hd : d ≠ '\n' := by
        rintro rfl
        exact hn rest rfl
      have hrest : (d :: rest).getLast? = some '\r' → more.head? ≠ some '\n' := by
        rwa [List.getLast?_cons_cons] at h
      rw [List.cons_append, normalize_return (by simpa using hd),
        normalize_return (by simpa using hd), ih hrest, List.cons_append]
  | case4 rest ih =>
    have hrest : rest.getLast? = some '\r' → more.head? ≠ some '\n' := by
      cases rest <;> simp_all
    rw [List.cons_append, normalize_formFeed, normalize_formFeed, ih hrest, List.cons_append]
  | case5 c rest hn hr hf ih =>
    have hrest : rest.getLast? = some '\r' → more.head? ≠ some '\n' := by
      cases rest <;> simp_all
    rw [List.cons_append, normalize_cons hr hf, normalize_cons hr hf, ih hrest, List.cons_append]

/-- Only a CR at the end of a text could go together with what is written behind it. -/
theorem normalize_append {cs : List Char} (h : cs.getLast? ≠ some '\r') (more : List Char) :
    normalize (cs ++ more) = normalize cs ++ normalize more :=
  normalize_append_of_seam fun hreturn => absurd hreturn h

/-- A CR and its LF on the two sides of a seam are one line ending. -/
theorem normalize_append_newline {cs : List Char} (h : cs.getLast? = some '\r')
    (more : List Char) : normalize (cs ++ '\n' :: more) = normalize cs ++ normalize more := by
  obtain ⟨before, rfl⟩ := List.getLast?_eq_some_iff.mp h
  have hlast : (before ++ ['\r', '\n']).getLast? ≠ some '\r' := by simp
  have hboth : normalize (before ++ ['\r', '\n']) = normalize before ++ ['\n'] :=
    normalize_append_of_seam (by simp)
  have hone : normalize (before ++ ['\r']) = normalize before ++ ['\n'] :=
    normalize_append_of_seam (by simp)
  calc normalize (before ++ ['\r'] ++ '\n' :: more)
      = normalize (before ++ ['\r', '\n'] ++ more) := by simp
    _ = normalize (before ++ ['\r', '\n']) ++ normalize more := normalize_append hlast more
    _ = normalize (before ++ ['\r']) ++ normalize more := by rw [hboth, hone]

/-- A CR at the end of a text has become the LF at the end of the normalized one. -/
theorem getLast?_normalize {cs : List Char} (h : cs.getLast? = some '\r') :
    (normalize cs).getLast? = some '\n' := by
  induction cs using normalize.induct with
  | case1 => contradiction
  | case2 rest ih =>
    have hrest : rest.getLast? = some '\r' := by
      cases rest <;> simp_all
    rw [normalize_return_newline, List.getLast?_cons, ih hrest]
    rfl
  | case3 rest hn ih =>
    rw [normalize_return (by cases rest <;> simp_all), List.getLast?_cons]
    cases rest with
    | nil => rfl
    | cons d rest =>
      rw [List.getLast?_cons_cons] at h
      rw [ih h]
      rfl
  | case4 rest ih =>
    have hrest : rest.getLast? = some '\r' := by
      cases rest <;> simp_all
    rw [normalize_formFeed, List.getLast?_cons, ih hrest]
    rfl
  | case5 c rest hn hr hf ih =>
    have hrest : rest.getLast? = some '\r' := by
      cases rest <;> simp_all
    rw [normalize_cons hr hf, List.getLast?_cons, ih hrest]
    rfl

namespace Normalizer

variable {ι : Type} [CharStream ι]

/-- What has not been normalized yet, the code point set aside first. -/
def raw (n : Normalizer ι) : List Char := n.pending.toList ++ CharStream.drain n.input

/-- What is still to come. -/
def rest (n : Normalizer ι) : List Char := normalize n.raw

theorem raw_of_pull_some {n m : Normalizer ι} {c : Char} (h : n.pull = (some c, m)) :
    n.raw = c :: CharStream.drain m.input := by
  obtain ⟨input, pending⟩ := n
  cases pending with
  | some d =>
    obtain ⟨hd, rfl⟩ := Prod.mk.inj h
    obtain rfl := Option.some.inj hd
    rfl
  | none =>
    cases hn : CharStream.next input with
    | mk c? input' =>
      simp only [pull, hn] at h
      obtain ⟨rfl, rfl⟩ := Prod.mk.inj h
      exact CharStream.drain_of_some hn

variable [CharStream.Fused ι]

theorem raw_of_pull_none {n m : Normalizer ι} (h : n.pull = (none, m)) :
    n.raw = [] ∧ m.raw = [] := by
  obtain ⟨input, pending⟩ := n
  cases pending with
  | some d => simp [pull] at h
  | none =>
    cases hn : CharStream.next input with
    | mk c? input' =>
      simp only [pull, hn] at h
      obtain ⟨rfl, rfl⟩ := Prod.mk.inj h
      exact ⟨CharStream.drain_of_none hn, CharStream.drain_eq_nil_of_none hn⟩

theorem normalize_return_drain (n : Normalizer ι) :
    normalize ('\r' :: CharStream.drain n.input) = '\n' :: n.finishReturn.rest := by
  unfold finishReturn
  cases hn : CharStream.next n.input with
  | mk c? input =>
    cases c? with
    | none =>
      have he := CharStream.drain_eq_nil_of_none hn
      rw [CharStream.drain_of_none hn]
      simp [rest, raw, he, normalize]
    | some c =>
      rw [CharStream.drain_of_some hn]
      by_cases hc : c = '\n'
      · subst hc
        rw [normalize_return_newline]
        simp [rest, raw]
      · rw [normalize_return (by simpa using hc)]
        simp [rest, raw, hc]

theorem rest_of_next_none {n m : Normalizer ι} (h : n.next = (none, m)) :
    n.rest = [] ∧ m.rest = [] := by
  cases hp : n.pull with
  | mk c? p =>
    cases c? with
    | none =>
      obtain ⟨hn, hm⟩ := raw_of_pull_none hp
      simp only [next, hp] at h
      obtain ⟨-, rfl⟩ := Prod.mk.inj h
      exact ⟨by rw [rest, hn, normalize], by rw [rest, hm, normalize]⟩
    | some c =>
      simp only [next, hp] at h
      split at h
      · simp at h
      · split at h <;> simp at h

theorem rest_of_next_some {n m : Normalizer ι} {c : Char} (h : n.next = (some c, m)) :
    n.rest = c :: m.rest := by
  cases hp : n.pull with
  | mk d? p =>
    cases d? with
    | none => simp [next, hp] at h
    | some d =>
      have hraw := raw_of_pull_some hp
      have hpending : p.pending = none := by simpa [hp] using n.pending_pull
      have hrest : p.rest = normalize (CharStream.drain p.input) := by
        simp [rest, raw, hpending]
      simp only [next, hp] at h
      rw [rest, hraw]
      split at h
      · rename_i hd
        obtain ⟨hc, rfl⟩ := Prod.mk.inj h
        obtain rfl := Option.some.inj hc
        rw [hd, normalize_return_drain]
      · split at h
        · rename_i hd
          obtain ⟨hc, rfl⟩ := Prod.mk.inj h
          obtain rfl := Option.some.inj hc
          rw [hd, normalize_formFeed, hrest]
        · rename_i hr hf
          obtain ⟨hc, rfl⟩ := Prod.mk.inj h
          obtain rfl := Option.some.inj hc
          rw [normalize_cons hr hf, hrest]

/-- A normalizer over a stream that ends for good gives all of its text. -/
theorem drain_eq_rest (n : Normalizer ι) : CharStream.drain n = n.rest := by
  induction n using CharStream.drain.induct with
  | case1 n m hn => rw [CharStream.drain_of_none hn, (rest_of_next_none hn).1]
  | case2 n c m hn ih => rw [CharStream.drain_of_some hn, rest_of_next_some hn, ih]

end Normalizer
end LineEnding
end Stylesheet
