import Mathlib.Computability.Language

/-!
# Words of a class

The languages that lexical grammars are written in: one letter of a class, any number of them, and
what is put together from these. Of the words that a text begins with, the longest one counts. Main
statement: the longest words of two languages make up that of their product, if no word of the
second begins with what a shorter word of the first leaves.
-/
namespace Stylesheet

open scoped Computability

variable {α : Type}

/-- The words of one letter of the class. -/
def oneOf (p : α → Bool) : Language α := {word | ∃ a, p a = true ∧ word = [a]}

/-- The longest word of the language that the text begins with. -/
structure IsLongest (l : Language α) (word text : List α) : Prop where
  mem : word ∈ l
  begins : word <+: text
  longest : ∀ other ∈ l, other <+: text → other.length ≤ word.length

theorem mem_kstar_oneOf {p : α → Bool} {word : List α} :
    word ∈ (oneOf p)∗ ↔ ∀ a ∈ word, p a = true := by
  constructor
  · intro h a ha
    obtain ⟨words, rfl, hwords⟩ := Language.mem_kstar.mp h
    obtain ⟨letter, hmem, ha⟩ := List.mem_flatten.mp ha
    obtain ⟨b, hb, rfl⟩ := hwords letter hmem
    obtain rfl := List.mem_singleton.mp ha
    exact hb
  · intro h
    refine Language.mem_kstar.mpr ⟨word.map fun a => [a], ?_, fun letter hmem => ?_⟩
    · rw [← List.flatMap_def, List.flatMap_singleton']
    · obtain ⟨a, ha, rfl⟩ := List.mem_map.mp hmem
      exact ⟨a, h a ha, rfl⟩

theorem cons_mem_kstar_oneOf {p : α → Bool} {a : α} {word : List α} :
    a :: word ∈ (oneOf p)∗ ↔ p a = true ∧ word ∈ (oneOf p)∗ := by
  rw [mem_kstar_oneOf, mem_kstar_oneOf, List.forall_mem_cons]

theorem cons_mem_oneOf_mul {p : α → Bool} {l : Language α} {a : α} {word : List α} :
    a :: word ∈ oneOf p * l ↔ p a = true ∧ word ∈ l := by
  constructor
  · intro h
    obtain ⟨letter, ⟨b, hb, rfl⟩, rest, hrest, heq⟩ := Language.mem_mul.mp h
    obtain ⟨rfl, rfl⟩ := List.cons.inj heq
    exact ⟨hb, hrest⟩
  · rintro ⟨ha, hword⟩
    have hletter : [a] ∈ oneOf p := ⟨a, ha, rfl⟩
    exact Language.append_mem_mul hletter hword

theorem cons_mem_kstar_mul {p : α → Bool} {l : Language α} {a : α} {word : List α} :
    a :: word ∈ (oneOf p)∗ * l ↔ p a = true ∧ word ∈ (oneOf p)∗ * l ∨ a :: word ∈ l := by
  have hunfold : (oneOf p)∗ * l = l + oneOf p * ((oneOf p)∗ * l) := by
    conv_lhs => rw [← Language.one_add_self_mul_kstar_eq_kstar, add_mul, one_mul, mul_assoc]
  rw [hunfold, Language.mem_add, cons_mem_oneOf_mul, ← hunfold, or_comm]

theorem mem_optional_mul {l m : Language α} {word : List α} :
    word ∈ (1 + l) * m ↔ word ∈ m ∨ word ∈ l * m := by
  rw [add_mul, one_mul, Language.mem_add]

theorem mem_oneOf_mul_kstar {p : α → Bool} {word : List α} :
    word ∈ oneOf p * (oneOf p)∗ ↔ word ≠ [] ∧ ∀ a ∈ word, p a = true := by
  cases word with
  | nil =>
    refine iff_of_false (fun h => ?_) (fun h => h.1 rfl)
    obtain ⟨_, ⟨a, -, rfl⟩, rest, -, heq⟩ := Language.mem_mul.mp h
    exact List.cons_ne_nil _ _ heq
  | cons a word =>
    rw [cons_mem_oneOf_mul, mem_kstar_oneOf, List.forall_mem_cons]
    exact (and_iff_right (List.cons_ne_nil _ _)).symm

theorem mem_kstar_of_mem_mul_kstar {p : α → Bool} {word : List α}
    (h : word ∈ oneOf p * (oneOf p)∗) : word ∈ (oneOf p)∗ :=
  mem_kstar_oneOf.mpr (mem_oneOf_mul_kstar.mp h).2

/-! ## Longest words -/

/-- No word of the language goes further than what is taken, and where a shorter one ends, the text
goes on with a letter of the class. -/
def Reaches (p : α → Bool) (l : Language α) (taken rest : List α) : Prop :=
  ∀ word ∈ l, ∀ more, word ++ more = taken ++ rest →
    word = taken ∨ word.length < taken.length ∧ ∃ a tail, more = a :: tail ∧ p a = true

namespace Reaches

variable {p q : α → Bool} {l m : Language α} {taken taken' rest : List α}

theorem weaken (h : Reaches p l taken rest) (hpq : ∀ a, p a = true → q a = true) :
    Reaches q l taken rest := by
  intro word hword more heq
  obtain rfl | ⟨hlt, a, tail, rfl, ha⟩ := h word hword more heq
  · exact .inl rfl
  · exact .inr ⟨hlt, a, tail, rfl, hpq a ha⟩

theorem restrict (h : Reaches p l taken rest) (hm : ∀ word ∈ m, word ∈ l) :
    Reaches p m taken rest :=
  fun word hword => h word (hm word hword)

theorem letter (p q : α → Bool) (a : α) (rest : List α) : Reaches p (oneOf q) [a] rest := by
  rintro word ⟨b, -, rfl⟩ more heq
  exact .inl (congrArg (fun a => [a]) (List.cons.inj heq).1)

theorem kstar (hall : ∀ a ∈ taken, p a = true) (hstop : rest.head?.any p = false) :
    Reaches p (oneOf p)∗ taken rest := by
  intro word hword more heq
  rw [mem_kstar_oneOf] at hword
  obtain ⟨tail, rfl, hrest⟩ | ⟨tail, rfl, rfl⟩ := List.append_eq_append_iff.mp heq
  · cases tail with
    | nil => exact .inl (List.append_nil _).symm
    | cons a tail =>
      refine .inr ⟨?_, a, tail ++ rest, hrest, hall a (by simp)⟩
      rw [List.length_append, List.length_cons]
      omega
  · cases tail with
    | nil => exact .inl (List.append_nil _)
    | cons a tail =>
      have ha : p a = false := hstop
      rw [hword a (by simp)] at ha
      contradiction

/-- What comes next may not begin with what a shorter word leaves. -/
theorem mul (h : Reaches p l taken (taken' ++ rest)) (h' : Reaches q m taken' rest)
    (hm : ∀ a word, a :: word ∈ m → p a = false) :
    Reaches (fun a => p a || q a) (l * m) (taken ++ taken') rest := by
  intro word hword more heq
  obtain ⟨first, hfirst, second, hsecond, rfl⟩ := Language.mem_mul.mp hword
  rw [List.append_assoc, List.append_assoc] at heq
  obtain rfl | ⟨hlt, a, tail, hmore, ha⟩ := h first hfirst (second ++ more) heq
  · obtain rfl | ⟨hlt, a, tail, rfl, ha⟩ :=
      h' second hsecond more (List.append_cancel_left heq)
    · exact .inl rfl
    · refine .inr ⟨?_, a, tail, rfl, by simp [ha]⟩
      rw [List.length_append, List.length_append]
      omega
  · cases second with
    | nil =>
      refine .inr ⟨?_, a, tail, hmore, by simp [ha]⟩
      rw [List.append_nil, List.length_append]
      omega
    | cons b second =>
      obtain ⟨rfl, -⟩ := List.cons.inj hmore
      rw [hm b second hsecond] at ha
      contradiction

theorem optional {a : α} (h : Reaches p l (a :: taken) rest) (ha : p a = true) :
    Reaches p (1 + l) (a :: taken) rest := by
  intro word hword more heq
  obtain hnil | hword := hword
  · obtain rfl : word = [] := hnil
    exact .inr ⟨Nat.zero_lt_succ _, a, taken ++ rest, heq, ha⟩
  · exact h word hword more heq

theorem absent (h : ∀ word ∈ l, ¬ word <+: rest) : Reaches p (1 + l) [] rest := by
  intro word hword more heq
  obtain hnil | hword := hword
  · exact .inl hnil
  · exact absurd ⟨more, heq⟩ (h word hword)

theorem isLongest (h : Reaches p l taken rest) (hmem : taken ∈ l) :
    IsLongest l taken (taken ++ rest) := by
  refine ⟨hmem, List.prefix_append taken rest, fun other hother hbegins => ?_⟩
  obtain ⟨more, heq⟩ := hbegins
  obtain rfl | ⟨hlt, -⟩ := h other hother more heq
  · exact Nat.le_refl _
  · exact Nat.le_of_lt hlt

end Reaches

theorem isLongest_takeWhile (p : α → Bool) (text : List α) :
    IsLongest (oneOf p)∗ (text.takeWhile p) text := by
  have hall : ∀ a ∈ text.takeWhile p, p a = true := List.all_eq_true.mp List.all_takeWhile
  have hstop : (text.dropWhile p).head?.any p = false := by
    have hhead := List.head?_dropWhile_not p text
    cases h : (text.dropWhile p).head? with
    | none => rfl
    | some a => rwa [h] at hhead
  have hlongest := (Reaches.kstar hall hstop).isLongest (mem_kstar_oneOf.mpr hall)
  rwa [List.takeWhile_append_dropWhile] at hlongest

end Stylesheet
