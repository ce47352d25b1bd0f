import Stylesheet.Proofs.Ends

/-!
# Every line ending

Writing line endings as LF is said as replacing: each CR LF first, then each CR that is left, then
each FF. A stream is said as the list of what it answers, one answer for each pull, and its ends
are among them. Main statement: a normalized text is the text with these replacements made, it can
be normalized in parts but for a CR LF that is cut in two, and what a normalizer gives is at every
moment the beginning of its stream, normalized between the ends, with at most one item that was
pulled not yet in it.
-/
namespace Stylesheet

namespace LineEnding

/-- A text with every occurrence of another, from left to right, replaced by a third. -/
def replaceEach (old new : List Char) : List Char → List Char
  | [] => []
  | c :: cs =>
    if old <+: c :: cs then new ++ replaceEach old new (cs.drop (old.length - 1))
    else c :: replaceEach old new cs
termination_by cs => cs.length
decreasing_by
  · rw [List.length_drop, List.length_cons]
    omega
  · exact Nat.lt_succ_self _

variable {old new : List Char} {c : Char} {cs rest : List Char}

@[simp] theorem replaceEach_nil (old new : List Char) : replaceEach old new [] = [] := by
  rw [replaceEach]

theorem replaceEach_append (c : Char) (old new rest : List Char) :
    replaceEach (c :: old) new (c :: (old ++ rest)) = new ++ replaceEach (c :: old) new rest := by
  have hbegins : c :: old <+: c :: (old ++ rest) := List.prefix_append (c :: old) rest
  rw [replaceEach, if_pos hbegins, List.length_cons, Nat.add_sub_cancel, List.drop_left]

theorem replaceEach_cons (h : ¬ old <+: c :: rest) :
    replaceEach old new (c :: rest) = c :: replaceEach old new rest := by
  rw [replaceEach, if_neg h]

/-- A single code point is replaced wherever it stands. -/
theorem replaceEach_singleton (c d : Char) (cs : List Char) :
    replaceEach [c] [d] cs = cs.map fun x => if x = c then d else x := by
  induction cs with
  | nil => exact replaceEach_nil _ _
  | cons x cs ih =>
    by_cases hx : x = c
    · subst hx
      have happend := replaceEach_append x [] [d] cs
      rw [List.nil_append, ih] at happend
      rw [happend, List.map_cons, if_pos rfl]
      rfl
    · have hnot : ¬ [c] <+: x :: cs := fun h => hx (List.cons_prefix_cons.mp h).1.symm
      rw [replaceEach_cons hnot, ih, List.map_cons, if_neg hx]

/-- Each CR LF replaced by LF, then each CR that is left, then each FF. -/
def replaced (cs : List Char) : List Char :=
  replaceEach ['\x0c'] ['\n'] (replaceEach ['\r'] ['\n'] (replaceEach ['\r', '\n'] ['\n'] cs))

/-- Writing line endings as LF is replacing them one kind after another. -/
theorem normalize_eq_replaced (cs : List Char) : normalize cs = replaced cs := by
  -- Only the replacement of CR LF looks at two code points; the others are maps over its result.
  simp only [replaced, replaceEach_singleton, List.map_map]
  induction cs using normalize.induct with
  | case1 => simp [normalize]
  | case2 rest ih =>
    have happend : replaceEach ['\r', '\n'] ['\n'] ('\r' :: '\n' :: rest) =
        '\n' :: replaceEach ['\r', '\n'] ['\n'] rest := replaceEach_append '\r' ['\n'] ['\n'] rest
    rw [normalize_return_newline, happend, List.map_cons, ih]
    rfl
  | case3 rest h ih =>
    have hhead : rest.head? ≠ some '\n' := by
      intro hhead
      obtain ⟨tail, rfl⟩ := List.head?_eq_some_iff.mp hhead
      exact h tail rfl
    have hnot : ¬ ['\r', '\n'] <+: '\r' :: rest := by
      intro hbegins
      obtain ⟨tail, rfl⟩ := (List.cons_prefix_cons.mp hbegins).2
      exact hhead rfl
    rw [normalize_return hhead, replaceEach_cons hnot, List.map_cons, ih]
    rfl
  | case4 rest ih =>
    have hnot : ¬ ['\r', '\n'] <+: '\x0c' :: rest := by simp
    rw [normalize_formFeed, replaceEach_cons hnot, List.map_cons, ih]
    rfl
  | case5 c rest hn hr hf ih =>
    have hnot : ¬ ['\r', '\n'] <+: c :: rest := fun hbegins =>
      hr (List.cons_prefix_cons.mp hbegins).1.symm
    rw [normalize_cons hr hf, replaceEach_cons hnot, List.map_cons, ih, Function.comp_apply,
      if_neg hr, if_neg hf]

end LineEnding

/-! ## Streams -/

namespace CharStream

variable {ι : Type} [CharStream ι]

/-- The stream after so many pulls. -/
def pulled : Nat → ι → ι
  | 0, s => s
  | n + 1, s => (next (pulled n s)).2

/-- What it answers to them, its ends included. -/
def items : Nat → ι → List (Option Char)
  | 0, _ => []
  | n + 1, s => items n s ++ [(next (pulled n s)).1]

theorem pulled_add (n m : Nat) (s : ι) : pulled (n + m) s = pulled m (pulled n s) := by
  induction m with
  | zero => rfl
  | succ m ih => rw [← Nat.add_assoc, pulled, ih, pulled]

theorem items_isPrefix {n m : Nat} (h : n ≤ m) (s : ι) : items n s <+: items m s := by
  induction h with
  | refl => exact List.prefix_rfl
  | step _ ih => exact ih.trans (List.prefix_append _ _)

/-- A record holds the items that were pulled, and nothing else. -/
theorem pulled_recorded (n : Nat) (s : ι) :
    pulled n (Recorded.ofStream s) = ⟨pulled n s, items n s⟩ := by
  induction n with
  | zero => rfl
  | succ n ih =>
    rw [pulled, ih]
    rfl

theorem pulled_answers (n : Nat) (answers : List (Option Char)) :
    pulled n answers = answers.drop n := by
  induction n with
  | zero => rfl
  | succ n ih =>
    rw [pulled, ih, ← List.drop_drop]
    cases answers.drop n <;> rfl

theorem items_answers {n : Nat} {answers : List (Option Char)} (h : n ≤ answers.length) :
    items n answers = answers.take n := by
  induction n with
  | zero => rfl
  | succ n ih =>
    have hdrop : answers.drop n = answers[n] :: answers.drop (n + 1) := List.drop_eq_getElem_cons h
    rw [items, pulled_answers, ih (Nat.le_of_succ_le h), hdrop, next_answers_cons,
      List.take_append_getElem]

/-- The first answers of an iterator, which need not have a last one. -/
def firstAnswers (answer : Nat → Option Char) (n : Nat) : List (Option Char) :=
  (List.range n).map answer

theorem firstAnswers_isPrefix (answer : Nat → Option Char) {n m : Nat} (h : n ≤ m) :
    firstAnswers answer n <+: firstAnswers answer m := by
  obtain ⟨later, rfl⟩ := Nat.exists_eq_add_of_le h
  rw [firstAnswers, firstAnswers, List.range_add, List.map_append]
  exact List.prefix_append _ _

/-- As long as there are answers, they are the items. -/
theorem items_firstAnswers (answer : Nat → Option Char) {n bound : Nat} (h : n ≤ bound) :
    items n (firstAnswers answer bound) = firstAnswers answer n := by
  have hlength : (firstAnswers answer bound).length = bound := by
    rw [firstAnswers, List.length_map, List.length_range]
  rw [items_answers (by rwa [hlength]), firstAnswers, ← List.map_take, List.take_range,
    Nat.min_eq_left h, firstAnswers]

end CharStream

/-! ## Accounts -/

namespace LineEnding.Normalizer

variable {ι : Type} [CharStream ι]

/-- The normalizer after so many calls. -/
def after : Nat → Normalizer ι → Normalizer ι
  | 0, n => n
  | k + 1, n => (n.after k).next.2

/-- The code points that these calls give. -/
def given : Nat → Normalizer ι → List Char
  | 0, _ => []
  | k + 1, n => n.given k ++ (n.after k).next.1.toList

theorem exists_pulled_pull (n : Normalizer ι) :
    ∃ k ≤ 1, n.pull.2.input = CharStream.pulled k n.input := by
  obtain ⟨input, pending⟩ := n
  cases pending with
  | none => exact ⟨1, Nat.le_refl 1, rfl⟩
  | some c => exact ⟨0, Nat.zero_le 1, rfl⟩

theorem input_finishReturn (n : Normalizer ι) :
    n.finishReturn.input = CharStream.pulled 1 n.input := by
  rw [finishReturn, CharStream.pulled, CharStream.pulled]
  split
  · rename_i hn
    rw [hn]
  · rename_i hn
    rw [hn]

/-- A call pulls twice at most. -/
theorem exists_pulled_next (n : Normalizer ι) :
    ∃ k ≤ 2, n.next.2.input = CharStream.pulled k n.input := by
  obtain ⟨k, hk, hpull⟩ := n.exists_pulled_pull
  have hless : k ≤ 2 := Nat.le_succ_of_le hk
  rw [next]
  cases hp : n.pull with
  | mk c? p =>
    rw [hp] at hpull
    cases c? with
    | none => exact ⟨k, hless, hpull⟩
    | some c =>
      dsimp only
      split
      · refine ⟨k + 1, Nat.succ_le_succ hk, ?_⟩
        rw [input_finishReturn, hpull, CharStream.pulled_add]
      · split
        · exact ⟨k, hless, hpull⟩
        · exact ⟨k, hless, hpull⟩

theorem exists_pulled_after (n : Normalizer ι) (calls : Nat) :
    ∃ k ≤ 2 * calls, (n.after calls).input = CharStream.pulled k n.input := by
  induction calls with
  | zero => exact ⟨0, Nat.le_refl 0, rfl⟩
  | succ calls ih =>
    obtain ⟨k, hk, hafter⟩ := ih
    obtain ⟨more, hmore, hnext⟩ := (n.after calls).exists_pulled_next
    refine ⟨k + more, Nat.add_le_add hk hmore, ?_⟩
    rw [after, hnext, hafter, CharStream.pulled_add]

theorem unrecorded_after (n : Normalizer (Recorded ι)) (calls : Nat) :
    n.unrecorded.after calls = (n.after calls).unrecorded ∧
      n.unrecorded.given calls = n.given calls := by
  induction calls with
  | zero => exact ⟨rfl, rfl⟩
  | succ calls ih =>
    rw [after, given, ih.1, ih.2, next_unrecorded]
    exact ⟨rfl, rfl⟩

theorem gave_after {n : Normalizer (Recorded ι)} {out : List Char} (h : n.Gave out)
    (calls : Nat) : (n.after calls).Gave (out ++ n.given calls) := by
  induction calls with
  | zero =>
    rw [given, List.append_nil]
    exact h
  | succ calls ih =>
    rw [given, ← List.append_assoc]
    exact ih.next

/-- How the code points that so many calls give account for the items that were pulled for them:
they are the items that count, normalized, and those are all of them or all but the last. -/
structure Accounts (input : ι) (calls counted pulled : Nat) : Prop where
  stream : ((ofStream input).after calls).input = CharStream.pulled pulled input
  counted_le : counted ≤ pulled
  /-- What was pulled last may be held back, and nothing else. -/
  pulled_le : pulled ≤ counted + 1
  pulled_le_calls : pulled ≤ 2 * calls
  given : (ofStream input).given calls = normalizeEach (CharStream.items counted input)

theorem exists_accounts (input : ι) (calls : Nat) :
    ∃ counted pulled, Accounts input calls counted pulled := by
  let recording := ofStream (Recorded.ofStream input)
  obtain ⟨hafter, hgiven⟩ := unrecorded_after recording calls
  have hgave : (recording.after calls).Gave (recording.given calls) :=
    gave_after (gave_ofStream input) calls
  obtain ⟨pulled, hcalls, hinput⟩ := recording.exists_pulled_after calls
  have hinput : (recording.after calls).input =
      ⟨CharStream.pulled pulled input, CharStream.items pulled input⟩ :=
    hinput.trans (CharStream.pulled_recorded pulled input)
  have hstream : ((ofStream input).after calls).input = CharStream.pulled pulled input := by
    change (recording.unrecorded.after calls).input = _
    rw [hafter, unrecorded, hinput]
  have hgiven : (ofStream input).given calls = recording.given calls := hgiven
  rw [← hgiven] at hgave
  generalize recording.after calls = n at hgave hinput
  generalize hout : (ofStream input).given calls = out at hgave
  cases hgave with
  | level =>
    obtain ⟨-, rfl⟩ := Recorded.mk.inj hinput
    exact ⟨pulled, pulled, hstream, Nat.le_refl _, Nat.le_succ _, hcalls, hout⟩
  | behind =>
    obtain ⟨-, hanswers⟩ := Recorded.mk.inj hinput
    cases pulled with
    | zero =>
      rw [CharStream.items] at hanswers
      exact absurd hanswers (List.concat_ne_nil _ _)
    | succ counted =>
      rw [CharStream.items] at hanswers
      obtain ⟨rfl, -⟩ := List.append_inj' hanswers rfl
      exact ⟨counted, counted + 1, hstream, Nat.le_succ _, Nat.le_refl _, hcalls, hout⟩

/-- However much of the stream is looked at, what was given is the beginning of it, normalized. -/
theorem Accounts.isPrefix {input : ι} {calls counted pulled : Nat}
    (h : Accounts input calls counted pulled) {n : Nat} (hn : counted ≤ n) :
    (ofStream input).given calls <+: normalizeEach (CharStream.items n input) := by
  rw [h.given]
  exact normalizeEach_isPrefix (CharStream.items_isPrefix hn input)

end LineEnding.Normalizer

namespace LineEnding

/-- A normalized text has each CR LF replaced by LF, then each CR that is left and each FF, which is
what a normalizer over it gives; nothing is left to normalize. Two texts are normalized apart, but
for a CR and its LF on the two sides, which are one LF and not two. What a normalizer over any
stream has given is the beginning of the stream, normalized between its ends, and at most one item
that was pulled does not count yet. An iterator that never comes to its last end is seen, by so many
calls, as the list of its first answers: twice as many answers as calls are enough. -/
theorem line_endings_accounted :
    (∀ cs, normalize cs = replaced cs ∧ CharStream.drain (Normalizer.ofStream cs) = normalize cs ∧
      (∀ c ∈ normalize cs, c ≠ '\r' ∧ c ≠ '\x0c') ∧ normalize (normalize cs) = normalize cs) ∧
    (∀ cs more : List Char, (cs.getLast? = some '\r' → more.head? ≠ some '\n') →
      normalize (cs ++ more) = normalize cs ++ normalize more) ∧
    (∀ cs more : List Char, cs.getLast? = some '\r' →
      normalize cs ++ normalize ('\n' :: more) = normalize cs ++ '\n' :: normalize more ∧
      normalize (cs ++ '\n' :: more) = normalize cs ++ normalize more) ∧
    (∀ (ι : Type) [CharStream ι] (input : ι) (calls : Nat), ∃ counted pulled,
      Normalizer.Accounts input calls counted pulled ∧
      ∀ n, counted ≤ n →
        (Normalizer.ofStream input).given calls <+: normalizeEach (CharStream.items n input)) ∧
    ∀ (answer : Nat → Option Char) (calls bound : Nat), 2 * calls ≤ bound → ∃ counted pulled,
      Normalizer.Accounts (CharStream.firstAnswers answer bound) calls counted pulled ∧
      (Normalizer.ofStream (CharStream.firstAnswers answer bound)).given calls =
        normalizeEach (CharStream.firstAnswers answer counted) ∧
      ∀ n, counted ≤ n →
        (Normalizer.ofStream (CharStream.firstAnswers answer bound)).given calls <+:
          normalizeEach (CharStream.firstAnswers answer n) := by
  refine ⟨fun cs => ?_, fun cs more => normalize_append_of_seam, fun cs more h => ?_,
    fun ι _ input calls => ?_, fun answer calls bound hbound => ?_⟩
  · have hclean : ∀ c ∈ normalize cs, c ≠ '\r' ∧ c ≠ '\x0c' := fun c => ne_of_mem_normalize
    refine ⟨normalize_eq_replaced cs, ?_, hclean, normalize_eq_self hclean⟩
    rw [Normalizer.drain_eq_rest, Normalizer.rest, Normalizer.raw, Normalizer.ofStream,
      Option.toList_none, List.nil_append, CharStream.drain_list]
  · have hnewline : normalize ('\n' :: more) = '\n' :: normalize more :=
      normalize_cons (by decide) (by decide) more
    exact ⟨by rw [hnewline], normalize_append_newline h more⟩
  · obtain ⟨counted, pulled, haccounts⟩ := Normalizer.exists_accounts input calls
    exact ⟨counted, pulled, haccounts, fun n hn => haccounts.isPrefix hn⟩
  · obtain ⟨counted, pulled, haccounts⟩ :=
      Normalizer.exists_accounts (CharStream.firstAnswers answer bound) calls
    have hcounted : counted ≤ bound :=
      Nat.le_trans haccounts.counted_le (Nat.le_trans haccounts.pulled_le_calls hbound)
    have hgiven := haccounts.given
    rw [CharStream.items_firstAnswers answer hcounted] at hgiven
    refine ⟨counted, pulled, haccounts, hgiven, fun n hn => ?_⟩
    rw [hgiven]
    exact normalizeEach_isPrefix (CharStream.firstAnswers_isPrefix answer hn)

end LineEnding
end Stylesheet
