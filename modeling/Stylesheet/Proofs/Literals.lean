import Mathlib.Data.List.Forall2
import Stylesheet.Proofs.Routines

/-!
# Literals

A literal is consumed code point by code point, up to the first one that differs, and then all of it
is undone. Main statement: over a fused stream a literal is consumed as a whole if it stands there,
in whatever case of its letters it is to be found, and otherwise nothing has happened.
-/
namespace Stylesheet.BufferedSource

open Scan CodePoint

variable {ι : Type} [CharStream ι] {s s' : BufferedSource ι}

/-- The scan says whether so many code points that fit come next. If so, it goes over them, and if
not, it has done nothing. -/
structure AllOrNothing (scan : Scan (BufferedSource ι) Bool) (s : BufferedSource ι) (n : Nat)
    (fits : Prop) : Prop where
  answer : (scan s).1 = true ↔ fits
  length_le : (scan s).1 = true → n ≤ s.upcoming.length
  upcoming : (scan s).1 = true → (scan s).2.upcoming = s.upcoming.drop n
  position : (scan s).1 = true → (scan s).2.position =
    ⟨s.offset + utf8Length (s.upcoming.take n), s.location.advanceAll (s.upcoming.take n)⟩
  span : (scan s).1 = true →
    (scan s).2.takeText.1 = s.takeText.1 ++ String.ofList (s.upcoming.take n)
  undone : (scan s).1 = false → Undone s (scan s).2

/-- The source is back where it stood. -/
theorem AllOrNothing.nothing {scan : Scan (BufferedSource ι) Bool} {n : Nat} {fits : Prop}
    (ha : (scan s).1 = false) (hf : ¬ fits) (hu : Undone s (scan s).2) :
    AllOrNothing scan s n fits := by
  have hne : (scan s).1 ≠ true := by
    rw [ha]
    exact Bool.false_ne_true
  exact ⟨iff_of_false hne hf, fun h => absurd h hne, fun h => absurd h hne,
    fun h => absurd h hne, fun h => absurd h hne, fun _ => hu⟩

variable [CharStream.Fused ι]

/-! ## One code point -/

theorem accept_eq_false {p : Char → Bool} (h : s.upcoming.head?.any p = false) :
    (accept p s).1 = false := by
  have hpeek : (Scan.peek s).1 = s.upcoming.head? := s.fst_peek
  rw [accept, bind_apply, hpeek]
  cases hc : s.upcoming.head? with
  | none => rfl
  | some c =>
    rw [hc, Option.any_some] at h
    simp only [h, Bool.false_eq_true, if_false]
    rfl

theorem accept_cons {p : Char → Bool} {c : Char} {rest : List Char}
    (hs : s.upcoming = c :: rest) (hp : p c = true) :
    (accept p s).1 = true ∧ Strides [c] s (accept p s).2 := by
  have hpeek : (Scan.peek s).1 = some c := by
    rw [show (Scan.peek s).1 = s.peek.1 from rfl, fst_peek, hs, List.head?_cons]
  have hlooked : Strides [] s (Scan.peek s).2 := s.strides_peek
  have hupcoming := hlooked.upcoming_eq
  have hconsumed := (Scan.peek s).2.strides_consume
  rw [fst_consume, fst_peek, ← List.nil_append (Scan.peek s).2.upcoming, ← hupcoming, hs,
    List.head?_cons] at hconsumed
  rw [accept, bind_apply, hpeek]
  simp only [hp, if_true]
  exact ⟨rfl, hlooked.trans hconsumed⟩

/-! ## One code point after another -/

/-- The source goes over the code points as long as they are the same as what is expected. -/
theorem strides_acceptEach {same : Char → Char → Bool} {expected own rest : List Char}
    (hs : s.upcoming = own ++ rest) (h : List.Forall₂ (fun a b => same a b = true) own expected) :
    (acceptEach same expected s).1 = true ∧ Strides own s (acceptEach same expected s).2 := by
  induction h generalizing s with
  | nil => exact ⟨rfl, .refl s⟩
  | @cons a b own expected hsame _ ih =>
    obtain ⟨haccept, hfirst⟩ := accept_cons (p := (same · b)) hs hsame
    have hrest := hfirst.upcoming_eq
    rw [hs, List.singleton_append, List.cons_append] at hrest
    obtain ⟨hanswer, hmore⟩ := ih (List.cons.inj hrest).2.symm
    rw [acceptEach, bind_apply, haccept]
    exact ⟨hanswer, hfirst.trans hmore⟩

/-- It comes to the end of what is expected only over code points that are all the same. -/
theorem exists_forall₂_of_acceptEach {same : Char → Char → Bool} {expected : List Char}
    (h : (acceptEach same expected s).1 = true) :
    ∃ own rest, s.upcoming = own ++ rest ∧
      List.Forall₂ (fun a b => same a b = true) own expected := by
  induction expected generalizing s with
  | nil => exact ⟨[], s.upcoming, rfl, .nil⟩
  | cons b expected ih =>
    rw [acceptEach, bind_apply] at h
    cases hany : s.upcoming.head?.any (same · b) with
    | false =>
      rw [accept_eq_false hany] at h
      contradiction
    | true =>
      obtain ⟨a, hhead, hsame⟩ := (Option.any_eq_true _ _).mp hany
      obtain ⟨tail, hs⟩ := List.head?_eq_some_iff.mp hhead
      obtain ⟨haccept, hfirst⟩ := accept_cons (p := (same · b)) hs hsame
      have hrest := hfirst.upcoming_eq
      rw [hs, List.singleton_append] at hrest
      rw [haccept] at h
      obtain ⟨own, rest, hown, hall⟩ := ih h
      refine ⟨a :: own, rest, ?_, .cons hsame hall⟩
      rw [hs, (List.cons.inj hrest).2, hown, List.cons_append]

/-! ## All of it -/

/-- What is expected stands there. -/
theorem AllOrNothing.all {scan : Scan (BufferedSource ι) Bool} {n : Nat} {fits : Prop}
    (ha : (scan s).1 = true) (hf : fits) (hn : n ≤ s.upcoming.length)
    (hs : Strides (s.upcoming.take n) s (scan s).2) : AllOrNothing scan s n fits where
  answer := iff_of_true ha hf
  length_le _ := hn
  upcoming _ := by
    have hupcoming := hs.upcoming_eq
    have hdivided := List.take_append_drop n s.upcoming
    exact List.append_cancel_left (hupcoming.symm.trans hdivided.symm)
  position _ := hs.position_eq
  span _ := by
    rw [hs.text_takeText, String.ofList_append]
    rfl
  undone h := by
    rw [ha] at h
    contradiction

theorem allOrNothing_acceptEach (s : BufferedSource ι) (same : Char → Char → Bool)
    (expected : List Char) :
    AllOrNothing (attempt (acceptEach same expected)) s expected.length
      (List.Forall₂ (fun a b => same a b = true) (s.upcoming.take expected.length) expected) := by
  cases hanswer : (acceptEach same expected s).1 with
  | true =>
    obtain ⟨own, rest, hs, hall⟩ := exists_forall₂_of_acceptEach hanswer
    obtain ⟨-, hstrides⟩ := strides_acceptEach hs hall
    have hlength := hall.length_eq
    have htake : s.upcoming.take expected.length = own := by rw [hs, ← hlength, List.take_left]
    have hrun : attempt (acceptEach same expected) s = acceptEach same expected s :=
      keepIf_of_keep hanswer
    apply AllOrNothing.all
    · rw [hrun, hanswer]
    · rwa [htake]
    · rw [hs, List.length_append]
      omega
    · rwa [hrun, htake]
  | false =>
    have hrun : attempt (acceptEach same expected) s =
        (false, (acceptEach same expected s).2.reset s.position) := by
      rw [attempt, keepIf_of_not_keep hanswer, hanswer]
      rfl
    obtain ⟨consumed, hstrides⟩ := exists_strides (.acceptEach same expected) s
    apply AllOrNothing.nothing
    · rw [hrun]
    · intro hall
      have hdivided := (List.take_append_drop expected.length s.upcoming).symm
      rw [(strides_acceptEach hdivided hall).1] at hanswer
      contradiction
    · rw [hrun]
      exact hstrides.twin_reset.undone

theorem forall₂_eq_iff {cs expected : List Char} :
    List.Forall₂ (fun a b => decide (a = b) = true) (cs.take expected.length) expected ↔
      expected <+: cs := by
  simp only [decide_eq_true_eq, List.forall₂_eq_eq_eq]
  rw [List.prefix_iff_eq_take]
  exact eq_comm

theorem forall₂_sameIgnoringCase_iff {cs expected : List Char} :
    List.Forall₂ (fun a b => sameIgnoringCase a b = true) cs expected ↔
      cs.map Char.toLower = expected.map Char.toLower := by
  rw [← List.forall₂_eq_eq_eq, List.forall₂_map_left_iff, List.forall₂_map_right_iff]
  simp only [sameIgnoringCase, decide_eq_true_eq]

/-- A literal is consumed if it comes next, and one in any case of its letters if what comes next is
the same in lower case. Otherwise nothing is consumed, and nothing else can be noticed. -/
theorem literals_all_or_nothing (s : BufferedSource ι) (text : String) :
    AllOrNothing (acceptText text) s text.toList.length (text.toList <+: s.upcoming) ∧
      AllOrNothing (acceptTextIgnoringCase text) s text.toList.length
        ((s.upcoming.take text.toList.length).map Char.toLower =
          text.toList.map Char.toLower) := by
  have hexact := allOrNothing_acceptEach s (fun a b => decide (a = b)) text.toList
  have hfolded := allOrNothing_acceptEach s sameIgnoringCase text.toList
  rw [forall₂_eq_iff] at hexact
  rw [forall₂_sameIgnoringCase_iff] at hfolded
  exact ⟨hexact, hfolded⟩

/-- A literal with a line ending in it stands there in another case, and is not consumed as it is
written. -/
theorem literals_all_or_nothing_lineEnding :
    (acceptTextIgnoringCase "a\nB" (ofString "A\r\nb!")).2.position = ⟨3, ⟨2, 2⟩⟩ ∧
      (acceptTextIgnoringCase "a\nB" (ofString "A\r\nb!")).2.takeText.1 = "A\nb" ∧
      Undone (ofString "A\r\nb!") (acceptText "A\nB" (ofString "A\r\nb!")).2 := by
  obtain ⟨-, hfolded⟩ := literals_all_or_nothing (ofString "A\r\nb!") "a\nB"
  obtain ⟨hexact, -⟩ := literals_all_or_nothing (ofString "A\r\nb!") "A\nB"
  have hfits : (acceptTextIgnoringCase "a\nB" (ofString "A\r\nb!")).1 = true := by decide +kernel
  have hdiffers : (acceptText "A\nB" (ofString "A\r\nb!")).1 = false := by decide +kernel
  refine ⟨?_, ?_, hexact.undone hdiffers⟩
  · rw [hfolded.position hfits]
    decide +kernel
  · rw [hfolded.span hfits]
    decide +kernel

end Stylesheet.BufferedSource
