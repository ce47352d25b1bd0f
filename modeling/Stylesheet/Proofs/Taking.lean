import Stylesheet.Proofs.CursorScan
import Stylesheet.Proofs.Extents

/-!
# What scans take

`Takes scan taken rest answer` says what a scan does in front of a text: it takes `taken`, leaves
`rest` and gives the answer. There is a rule for each combinator, and from them a lemma for each
judgement of the grammar. Main statements: the scans for escapes, names and numbers take what the
grammar says, and what announces them is answered as a pattern says.
-/
namespace Stylesheet.Cursor

open Scan CodePoint Grammar

variable {α β : Type}

/-- In front of `rest`, the scan takes `taken` and gives the answer. -/
def Takes (scan : Scan Cursor α) (taken rest : List Char) (answer : α) : Prop :=
  ∀ c : Cursor, c.ahead = taken ++ rest → scan c = (answer, c.skip taken.length)

namespace Takes

variable {scan : Scan Cursor α} {next : α → Scan Cursor β} {w v rest : List Char} {a : α}
  {b : β}

theorem pure (a : α) (rest : List Char) : Takes (Pure.pure a) [] rest a := by
  intro c _
  simp

theorem bind (h : Takes scan w (v ++ rest) a) (hn : Takes (next a) v rest b) :
    Takes (scan >>= next) (w ++ v) rest b := by
  intro c hc
  rw [List.append_assoc] at hc
  have hahead : (c.skip w.length).ahead = v ++ rest := by simp [hc]
  rw [bind_apply, h c hc, hn _ hahead, skip_skip, List.length_append]

theorem nothing_bind (h : Takes scan [] (w ++ rest) a) (hn : Takes (next a) w rest b) :
    Takes (scan >>= next) w rest b :=
  bind (w := []) h hn

theorem one_bind {x : Char} (h : Takes scan [x] (w ++ rest) a) (hn : Takes (next a) w rest b) :
    Takes (scan >>= next) (x :: w) rest b :=
  bind (w := [x]) h hn

/-- What comes after takes nothing more. -/
theorem answer (h : Takes scan w rest a) (hn : Takes (next a) [] rest b) :
    Takes (scan >>= next) w rest b := by
  have hbind := bind (v := []) h hn
  rwa [List.append_nil] at hbind

theorem peek_bind {next : Option Char → Scan Cursor β}
    (h : Takes (next (w ++ rest).head?) w rest b) :
    Takes (Scan.peek >>= next) w rest b := by
  intro c hc
  rw [bind_apply, scan_peek, hc]
  exact h c hc

theorem consume_bind {x : Char} {next : Option Char → Scan Cursor β}
    (h : Takes (next (some x)) w rest b) :
    Takes (Scan.consume >>= next) (x :: w) rest b := by
  have hconsume : Takes Scan.consume [x] (w ++ rest) (some x) := fun c hc => scan_consume hc
  exact hconsume.bind h

theorem accept {p : Char → Bool} {x : Char} (hx : p x = true) (rest : List Char) :
    Takes (Scan.accept p) [x] rest true := by
  intro c hc
  rw [accept_cons hc, if_pos hx]
  rfl

theorem accept_none {p : Char → Bool} (h : (Pattern.one p).fits rest = false) :
    Takes (Scan.accept p) [] rest false := by
  intro c hc
  rw [Pattern.fits_one_eq] at h
  rw [List.nil_append] at hc
  rw [accept_eq, hc, h]
  simp

theorem acceptWhile {p : Char → Bool} (h : Run p w rest) :
    Takes (Scan.acceptWhile p) w rest w.length := by
  intro c hc
  rw [acceptWhile_eq, hc, List.takeWhile_append_of_pos h.all, Pattern.takeWhile_eq_nil h.stops,
    List.append_nil]

theorem acceptWhile_none {p : Char → Bool} (h : (Pattern.one p).fits rest = false) :
    Takes (Scan.acceptWhile p) [] rest 0 :=
  .acceptWhile ⟨fun _ hc => absurd hc List.not_mem_nil, h⟩

theorem kept {keep : α → Bool} (h : Takes scan w rest a) (hk : keep a = true) :
    Takes (keepIf keep scan) w rest a := by
  intro c hc
  have hscan := h c hc
  rw [keepIf_of_keep (by rw [hscan, hk]), hscan]

/-- What is undone need only be known by its answer. -/
theorem undone {keep : α → Bool} (hu : Uniform scan scan)
    (h : ∀ c : Cursor, c.ahead = rest → (scan c).1 = a) (hk : keep a = false) :
    Takes (keepIf keep scan) [] rest a := by
  intro c hc
  have hanswer := h c hc
  rw [Cursor.keepIf_of_not_keep hu (by rw [hanswer, hk]), hanswer]
  simp

section Loop

variable {round : β → Scan Cursor (Round β α)}
  {advances : ∀ b, Advances Round.GoesOn (round b)} {b' : β}

theorem again (h : Takes (round b) w (v ++ rest) (.again b'))
    (hi : Takes (iterate round advances b') v rest a) :
    Takes (iterate round advances b) (w ++ v) rest a := by
  intro c hc
  rw [List.append_assoc] at hc
  have hahead : (c.skip w.length).ahead = v ++ rest := by simp [hc]
  rw [iterate_eq, h c hc]
  simp only [hi _ hahead, skip_skip, List.length_append]

theorem finish (h : Takes (round b) w rest (.finish a)) :
    Takes (iterate round advances b) w rest a := by
  intro c hc
  rw [iterate_eq, h c hc]

end Loop

/-- In front of a text, a scan takes one thing only. -/
theorem unique {w' rest' : List Char} {a' : α} (h : Takes scan w rest a)
    (h' : Takes scan w' rest' a') (heq : w ++ rest = w' ++ rest') :
    w = w' ∧ rest = rest' ∧ a = a' := by
  have hscan := h (ofText (w ++ rest)) rfl
  rw [h' (ofText (w ++ rest)) heq, Prod.mk.injEq] at hscan
  obtain ⟨hanswer, hskip⟩ := hscan
  have hindex : min (0 + w'.length) (w ++ rest).length = min (0 + w.length) (w ++ rest).length :=
    congrArg Cursor.index hskip
  have hlength : w.length = w'.length := by
    have hlengths := congrArg List.length heq
    simp only [List.length_append] at hlengths hindex
    omega
  obtain ⟨hw, hrest⟩ := List.append_inj heq hlength
  exact ⟨hw, hrest, hanswer.symm⟩

end Takes

theorem iterate_congr {round : β → Scan Cursor (Round β α)}
    {advances : ∀ b, Advances Round.GoesOn (round b)} {b : β} {c d : Cursor}
    (h : round b c = round b d) : iterate round advances b c = iterate round advances b d := by
  rw [iterate_eq, h]
  exact (iterate_eq round advances b d).symm

/-! ## Escapes and names -/

section Grammar

variable {taken rest : List Char}

theorem takes_optional {p : Char → Bool} (h : Optional p taken rest) :
    ∃ b, Takes (Scan.accept p) taken rest b := by
  cases h with
  | taken h => exact ⟨true, .accept h rest⟩
  | absent h => exact ⟨false, .accept_none h⟩

theorem takes_acceptUpTo {p : Char → Bool} {n : Nat} (hp : ∀ c ∈ taken, p c = true)
    (hle : taken.length ≤ n) (hstop : taken.length < n → (Pattern.one p).fits rest = false) :
    Takes (Scan.acceptUpTo p n) taken rest () := by
  induction n generalizing taken with
  | zero =>
    obtain rfl := List.length_eq_zero_iff.mp (Nat.le_zero.mp hle)
    exact .pure () rest
  | succ n ih =>
    cases taken with
    | nil =>
      have hnone := hstop (Nat.succ_pos n)
      exact .nothing_bind (.accept_none hnone) (.pure () rest)
    | cons x taken =>
      have hrest : Takes (Scan.acceptUpTo p n) taken rest () := by
        apply ih (fun c hc => hp c (List.mem_cons_of_mem x hc)) (Nat.le_of_succ_le_succ hle)
        exact fun hlt => hstop (Nat.succ_lt_succ hlt)
      exact .one_bind (.accept (hp x List.mem_cons_self) _) hrest

theorem takes_escapeBody (h : EscapeBody taken rest) : Takes Scan.escapeBody taken rest true := by
  refine .peek_bind ?_
  cases h with
  | @plain c hn hx =>
    simp only [List.singleton_append, List.head?_cons, hn]
    refine .consume_bind ?_
    simp only [hx]
    exact .pure true rest
  | @hex digits space _ hd hne hle hstop hs =>
    cases digits with
    | nil => exact absurd rfl hne
    | cons x digits =>
      have hx := hd x List.mem_cons_self
      have hn := isNewline_of_class hx (by decide) (by decide) (by decide)
      simp only [List.cons_append, List.head?_cons, hn]
      refine .consume_bind ?_
      simp only [hx]
      obtain ⟨b, hspace⟩ := takes_optional hs
      refine .bind (takes_acceptUpTo ?_ ?_ ?_) (.answer hspace (.pure true rest))
      · exact fun c hc => hd c (List.mem_cons_of_mem x hc)
      · exact Nat.le_of_succ_le_succ hle
      · exact fun hlt => hstop (Nat.succ_lt_succ hlt)

/-- Nothing can be escaped at the end of a line or of the input. -/
theorem takes_escapeBody_none (h : (Pattern.one (!isNewline ·)).fits rest = false) :
    Takes Scan.escapeBody [] rest false := by
  refine .peek_bind ?_
  cases rest with
  | nil => exact .pure false []
  | cons x rest =>
    have hn : isNewline x = true := by simpa using h
    simp only [List.nil_append, List.head?_cons, hn, if_true]
    exact .pure false _

theorem answer_escapeBody (c : Cursor) :
    (Scan.escapeBody c).1 = (Pattern.one (!isNewline ·)).fits c.ahead := by
  rw [Scan.escapeBody, bind_apply, scan_peek]
  cases c.ahead with
  | nil => rfl
  | cons x rest =>
    rw [Pattern.fits_one_cons]
    cases hn : isNewline x <;> cases hx : isHexDigit x <;> simp [hn, hx]

theorem takes_escape (h : EscapeBody taken rest) :
    Takes Scan.escape ('\\' :: taken) rest true :=
  .one_bind (.accept (by decide) _) (takes_escapeBody h)

theorem answer_escape (c : Cursor) : (Scan.escape c).1 = Pattern.escape.fits c.ahead := by
  rw [Scan.escape, bind_apply, Scan.acceptChar]
  cases h : c.ahead with
  | nil => rw [accept_nil h]; rfl
  | cons x rest =>
    rw [accept_cons h, Pattern.escape, Pattern.fits_after_cons]
    by_cases hx : x = '\\'
    · simp [hx, answer_escapeBody, h]
    · simp [hx]

theorem answer_nameUnit (c : Cursor) :
    (Scan.nameUnit c).1 = Pattern.nameUnit.fits c.ahead := by
  rw [Scan.nameUnit, bind_apply, Pattern.nameUnit, Pattern.fits_either]
  cases h : c.ahead with
  | nil => simp [accept_nil h, answer_escape, h]
  | cons x rest => cases hx : isNameChar x <;> simp [accept_cons h, hx, answer_escape, h]

theorem takes_nothing_of_attempt {scan : Scan Cursor Bool} {pattern : Pattern}
    (hu : Uniform scan scan) (h : ∀ c : Cursor, (scan c).1 = pattern.fits c.ahead)
    (hrest : pattern.fits rest = false) : Takes (Scan.attempt scan) [] rest false :=
  .undone hu (fun c hc => by rw [h, hc, hrest]) rfl

theorem takes_name (h : Name taken rest) : Takes Scan.name taken rest () := by
  induction h with
  | @stop rest h =>
    rw [Pattern.nameUnit, Pattern.fits_either, Bool.or_eq_false_iff] at h
    obtain ⟨hchar, hescape⟩ := h
    refine .finish (.nothing_bind (.acceptWhile_none hchar) ?_)
    have hattempt := takes_nothing_of_attempt .escape answer_escape hescape
    exact .nothing_bind hattempt (.pure _ rest)
  | @char x taken rest hx _ ih =>
    -- The first round takes `x` and what the first round behind it takes.
    intro c hc
    have hahead : (c.skip 1).ahead = taken ++ rest := by simp [hc]
    have hround : Scan.nameRun c = Scan.nameRun (c.skip 1) := by
      simp only [Scan.nameRun, bind_apply, acceptWhile_eq, hahead, hc, List.cons_append,
        List.takeWhile_cons_of_pos hx, List.length_cons, skip_skip, Nat.add_comm 1]
    have hname : Scan.name c = Scan.name (c.skip 1) := by
      exact iterate_congr hround
    rw [hname, ih _ hahead, skip_skip, List.length_cons, Nat.add_comm]
  | @escape body taken rest he _ ih =>
    have hstops : (Pattern.one isNameChar).fits ('\\' :: (body ++ (taken ++ rest))) = false := by
      rw [Pattern.fits_one_cons]
      decide
    have hround : Takes Scan.nameRun ('\\' :: body) (taken ++ rest) (.again ()) := by
      refine .nothing_bind (.acceptWhile_none hstops) ?_
      exact .answer (.kept (takes_escape he) rfl) (.pure _ _)
    exact .again (w := '\\' :: body) hround ih

/-- A name that goes on at all begins with a step of it. -/
theorem exists_nameUnit (h : Name taken rest)
    (hfits : Pattern.nameUnit.fits (taken ++ rest) = true) :
    ∃ unit more, taken = unit ++ more ∧ Takes Scan.nameUnit unit (more ++ rest) true := by
  cases h with
  | stop hstop =>
    rw [List.nil_append, hstop] at hfits
    contradiction
  | @char x more _ hx h =>
    exact ⟨[x], more, rfl, .answer (.accept hx _) (.pure true _)⟩
  | @escape body more _ he h =>
    have hstops : (Pattern.one isNameChar).fits ('\\' :: body ++ (more ++ rest)) = false := by
      rw [List.cons_append, Pattern.fits_one_cons]
      decide
    exact ⟨'\\' :: body, more, rfl, .nothing_bind (.accept_none hstops) (takes_escape he)⟩

theorem takes_named (h : Name taken rest) :
    Takes (do Scan.name; return true) taken rest true :=
  .answer (takes_name h) (.pure true rest)

theorem takes_twoHyphens (rest : List Char) : Takes Scan.twoHyphens ['-', '-'] rest true :=
  .one_bind (.accept (by decide) _) (.accept (by decide) _)

/-- One hyphen at most is taken before the name-start code point or the escape. -/
theorem takes_hyphen {hyphen : List Char} (hh : hyphen = [] ∨ hyphen = ['-'])
    (hrest : (Pattern.one (· = '-')).fits rest = false) :
    Takes Scan.twoHyphens hyphen rest false := by
  obtain rfl | rfl := hh
  · exact .nothing_bind (.accept_none hrest) (.pure false rest)
  · exact .one_bind (.accept (by decide) _) (.accept_none hrest)

theorem takes_identifier (h : Identifier taken rest) :
    Takes Scan.identifier taken rest true := by
  cases h with
  | hyphens h => exact .bind (w := ['-', '-']) (takes_twoHyphens _) (takes_named h)
  | @start hyphen taken _ x hh hx h =>
    have hne : x ≠ '-' := ne_of_class hx (by decide)
    have hhyphen : (Pattern.one (· = '-')).fits (x :: (taken ++ rest)) = false := by
      simp [hne]
    refine .bind (takes_hyphen hh hhyphen) ?_
    exact .one_bind (.accept hx _) (takes_named h)
  | @escape hyphen body taken _ hh he h =>
    have hhyphen : (Pattern.one (· = '-')).fits ('\\' :: (body ++ taken) ++ rest) = false := by
      rw [List.cons_append, Pattern.fits_one_cons]
      decide
    have hstart : (Pattern.one isNameStart).fits ('\\' :: (body ++ taken) ++ rest) = false := by
      rw [List.cons_append, Pattern.fits_one_cons]
      decide
    refine .bind (takes_hyphen hh hhyphen) (.nothing_bind (.accept_none hstart) ?_)
    exact .bind (w := '\\' :: body) (takes_escape he) (takes_named h)

/-- Behind the hyphens an identifier goes on as a name begins. -/
theorem answer_unhyphenated (c : Cursor) :
    ((do
      if ← Scan.accept isNameStart then
        Scan.name
        return true
      else if ← Scan.escape then
        Scan.name
        return true
      else return false : Scan Cursor Bool) c).1 = Pattern.nameStart.fits c.ahead := by
  rw [Pattern.nameStart, Pattern.fits_either, ← answer_escape, Pattern.fits_one_eq]
  cases hx : c.ahead.head?.any isNameStart with
  | true => simp [accept_eq, hx]
  | false => cases he : (Scan.escape c).1 <;> simp [accept_eq, hx, he]

theorem answer_identifier (c : Cursor) :
    (Scan.identifier c).1 = Pattern.identifier.fits c.ahead := by
  rw [Pattern.identifier, Pattern.fits_either, Scan.identifier, bind_apply]
  cases h : c.ahead with
  | nil =>
    have hhyphens : Scan.twoHyphens c = (false, c) := by
      simp [Scan.twoHyphens, acceptChar, accept_nil h]
    have hanswer := answer_unhyphenated c
    rw [h] at hanswer
    simpa [hhyphens] using hanswer
  | cons x rest =>
    by_cases hx : x = '-'
    · subst hx
      have hahead : (c.skip 1).ahead = rest := by simp [h]
      have hstart : Pattern.nameStart.fits ('-' :: rest) = false := by
        rw [Pattern.nameStart, Pattern.escape, Pattern.fits_either, Pattern.fits_one_cons,
          Pattern.fits_after_cons]
        rfl
      have hhyphens : Scan.twoHyphens c = Scan.acceptChar '-' (c.skip 1) := by
        simp [Scan.twoHyphens, acceptChar, accept_cons h]
      have hanswer := answer_unhyphenated (c.skip 1)
      rw [acceptChar, accept_eq, hahead] at hhyphens
      rw [hahead] at hanswer
      rw [hstart, Pattern.fits_after_cons, Pattern.hyphenated, Pattern.fits_either,
        Pattern.fits_one_eq]
      cases hy : rest.head?.any (· = '-') with
      | true => simp [hhyphens, hy]
      | false => simpa [hhyphens, hy] using hanswer
    · have hhyphens : Scan.twoHyphens c = (false, c) := by
        simp [Scan.twoHyphens, acceptChar, accept_cons h, hx]
      have hanswer := answer_unhyphenated c
      rw [h] at hanswer
      simpa [hhyphens, hx] using hanswer

/-! ## Numbers -/

theorem pointDigit_eq (cs : List Char) : pointDigit cs = Pattern.fraction.fits cs := by
  cases cs with
  | nil => rfl
  | cons x rest =>
    rw [Pattern.fraction, Pattern.fits_after_cons]
    by_cases hx : x = '.'
    · subst hx
      cases rest <;> simp [pointDigit]
    · simp [pointDigit, hx]

theorem answer_fraction_eq (c : Cursor) :
    (Scan.fraction c).1 = Pattern.fraction.fits c.ahead := by
  rw [answer_fraction, pointDigit_eq]

theorem answer_unsigned (c : Cursor) :
    ((do
      if ← Scan.accept isDigit then return true
      else if ← Scan.acceptChar '.' then Scan.accept isDigit
      else return false : Scan Cursor Bool) c).1 = Pattern.unsigned.fits c.ahead := by
  rw [Pattern.unsigned, Pattern.fits_either, ← pointDigit_eq, Pattern.fits_one_eq]
  cases hx : c.ahead.head?.any isDigit with
  | true => simp [accept_eq, hx]
  | false =>
    have hpoint : ((do if ← Scan.acceptChar '.' then Scan.accept isDigit else return false :
        Scan Cursor Bool) c).1 = pointDigit c.ahead := by
      apply answer_point c
      · intro h
        rw [accept_nil h]
      · intro y rest h
        cases hy : isDigit y <;> simp [accept_cons h, hy]
    simpa [accept_eq, hx] using hpoint

/-- A sign may come before what does not begin with a sign itself. -/
theorem answer_signed {scan : Scan Cursor Bool} {pattern : Pattern}
    (h : ∀ c : Cursor, (scan c).1 = pattern.fits c.ahead)
    (hsign : ∀ x rest, isSign x = true → pattern.fits (x :: rest) = false) (c : Cursor) :
    ((do let _ ← Scan.accept isSign; scan : Scan Cursor Bool) c).1 =
      (Pattern.signed pattern).fits c.ahead := by
  rw [Pattern.signed, Pattern.fits_either, bind_apply, h]
  cases ha : c.ahead with
  | nil => simp [accept_nil ha, ha]
  | cons x rest =>
    cases hx : isSign x with
    | true => simp [accept_cons ha, hx, ha, hsign x rest hx]
    | false => simp [accept_cons ha, hx, ha]

theorem answer_numberStart_fits (c : Cursor) :
    (Scan.numberStart c).1 = Pattern.number.fits c.ahead := by
  refine answer_signed answer_unsigned (fun x rest hx => ?_) c
  obtain rfl | rfl : x = '+' ∨ x = '-' := by simpa [isSign] using hx
  · rfl
  · rfl

theorem length_takeWhile_pos (p : Char → Bool) (cs : List Char) :
    decide (0 < (cs.takeWhile p).length) = (Pattern.one p).fits cs := by
  cases cs with
  | nil => rfl
  | cons x rest => cases hx : p x <;> simp [hx]

theorem answer_exponent (c : Cursor) :
    (Scan.exponent c).1 = Pattern.exponent.fits c.ahead := by
  rw [Pattern.exponent, Scan.exponent, bind_apply]
  cases h : c.ahead with
  | nil => rw [accept_nil h]; rfl
  | cons x rest =>
    have hanswer : ∀ d : Cursor, ((do return decide (0 < (← Scan.acceptWhile isDigit)) :
        Scan Cursor Bool) d).1 = (Pattern.one isDigit).fits d.ahead := fun d => by
      simp only [bind_apply, acceptWhile_eq, pure_apply, length_takeWhile_pos]
    have hdigits := answer_signed hanswer
      (fun y _ hy => by rw [Pattern.fits_one_cons, isDigit_of_isSign hy]) (c.skip 1)
    rw [accept_cons h, Pattern.fits_after_cons]
    cases hx : isExponentMark x with
    | true => simpa [h] using hdigits
    | false => rfl

theorem takes_fraction (h : Fraction taken rest) :
    ∃ b, Takes (Scan.attempt Scan.fraction) taken rest b := by
  cases h with
  | @taken digits _ hd hne =>
    have hpos : decide (0 < digits.length) = true := by simpa [List.length_pos_iff] using hne
    refine ⟨true, .kept (.one_bind (.accept (by decide) _) ?_) rfl⟩
    refine .answer (.acceptWhile hd) ?_
    rw [hpos]
    exact .pure true rest
  | absent h => exact ⟨false, takes_nothing_of_attempt .fraction answer_fraction_eq h⟩

theorem takes_exponent (h : Exponent taken rest) :
    ∃ b, Takes (Scan.attempt Scan.exponent) taken rest b := by
  cases h with
  | @taken mark sign digits _ hm hs hd hne =>
    have hpos : decide (0 < digits.length) = true := by simpa [List.length_pos_iff] using hne
    obtain ⟨b, hsign⟩ := takes_optional hs
    refine ⟨true, .kept (.one_bind (.accept hm _) (.bind hsign ?_)) rfl⟩
    refine .answer (.acceptWhile hd) ?_
    rw [hpos]
    exact .pure true rest
  | absent h => exact ⟨false, takes_nothing_of_attempt .exponent answer_exponent h⟩

theorem takes_number (h : Number taken rest) : Takes Scan.number taken rest () := by
  cases h with
  | @intro sign whole fraction exponent _ hs hw hf he hne =>
    simp only [← List.append_assoc] at hs hw
    obtain ⟨b, hsign⟩ := takes_optional hs
    obtain ⟨b', hfraction⟩ := takes_fraction hf
    obtain ⟨b'', hexponent⟩ := takes_exponent he
    have hwhole := Takes.acceptWhile hw
    simp only [List.append_assoc] at hsign hwhole hfraction
    refine .bind (a := b) ?_ (.bind (a := whole.length) ?_ (.bind (a := b') ?_ ?_))
    · simpa using hsign
    · simpa using hwhole
    · exact hfraction
    · exact .answer hexponent (.pure () rest)

theorem takes_numeric {kind : Kind} (h : Numeric kind taken rest) :
    Takes Scan.numeric taken rest kind := by
  cases h with
  | percentage h =>
    refine .bind (takes_number h) ?_
    exact .one_bind (.accept (by decide) rest) (.pure _ rest)
  | @dimension _ unit _ h hu =>
    have hpercent : (Pattern.one (· = '%')).fits (unit ++ rest) = false :=
      Pattern.fits_one_of_identifier hu.fits (by decide) (by decide) (by decide)
    refine .bind (takes_number h) (.nothing_bind (.accept_none hpercent) ?_)
    exact .answer (.kept (takes_identifier hu) rfl) (.pure _ rest)
  | number h hp hi =>
    refine .answer (takes_number h) (.nothing_bind (.accept_none hp) ?_)
    have hattempt := takes_nothing_of_attempt .identifier answer_identifier hi
    exact .nothing_bind hattempt (.pure _ rest)

end Grammar
end Stylesheet.Cursor
