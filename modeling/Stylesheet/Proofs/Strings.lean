import Stylesheet.Proofs.Drain
import Stylesheet.Proofs.Pieces
import Stylesheet.Proofs.Starts

/-!
# Strings

A string is read unit by unit: an escaped line ending, an escape, or a code point that stands for
itself. Where no unit fits, the quote, a line ending, a backslash or the end of the input says what
the string is. Main statement: these are the only ways in which a string ends, and each of them
decides the token and what is left behind it.
-/
namespace Stylesheet

open CodePoint Grammar

/-- A code point that stands for itself in a string. -/
def isStringChar (quote c : Char) : Bool := c ≠ quote && c ≠ '\\' && c ≠ '\n'

/-- The unit of a string that a text begins with, if one fits. -/
def stringUnit? (quote : Char) (cs : List Char) : Option (List Char) :=
  if ['\\', '\n'] <+: cs then some ['\\', '\n']
  else if Pattern.escape.fits cs then some ('\\' :: escaped cs.tail)
  else if (Pattern.one (isStringChar quote)).fits cs then some (cs.take 1)
  else none

variable {quote c : Char} {body unit taken rest : List Char}

/-! ## Units -/

theorem stringUnit?_lineEnding (quote : Char) (rest : List Char) :
    stringUnit? quote (['\\', '\n'] ++ rest) = some ['\\', '\n'] :=
  if_pos (List.prefix_append ['\\', '\n'] rest)

theorem stringUnit?_escape (quote : Char) (h : EscapeBody body rest) :
    stringUnit? quote ('\\' :: body ++ rest) = some ('\\' :: body) := by
  obtain ⟨x, tail, hbody, hx⟩ := h.exists_cons
  have hline : ¬ ['\\', '\n'] <+: '\\' :: (body ++ rest) := by
    rw [hbody]
    rintro hline
    obtain ⟨-, hline⟩ := List.cons_prefix_cons.mp hline
    obtain ⟨rfl, -⟩ := List.cons_prefix_cons.mp hline
    contradiction
  have hfits : Pattern.escape.fits ('\\' :: (body ++ rest)) = true := by
    simp [Pattern.escape, hbody, hx]
  rw [List.cons_append, stringUnit?, if_neg hline, if_pos hfits, List.tail_cons, escaped_eq h]

theorem stringUnit?_char (h : isStringChar quote c = true) (rest : List Char) :
    stringUnit? quote ([c] ++ rest) = some [c] := by
  have hb : c ≠ '\\' := by
    rintro rfl
    simp [isStringChar] at h
  have hline : ¬ ['\\', '\n'] <+: c :: rest := fun hline =>
    hb (List.cons_prefix_cons.mp hline).1.symm
  have hescape := Bool.eq_false_iff.mp (Pattern.fits_escape_of_ne hb rest)
  rw [List.singleton_append, stringUnit?, if_neg hline, if_neg hescape, Pattern.fits_one_cons,
    if_pos h]
  rfl

/-- No unit fits where the scanner of strings stops. -/
theorem stringUnit?_of_stops (h : (Pattern.quoted quote).fits rest = false) :
    stringUnit? quote rest = none := by
  rw [Pattern.quoted, Pattern.fits_either, Bool.or_eq_false_iff] at h
  obtain ⟨hchar, hbackslash⟩ := h
  have hline : ¬ ['\\', '\n'] <+: rest := by
    rintro ⟨more, rfl⟩
    simp at hbackslash
  have hescape : ¬ Pattern.escape.fits rest = true := by
    intro hescape
    cases rest with
    | nil => contradiction
    | cons c rest =>
      rw [Pattern.escape, Pattern.fits_after_cons, Bool.and_eq_true] at hescape
      obtain ⟨hc, hbehind⟩ := hescape
      cases rest with
      | nil => contradiction
      | cons d rest =>
        rw [Pattern.fits_one_cons] at hbehind
        simp [hc, hbehind] at hbackslash
  rw [stringUnit?, if_neg hline, if_neg hescape]
  exact if_neg (Bool.eq_false_iff.mp hchar)

theorem pos_of_stringUnit? {cs : List Char} (h : stringUnit? quote cs = some unit) :
    0 < cs.length ∧ 0 < unit.length := by
  cases cs with
  | nil => contradiction
  | cons c cs =>
    refine ⟨Nat.zero_lt_succ _, ?_⟩
    unfold stringUnit? at h
    split at h
    · obtain rfl := Option.some.inj h
      exact Nat.zero_lt_succ _
    · split at h
      · obtain rfl := Option.some.inj h
        exact Nat.zero_lt_succ _
      · split at h
        · obtain rfl := Option.some.inj h
          exact Nat.zero_lt_succ _
        · contradiction

/-- The units of a string that a text begins with, as long as one fits. -/
def stringUnits (quote : Char) (cs : List Char) : List (List Char) :=
  match _h : stringUnit? quote cs with
  | none => []
  | some unit => unit :: stringUnits quote (cs.drop unit.length)
termination_by cs.length
decreasing_by
  have hpos := pos_of_stringUnit? _h
  rw [List.length_drop]
  omega

theorem stringUnits_of_none (h : stringUnit? quote rest = none) : stringUnits quote rest = [] := by
  rw [stringUnits]
  split <;> simp_all

/-- What a string holds behind its opening quote. -/
def stringContent (quote : Char) (cs : List Char) : List Char := (stringUnits quote cs).flatten

theorem stringContent_of_none (h : stringUnit? quote rest = none) :
    stringContent quote rest = [] := by
  rw [stringContent, stringUnits_of_none h]
  rfl

theorem stringContent_append (h : stringUnit? quote (unit ++ rest) = some unit) :
    stringContent quote (unit ++ rest) = unit ++ stringContent quote rest := by
  rw [stringContent, stringUnits]
  split
  · simp_all
  · rename_i other hother
    obtain rfl := Option.some.inj (h.symm.trans hother)
    rw [List.flatten_cons, List.drop_left, stringContent]

/-- What the grammar takes between the quotes of a string is what its units spell. -/
theorem Grammar.Quoted.stringContent_eq (h : Quoted quote taken rest) :
    stringContent quote (taken ++ rest) = taken := by
  induction h with
  | stop h => exact stringContent_of_none (stringUnit?_of_stops h)
  | @char c taken rest hq hb hn _ ih =>
    have hc : isStringChar quote c = true := by simp [isStringChar, hq, hb, hn]
    rw [List.cons_append, ← List.singleton_append,
      stringContent_append (stringUnit?_char hc (taken ++ rest)), ih]
    rfl
  | @lineEnding taken rest _ ih =>
    have hunit := stringUnit?_lineEnding quote (taken ++ rest)
    exact (stringContent_append hunit).trans (congrArg (['\\', '\n'] ++ ·) ih)
  | @escape body taken rest he _ ih =>
    have hunit := stringUnit?_escape quote he
    rw [List.cons_append, List.append_assoc, ← List.cons_append, stringContent_append hunit, ih]
    rfl

/-! ## Ends -/

/-- A string whose content ends in front of a text: the token it is, and what is left behind it. -/
inductive StringEnd (quote : Char) (content : List Char) : List Char → Token → List Char → Prop
  | closed (rest : List Char) : StringEnd quote content (quote :: rest)
      ⟨.string, String.ofList (quote :: (content ++ [quote]))⟩ rest
  /-- The line ending is left for the token behind the string. -/
  | lineEnding (rest : List Char) : StringEnd quote content ('\n' :: rest)
      ⟨.badString, String.ofList (quote :: content)⟩ ('\n' :: rest)
  | endOfInput : StringEnd quote content [] ⟨.badString, String.ofList (quote :: content)⟩ []
  | loneBackslash : StringEnd quote content ['\\']
      ⟨.badString, String.ofList (quote :: (content ++ ['\\']))⟩ []

namespace Tokenizer

variable {ι : Type} [CharStream ι] [CharStream.Fused ι] {t : Tokenizer (BufferedSource ι)}
  {behind content stop : List Char}

theorem Faces.hands_quoted (h : t.Faces (quote :: (content ++ stop))) (hq : isQuote quote = true)
    (hc : Quoted quote content stop)
    (hn : LineEnding.normalize (content ++ stop) = content ++ stop) :
    ∃ token rest, StringEnd quote content stop token rest ∧ t.Hands token t.blocks rest := by
  obtain rfl | ⟨rest, rfl⟩ | ⟨rest, rfl⟩ | ⟨rest, rfl, hrest⟩ := hc.end_cases
  · have h : t.Faces (quote :: content ++ []) := h
    exact ⟨_, _, .endOfInput, h.hands (.badString hq hc rfl) rfl⟩
  · have h : t.Faces (quote :: (content ++ [quote]) ++ rest) := by
      rwa [List.append_cons] at h
    exact ⟨_, _, .closed rest, h.hands (.string hq hc) rfl⟩
  · have h : t.Faces (quote :: content ++ '\n' :: rest) := h
    have hend : (Pattern.one (· ≠ '\n')).fits ('\n' :: rest) = false := by simp
    exact ⟨_, _, .lineEnding rest, h.hands (.badString hq hc hend) rfl⟩
  · -- Only CR and FF make a backslash begin nothing, and there are none.
    obtain rfl : rest = [] := by
      cases rest with
      | nil => rfl
      | cons d rest =>
        have hmem : d ∈ LineEnding.normalize (content ++ '\\' :: d :: rest) := by
          rw [hn]
          simp
        obtain ⟨hr, hf⟩ := LineEnding.ne_of_mem_normalize hmem
        obtain rfl | rfl := hrest d rfl
        · contradiction
        · contradiction
    have h : t.Faces (quote :: (content ++ ['\\']) ++ []) := by
      rwa [List.append_cons] at h
    exact ⟨_, _, .loneBackslash, h.hands (.loneBackslash hq hc) rfl⟩

/-- A string goes as far as units fit. What stands there is an end of a string, which decides the
token, and no block is opened or closed. -/
theorem nextToken_string (h : t.Faces (quote :: behind)) (hq : isQuote quote = true)
    (hn : LineEnding.normalize behind = behind) :
    ∃ stop token rest, behind = stringContent quote behind ++ stop ∧
      stringUnit? quote stop = none ∧
      StringEnd quote (stringContent quote behind) stop token rest ∧
      t.Hands token t.blocks rest := by
  obtain ⟨content, stop, rfl, hc⟩ := splits_quoted quote behind
  obtain ⟨token, rest, hend, hhands⟩ := h.hands_quoted hq hc hn
  rw [hc.stringContent_eq]
  exact ⟨stop, token, rest, rfl, stringUnit?_of_stops hc.stops, hend, hhands⟩

/-- An escaped LF and the LF behind the digits of an escape belong to a string, and the next one
ends it. -/
theorem nextToken_string_lineEnding :
    (ofString "'a\"\\\n\\66\nb\nc").Hands ⟨.badString, "'a\"\\\n\\66\nb"⟩ [] ['\n', 'c'] := by
  have hfaces : (ofString "'a\"\\\n\\66\nb\nc").Faces
      ('\'' :: "a\"\\\n\\66\nb\nc".toList) := faces_ofString _
  have hcontent : stringContent '\'' "a\"\\\n\\66\nb\nc".toList = "a\"\\\n\\66\nb".toList := by
    decide +kernel
  obtain ⟨stop, token, rest, hsplit, -, hend, hhands⟩ :=
    nextToken_string hfaces (by decide) (by decide)
  rw [hcontent] at hsplit hend
  have hsplit : "a\"\\\n\\66\nb".toList ++ ['\n', 'c'] = "a\"\\\n\\66\nb".toList ++ stop := hsplit
  obtain rfl := List.append_cancel_left hsplit
  generalize hstop : ['\n', 'c'] = stop at hend
  cases hend with
  | lineEnding =>
    obtain ⟨-, rfl⟩ := List.cons.inj hstop
    exact hhands
  | closed =>
    obtain ⟨hquote, -⟩ := List.cons.inj hstop
    contradiction
  | endOfInput | loneBackslash => contradiction

end Tokenizer
end Stylesheet
