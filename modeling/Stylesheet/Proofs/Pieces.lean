import Stylesheet.Proofs.Totality

/-!
# Pieces

A text taken apart without regard to what it says: an escape is one piece, however far it goes, and
so is every other code point. Names and unquoted URLs are said in terms of pieces. Main statements:
the pieces of a text spell it, and what the grammar takes as a name is made of the first of them.
-/
namespace Stylesheet

open CodePoint Grammar

/-- What an escape takes behind its backslash: a code point, or up to six hexadecimal digits and
one whitespace after them. -/
def escaped (cs : List Char) : List Char :=
  let digits := (cs.takeWhile isHexDigit).take 6
  if digits = [] then cs.take 1
  else digits ++ ((cs.drop digits.length).takeWhile isWhitespace).take 1

inductive Piece where
  | char (c : Char)
  /-- An escape, without its backslash. -/
  | escape (body : List Char)
  deriving DecidableEq, Repr

namespace Piece

def text : Piece → List Char
  | char c => [c]
  | escape body => '\\' :: body

/-- A code point of the class, which no escape is. -/
def isChar (p : Char → Bool) : Piece → Bool
  | char c => p c
  | escape _ => false

/-- A code point of the class, or an escape. -/
def isCharOrEscape (p : Char → Bool) : Piece → Bool
  | char c => p c
  | escape _ => true

end Piece

/-- The pieces of a text. A backslash is an escape with what stands behind it, unless that is the
end of a line or of the text. -/
def pieces : List Char → List Piece
  | [] => []
  | c :: cs =>
    if Pattern.escape.fits (c :: cs) then
      .escape (escaped cs) :: pieces (cs.drop (escaped cs).length)
    else .char c :: pieces cs
termination_by cs => cs.length
decreasing_by
  · rw [List.length_drop, List.length_cons]
    omega
  · exact Nat.lt_succ_self _

/-- The name that a text begins with: name code points and escapes, as long as there are any. -/
def leadingName (cs : List Char) : List Char :=
  ((pieces cs).takeWhile (Piece.isCharOrEscape isNameChar)).flatMap Piece.text

/-! ## Piece by piece -/

variable {c : Char} {body taken rest : List Char}

theorem escaped_eq (h : EscapeBody body rest) : escaped (body ++ rest) = body := by
  cases h with
  | plain hn hx => simp [escaped, hx]
  | @hex digits space _ hd hne hle hstop hs =>
    have hdigits : ((digits ++ (space ++ rest)).takeWhile isHexDigit).take 6 = digits := by
      rw [List.takeWhile_append_of_pos hd]
      obtain hlt | heq := Nat.lt_or_eq_of_le hle
      · rw [Pattern.takeWhile_eq_nil (hstop hlt), List.append_nil, List.take_of_length_le hle]
      · rw [← heq, List.take_left]
    have hspace : ((space ++ rest).takeWhile isWhitespace).take 1 = space := by
      cases hs with
      | taken hc => simp [hc]
      | absent hnone => rw [List.nil_append, Pattern.takeWhile_eq_nil hnone, List.take_nil]
    rw [List.append_assoc, escaped, hdigits, if_neg hne, List.drop_left, hspace]

@[simp] theorem pieces_nil : pieces [] = [] := by rw [pieces]

theorem pieces_char (h : Pattern.escape.fits (c :: rest) = false) :
    pieces (c :: rest) = .char c :: pieces rest := by
  rw [pieces, if_neg (by rw [h]; exact Bool.false_ne_true)]

theorem pieces_char_of_ne (h : c ≠ '\\') (rest : List Char) :
    pieces (c :: rest) = .char c :: pieces rest :=
  pieces_char (Pattern.fits_escape_of_ne h rest)

theorem pieces_escape (h : EscapeBody body rest) :
    pieces ('\\' :: (body ++ rest)) = .escape body :: pieces rest := by
  obtain ⟨x, tail, hbody, hx⟩ := h.exists_cons
  have hfits : Pattern.escape.fits ('\\' :: (body ++ rest)) = true := by
    simp [Pattern.escape, hbody, hx]
  rw [pieces, if_pos hfits, escaped_eq h, List.drop_left]

/-- The pieces of a text spell it. -/
theorem flatMap_pieces (cs : List Char) : (pieces cs).flatMap Piece.text = cs := by
  induction hn : cs.length using Nat.strongRecOn generalizing cs with
  | ind n ih =>
    cases cs with
    | nil => simp
    | cons c cs =>
      rw [List.length_cons] at hn
      cases hfits : Pattern.escape.fits (c :: cs) with
      | false =>
        rw [pieces_char hfits, List.flatMap_cons, ih cs.length (by omega) cs rfl]
        rfl
      | true =>
        rw [Pattern.escape, Pattern.fits_after_cons, Bool.and_eq_true, decide_eq_true_eq] at hfits
        obtain ⟨rfl, hbody⟩ := hfits
        obtain ⟨body, behind, rfl, he⟩ := splits_escapeBody hbody
        rw [List.length_append] at hn
        rw [pieces_escape he, List.flatMap_cons, ih behind.length (by omega) behind rfl]
        rfl

/-! ## Names -/

theorem leadingName_of_stop (h : Pattern.nameUnit.fits rest = false) : leadingName rest = [] := by
  rw [Pattern.nameUnit, Pattern.fits_either, Bool.or_eq_false_iff] at h
  cases rest with
  | nil => simp [leadingName]
  | cons c rest =>
    rw [Pattern.fits_one_cons] at h
    have hpart : ¬ Piece.isCharOrEscape isNameChar (.char c) = true := Bool.eq_false_iff.mp h.1
    rw [leadingName, pieces_char h.2, List.takeWhile_cons_of_neg hpart]
    rfl

/-- What the grammar takes as a name is the name that the text begins with. -/
theorem Grammar.Name.eq_leadingName (h : Name taken rest) :
    leadingName (taken ++ rest) = taken := by
  induction h with
  | stop h => exact leadingName_of_stop h
  | @char c taken rest hc _ ih =>
    have hne : c ≠ '\\' := ne_of_class hc (by decide)
    have hpart : Piece.isCharOrEscape isNameChar (.char c) = true := hc
    rw [leadingName] at ih
    rw [List.cons_append, leadingName, pieces_char_of_ne hne, List.takeWhile_cons_of_pos hpart,
      List.flatMap_cons, ih]
    rfl
  | @escape body taken rest he _ ih =>
    rw [leadingName] at ih
    rw [List.cons_append, List.append_assoc, leadingName, pieces_escape he,
      List.takeWhile_cons_of_pos rfl, List.flatMap_cons, ih]
    rfl

/-- An escape takes the whitespace behind its digits with it. -/
example : leadingName "a\\66 b c".toList = "a\\66 b".toList := by decide +kernel

/-- An identifier is a name all the way. -/
theorem Grammar.Identifier.name (h : Identifier taken rest) : Name taken rest := by
  have hhyphen : isNameChar '-' = true := by decide
  cases h with
  | hyphens h => exact .char hhyphen (.char hhyphen h)
  | start hh hc h =>
    have hname := Name.char (isNameChar_of_isNameStart hc) h
    obtain rfl | rfl := hh
    · exact hname
    · exact .char hhyphen hname
  | escape hh he h =>
    have hname := Name.escape he h
    obtain rfl | rfl := hh
    · exact hname
    · exact .char hhyphen hname

end Stylesheet
