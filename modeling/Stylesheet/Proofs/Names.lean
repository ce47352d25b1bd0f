import Stylesheet.Proofs.Urls

/-!
# Names

Where a name begins, the token goes as far as the name does: an identifier, a function if a
parenthesis stands behind it, and an at-keyword or a hash if its mark stands before it. Main
statement: this is what the tokens in front of a name are, and with the marks of quoted URLs it is
all that such tokens come from.
-/
namespace Stylesheet

open CodePoint Grammar
open scoped Computability

/-- A name that nothing goes before: it is no mark that closes an HTML comment, nor that of a
URL. -/
structure StartsName (text : List Char) : Prop where
  identifier : Pattern.identifier.fits text = true
  not_cdc : ¬ ['-', '-', '>'] <+: text
  not_url : isUrlMark (text.take 4) = false

/-- The token of the name that a text begins with. -/
def named (text : List Char) : Token :=
  let name := leadingName text
  if (text.drop name.length).head? = some '(' then ⟨.function, String.ofList (name ++ ['('])⟩
  else ⟨.ident, String.ofList name⟩

/-- The token of a mark and the name behind it, if there is one. -/
def marked (kind : Kind) (mark : Char) (start : Pattern) (behind : List Char) : Token :=
  if start.fits behind then ⟨kind, String.ofList (mark :: leadingName behind)⟩
  else ⟨.delim, String.ofList [mark]⟩

/-- The kinds of tokens that are names, with a mark or without. -/
def Kind.isNamed (kind : Kind) : Bool :=
  kind = .ident || kind = .function || kind = .atKeyword || kind = .hash

variable {taken rest mark name : List Char} {kind : Kind}

/-- Of what is made of name code points and escapes, the leading name goes furthest. -/
theorem isLongest_leadingName (cs : List Char) :
    ∃ name, IsLongest (oneOf (Piece.isCharOrEscape isNameChar))∗ name (pieces cs) ∧
      leadingName cs = name.flatMap Piece.text :=
  ⟨_, isLongest_takeWhile _ _, rfl⟩

theorem Kind.proper_of_isNamed (h : kind.isNamed = true) :
    kind ≠ .done ∧ kind ≠ .delim ∧ kind.closes? = none := by
  cases kind with
  | ident | function | atKeyword | hash => decide
  | _ => contradiction

/-! ## Names and the marks of URLs -/

theorem length_of_isUrlMark (h : isUrlMark mark = true) : mark.length = 4 := by
  simpa using congrArg List.length (of_decide_eq_true h)

theorem leadingName_of_isUrlMark (h : isUrlMark mark = true) (rest : List Char) :
    mark = leadingName (mark ++ rest) ++ ['('] := by
  obtain ⟨name, rfl, hidentifier⟩ := exists_identifier_of_isUrlMark h rest
  rw [← List.append_cons, hidentifier.name.eq_leadingName]

/-- A name is no mark of a URL, unless it is one with the parenthesis behind it. -/
theorem Grammar.Identifier.isUrlMark_take (h : Identifier name rest)
    (hp : rest.head? = some '(' → isUrlMark (name ++ ['(']) = false) :
    isUrlMark ((name ++ rest).take 4) = false := by
  rw [Bool.eq_false_iff]
  intro hmark
  have hname := leadingName_of_isUrlMark hmark ((name ++ rest).drop 4)
  rw [List.take_append_drop, h.name.eq_leadingName] at hname
  have hsplit := List.take_append_drop 4 (name ++ rest)
  rw [hname, ← List.append_cons] at hsplit
  have hhead : rest.head? = some '(' := by
    rw [← List.append_cancel_left hsplit]
    rfl
  rw [hname, hp hhead] at hmark
  contradiction

theorem Grammar.NameLike.named_eq (h : NameLike kind taken rest)
    (hu : isUrlMark ((taken ++ rest).take 4) = false) :
    named (taken ++ rest) = ⟨kind, String.ofList taken⟩ := by
  have hmark : ∀ mark more, isUrlMark mark = true → isUrlMark ((mark ++ more).take 4) = true := by
    intro mark more hm
    rwa [← length_of_isUrlMark hm, List.take_left]
  cases h with
  | ident h hp =>
    rw [Pattern.fits_one_eq_false_iff] at hp
    rw [named, h.name.eq_leadingName, List.drop_left, if_neg hp]
  | function h =>
    rw [← List.append_cons, named, h.name.eq_leadingName, List.drop_left]
    rfl
  | quotedUrl hm =>
    rw [hmark _ _ hm] at hu
    contradiction
  | url hm | endlessUrl hm =>
    rw [List.append_assoc, hmark _ _ hm] at hu
    contradiction

/-- Where a name begins, it can be read. -/
theorem StartsName.reading {text : List Char} (h : StartsName text) : ∃ kind taken rest,
    text = taken ++ rest ∧ Reading (.token kind) taken rest ∧
      named text = ⟨kind, String.ofList taken⟩ := by
  obtain ⟨kind, taken, rest, rfl, hname⟩ := splits_nameLike h.identifier
  have hcdc : (Pattern.text ['-', '-', '>']).fits (taken ++ rest) = false :=
    (Pattern.fits_text_eq_false_iff _ _).mpr h.not_cdc
  exact ⟨kind, taken, rest, rfl, .nameLike hname hcdc, hname.named_eq h.not_url⟩

theorem Grammar.NameLike.startsName (h : NameLike kind taken rest)
    (hc : (Pattern.text ['-', '-', '>']).fits (taken ++ rest) = false)
    (hk : kind.isNamed = true) :
    StartsName (taken ++ rest) ∨
      kind = .function ∧ isUrlMark taken = true ∧ startsQuoted rest = true := by
  have hcdc : ¬ ['-', '-', '>'] <+: taken ++ rest :=
    (Pattern.fits_text_eq_false_iff _ _).mp hc
  have hfits := h.fits
  cases h with
  | ident h hp =>
    rw [Pattern.fits_one_eq_false_iff] at hp
    exact .inl ⟨hfits, hcdc, h.isUrlMark_take fun hhead => absurd hhead hp⟩
  | @function name _ h hu =>
    have hmark := h.isUrlMark_take fun _ => hu
    rw [List.append_cons] at hmark
    exact .inl ⟨hfits, hcdc, hmark⟩
  | @quotedUrl mark space rest quote hm hs hq =>
    have hquote : isWhitespace quote = false :=
      isWhitespace_of_class hq (by decide) (by decide) (by decide) (by decide) (by decide)
    refine .inr ⟨rfl, hm, ?_⟩
    rw [startsQuoted, List.dropWhile_append_of_pos hs,
      List.dropWhile_cons_of_neg (Bool.eq_false_iff.mp hquote)]
    exact hq
  | @url _ _ _ _ good => cases good <;> contradiction
  | endlessUrl => contradiction

namespace Tokenizer

variable {ι : Type} [CharStream ι] [CharStream.Fused ι] {t : Tokenizer (BufferedSource ι)}
  {text behind : List Char}

theorem Faces.answers_named (h : t.Faces text) (hs : StartsName text) :
    t.nextToken.1 = .ok (named text) := by
  obtain ⟨kind, taken, rest, rfl, hr, hnamed⟩ := hs.reading
  rw [hnamed]
  exact (h.hands hr rfl).answer

theorem Faces.answers_atSign (h : t.Faces ('@' :: behind)) :
    t.nextToken.1 = .ok (marked .atKeyword '@' .identifier behind) := by
  cases hfits : Pattern.identifier.fits behind with
  | true =>
    obtain ⟨name, rest, rfl, hname⟩ := splits_identifier hfits
    rw [marked, if_pos hfits, hname.name.eq_leadingName]
    exact (h.hands (.atKeyword hname) rfl).answer
  | false =>
    have hgoes : (Lead.goesOn '@').fits behind = false := hfits
    rw [marked, if_neg (Bool.eq_false_iff.mp hfits)]
    exact (h.hands (.delim hgoes) rfl).answer

theorem Faces.answers_numberSign (h : t.Faces ('#' :: behind)) :
    t.nextToken.1 = .ok (marked .hash '#' .nameUnit behind) := by
  cases hfits : Pattern.nameUnit.fits behind with
  | true =>
    obtain ⟨name, rest, rfl, hname⟩ := splits_name behind
    rw [marked, if_pos hfits, hname.eq_leadingName]
    exact (h.hands (.hash hname (hname.ne_nil hfits)) rfl).answer
  | false =>
    have hgoes : (Lead.goesOn '#').fits behind = false := hfits
    rw [marked, if_neg (Bool.eq_false_iff.mp hfits)]
    exact (h.hands (.delim hgoes) rfl).answer

theorem Faces.names_of_answer {token : Token} (h : t.Faces text)
    (ha : t.nextToken.1 = .ok token) (hk : token.kind.isNamed = true) :
    StartsName text ∨
      (∃ behind, text = '@' :: behind ∧ Pattern.identifier.fits behind = true) ∨
      (∃ behind, text = '#' :: behind ∧ Pattern.nameUnit.fits behind = true) ∨
      ∃ mark behind, text = mark ++ behind ∧ isUrlMark mark = true ∧ startsQuoted behind = true ∧
        token = ⟨.function, String.ofList mark⟩ := by
  obtain ⟨rest, rfl, hr⟩ := h.exists_reading_token ha (Kind.proper_of_isNamed hk)
  obtain ⟨kind, taken⟩ := token
  dsimp only at hk hr ⊢
  generalize htaken : taken.toList = cs at hr ⊢
  cases hr with
  | hash h hne => exact .inr (.inr (.inl ⟨_, rfl, h.fits hne⟩))
  | atKeyword h => exact .inr (.inl ⟨_, rfl, h.fits⟩)
  | nameLike h hc =>
    obtain hname | ⟨rfl, hmark, hquoted⟩ := h.startsName hc hk
    · exact .inl hname
    · refine .inr (.inr (.inr ⟨cs, rest, rfl, hmark, hquoted, ?_⟩))
      rw [← htaken, String.ofList_toList]
  | numeric h => cases h <;> contradiction
  | opening block => cases block <;> contradiction
  | _ => contradiction

/-- What names give: on their own an identifier or a function, behind an at sign or a number sign
an at-keyword or a hash, or the mark alone. Only the mark of a quoted URL gives the like of it. -/
theorem nextToken_named (h : t.Faces text) :
    (StartsName text → t.nextToken.1 = .ok (named text)) ∧
    (∀ behind, text = '@' :: behind →
      t.nextToken.1 = .ok (marked .atKeyword '@' .identifier behind)) ∧
    (∀ behind, text = '#' :: behind →
      t.nextToken.1 = .ok (marked .hash '#' .nameUnit behind)) ∧
    ∀ token, t.nextToken.1 = .ok token → token.kind.isNamed = true →
      StartsName text ∨
        (∃ behind, text = '@' :: behind ∧ Pattern.identifier.fits behind = true) ∨
        (∃ behind, text = '#' :: behind ∧ Pattern.nameUnit.fits behind = true) ∨
        ∃ mark behind, text = mark ++ behind ∧ isUrlMark mark = true ∧ startsQuoted behind = true ∧
          token = ⟨.function, String.ofList mark⟩ := by
  refine ⟨h.answers_named, ?_, ?_, fun token => h.names_of_answer⟩
  · rintro behind rfl
    exact h.answers_atSign
  · rintro behind rfl
    exact h.answers_numberSign

/-- An escape takes the whitespace behind its digits, and the name goes on. -/
theorem nextToken_named_escape :
    (ofString "--\\66 oo(x").nextToken.1 = .ok ⟨.function, "--\\66 oo("⟩ := by
  have hfaces : (ofString "--\\66 oo(x").Faces "--\\66 oo(x".toList := faces_ofString _
  have hstarts : StartsName "--\\66 oo(x".toList := ⟨by decide, by decide, by decide⟩
  have hnamed : named "--\\66 oo(x".toList = ⟨.function, "--\\66 oo("⟩ := by decide +kernel
  rw [← hnamed]
  exact (nextToken_named hfaces).1 hstarts

end Tokenizer
end Stylesheet
