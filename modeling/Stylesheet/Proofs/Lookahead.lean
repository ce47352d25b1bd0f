import Stylesheet.Proofs.Lookouts
import Stylesheet.Proofs.Totality

/-!
# How far scans look

A bound for each scan on how far it looks, and how far behind its end, by its answer. Main
statement: no lexeme is looked for more than three code points behind its end, and where it has a
mark of its own at its end, not behind it at all; only behind the mark of a quoted URL all of the
whitespace up to the quote is looked at.
-/
namespace Stylesheet

/-! ## What stands behind a token -/

section Foresight

open CodePoint Grammar

/-- Whitespace or none, and then a quote, and nothing else. -/
def SpacedQuote (cs : List Char) : Prop :=
  ∃ space quote, cs = space ++ [quote] ∧ (∀ c ∈ space, isWhitespace c = true) ∧
    isQuote quote = true

/-- The kinds whose tokens say themselves where they end. -/
def Kind.isSelfEnding (kind : Kind) : Bool :=
  kind ∈ [.comment, .string, .url, .badUrl, .percentage, .cdo, .cdc, .comma, .colon, .semicolon,
    .openParen, .closeParen, .openBracket, .closeBracket, .openBrace, .closeBrace]

/-- What may have been looked at for a token of `m` code points, if `n` code points were. -/
inductive Kind.Foresight (cs : List Char) : Kind → Nat → Nat → Prop
  | nothing {kind : Kind} {m n : Nat} (hk : kind ≠ .function) (h : n ≤ m) :
      Foresight cs kind m n
  | near {kind : Kind} {m n : Nat} (hk : kind.isSelfEnding = false)
      (hu : kind = .function → isUrlMark (cs.take m) = false) (h : n ≤ m + 3) :
      Foresight cs kind m n
  | quotedUrl {kind : Kind} {m n : Nat} (hk : kind = .function)
      (hu : isUrlMark (cs.take m) = true) (h : SpacedQuote ((cs.take n).drop m)) :
      Foresight cs kind m n

theorem Kind.Foresight.after {cs : List Char} {kind : Kind} {m n j : Nat}
    (h : kind.Foresight cs m n) (hmn : m ≤ n) (hj : j ≤ 3)
    (hlong : kind.isSelfEnding = true → 3 ≤ m) : kind.Foresight cs m (max j n) := by
  cases h with
  | nothing hk h =>
    cases hself : kind.isSelfEnding with
    | true =>
      have hm := hlong hself
      exact .nothing hk (by omega)
    | false => exact .near hself (fun hf => absurd hf hk) (by omega)
  | near hk hu h => exact .near hk hu (by omega)
  | quotedUrl hk hu h =>
    have hlength : (cs.take m).length = 4 := by
      simpa using congrArg List.length (of_decide_eq_true hu)
    have hle := List.length_take_le m cs
    rw [Nat.max_eq_right (show j ≤ n by omega)]
    exact .quotedUrl hk hu h

def Lexeme.Foresight (cs : List Char) : Lexeme → Nat → Nat → Prop
  | .token kind, m, n => kind.Foresight cs m n
  | .closing _, m, n => n ≤ m
  | .unterminatedComment, _, _ => True

end Foresight

namespace Lookout

open Scan CodePoint Grammar

/-! ## Code points -/

section Scans

variable (c : Cursor)

theorem looks_accept (p : Char → Bool) :
    Looks (Scan.accept p) c
      (Verdict (fun m n => m = 1 ∧ n = 1 ∧ (Pattern.one p).fits c.ahead = true)
        fun m n => m = 0 ∧ n ≤ 1 ∧ (Pattern.one p).fits c.ahead = false) := by
  refine .peek_bind (fun hc => .pure ⟨rfl, Nat.zero_le _, by rw [hc]; rfl⟩) fun x rest hc => ?_
  cases hx : p x with
  | true =>
    simp only [hx, if_true]
    refine .consume_bind hc (.pure ⟨rfl, rfl, ?_⟩)
    rw [hc, Pattern.fits_one_cons, hx]
  | false =>
    simp only [hx, Bool.false_eq_true, if_false]
    refine .pure ⟨rfl, Nat.le_refl _, ?_⟩
    rw [hc, Pattern.fits_one_cons, hx]

theorem looks_optional (p : Char → Bool) :
    Looks (Scan.accept p) c fun _ m n => m ≤ 1 ∧ n ≤ 1 := by
  refine (looks_accept c p).verdict ?_ ?_
  · rintro _ _ ⟨rfl, rfl, -⟩
    exact ⟨Nat.le_refl _, Nat.le_refl _⟩
  · rintro _ n ⟨rfl, h, -⟩
    exact ⟨Nat.zero_le _, h⟩

theorem looks_acceptWhile (p : Char → Bool) :
    Looks (Scan.acceptWhile p) c fun k m n =>
      k = m ∧ m = (c.ahead.takeWhile p).length ∧ n ≤ m + 1 := by
  have hround : ∀ k d, Looks (acceptNext p k) d (Rounds (fun _ _ _ m n => n ≤ m + 1) k d) := by
    intro k d
    refine .branch (looks_accept d p) ?_ ?_
    · rintro _ _ - - ⟨rfl, rfl, -⟩
      refine .pure fun _ a m' n' h => ?_
      dsimp only at h ⊢
      omega
    · rintro _ _ - - ⟨rfl, h, -⟩
      refine .pure ?_
      change max _ (0 + 0) ≤ 0 + 0 + 1
      omega
  refine (Looks.goes (.acceptWhile p) (.iterate hround 0 c)).mono ?_
  rintro k m n hmn hlength ⟨hrun, hn⟩
  rw [Cursor.acceptWhile_eq] at hrun
  obtain ⟨rfl, hskip⟩ := Prod.mk.inj hrun
  have hle : (c.ahead.takeWhile p).length ≤ c.ahead.length := (List.takeWhile_prefix p).length_le
  have hm := Cursor.eq_of_skip_eq hle (Nat.le_trans hmn hlength) hskip
  exact ⟨hm, hm.symm, hn⟩

theorem looks_acceptUpTo (p : Char → Bool) (k : Nat) :
    Looks (Scan.acceptUpTo p k) c fun _ m n => n ≤ m + 1 := by
  induction k generalizing c with
  | zero => exact .pure (Nat.zero_le _)
  | succ k ih =>
    refine .branch (looks_accept c p) ?_ ?_
    · rintro _ _ - - ⟨rfl, rfl, -⟩
      exact (ih _).mono fun _ m n _ _ h => by omega
    · rintro _ _ - - ⟨rfl, h, -⟩
      exact .pure (by omega)

/-- A literal that does not even begin is not looked for any further. -/
theorem looks_acceptEach (same : Char → Char → Bool) (text : List Char) :
    Looks (Scan.acceptEach same text) c
      (Verdict (fun m n => m = text.length ∧ n = text.length)
        fun _ n => n ≤ text.length ∧
          ∀ y ∈ text.head?, (Pattern.one (same · y)).fits c.ahead = false → n ≤ 1) := by
  induction text generalizing c with
  | nil => exact .pure ⟨rfl, rfl⟩
  | cons y text ih =>
    refine .branch (looks_accept c (same · y)) ?_ ?_
    · rintro _ _ - - ⟨rfl, rfl, hy⟩
      refine (ih _).verdict ?_ ?_
      · rintro m n ⟨rfl, rfl⟩
        constructor <;> rw [List.length_cons] <;> omega
      · rintro m n ⟨hn, -⟩
        refine ⟨by rw [List.length_cons]; omega, ?_⟩
        rintro _ ⟨⟩ hno
        rw [hy] at hno
        contradiction
    · rintro _ _ - - ⟨rfl, h, -⟩
      exact .pure ⟨by rw [List.length_cons]; omega, fun _ _ _ => by omega⟩

/-! ## Comments, escapes and names -/

theorem looks_comment :
    Looks Scan.comment c (Verdict (fun m n => 1 ≤ m ∧ n ≤ m) fun _ _ => True) := by
  refine .iterate (R := fun _ _ => Verdict (fun m n => 1 ≤ m ∧ n ≤ m) fun _ _ => True) ?_ () c
  intro _ d
  refine .peek_bind (fun _ => .pure trivial) fun x rest hd => .consume_bind hd ?_
  -- Whatever a round has looked at, another one takes a code point at least.
  have hagain : ∀ m n, m = 1 → n ≤ 2 → Rounds (fun _ _ =>
      Verdict (fun m n => 1 ≤ m ∧ n ≤ m) fun _ _ => True) () d (.again () : Round Unit Bool)
        m n := by
    intro m n hm hn _ a m' n' ha
    cases a with
    | true =>
      obtain ⟨hm', hn'⟩ := ha
      constructor <;> omega
    | false => trivial
  refine .ite (fun _ => .branch (looks_accept _ _) ?_ ?_) fun _ => ?_
  · rintro _ _ - - ⟨rfl, rfl, -⟩
    exact .pure ⟨by omega, by omega⟩
  · rintro _ _ - - ⟨rfl, h, -⟩
    exact .pure (hagain _ _ (by omega) (by omega))
  · exact .pure (hagain _ _ (by omega) (by omega))

theorem looks_escapeBody :
    Looks Scan.escapeBody c
      (Verdict (fun m n => 1 ≤ m ∧ n ≤ m + 1) fun m n => m = 0 ∧ n ≤ 1) := by
  refine .peek_bind (fun _ => .pure ⟨rfl, Nat.zero_le _⟩) fun x rest hc => ?_
  refine .ite (fun _ => .pure ⟨rfl, Nat.le_refl _⟩) fun _ => .consume_bind hc ?_
  refine .ite (fun _ => ?_) fun _ => .pure ⟨by omega, by omega⟩
  refine (looks_acceptUpTo _ _ _).bind fun _ m n _ _ h => ?_
  refine (looks_optional _ _).bind fun _ m' n' _ _ h' => .pure ?_
  constructor <;> omega

theorem looks_escape :
    Looks Scan.escape c
      (Verdict (fun m n => 2 ≤ m ∧ n ≤ m + 1) fun m n => m ≤ 1 ∧ n ≤ 2) := by
  refine .branch (looks_accept c _) ?_ ?_
  · rintro _ _ - - ⟨rfl, rfl, -⟩
    refine (looks_escapeBody _).verdict ?_ ?_
    · rintro m n ⟨hm, hn⟩
      constructor <;> omega
    · rintro m n ⟨rfl, hn⟩
      constructor <;> omega
  · rintro _ _ - - ⟨rfl, h, -⟩
    exact .pure ⟨by omega, by omega⟩

theorem looks_nameUnit :
    Looks Scan.nameUnit c (Verdict (fun m n => n ≤ m + 1) fun _ n => n ≤ 2) := by
  refine .branch (looks_accept c _) ?_ ?_
  · rintro _ _ - - ⟨rfl, rfl, -⟩
    refine .pure ?_
    change _ ≤ _
    omega
  · rintro _ _ - - ⟨rfl, h, -⟩
    refine (looks_escape _).verdict ?_ ?_
    · rintro m n ⟨hm, hn⟩
      change _ ≤ _
      omega
    · rintro m n ⟨hm, hn⟩
      change _ ≤ _
      omega

theorem looks_name : Looks Scan.name c fun _ m n => n ≤ m + 2 := by
  refine .iterate (R := fun _ _ _ m n => n ≤ m + 2) ?_ () c
  intro _ d
  refine (looks_acceptWhile d isNameChar).bind ?_
  rintro _ k n - - ⟨rfl, -, hn⟩
  have hescape : ∀ e, Looks (Scan.attempt Scan.escape) e
      (Verdict (fun m n => 2 ≤ m ∧ n ≤ m + 1) fun m n => m = 0 ∧ n ≤ 2) :=
    fun e => (looks_escape e).attempt fun _ _ h => ⟨rfl, h.2⟩
  refine .branch (hescape _) ?_ ?_
  · rintro m' n' - - ⟨hm, hn'⟩
    refine .pure fun _ a m'' n'' h => ?_
    dsimp only at h ⊢
    omega
  · rintro _ n' - - ⟨rfl, hn'⟩
    refine .pure ?_
    change _ ≤ _
    omega

theorem looks_named {R : Bool → Nat → Nat → Prop} (h : ∀ m n, n ≤ m + 2 → R true m n) :
    Looks (do Scan.name; return true) c R :=
  .map ((looks_name c).mono fun _ m n _ _ hn => h m n hn)

theorem looks_twoHyphens :
    Looks Scan.twoHyphens c
      (Verdict (fun m n => m = 2 ∧ n = 2) fun m n => m ≤ 1 ∧ n ≤ m + 1) := by
  refine .branch (looks_accept c _) ?_ ?_
  · rintro _ _ - - ⟨rfl, rfl, -⟩
    refine (looks_accept _ _).verdict ?_ ?_
    · rintro _ _ ⟨rfl, rfl, -⟩
      exact ⟨rfl, rfl⟩
    · rintro _ n ⟨rfl, h, -⟩
      constructor <;> omega
  · rintro _ _ - - ⟨rfl, h, -⟩
    exact .pure ⟨by omega, by omega⟩

theorem looks_identifier :
    Looks Scan.identifier c
      (Verdict (fun m n => 1 ≤ m ∧ n ≤ m + 2) fun _ n => n ≤ 3) := by
  refine .branch (looks_twoHyphens c) ?_ ?_
  · rintro _ _ - - ⟨rfl, rfl⟩
    exact looks_named _ fun m n h => ⟨by omega, by omega⟩
  · rintro k j - - ⟨hk, hj⟩
    refine .branch (looks_accept _ _) ?_ ?_
    · rintro _ _ - - ⟨rfl, rfl, -⟩
      exact looks_named _ fun m n h => ⟨by omega, by omega⟩
    · rintro _ i - - ⟨rfl, hi, -⟩
      refine .branch (looks_escape _) ?_ ?_
      · rintro k' j' - - ⟨hk', hj'⟩
        exact looks_named _ fun m n h => ⟨by omega, by omega⟩
      · rintro k' j' - - ⟨hk', hj'⟩
        refine .pure ?_
        change _ ≤ _
        omega

theorem looks_attemptIdentifier :
    Looks (Scan.attempt Scan.identifier) c
      (Verdict (fun m n => 1 ≤ m ∧ n ≤ m + 2) fun m n => m = 0 ∧ n ≤ 3) :=
  (looks_identifier c).attempt fun _ _ h => ⟨rfl, h⟩

/-! ## Numbers -/

theorem looks_numberStart : Looks Scan.numberStart c fun _ _ n => n ≤ 3 := by
  refine (looks_optional c _).bind fun _ k j _ _ hsign => ?_
  refine .branch (looks_accept _ _) ?_ ?_
  · rintro _ _ - - ⟨rfl, rfl, -⟩
    exact .pure (by omega)
  · rintro _ i - - ⟨rfl, hi, -⟩
    refine .branch (looks_accept _ _) ?_ ?_
    · rintro _ _ - - ⟨rfl, rfl, -⟩
      exact (looks_optional _ _).mono fun _ m n _ _ h => by omega
    · rintro _ _ - - ⟨rfl, h, -⟩
      exact .pure (by omega)

theorem head?_ne_of_fits {p : Char → Bool} {x : Char} (h : (Pattern.one p).fits c.ahead = true)
    (hx : p x = false) : c.ahead.head? ≠ some x := by
  intro hhead
  rw [Pattern.fits_one_eq, hhead, Option.any_some, hx] at h
  contradiction

/-- In front of a percent sign there is no need to look for the point behind it. -/
theorem looks_fraction :
    Looks (Scan.attempt Scan.fraction) c fun _ m n =>
      n ≤ m + 2 ∧ ((c.skip m).ahead.head? = some '%' → n ≤ m + 1) := by
  have hlooks : Looks Scan.fraction c (Verdict (fun m n => n ≤ m + 1) fun _ n =>
      n ≤ 2 ∧ (c.ahead.head? = some '%' → n ≤ 1)) := by
    refine .branch (looks_accept c _) ?_ ?_
    · rintro _ _ - - ⟨rfl, rfl, hpoint⟩
      have hhead := head?_ne_of_fits c hpoint (x := '%') (by decide)
      refine (looks_acceptWhile _ _).bind ?_
      rintro k _ n - - ⟨rfl, -, hn⟩
      refine .pure ?_
      by_cases hk : 0 < k
      · rw [decide_eq_true hk]
        change _ ≤ _
        omega
      · rw [decide_eq_false hk]
        exact ⟨by omega, fun h => absurd h hhead⟩
    · rintro _ _ - - ⟨rfl, h, -⟩
      exact .pure ⟨by omega, fun _ => by omega⟩
  refine .keepIf (hlooks.verdict ?_ ?_)
  · intro m n h
    exact ⟨Nat.le_succ_of_le h, fun _ => h⟩
  · rintro m n ⟨h, hpercent⟩
    refine ⟨h, fun hhead => ?_⟩
    rw [id, if_neg Bool.false_ne_true, Cursor.skip_zero] at hhead
    exact hpercent hhead

theorem looks_exponent :
    Looks (Scan.attempt Scan.exponent) c fun _ m n =>
      2 ≤ m ∧ n ≤ m + 1 ∨ m = 0 ∧ n ≤ 3 ∧ (c.ahead.head? = some '%' → n ≤ 1) := by
  have hlooks : Looks Scan.exponent c (Verdict (fun m n => 2 ≤ m ∧ n ≤ m + 1) fun _ n =>
      n ≤ 3 ∧ (c.ahead.head? = some '%' → n ≤ 1)) := by
    refine .branch (looks_accept c _) ?_ ?_
    · rintro _ _ - - ⟨rfl, rfl, hmark⟩
      have hhead := head?_ne_of_fits c hmark (x := '%') (by decide)
      refine (looks_optional _ _).bind fun _ k j _ _ hsign => ?_
      refine (looks_acceptWhile _ _).bind ?_
      rintro i _ n - - ⟨rfl, -, hn⟩
      refine .pure ?_
      by_cases hi : 0 < i
      · rw [decide_eq_true hi]
        exact ⟨by omega, by omega⟩
      · rw [decide_eq_false hi]
        exact ⟨by omega, fun h => absurd h hhead⟩
    · rintro _ _ - - ⟨rfl, h, -⟩
      exact .pure ⟨by omega, fun _ => by omega⟩
  refine .keepIf (hlooks.verdict ?_ ?_)
  · exact fun m n h => .inl h
  · exact fun m n h => .inr ⟨rfl, h⟩

theorem looks_number :
    Looks Scan.number c fun _ m n =>
      n ≤ m + 3 ∧ ((c.skip m).ahead.head? = some '%' → n ≤ m + 1) := by
  refine (looks_optional c _).bind fun _ k j _ _ hsign => ?_
  refine (looks_acceptWhile _ _).bind ?_
  rintro w _ i - - ⟨rfl, -, hi⟩
  refine (looks_fraction _).bind fun _ f n _ _ hf => ?_
  refine (looks_exponent _).bind fun _ e n' _ _ he => .pure ?_
  simp only [Cursor.skip_skip, Nat.add_assoc, Nat.add_zero] at hf he ⊢
  obtain ⟨hf, hf'⟩ := hf
  obtain ⟨he, hn'⟩ | ⟨rfl, hn', he'⟩ := he
  · exact ⟨by omega, fun _ => by omega⟩
  · refine ⟨by omega, fun hhead => ?_⟩
    have hfraction := hf' hhead
    have hexponent := he' hhead
    omega

/-- A percentage needs no look behind its sign. -/
theorem looks_numeric :
    Looks Scan.numeric c fun kind m n => n ≤ m + 3 ∧ (kind = .percentage → n ≤ m) := by
  refine (looks_number c).bind fun _ k j _ _ ⟨hk, hpercent⟩ => ?_
  refine .branch (looks_accept _ _) ?_ ?_
  · rintro _ _ - - ⟨rfl, rfl, hp⟩
    have hj := hpercent ((Pattern.fits_one_iff '%' _).mp hp)
    exact .pure ⟨by omega, fun _ => by omega⟩
  · rintro _ _ - - ⟨rfl, h, -⟩
    refine .branch (looks_attemptIdentifier _) ?_ ?_
    · rintro m n - - ⟨hm, hn⟩
      exact .pure ⟨by omega, nofun⟩
    · rintro _ n - - ⟨rfl, hn⟩
      exact .pure ⟨by omega, nofun⟩

/-! ## Strings and URLs -/

theorem looks_quoted (quote : Char) :
    Looks (Scan.quoted quote) c
      (Verdict (fun m n => 1 ≤ m ∧ n ≤ m) fun m n => n ≤ m + 1) := by
  refine .iterate (R := fun _ _ => Verdict (fun m n => 1 ≤ m ∧ n ≤ m) fun m n => n ≤ m + 1)
    ?_ () c
  intro _ d
  have hagain : ∀ m n, n ≤ m + 1 → Rounds (fun _ _ =>
      Verdict (fun m n => 1 ≤ m ∧ n ≤ m) fun m n => n ≤ m + 1) () d
        (.again () : Round Unit Bool) m n := by
    intro m n hn _ a m' n' ha
    cases a with
    | true =>
      obtain ⟨hm', hn'⟩ := ha
      constructor <;> omega
    | false =>
      change _ ≤ _ at ha
      change _ ≤ _
      omega
  refine .peek_bind (fun _ => .pure (Nat.zero_le 1)) fun x rest hd => ?_
  refine .ite (fun _ => .pure (Nat.le_refl 1)) fun _ => .consume_bind hd ?_
  refine .ite (fun _ => .branch (looks_accept _ _) ?_ ?_) fun _ => .ite (fun _ => ?_) fun _ => ?_
  · rintro _ _ - - ⟨rfl, rfl, -⟩
    exact .pure (hagain _ _ (by omega))
  · rintro _ _ - - ⟨rfl, h, -⟩
    refine .branch (looks_escapeBody _) ?_ ?_
    · rintro m n - - ⟨hm, hn⟩
      exact .pure (hagain _ _ (by omega))
    · rintro _ n - - ⟨rfl, hn⟩
      refine .pure ?_
      change _ ≤ _
      omega
  · exact .pure ⟨by omega, by omega⟩
  · exact .pure (hagain _ _ (by omega))

/-- An unquoted URL ends with its parenthesis, or where there is nothing more to look at. -/
theorem looks_unquotedUrl :
    Looks Scan.unquotedUrl c fun _ m n => n ≤ m ∧ (1 ≤ m ∨ c.ahead = []) := by
  refine .iterate (R := fun _ c _ m n => n ≤ m ∧ (1 ≤ m ∨ c.ahead = [])) ?_ true c
  intro good d
  have hagain : ∀ good' m n, 1 ≤ m → n ≤ m + 1 → Rounds (fun _ (c : Cursor) (_ : Bool) m n =>
      n ≤ m ∧ (1 ≤ m ∨ c.ahead = [])) good d (.again good') m n := by
    rintro good' m n hm hn hlength _ m' n' ⟨hn', hm' | hend⟩
    · exact ⟨by omega, .inl (by omega)⟩
    · rw [Cursor.ahead_skip, List.drop_eq_nil_iff] at hend
      exact ⟨by omega, .inl (by omega)⟩
  refine .peek_bind (fun hd => .pure ⟨Nat.le_refl 0, .inr hd⟩) fun x rest hd => ?_
  refine .consume_bind hd ?_
  refine .ite (fun _ => .pure (hagain _ _ _ (by omega) (by omega))) fun _ =>
    .ite (fun _ => .pure ⟨by omega, .inl (by omega)⟩) fun _ =>
    .ite (fun _ => ?_) fun _ => .ite (fun _ => ?_) fun _ =>
    .pure (hagain _ _ _ (by omega) (by omega))
  · refine (looks_acceptWhile _ _).bind ?_
    rintro k _ n - - ⟨rfl, -, hn⟩
    refine .branch (looks_accept _ _) ?_ ?_
    · rintro _ _ - - ⟨rfl, rfl, -⟩
      exact .pure ⟨by omega, .inl (by omega)⟩
    · rintro _ _ - - ⟨rfl, h, -⟩
      exact .pure (hagain _ _ _ (by omega) (by omega))
  · refine .branch (looks_escapeBody _) ?_ ?_
    · rintro m n - - ⟨hm, hn⟩
      exact .pure (hagain _ _ _ (by omega) (by omega))
    · rintro _ n - - ⟨rfl, hn⟩
      exact .pure (hagain _ _ _ (by omega) (by omega))

theorem looks_quoteAhead :
    Looks Scan.quoteAhead c
      (Verdict (fun _ n => SpacedQuote (c.ahead.take n)) fun m n => n ≤ m + 1) := by
  refine (looks_acceptWhile c _).bind ?_
  rintro k _ n hkn - ⟨rfl, hspace, hle⟩
  refine .peek_bind (fun _ => .pure ?_) fun x rest hc => .pure ?_
  · change _ ≤ _
    omega
  · rw [Option.any_some]
    cases hx : isQuote x with
    | true =>
      have htake : c.ahead.take k = c.ahead.takeWhile isWhitespace := by
        rw [hspace]
        exact (List.prefix_iff_eq_take.mp (List.takeWhile_prefix isWhitespace)).symm
      have hmax : max n (k + max 1 0) = k + 1 := by omega
      change SpacedQuote (c.ahead.take (max n (k + max 1 0)))
      rw [Cursor.ahead_skip] at hc
      rw [hmax, List.take_add, hc, htake]
      exact ⟨_, x, rfl, List.all_eq_true.mp List.all_takeWhile, hx⟩
    | false =>
      change _ ≤ _
      omega

/-- Behind the mark of a URL. -/
theorem looks_urlRest :
    Looks Scan.urlRest c fun kind m n =>
      kind = .function ∧ m = 0 ∧ SpacedQuote (c.ahead.take n) ∨
        kind ≠ .function ∧ n ≤ m := by
  have hahead : Looks (Scan.keepIf (! ·) Scan.quoteAhead) c
      (Verdict (fun m n => m = 0 ∧ SpacedQuote (c.ahead.take n)) fun m n => n ≤ m + 1) :=
    .keepIf ((looks_quoteAhead c).verdict (fun m n h => ⟨rfl, h⟩) fun m n h => h)
  refine .branch hahead ?_ ?_
  · rintro _ n - - ⟨rfl, h⟩
    refine .pure (.inl ⟨rfl, rfl, ?_⟩)
    rwa [Nat.max_eq_left (Nat.zero_le n)]
  · intro k j hkj hj hle
    refine (looks_unquotedUrl _).bind fun good m n _ _ ⟨hn, hend⟩ => ?_
    have hbound : max j (k + n) ≤ k + m := by
      obtain hm | hend := hend
      · omega
      · rw [Cursor.ahead_skip, List.drop_eq_nil_iff] at hend
        omega
    cases good
    · exact .pure (.inr ⟨nofun, by omega⟩)
    · exact .pure (.inr ⟨nofun, by omega⟩)

theorem looks_urlMark :
    Looks (Scan.acceptTextIgnoringCase "url(") c
      (Verdict (fun m n => m = 4 ∧ n = 4 ∧ isUrlMark (c.ahead.take 4) = true) fun m n =>
        m = 0 ∧ n ≤ 4 ∧ (c.ahead.head? = some '-' → n ≤ 1) ∧
          isUrlMark (c.ahead.take 4) = false) := by
  refine .keepIf (((looks_acceptEach c sameIgnoringCase "url(".toList).goes
    (.acceptEach _ _)).mono ?_)
  rintro a m n - - ⟨hrun, hv⟩
  have hanswer : isUrlMark (c.ahead.take 4) = a := by
    have hanswer := Cursor.answer_acceptEach "url(".toList c
    rw [hrun] at hanswer
    exact hanswer.symm
  cases a with
  | true => exact ⟨hv.1, hv.2, hanswer⟩
  | false =>
    obtain ⟨hn, hfirst⟩ := hv
    refine ⟨rfl, hn, fun hhead => hfirst 'u' rfl ?_, hanswer⟩
    rw [Pattern.fits_one_eq, hhead]
    decide

theorem isUrlMark_take {cs : List Char} (h : isUrlMark (cs.take 4) = false) (m : Nat) :
    isUrlMark (cs.take m) = false := by
  rw [Bool.eq_false_iff] at h ⊢
  intro hmark
  have hlength : (cs.take m).length = 4 := by
    simpa using congrArg List.length (of_decide_eq_true hmark)
  have htake : cs.take m = cs.take 4 := by
    have hle := List.length_take_le m cs
    rw [← List.take_of_length_le (Nat.le_of_eq hlength), List.take_take, Nat.min_eq_left (by omega)]
  exact h (htake ▸ hmark)

/-- A token that begins like a name, and has four code points at least if it ends itself. -/
theorem looks_nameLike :
    Looks Scan.nameLike c fun kind? m n =>
      match kind? with
      | some kind => kind.Foresight c.ahead m n ∧ (kind.isSelfEnding = true → 4 ≤ m)
      | none => n ≤ 4 ∧ (c.ahead.head? = some '-' → n ≤ 3) := by
  refine .branch (looks_urlMark c) ?_ ?_
  · rintro _ _ - - ⟨rfl, rfl, hmark⟩
    refine (looks_urlRest _).bind fun kind m n _ _ h => .pure ?_
    obtain ⟨rfl, rfl, hquote⟩ | ⟨hk, hn⟩ := h
    · refine ⟨.quotedUrl rfl hmark ?_, nofun⟩
      have hlength : max 4 (4 + max n 0) - 4 = n := by omega
      rw [Cursor.ahead_skip] at hquote
      change SpacedQuote ((c.ahead.take (max 4 (4 + max n 0))).drop 4)
      rwa [List.drop_take, hlength]
    · exact ⟨.nothing hk (by omega), fun _ => by omega⟩
  · rintro _ j - - ⟨rfl, hj, hhyphen, hmark⟩
    refine .branch (looks_identifier _) ?_ ?_
    · rintro k i - - ⟨hk, hi⟩
      refine .branch (looks_accept _ _) ?_ ?_
      · rintro _ _ - - ⟨rfl, rfl, -⟩
        exact .pure ⟨.near rfl (fun _ => isUrlMark_take hmark _) (by omega), nofun⟩
      · rintro _ n - - ⟨rfl, hn, -⟩
        exact .pure ⟨.near rfl nofun (by omega), nofun⟩
    · rintro k i hki - hi
      refine .pure ⟨by omega, fun hhead => ?_⟩
      have hone := hhyphen hhead
      omega

end Scans

/-! ## Lexemes -/

section Lexemes

variable {c : Cursor} {x : Char} {behind : List Char} {R : Lexeme → Nat → Nat → Prop}

theorem looks_single (hc : c.ahead = x :: behind) {kind : Kind} (h : R (.token kind) 1 1) :
    Looks (Scan.single kind) c R :=
  .consume_bind hc (.pure h)

/-- A percentage that begins with a sign or a point has three code points at least. -/
theorem looks_measured (hfits : Pattern.number.fits c.ahead = true) :
    Looks Scan.numeric c fun kind m n => kind.Foresight c.ahead m n ∧
      (kind.isSelfEnding = true → (Pattern.one isDigit).fits c.ahead = false → 3 ≤ m) := by
  obtain ⟨kind, taken, rest, hsplit, hnumeric⟩ := splits_numeric hfits
  refine ((looks_numeric c).takes .numeric hsplit (Cursor.takes_numeric hnumeric)).mono ?_
  rintro _ _ n - - ⟨rfl, rfl, hn, hpercent⟩
  cases hnumeric with
  | @percentage number _ h =>
    refine ⟨.nothing nofun (hpercent rfl), fun _ hdigit => ?_⟩
    have hlength := h.two_le_length ?_
    · rw [List.length_append, List.length_singleton]
      omega
    · rw [hsplit] at hdigit
      cases number with
      | nil => rfl
      | cons x number => exact hdigit
  | dimension => exact ⟨.near rfl nofun hn, nofun⟩
  | number => exact ⟨.near rfl nofun hn, nofun⟩

theorem looks_numericOr (hc : c.ahead = x :: behind) (hx : isDigit x = false)
    (hnumeric : ∀ kind m n, m ≤ n → kind.Foresight c.ahead m n →
      (kind.isSelfEnding = true → 3 ≤ m) → R (.token kind) m n)
    (hdelim : ∀ n, n ≤ 3 → R (.token .delim) 1 n) :
    Looks (do
      if ← Scan.lookahead Scan.numberStart then return Lexeme.token (← Scan.numeric)
      else Scan.single .delim) c R := by
  have hstart : Looks (Scan.lookahead Scan.numberStart) c
      (Verdict (fun m n => m = 0 ∧ n ≤ 3 ∧ Pattern.number.fits c.ahead = true)
        fun m n => m = 0 ∧ n ≤ 3) := by
    refine .keepIf (((looks_numberStart c).goes .numberStart).mono ?_)
    rintro a m n - - ⟨hrun, hn⟩
    have hanswer := Cursor.answer_numberStart_fits c
    rw [hrun] at hanswer
    cases a with
    | true => exact ⟨rfl, hn, hanswer.symm⟩
    | false => exact ⟨rfl, hn⟩
  refine .branch hstart ?_ ?_
  · rintro _ j - - ⟨rfl, hj, hfits⟩
    rw [Cursor.skip_zero]
    refine .map ((looks_measured hfits).mono fun kind m n hmn _ ⟨hforesight, hlong⟩ => ?_)
    have hlong : kind.isSelfEnding = true → 3 ≤ m := by
      intro hself
      apply hlong hself
      rw [hc, Pattern.fits_one_cons, hx]
    rw [Nat.zero_add, Nat.zero_add]
    exact hnumeric kind m _ (by omega) (hforesight.after hmn hj hlong) hlong
  · rintro _ j - - ⟨rfl, hj⟩
    rw [Cursor.skip_zero]
    exact looks_single hc (hdelim _ (by omega))

/-- The name that a look ahead finds is then read, so little was looked at in vain. -/
theorem looks_nameAhead (c : Cursor) :
    Looks (Scan.lookahead Scan.nameUnit) c
      (Verdict
        (fun m n => m = 0 ∧ ∃ taken rest, c.ahead = taken ++ rest ∧ Name taken rest ∧
          n ≤ taken.length + 1)
        fun m n => m = 0 ∧ n ≤ 2) := by
  cases hfits : Pattern.nameUnit.fits c.ahead with
  | true =>
    obtain ⟨taken, rest, hsplit, hname⟩ := splits_name c.ahead
    rw [hsplit] at hfits
    obtain ⟨unit, more, rfl, hunit⟩ := Cursor.exists_nameUnit hname hfits
    have hahead : c.ahead = unit ++ (more ++ rest) := by rw [hsplit, List.append_assoc]
    refine .keepIf (((looks_nameUnit c).takes .nameUnit hahead hunit).mono ?_)
    rintro _ _ n - - ⟨rfl, rfl, hn⟩
    change n ≤ _ at hn
    refine ⟨rfl, _, _, hsplit, hname, ?_⟩
    rw [List.length_append]
    omega
  | false =>
    refine .keepIf (((looks_nameUnit c).goes .nameUnit).mono ?_)
    rintro a _ n - - ⟨hrun, hn⟩
    have hanswer := Cursor.answer_nameUnit c
    rw [hrun, hfits] at hanswer
    obtain rfl : a = false := hanswer
    exact ⟨rfl, hn⟩

theorem looks_acceptText {text : String} {k : Nat} (hk : text.toList.length = k) (c : Cursor) :
    Looks (Scan.acceptText text) c
      (Verdict (fun m n => m = k ∧ n = k) fun m n => m = 0 ∧ n ≤ k) := by
  subst hk
  exact (looks_acceptEach c _ text.toList).attempt fun _ _ h => ⟨rfl, h.1⟩

theorem looks_nameLikeOr {other : Scan Lookout Lexeme}
    (hname : ∀ kind m n, m ≤ n → kind.Foresight c.ahead m n →
      (kind.isSelfEnding = true → 4 ≤ m) → R (.token kind) m n)
    (ho : ∀ j, j ≤ 4 → (c.ahead.head? = some '-' → j ≤ 3) →
      Looks other c fun lexeme m n => R lexeme m (max j n)) :
    Looks (do
      match ← Scan.attempt? Scan.nameLike with
      | some kind => return .token kind
      | none => other) c R := by
  have hattempt : Looks (Scan.attempt? Scan.nameLike) c fun kind? m n =>
      match kind? with
      | some kind => kind.Foresight c.ahead m n ∧ (kind.isSelfEnding = true → 4 ≤ m)
      | none => m = 0 ∧ n ≤ 4 ∧ (c.ahead.head? = some '-' → n ≤ 3) := by
    refine .keepIf ((looks_nameLike c).mono fun kind? m n _ _ h => ?_)
    cases kind? with
    | some kind => exact h
    | none => exact ⟨rfl, h⟩
  refine hattempt.bind fun kind? m n hmn _ h => ?_
  cases kind? with
  | some kind =>
    refine .pure ?_
    rw [Nat.add_zero, Nat.max_eq_left hmn]
    exact hname kind m n hmn h.1 h.2
  | none =>
    obtain ⟨rfl, hn, hhyphen⟩ := h
    rw [Cursor.skip_zero]
    refine (ho n hn hhyphen).mono fun lexeme m' n' _ _ hr => ?_
    rwa [Nat.zero_add, Nat.zero_add]

/-- How far a lexeme looks: not behind its end if it ends itself, and else at three code points
there, but for the mark of a quoted URL. -/
theorem looks_lexeme (hc : c.ahead = x :: behind) :
    Looks (Scan.lexeme x) c (Lexeme.Foresight c.ahead) := by
  unfold Scan.lexeme
  split
  case h_1 =>
    refine .branch (looks_acceptText (k := 2) rfl c) ?_ ?_
    · rintro _ _ - - ⟨rfl, rfl⟩
      refine .branch (looks_comment _) ?_ ?_
      · rintro m n - - ⟨hm, hn⟩
        exact .pure (.nothing nofun (by omega))
      · rintro m n - - -
        exact .pure trivial
    · rintro _ n - - ⟨rfl, hn⟩
      rw [Cursor.skip_zero]
      exact looks_single hc (.near rfl nofun (by omega))
  case h_2 =>
    refine (looks_acceptWhile c _).bind ?_
    rintro k _ n - - ⟨rfl, -, hn⟩
    exact .pure (.near rfl nofun (by omega))
  case h_3 =>
    refine .consume_bind hc (.branch (looks_quoted _ _) ?_ ?_)
    · rintro m n - - ⟨hm, hn⟩
      exact .pure (.nothing nofun (by omega))
    · rintro m n - - hn
      exact .pure (.near rfl nofun (by omega))
  case h_4 =>
    refine .consume_bind hc (.branch (looks_nameAhead _) ?_ ?_)
    · rintro _ j - - ⟨rfl, taken, rest, hsplit, hname, hj⟩
      rw [Cursor.skip_zero]
      refine ((looks_name _).takes .name hsplit (Cursor.takes_name hname)).bind ?_
      rintro _ _ n - - ⟨-, rfl, hn⟩
      exact .pure (.near rfl nofun (by omega))
    · rintro _ n - - ⟨rfl, hn⟩
      exact .pure (.near rfl nofun (by omega))
  case h_5 block _ => exact looks_single hc (.nothing (by cases block <;> nofun) (Nat.le_refl 1))
  case h_6 => exact .consume_bind hc (.pure (Nat.le_refl 1))
  case h_10 hl =>
    have hx : isDigit x = false := by
      obtain rfl | rfl : x = '.' ∨ x = '+' := Lead.says_of_eq hl <;> rfl
    refine looks_numericOr hc hx (fun kind m n _ h _ => h) fun n hn => ?_
    exact .near rfl nofun (by omega)
  case h_11 =>
    refine .branch (looks_acceptText (k := 4) rfl c) ?_ ?_
    · rintro _ _ - - ⟨rfl, rfl⟩
      exact .pure (.nothing nofun (by omega))
    · rintro _ n - - ⟨rfl, hn⟩
      rw [Cursor.skip_zero]
      exact looks_single hc (.near rfl nofun (by omega))
  case h_12 =>
    refine .consume_bind hc (.branch (looks_attemptIdentifier _) ?_ ?_)
    · rintro m n - - ⟨hm, hn⟩
      exact .pure (.near rfl nofun (by omega))
    · rintro _ n - - ⟨rfl, hn⟩
      exact .pure (.near rfl nofun (by omega))
  case h_13 hl =>
    have hfits : Pattern.number.fits c.ahead = true := by
      rw [hc, Pattern.fits_number_cons, show isDigit x = true from Lead.says_of_eq hl]
      rfl
    exact .map ((looks_measured hfits).mono fun kind m n _ _ h => h.1)
  case h_14 hl =>
    obtain rfl : x = '-' := Lead.says_of_eq hl
    have hhead : c.ahead.head? = some '-' := by rw [hc, List.head?_cons]
    refine .branch (looks_acceptText (k := 3) rfl c) ?_ ?_
    · rintro _ _ - - ⟨rfl, rfl⟩
      exact .pure (.nothing nofun (by omega))
    · rintro _ i - - ⟨rfl, hi⟩
      rw [Cursor.skip_zero]
      refine looks_nameLikeOr (fun kind m n hmn h hlong => ?_) fun j _ hj => ?_
      · rw [Nat.zero_add, Nat.zero_add]
        exact h.after hmn hi fun hself => Nat.le_of_succ_le (hlong hself)
      · have hj := hj hhead
        refine looks_numericOr hc rfl (fun kind m n hmn h hlong => ?_) fun n hn => ?_
        · rw [Nat.zero_add, Nat.zero_add, ← Nat.max_assoc]
          exact h.after hmn (by omega) hlong
        · exact .near rfl nofun (by omega)
  case h_15 =>
    refine looks_nameLikeOr (fun kind m n _ h _ => h) fun j hj _ => ?_
    exact looks_single hc (.near rfl nofun (by omega))
  all_goals exact looks_single hc (.nothing nofun (Nat.le_refl 1))

end Lexemes

end Lookout
end Stylesheet
