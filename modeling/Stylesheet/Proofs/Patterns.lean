import Stylesheet.Lexeme.Lead

/-!
# What comes next

What a scanner decides by looking ahead is whether the text begins with a few code points of
certain classes. A pattern lists the sequences of classes that will do. No pattern looks past a
delimiter, such as a bracket or a quote, so a delimiter settles every question asked in front of
it. `Tamer` compares two texts by the questions that can be asked of them. Main statements: the end
of the input answers no to all of them, and what is written behind a delimiter changes no answer.
-/
namespace Stylesheet

open CodePoint

/-- The text begins with a code point of each of these classes in turn. -/
def begins : List (Char → Bool) → List Char → Bool
  | [], _ => true
  | _ :: _, [] => false
  | p :: ps, c :: cs => p c && begins ps cs

theorem begins_append {ps : List (Char → Bool)} {cs : List Char} (h : begins ps cs = true)
    (more : List Char) : begins ps (cs ++ more) = true := by
  induction ps generalizing cs with
  | nil => rfl
  | cons p ps ih =>
    cases cs with
    | nil => contradiction
    | cons c cs =>
      obtain ⟨hc, hcs⟩ := Bool.and_eq_true_iff.mp h
      exact Bool.and_eq_true_iff.mpr ⟨hc, ih hcs⟩

/-- A text that does not go as far as the classes do holds code points of all but the last. -/
theorem begins_of_append {ps : List (Char → Bool)} {cs more : List Char}
    (h : begins ps (cs ++ more) = true) :
    begins ps cs = true ∨ ∀ c ∈ cs, ∃ p ∈ ps.dropLast, p c = true := by
  induction ps generalizing cs with
  | nil => exact .inl rfl
  | cons p ps ih =>
    cases cs with
    | nil => exact .inr nofun
    | cons c cs =>
      obtain ⟨hc, hcs⟩ := Bool.and_eq_true_iff.mp h
      cases ps with
      | nil => exact .inl (Bool.and_eq_true_iff.mpr ⟨hc, rfl⟩)
      | cons q ps =>
        obtain hbegins | hall := ih hcs
        · exact .inl (Bool.and_eq_true_iff.mpr ⟨hc, hbegins⟩)
        · refine .inr fun x hx => ?_
          rw [List.dropLast_cons_cons]
          obtain rfl | hx := List.mem_cons.mp hx
          · exact ⟨p, List.mem_cons_self, hc⟩
          · obtain ⟨r, hr, hrx⟩ := hall x hx
            exact ⟨r, List.mem_cons_of_mem p hr, hrx⟩

/-- Sequences of classes, of which one is enough. -/
abbrev Pattern := List (List (Char → Bool))

namespace Pattern

/-- The text begins in one of the ways of the pattern. -/
def fits (pattern : Pattern) (cs : List Char) : Bool := pattern.any (begins · cs)

/-- The empty sequence, which any text begins with. -/
def anything : Pattern := [[]]

/-- A code point of the class. -/
def one (p : Char → Bool) : Pattern := [[p]]

/-- A code point of the class and then the pattern. -/
def after (p : Char → Bool) (pattern : Pattern) : Pattern := pattern.map (p :: ·)

/-- These code points. -/
def text : List Char → Pattern
  | [] => anything
  | c :: cs => after (· = c) (text cs)

def escape : Pattern := after (· = '\\') (one (!isNewline ·))

/-- What a name goes on with. -/
def nameUnit : Pattern := one isNameChar ++ escape

/-- What a name begins with, if it does not begin with a hyphen. -/
def nameStart : Pattern := one isNameStart ++ escape

/-- What a hyphen goes on with, if it begins an identifier. -/
def hyphenated : Pattern := one (· = '-') ++ nameStart

def identifier : Pattern := nameStart ++ after (· = '-') hyphenated

def fraction : Pattern := after (· = '.') (one isDigit)

def unsigned : Pattern := one isDigit ++ fraction

/-- The pattern, a sign before it or none. -/
def signed (pattern : Pattern) : Pattern := pattern ++ after isSign pattern

def number : Pattern := signed unsigned

def exponent : Pattern := after isExponentMark (signed (one isDigit))

/-- What a string goes on with. -/
def quoted (quote : Char) : Pattern :=
  one (fun c => c ≠ quote && c ≠ '\\' && c ≠ '\n') ++
    after (· = '\\') (one fun c => c = '\n' || !isNewline c)

theorem fits_append {pattern : Pattern} {cs : List Char} (h : pattern.fits cs = true)
    (more : List Char) : pattern.fits (cs ++ more) = true := by
  obtain ⟨ps, hps, hbegins⟩ := List.any_eq_true.mp h
  exact List.any_eq_true.mpr ⟨ps, hps, begins_append hbegins more⟩

@[simp] theorem fits_one_nil (p : Char → Bool) : (one p).fits [] = false := rfl

@[simp] theorem fits_one_cons (p : Char → Bool) (c : Char) (cs : List Char) :
    (one p).fits (c :: cs) = p c := by
  simp [one, fits, begins]

theorem fits_one_eq (p : Char → Bool) (cs : List Char) : (one p).fits cs = cs.head?.any p := by
  cases cs <;> simp

theorem fits_one_iff (x : Char) (cs : List Char) :
    (one (· = x)).fits cs = true ↔ cs.head? = some x := by
  cases cs <;> simp

theorem fits_one_eq_false_iff (x : Char) (cs : List Char) :
    (one (· = x)).fits cs = false ↔ cs.head? ≠ some x := by
  rw [Bool.eq_false_iff, ne_eq, fits_one_iff]

theorem takeWhile_eq_nil {p : Char → Bool} {cs : List Char} (h : (one p).fits cs = false) :
    cs.takeWhile p = [] := by
  cases cs with
  | nil => rfl
  | cons c cs =>
    rw [fits_one_cons] at h
    simp [h]

@[simp] theorem fits_either (pattern other : Pattern) (cs : List Char) :
    fits (pattern ++ other) cs = (pattern.fits cs || other.fits cs) :=
  List.any_append

@[simp] theorem fits_after_nil (p : Char → Bool) (pattern : Pattern) :
    (after p pattern).fits [] = false := by
  simp [after, fits, begins]

@[simp] theorem fits_after_cons (p : Char → Bool) (pattern : Pattern) (c : Char)
    (cs : List Char) : (after p pattern).fits (c :: cs) = (p c && pattern.fits cs) := by
  induction pattern with
  | nil => simp [fits, after]
  | cons ps pattern ih =>
    simp only [fits, after, List.map_cons, List.any_cons, begins] at ih ⊢
    rw [ih, Bool.and_or_distrib_left]

theorem fits_text_iff (text' cs : List Char) : (text text').fits cs = true ↔ text' <+: cs := by
  induction text' generalizing cs with
  | nil => simp [text, anything, fits, begins]
  | cons x text' ih =>
    cases cs with
    | nil => rw [text, fits_after_nil]; simp
    | cons c cs =>
      rw [text, fits_after_cons, Bool.and_eq_true_iff, decide_eq_true_iff, ih,
        List.cons_prefix_cons, eq_comm]

theorem fits_text_eq_false_iff (text' cs : List Char) :
    (text text').fits cs = false ↔ ¬ text' <+: cs := by
  rw [Bool.eq_false_iff, ne_eq, fits_text_iff]

theorem fits_escape_of_ne {c : Char} (h : c ≠ '\\') (cs : List Char) :
    escape.fits (c :: cs) = false := by
  rw [escape, fits_after_cons]
  simp [h]

theorem fits_identifier_hyphen (cs : List Char) :
    identifier.fits ('-' :: cs) = hyphenated.fits cs := by
  rw [identifier, nameStart, escape, fits_either, fits_either, fits_one_cons, fits_after_cons,
    fits_after_cons]
  rfl

theorem fits_identifier_backslash (cs : List Char) :
    identifier.fits ('\\' :: cs) = (one (!isNewline ·)).fits cs := by
  rw [identifier, nameStart, escape, fits_either, fits_either, fits_one_cons, fits_after_cons,
    fits_after_cons]
  exact Bool.or_false _

/-- An identifier begins with a hyphen, or like a name. -/
theorem lead_of_fits_identifier {x : Char} {cs : List Char}
    (h : identifier.fits (x :: cs) = true) : x = '-' ∨ x = '\\' ∨ isNameStart x = true := by
  simp only [identifier, nameStart, escape, fits_either, fits_one_cons, fits_after_cons,
    Bool.or_eq_true, Bool.and_eq_true, decide_eq_true_eq] at h
  obtain (hstart | ⟨hescape, -⟩) | ⟨hhyphen, -⟩ := h
  · exact .inr (.inr hstart)
  · exact .inr (.inl hescape)
  · exact .inl hhyphen

/-- So no other code point comes where an identifier does. -/
theorem fits_one_of_identifier {x : Char} {cs : List Char} (h : identifier.fits cs = true)
    (hh : x ≠ '-') (hb : x ≠ '\\') (hs : isNameStart x = false) :
    (one (· = x)).fits cs = false := by
  cases cs with
  | nil => rfl
  | cons y cs =>
    have hne : y ≠ x := by
      obtain rfl | rfl | hstart := lead_of_fits_identifier h
      · exact hh.symm
      · exact hb.symm
      · exact ne_of_class hstart hs
    simp [hne]

theorem fits_number_cons (x : Char) (cs : List Char) :
    number.fits (x :: cs) =
      (isDigit x || x = '.' && (one isDigit).fits cs || isSign x && unsigned.fits cs) := by
  rw [number, signed, unsigned, fraction, fits_either, fits_either, fits_one_cons,
    fits_after_cons, fits_after_cons]

theorem fits_number_point (cs : List Char) : number.fits ('.' :: cs) = (one isDigit).fits cs := by
  rw [fits_number_cons]
  exact Bool.or_false _

theorem fits_number_sign {x : Char} (hx : isSign x = true) (cs : List Char) :
    number.fits (x :: cs) = unsigned.fits cs := by
  have hpoint : x ≠ '.' := ne_of_class hx (by decide)
  rw [fits_number_cons, isDigit_of_isSign hx, hx]
  simp [hpoint]

/-- A hyphen does not begin both an identifier and a number. -/
theorem fits_hyphenated_of_unsigned {cs : List Char} (h : unsigned.fits cs = true) :
    hyphenated.fits cs = false := by
  cases cs with
  | nil => rfl
  | cons x cs =>
    have hx : isDigit x = true ∨ x = '.' ∧ (one isDigit).fits cs = true := by
      simpa [unsigned, fraction] using h
    obtain hdigit | ⟨rfl, -⟩ := hx
    · have hn : x ≠ '-' ∧ x ≠ '\\' :=
        ⟨ne_of_class hdigit (by decide), ne_of_class hdigit (by decide)⟩
      have hstart : isNameStart x = false := by
        rw [Bool.eq_false_iff]
        intro hstart
        rw [isDigit_of_isNameStart hstart] at hdigit
        contradiction
      simp [hyphenated, nameStart, escape, hn, hstart]
    · rfl

/-! ## Delimiters -/

/-- A code point that scanners do not look past. -/
def isDelimiter (c : Char) : Bool :=
  c ∈ [',', ':', ';', '(', ')', '[', ']', '{', '}', '"', '\'', '/', '<', '>', '%']

/-- The class holds no delimiter. -/
def Inert (p : Char → Bool) : Prop := ∀ c, p c = true → isDelimiter c = false

/-- Nothing but the last code point of what the pattern looks at can be a delimiter. -/
def Shallow (pattern : Pattern) : Prop := ∀ ps ∈ pattern, ∀ p ∈ ps.dropLast, Inert p

theorem inert_of_eq {x : Char} (h : isDelimiter x = false) : Inert (· = x) := by
  intro c hc
  obtain rfl : c = x := by simpa using hc
  exact h

theorem inert_isSign : Inert isSign := by
  intro c hc
  obtain rfl | rfl : c = '+' ∨ c = '-' := by simpa [isSign] using hc
  · decide
  · decide

theorem inert_isExponentMark : Inert isExponentMark := by
  intro c hc
  obtain rfl | rfl : c = 'e' ∨ c = 'E' := by simpa [isExponentMark] using hc
  · decide
  · decide

theorem Shallow.either {pattern other : Pattern} (h : pattern.Shallow) (ho : other.Shallow) :
    Shallow (pattern ++ other) := by
  intro ps hps
  obtain hps | hps := List.mem_append.mp hps
  · exact h ps hps
  · exact ho ps hps

theorem Shallow.after {p : Char → Bool} {pattern : Pattern} (hp : Inert p)
    (h : pattern.Shallow) : Shallow (after p pattern) := by
  intro ps hps q hq
  obtain ⟨rest, hrest, rfl⟩ := List.mem_map.mp hps
  cases rest with
  | nil => simp at hq
  | cons r rest =>
    rw [List.dropLast_cons_cons] at hq
    obtain rfl | hq := List.mem_cons.mp hq
    · exact hp
    · exact h _ hrest q hq

theorem shallow_one (p : Char → Bool) : Shallow (one p) := by simp [Shallow, one]

theorem shallow_anything : Shallow anything := by simp [Shallow, anything]

theorem shallow_text {cs : List Char} (h : cs.dropLast.all (!isDelimiter ·) = true) :
    Shallow (text cs) := by
  induction cs with
  | nil => exact shallow_anything
  | cons c cs ih =>
    cases cs with
    | nil => simp [text, after, anything, Shallow]
    | cons d cs =>
      rw [List.dropLast_cons_cons, List.all_cons, Bool.and_eq_true_iff] at h
      exact .after (inert_of_eq (by simpa using h.1)) (ih h.2)

theorem shallow_escape : Shallow escape := .after (inert_of_eq (by decide)) (shallow_one _)

theorem shallow_nameUnit : Shallow nameUnit := (shallow_one _).either shallow_escape

theorem shallow_nameStart : Shallow nameStart := (shallow_one _).either shallow_escape

theorem shallow_hyphenated : Shallow hyphenated := (shallow_one _).either shallow_nameStart

theorem shallow_identifier : Shallow identifier :=
  shallow_nameStart.either (.after (inert_of_eq (by decide)) shallow_hyphenated)

theorem shallow_fraction : Shallow fraction := .after (inert_of_eq (by decide)) (shallow_one _)

theorem shallow_unsigned : Shallow unsigned := (shallow_one _).either shallow_fraction

theorem Shallow.signed {pattern : Pattern} (h : pattern.Shallow) : Shallow (signed pattern) :=
  h.either (.after inert_isSign h)

theorem shallow_exponent : Shallow exponent :=
  .after inert_isExponentMark (.signed (shallow_one _))

theorem shallow_quoted (quote : Char) : Shallow (quoted quote) :=
  (shallow_one _).either (.after (inert_of_eq (by decide)) (shallow_one _))

/-- Without a delimiter in it, a text may leave the answer open. With one it does not. -/
theorem Shallow.fits_of_append {pattern : Pattern} (h : pattern.Shallow) {cs more : List Char}
    (hd : ∃ c ∈ cs, isDelimiter c = true) (hfits : pattern.fits (cs ++ more) = true) :
    pattern.fits cs = true := by
  obtain ⟨ps, hps, hbegins⟩ := List.any_eq_true.mp hfits
  obtain hcs | hall := begins_of_append hbegins
  · exact List.any_eq_true.mpr ⟨ps, hps, hcs⟩
  · obtain ⟨c, hc, hdelimiter⟩ := hd
    obtain ⟨p, hp, hpc⟩ := hall c hc
    rw [h ps hps p hp c hpc] at hdelimiter
    contradiction

end Pattern

/-! ## Tamer texts -/

/-- Whatever stands before it, `tamer` gives scanners no more to go on with than `rest` does. -/
def Tamer (tamer rest : List Char) : Prop :=
  ∀ (pattern : Pattern), pattern.Shallow → ∀ before,
    pattern.fits (before ++ tamer) = true → pattern.fits (before ++ rest) = true

namespace Tamer

theorem nil (rest : List Char) : Tamer [] rest := by
  intro pattern _ before h
  rw [List.append_nil] at h
  exact Pattern.fits_append h rest

/-- What is written behind a text with a delimiter in it. -/
theorem append {rest : List Char} (h : ∃ c ∈ rest, Pattern.isDelimiter c = true)
    (more : List Char) : Tamer (rest ++ more) rest := by
  obtain ⟨c, hc, hdelimiter⟩ := h
  intro pattern hp before hfits
  rw [← List.append_assoc] at hfits
  exact hp.fits_of_append ⟨c, List.mem_append_right before hc, hdelimiter⟩ hfits

/-- Behind a delimiter anything will do. -/
theorem delimiter {x : Char} (hx : Pattern.isDelimiter x = true) (tamer rest : List Char) :
    Tamer (x :: tamer) (x :: rest) := by
  intro pattern hp before hfits
  rw [List.append_cons] at hfits ⊢
  have hx : ∃ c ∈ before ++ [x], Pattern.isDelimiter c = true := ⟨x, by simp, hx⟩
  exact Pattern.fits_append (hp.fits_of_append hx hfits) rest

variable {tamer rest : List Char}

theorem behind (h : Tamer tamer rest) (cs : List Char) : Tamer (cs ++ tamer) (cs ++ rest) := by
  intro pattern hp before hfits
  rw [← List.append_assoc] at hfits ⊢
  exact h pattern hp (before ++ cs) hfits

theorem fits_eq_false (h : Tamer tamer rest) {pattern : Pattern} (hp : pattern.Shallow)
    (hfits : pattern.fits rest = false) : pattern.fits tamer = false := by
  rw [Bool.eq_false_iff] at hfits ⊢
  exact fun htamer => hfits (h pattern hp [] htamer)

/-- Nothing is tamer than the end of the input but the end itself. -/
theorem eq_nil (h : Tamer tamer []) : tamer = [] := by
  have hfits := h.fits_eq_false (Pattern.shallow_one fun _ => true) rfl
  cases tamer with
  | nil => rfl
  | cons c cs => simp at hfits

end Tamer
end Stylesheet
