/-!
# Classes of code points

The character classes that the lexical grammar of style sheets is written in. All of them are
ASCII sets, except that every non-ASCII code point may start and continue a name.
-/
namespace Stylesheet.CodePoint

/-- A code point outside ASCII. -/
def isNonAscii (c : Char) : Bool := 0x80 ≤ c.toNat

/-- A code point that ends a line, before line endings are normalized. -/
def isNewline (c : Char) : Bool := c = '\n' || c = '\r' || c = '\x0c'

def isWhitespace (c : Char) : Bool := c = ' ' || c = '\t' || isNewline c

def isQuote (c : Char) : Bool := c = '"' || c = '\''

def isDigit (c : Char) : Bool := '0' ≤ c && c ≤ '9'

def isHexDigit (c : Char) : Bool :=
  isDigit c || ('a' ≤ c && c ≤ 'f') || ('A' ≤ c && c ≤ 'F')

def isLetter (c : Char) : Bool := ('a' ≤ c && c ≤ 'z') || ('A' ≤ c && c ≤ 'Z')

def isSign (c : Char) : Bool := c = '+' || c = '-'

/-- The mark in front of the exponent of a number. -/
def isExponentMark (c : Char) : Bool := c = 'e' || c = 'E'

/-- A code point that may start a name. -/
def isNameStart (c : Char) : Bool := isLetter c || c = '_' || isNonAscii c

/-- A code point that may continue a name. -/
def isNameChar (c : Char) : Bool := isNameStart c || isDigit c || c = '-'

/-- A control code that no unquoted URL may hold. Tab, LF, FF and CR are whitespace and are
not counted here. -/
def isNonPrintable (c : Char) : Bool :=
  c.toNat ≤ 0x08 || c = '\x0b' || (0x0e ≤ c.toNat && c.toNat ≤ 0x1f) || c = '\x7f'

/-- A code point that stands for itself in an unquoted URL. -/
def isUrlChar (c : Char) : Bool :=
  !(isWhitespace c || isQuote c || c = '(' || c = ')' || c = '\\' || isNonPrintable c)

/-- Equality up to the case of ASCII letters. -/
def sameIgnoringCase (a b : Char) : Bool := a.toLower = b.toLower

theorem isNameChar_of_isNameStart {c : Char} (h : isNameStart c = true) :
    isNameChar c = true := by
  simp [isNameChar, h]

theorem isNameStart_of_isLetter {c : Char} (h : isLetter c = true) : isNameStart c = true := by
  simp [isNameStart, h]

/-- A code point of a class is none that the class leaves out. -/
theorem ne_of_class {p : Char → Bool} {c x : Char} (hc : p c = true) (hx : p x = false) :
    c ≠ x := by
  rintro rfl
  rw [hc] at hx
  contradiction

theorem isNewline_of_class {p : Char → Bool} {c : Char} (hc : p c = true)
    (hn : p '\n' = false) (hr : p '\r' = false) (hf : p '\x0c' = false) :
    isNewline c = false := by
  simp [isNewline, ne_of_class hc hn, ne_of_class hc hr, ne_of_class hc hf]

theorem isWhitespace_of_class {p : Char → Bool} {c : Char} (hc : p c = true)
    (hs : p ' ' = false) (ht : p '\t' = false) (hn : p '\n' = false) (hr : p '\r' = false)
    (hf : p '\x0c' = false) : isWhitespace c = false := by
  simp [isWhitespace, ne_of_class hc hs, ne_of_class hc ht, isNewline_of_class hc hn hr hf]

theorem isQuote_of_class {p : Char → Bool} {c : Char} (hc : p c = true) (hd : p '"' = false)
    (hs : p '\'' = false) : isQuote c = false := by
  simp [isQuote, ne_of_class hc hd, ne_of_class hc hs]

theorem isDigit_of_isSign {c : Char} (h : isSign c = true) : isDigit c = false := by
  obtain rfl | rfl : c = '+' ∨ c = '-' := by simpa [isSign] using h
  · decide
  · decide

theorem isDigit_of_isNameStart {c : Char} (h : isNameStart c = true) : isDigit c = false := by
  rw [Bool.eq_false_iff]
  intro hd
  simp only [isDigit, isNameStart, isLetter, isNonAscii, Bool.or_eq_true, Bool.and_eq_true,
    decide_eq_true_eq, Char.le_def, UInt32.le_iff_toNat_le, Char.toNat] at h hd
  have h0 : '0'.val.toNat = 48 := rfl
  have h9 : '9'.val.toNat = 57 := rfl
  have ha : 'a'.val.toNat = 97 := rfl
  have hA : 'A'.val.toNat = 65 := rfl
  obtain (hletter | rfl) | hn := h
  · omega
  · have h_ : '_'.val.toNat = 95 := rfl
    omega
  · omega

/-- Only a letter is the lower case of anything but itself, and that is a letter too. -/
theorem toLower_eq_self_or (c : Char) :
    c.toLower = c ∨ isLetter c = true ∧ isLetter c.toLower = true := by
  by_cases h : c.val ≥ 'A'.val ∧ c.val ≤ 'Z'.val
  · have hlower : c.toLower.val = c.val + ('a'.val - 'A'.val) := congrArg Char.val (dif_pos h)
    refine .inr ⟨by simp_all [isLetter, Char.le_def], ?_⟩
    have hle : c.val.toNat ≤ 90 := h.2
    have hge : 65 ≤ c.val.toNat := h.1
    have hval : (c.val + ('a'.val - 'A'.val)).toNat = c.val.toNat + 32 := by
      rw [UInt32.toNat_add]
      have : ('a'.val - 'A'.val).toNat = 32 := rfl
      omega
    have ha : 'a'.val.toNat = 97 := rfl
    have hz : 'z'.val.toNat = 122 := rfl
    simp only [isLetter, Char.le_def, UInt32.le_iff_toNat_le, hlower, hval, Bool.or_eq_true,
      Bool.and_eq_true, decide_eq_true_eq]
    omega
  · exact .inl (dif_neg h)

theorem isLetter_of_toLower {c x : Char} (h : c.toLower = x) (hx : isLetter x = true) :
    isLetter c = true := by
  obtain hself | ⟨hc, -⟩ := toLower_eq_self_or c
  · rwa [← hself, h]
  · exact hc

theorem eq_of_toLower {c x : Char} (h : c.toLower = x) (hx : isLetter x = false) : c = x := by
  obtain hself | ⟨-, hlower⟩ := toLower_eq_self_or c
  · rw [← hself, h]
  · rw [h, hx] at hlower
    contradiction

end Stylesheet.CodePoint
