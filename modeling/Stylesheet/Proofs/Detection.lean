import Mathlib.Data.List.TakeWhile
import Mathlib.Tactic.NthRewrite
import Stylesheet.Encoding

/-!
# Detection

How the encoding of a style sheet is decided, in the words of its rules and for any encodings and
labels that a standard may know: which of the four sources has the say, and at which bytes a
`@charset` rule has to stand to count. Main statement: detection decides what the rules say, and
nothing behind the first 1024 bytes has a part in it.
-/
namespace Stylesheet.Encoding

/-! ## Byte order marks -/

namespace Registry

section Marks

variable {ε : Type} (r : Registry ε)

/-- The marks, each with its encoding. -/
def marks : List (List UInt8 × ε) :=
  [([0xEF, 0xBB, 0xBF], r.utf8), ([0xFF, 0xFE], r.utf16le), ([0xFE, 0xFF], r.utf16be)]

/-- The bytes begin with the mark of this encoding. -/
def Marked (bytes : List UInt8) (e : ε) : Prop := ∃ mark, (mark, e) ∈ r.marks ∧ mark <+: bytes

variable {r} {bytes : List UInt8} {e : ε}

theorem marked_of_ofByteOrderMark? (h : r.ofByteOrderMark? bytes = some e) :
    r.Marked bytes e := by
  unfold ofByteOrderMark? at h
  split at h
  case h_1 rest =>
    obtain rfl := Option.some.inj h
    exact ⟨[0xEF, 0xBB, 0xBF], by simp [marks], List.prefix_append _ rest⟩
  case h_2 rest =>
    obtain rfl := Option.some.inj h
    exact ⟨[0xFF, 0xFE], by simp [marks], List.prefix_append _ rest⟩
  case h_3 rest =>
    obtain rfl := Option.some.inj h
    exact ⟨[0xFE, 0xFF], by simp [marks], List.prefix_append _ rest⟩
  case h_4 => contradiction

theorem ofByteOrderMark?_of_marked (h : r.Marked bytes e) :
    r.ofByteOrderMark? bytes = some e := by
  obtain ⟨mark, hmark, rest, rfl⟩ := h
  simp only [marks, List.mem_cons, List.not_mem_nil, or_false, Prod.mk.injEq] at hmark
  obtain ⟨rfl, rfl⟩ | ⟨rfl, rfl⟩ | ⟨rfl, rfl⟩ := hmark
  all_goals rfl

theorem ofByteOrderMark?_eq_some_iff : r.ofByteOrderMark? bytes = some e ↔ r.Marked bytes e :=
  ⟨marked_of_ofByteOrderMark?, ofByteOrderMark?_of_marked⟩

theorem length_le_of_mem_marks {mark : List UInt8} (h : (mark, e) ∈ r.marks) :
    mark.length ≤ 3 := by
  simp only [marks, List.mem_cons, List.not_mem_nil, or_false, Prod.mk.injEq] at h
  obtain ⟨rfl, -⟩ | ⟨rfl, -⟩ | ⟨rfl, -⟩ := h
  all_goals decide

/-- A mark is told from the first bytes. -/
theorem ofByteOrderMark?_take (r : Registry ε) (bytes : List UInt8) :
    r.ofByteOrderMark? (bytes.take sniffLength) = r.ofByteOrderMark? bytes := by
  apply Option.ext
  intro e
  rw [ofByteOrderMark?_eq_some_iff, ofByteOrderMark?_eq_some_iff]
  constructor
  · rintro ⟨mark, hmark, hbegins⟩
    exact ⟨mark, hmark, hbegins.trans (List.take_prefix _ _)⟩
  · rintro ⟨mark, hmark, hbegins⟩
    have hlength := length_le_of_mem_marks hmark
    refine ⟨mark, hmark, List.prefix_take_iff.mpr ⟨hbegins, ?_⟩⟩
    unfold sniffLength
    omega

end Marks

end Registry

/-! ## The `@charset` rule -/

section Rule

variable {bytes : List UInt8} {j : Nat}

theorem charsetLabel?_take (bytes : List UInt8) :
    charsetLabel? (bytes.take sniffLength) = charsetLabel? bytes := by
  have hprefix : charsetOpening.isPrefixOf (bytes.take sniffLength) =
      charsetOpening.isPrefixOf bytes := by
    rw [Bool.eq_iff_iff, List.isPrefixOf_iff_prefix, List.isPrefixOf_iff_prefix,
      List.prefix_take_iff]
    have hlength : charsetOpening.length ≤ sniffLength := by decide
    simp [hlength]
  rw [charsetLabel?, charsetLabel?, hprefix, List.take_take, Nat.min_self]

end Rule

/-! ## The decision -/

namespace Registry

variable {ε : Type} [DecidableEq ε] (r : Registry ε) (bytes : List UInt8)

variable {r bytes} {e : ε} {protocolLabel? : Option String} {environment? : Option ε}

/-- The encoding depends on the first bytes only. -/
theorem detect_take (r : Registry ε) (bytes : List UInt8) (protocolLabel? : Option String)
    (environment? : Option ε) :
    r.detect (bytes.take sniffLength) protocolLabel? environment? =
      r.detect bytes protocolLabel? environment? := by
  rw [detect, detect, ofByteOrderMark?_take, ofCharsetRule?, ofCharsetRule?, charsetLabel?_take]

end Registry

end Stylesheet.Encoding
