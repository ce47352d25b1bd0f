import Mathlib.Data.List.Induction
import Stylesheet.Encoding.Decoder

/-!
# Decoding in pieces

A decoder that is given bytes in any pieces, and room of any size, writes the text that decoding
them all at once gives. The state of a decoder says what the bytes still to come stand for, so that
each scheme is one induction over these bytes. Main statement: the library of this project is
faithful.
-/
namespace Stylesheet

open Encoding

namespace Decoder

namespace State

/-- What bytes and the end behind them stand for, after what has been read already. -/
def text (s : State) : List UInt8 → List Char
  | [] => s.finish
  | b :: rest => (s.step b).1 ++ (s.step b).2.text rest

@[simp] theorem text_nil (s : State) : s.text [] = s.finish := rfl

@[simp] theorem text_cons (s : State) (b : UInt8) (rest : List UInt8) :
    s.text (b :: rest) = (s.step b).1 ++ (s.step b).2.text rest := rfl

/-! ## The schemes -/

/-- Between sequences UTF-8 goes on as it began, and within one it closes the sequence first. -/
theorem text_utf8 (bytes : List UInt8) :
    (utf8 none).text bytes = Utf8.decode bytes ∧
      ∀ s : Utf8.Sequence,
        (utf8 (some s)).text bytes = (s.close bytes).1 :: Utf8.decode (s.close bytes).2 := by
  induction bytes with
  | nil =>
    refine ⟨?_, fun s => ?_⟩
    · simp [finish, Utf8.finish, Utf8.decode]
    · simp [finish, Utf8.finish, Utf8.Sequence.close, Utf8.decode]
  | cons b rest ih =>
    obtain ⟨hnone, hsome⟩ := ih
    have hbegin : (Utf8.begin b).1 ++ (utf8 (Utf8.begin b).2).text rest =
        Utf8.decode (b :: rest) := by
      rw [Utf8.begin, Utf8.decode]
      cases Utf8.Lead.of b with
      | complete c => simp [hnone]
      | opens s => simp [hsome]
      | invalid => simp [hnone]
    refine ⟨?_, fun s => ?_⟩
    · rw [text_cons]
      exact hbegin
    · rw [text_cons]
      simp only [step, Utf8.step, Utf8.Sequence.close]
      cases s.continue b with
      | complete c => simp [hnone]
      | opens s => simp [hsome]
      | broken => simp [hbegin]

/-- What the bytes behind a high surrogate stand for together with it. -/
def afterHigh (order : ByteOrder) (high : Nat) : List UInt8 → List Char
  | first :: second :: rest =>
    if Utf16.isLowSurrogate (Utf16.unit order first second) then
      Utf16.pair high (Utf16.unit order first second) :: Utf16.decode order rest
    else replacementChar :: Utf16.decode order (first :: second :: rest)
  | _ => [replacementChar]

theorem decode_utf16_cons (order : ByteOrder) (first second : UInt8) (rest : List UInt8) :
    Utf16.decode order (first :: second :: rest) =
      if Utf16.isHighSurrogate (Utf16.unit order first second) then
        afterHigh order (Utf16.unit order first second) rest
      else if Utf16.isLowSurrogate (Utf16.unit order first second) then
        replacementChar :: Utf16.decode order rest
      else Char.ofNat (Utf16.unit order first second) :: Utf16.decode order rest := by
  rw [Utf16.decode.eq_def]
  dsimp only
  obtain _ | ⟨third, _ | ⟨fourth, rest⟩⟩ := rest <;> rfl

theorem step_utf16_first (order : ByteOrder) (high? : Option Nat) (b : UInt8) :
    (utf16 order ⟨none, high?⟩).step b = ([], utf16 order ⟨some b, high?⟩) := rfl

theorem step_utf16_second (order : ByteOrder) (high? : Option Nat) (first b : UInt8) :
    (utf16 order ⟨some first, high?⟩).step b =
      ((Utf16.stepUnit high? (Utf16.unit order first b)).1,
        utf16 order ⟨none, (Utf16.stepUnit high? (Utf16.unit order first b)).2⟩) := rfl

/-- UTF-16 goes by units of two bytes, and may have set a high surrogate aside between two. -/
theorem text_utf16 (order : ByteOrder) (bytes : List UInt8) :
    (utf16 order ⟨none, none⟩).text bytes = Utf16.decode order bytes ∧
      ∀ high, (utf16 order ⟨none, some high⟩).text bytes = afterHigh order high bytes := by
  induction bytes using List.twoStepInduction with
  | nil =>
    refine ⟨?_, fun high => ?_⟩
    · simp [finish, Utf16.finish, Utf16.decode]
    · simp [finish, Utf16.finish, afterHigh]
  | singleton b =>
    refine ⟨?_, fun high => ?_⟩
    · simp [step_utf16_first, finish, Utf16.finish, Utf16.decode]
    · simp [step_utf16_first, finish, Utf16.finish, afterHigh]
  | cons_cons first second rest ih _ =>
    obtain ⟨hnone, hsome⟩ := ih
    -- A unit that no high surrogate stands before.
    have hbegin (u : Nat) (hu : u = Utf16.unit order first second) :
        (Utf16.beginUnit u).1 ++ (utf16 order ⟨none, (Utf16.beginUnit u).2⟩).text rest =
          Utf16.decode order (first :: second :: rest) := by
      rw [decode_utf16_cons, Utf16.beginUnit, ← hu]
      by_cases hhigh : Utf16.isHighSurrogate u = true
      · simp [hhigh, hsome]
      · by_cases hlow : Utf16.isLowSurrogate u = true
        · simp [hhigh, hlow, hnone]
        · simp [hhigh, hlow, hnone]
    refine ⟨?_, fun high => ?_⟩
    · rw [text_cons, step_utf16_first, text_cons, step_utf16_second]
      exact hbegin _ rfl
    · rw [text_cons, step_utf16_first, text_cons, step_utf16_second, List.nil_append]
      simp only [Utf16.stepUnit, afterHigh]
      by_cases hlow : Utf16.isLowSurrogate (Utf16.unit order first second) = true
      · simp [hlow, hnone]
      · simp [hlow, hbegin _ rfl]

theorem text_table (char : UInt8 → Char) (bytes : List UInt8) :
    (table char).text bytes = bytes.map char := by
  induction bytes with
  | nil => rfl
  | cons b rest ih => simp [step, ih]

theorem text_refused (bytes : List UInt8) : (refused true).text bytes = [] := by
  induction bytes with
  | nil => rfl
  | cons b rest ih => simp [step, ih]

/-- A byte at a time comes to the same as all at once. -/
theorem text_ofScheme (scheme : Scheme) (bytes : List UInt8) :
    (ofScheme scheme).text bytes = scheme.decode bytes := by
  cases scheme with
  | utf8 => exact (text_utf8 bytes).1
  | utf16 order => exact (text_utf16 order bytes).1
  | table char => exact text_table char bytes
  | refused =>
    cases bytes with
    | nil => rfl
    | cons b rest => simp [ofScheme, step, text_refused, Scheme.decode]

end State

/-! ## The byte order mark -/

theorem dropByteOrderMark_append (c : Char) (rest more : List Char) :
    dropByteOrderMark (c :: rest) ++ more = dropByteOrderMark (c :: rest ++ more) := by
  rw [List.cons_append, dropByteOrderMark, dropByteOrderMark]
  split
  · rfl
  · rfl

/-- What bytes and the end behind them are still to be handed out as. -/
def text (d : Decoder) : List UInt8 → List Char
  | [] => d.flush.1
  | b :: rest => (d.step b).1 ++ (d.step b).2.text rest

/-- The mark is dropped once, from the first code point there is. -/
theorem text_eq (d : Decoder) (bytes : List UInt8) :
    d.text bytes =
      if d.atStart then dropByteOrderMark (d.state.text bytes) else d.state.text bytes := by
  induction bytes generalizing d with
  | nil =>
    rw [text, flush, handOut, State.text_nil]
    split
    · rfl
    · rfl
  | cons b rest ih =>
    rw [text, ih, step, handOut, State.text_cons]
    cases hstart : d.atStart with
    | false => simp
    | true =>
      cases hchars : (d.state.step b).1 with
      | nil => simp [dropByteOrderMark]
      | cons c chars => simpa using dropByteOrderMark_append c chars _

theorem text_ofEncoding (e : Encoding) (bytes : List UInt8) :
    (ofEncoding e).text bytes = e.decode bytes := by
  rw [text_eq, ofEncoding, State.text_ofScheme]
  rfl

/-! ## Calls -/

/-- A call that is not the last writes what the bytes that it reads come to, whether or not there
is room for the others. -/
theorem text_decode (d : Decoder) (bytes : List UInt8) (room : Nat) (more : List UInt8) :
    d.text (bytes.take (d.decode false bytes room).read ++ more) =
      (d.decode false bytes room).chars ++ (d.decode false bytes room).decoder.text more := by
  induction bytes generalizing d room with
  | nil => rfl
  | cons b rest ih =>
    rw [decode]
    split
    case isTrue hroom =>
      dsimp only
      rw [List.take_succ_cons, List.cons_append, text, ih, List.append_assoc]
    case isFalse hroom => rfl

/-- Without room for the second code point the second byte is not read. -/
example : ((ofEncoding .utf8).decode true [0x61, 0x62] 1).result = .outputFull ∧
    ((ofEncoding .utf8).decode true [0x61, 0x62] 1).read = 1 ∧
    ((ofEncoding .utf8).decode true [0x61, 0x62] 1).chars = ['a'] := by
  decide +kernel

/-- The last call writes all that is left. -/
theorem chars_decode {d : Decoder} {bytes : List UInt8} {room : Nat}
    (h : (d.decode true bytes room).result = .inputEmpty) :
    (d.decode true bytes room).chars = d.text bytes := by
  induction bytes generalizing d room with
  | nil =>
    rw [decode, if_pos rfl] at h ⊢
    split at h
    case isTrue hroom =>
      rw [if_pos hroom]
      rfl
    case isFalse hroom => contradiction
  | cons b rest ih =>
    rw [decode] at h ⊢
    split at h
    case isTrue hroom =>
      rw [if_pos hroom, text]
      exact congrArg ((d.step b).1 ++ ·) (ih h)
    case isFalse hroom => contradiction

/-- What a decoder has written goes on with what it still makes of the bytes behind. -/
theorem text_fed {e : Encoding} {given : List UInt8} {written : List Char} {d : Decoder}
    (h : library.Fed e given written d) (more : List UInt8) :
    e.decode (given ++ more) = written ++ d.text more := by
  induction h generalizing more with
  | new => exact (text_ofEncoding e more).symm
  | @call given written d h bytes room ih =>
    rw [List.append_assoc, ih, List.append_assoc]
    exact congrArg (written ++ ·) (text_decode d bytes room more)

end Decoder

/-- The decoders of this library may be given the bytes in any pieces. -/
theorem Encoding.library_faithful : library.Faithful := by
  intro e given written d h bytes room hresult
  have hlast : (library.decode d bytes room true).chars = d.text bytes :=
    Decoder.chars_decode hresult
  rw [hlast]
  exact (Decoder.text_fed h bytes).symm

end Stylesheet
