import Stylesheet.Proofs.Simulation

/-!
# Cursors

The plainest source: a text that is all there, an index into it, and the index where the span
begins. Everything else is computed from these. Main statements: a uniform scan only ever moves
the index forward, and one that is undone leaves the cursor as it was.
-/
namespace Stylesheet

/-- How many bytes code points take in UTF-8. -/
def utf8Length (cs : List Char) : Nat := (String.ofList cs).utf8ByteSize

@[simp] theorem utf8Length_nil : utf8Length [] = 0 := rfl

@[simp] theorem utf8Length_append (cs ds : List Char) :
    utf8Length (cs ++ ds) = utf8Length cs + utf8Length ds := by
  simp [utf8Length]

@[simp] theorem utf8Length_cons (c : Char) (cs : List Char) :
    utf8Length (c :: cs) = c.utf8Size + utf8Length cs := by
  simp [utf8Length]

structure Cursor where
  text : List Char
  index : Nat
  spanStart : Nat
  index_le : index ≤ text.length

namespace Cursor

/-- The mark of an index, its offset counted in UTF-8. -/
def markAt (text : List Char) (i : Nat) : Mark :=
  ⟨utf8Length (text.take i), Location.start.advanceAll (text.take i)⟩

/-- The index that an offset belongs to. -/
def indexAt : List Char → Nat → Nat
  | [], _ => 0
  | c :: cs, offset => if offset = 0 then 0 else indexAt cs (offset - c.utf8Size) + 1

theorem indexAt_utf8Length (text : List Char) (i : Nat) :
    indexAt text (utf8Length (text.take i)) = min i text.length := by
  induction text generalizing i with
  | nil => simp [indexAt]
  | cons c text ih =>
    cases i with
    | zero => simp [indexAt]
    | succ i =>
      have hc := c.utf8Size_pos
      have hne : c.utf8Size + utf8Length (text.take i) ≠ 0 := by omega
      simp only [List.take_succ_cons, utf8Length_cons, indexAt, if_neg hne,
        Nat.add_sub_cancel_left, ih, List.length_cons]
      omega

def ofText (text : List Char) : Cursor := ⟨text, 0, 0, Nat.zero_le _⟩

def before (c : Cursor) : List Char := c.text.take c.index

def ahead (c : Cursor) : List Char := c.text.drop c.index

/-- What was consumed since text was last taken. -/
def span (c : Cursor) : List Char := c.before.drop c.spanStart

def moveTo (i : Nat) (c : Cursor) : Cursor :=
  { c with index := min i c.text.length, index_le := Nat.min_le_right _ _ }

/-- So many code points further on, at most at the end. -/
def skip (c : Cursor) (n : Nat) : Cursor := c.moveTo (c.index + n)

def peek (c : Cursor) : Option Char := c.text[c.index]?

def consume (c : Cursor) : Option Char × Cursor :=
  match c.peek with
  | none => (none, c)
  | some x => (some x, c.skip 1)

@[ext] theorem ext {c d : Cursor} (ht : c.text = d.text) (hi : c.index = d.index)
    (hs : c.spanStart = d.spanStart) : c = d := by
  cases c
  cases d
  simp_all

/-! ## Moving the index -/

@[simp] theorem text_moveTo (c : Cursor) (i : Nat) : (c.moveTo i).text = c.text := rfl

@[simp] theorem index_moveTo (c : Cursor) (i : Nat) :
    (c.moveTo i).index = min i c.text.length := rfl

@[simp] theorem spanStart_moveTo (c : Cursor) (i : Nat) :
    (c.moveTo i).spanStart = c.spanStart := rfl

@[simp] theorem moveTo_index (c : Cursor) : c.moveTo c.index = c := by
  apply ext
  · rfl
  · exact Nat.min_eq_left c.index_le
  · rfl

@[simp] theorem text_skip (c : Cursor) (n : Nat) : (c.skip n).text = c.text := rfl

@[simp] theorem spanStart_skip (c : Cursor) (n : Nat) : (c.skip n).spanStart = c.spanStart := rfl

@[simp] theorem skip_zero (c : Cursor) : c.skip 0 = c := c.moveTo_index

@[simp] theorem moveTo_skip (c : Cursor) (n i : Nat) : (c.skip n).moveTo i = c.moveTo i := rfl

@[simp] theorem skip_skip (c : Cursor) (m n : Nat) : (c.skip m).skip n = c.skip (m + n) := by
  apply ext
  · rfl
  · have := c.index_le
    simp only [skip, index_moveTo, text_moveTo]
    omega
  · rfl

@[simp] theorem before_append_ahead (c : Cursor) : c.before ++ c.ahead = c.text :=
  List.take_append_drop _ _

theorem length_before (c : Cursor) : c.before.length = c.index := by
  simp [before, Nat.min_eq_left c.index_le]

@[simp] theorem ahead_skip (c : Cursor) (n : Nat) : (c.skip n).ahead = c.ahead.drop n := by
  have hle := c.index_le
  simp only [ahead, skip, index_moveTo, text_moveTo, List.drop_drop]
  by_cases h : c.index + n ≤ c.text.length
  · rw [Nat.min_eq_left h]
  · rw [Nat.min_eq_right (by omega), List.drop_length, List.drop_of_length_le (by omega)]

theorem before_skip (c : Cursor) (n : Nat) : (c.skip n).before = c.before ++ c.ahead.take n := by
  have hle := c.index_le
  simp only [before, ahead, skip, index_moveTo, text_moveTo, ← List.take_add]
  by_cases h : c.index + n ≤ c.text.length
  · rw [Nat.min_eq_left h]
  · rw [Nat.min_eq_right (by omega), List.take_length, List.take_of_length_le (by omega)]

theorem span_skip (c : Cursor) (n : Nat) (h : c.spanStart ≤ c.index) :
    (c.skip n).span = c.span ++ c.ahead.take n := by
  rw [span, before_skip, spanStart_skip, List.drop_append_of_le_length (by rwa [length_before]),
    span]

theorem span_eq_nil {c : Cursor} (h : c.spanStart = c.index) : c.span = [] := by
  have hlength : c.before.length = c.spanStart := by rw [h, length_before]
  rw [span, List.drop_of_length_le (Nat.le_of_eq hlength)]

theorem before_moveTo {c : Cursor} {j : Nat} (hj : j ≤ c.index) :
    (c.moveTo j).before = c.before.take j := by
  have hle := c.index_le
  simp only [before, index_moveTo, text_moveTo, List.take_take]
  rw [Nat.min_eq_left (show j ≤ c.text.length by omega), Nat.min_eq_left hj]

theorem ahead_moveTo {c : Cursor} {j : Nat} (hj : j ≤ c.index) :
    (c.moveTo j).ahead = c.before.drop j ++ c.ahead := by
  have hwhole : (c.moveTo j).before ++ (c.moveTo j).ahead = c.before ++ c.ahead := by
    rw [before_append_ahead, before_append_ahead, text_moveTo]
  rw [before_moveTo hj, ← List.take_append_drop j c.before, List.append_assoc] at hwhole
  simpa using hwhole

theorem span_moveTo {c : Cursor} {j : Nat} (hstart : c.spanStart ≤ j) (hj : j ≤ c.index) :
    c.span = (c.moveTo j).span ++ c.before.drop j := by
  have hlength : (c.before.take j).length = j := by
    rw [List.length_take, length_before, Nat.min_eq_left hj]
  rw [span, span, before_moveTo hj, spanStart_moveTo,
    ← List.drop_append_of_le_length (by omega), List.take_append_drop]

theorem peek_eq_head? (c : Cursor) : c.peek = c.ahead.head? := by
  simp [peek, ahead]

theorem ahead_eq_nil_iff (c : Cursor) : c.ahead = [] ↔ c.peek = none := by
  simp [peek_eq_head?]

theorem consume_cons {c : Cursor} {x : Char} {rest : List Char} (h : c.ahead = x :: rest) :
    c.consume = (some x, c.skip 1) := by
  simp [consume, peek_eq_head?, h]

theorem consume_nil {c : Cursor} (h : c.ahead = []) : c.consume = (none, c) := by
  simp [consume, peek_eq_head?, h]

instance : Source Cursor where
  peek c := (c.peek, c)
  consume := consume
  position c := markAt c.text c.index
  reset mark c := c.moveTo (indexAt c.text mark.offset)
  takeText c := (String.ofList c.span, { c with spanStart := c.index })
  remaining c := c.ahead.length
  remaining_peek_le _ := Nat.le_refl _
  remaining_consume_le c := by
    cases h : c.ahead with
    | nil => simp [consume_nil h, h]
    | cons x rest => simp [consume_cons h, h]
  remaining_consume_lt c hs := by
    cases h : c.ahead with
    | nil => simp [peek_eq_head?, h] at hs
    | cons x rest => simp [consume_cons h, h]

/-- The mark of a cursor that stands at an index of the text. -/
theorem markAt_moveTo {c : Cursor} {j : Nat} (hj : j ≤ c.text.length) :
    markAt c.text j = ⟨utf8Length (c.moveTo j).before,
      Location.start.advanceAll (c.moveTo j).before⟩ := by
  simp only [markAt, before, index_moveTo, text_moveTo, Nat.min_eq_left hj]

/-- Going to a mark of the text is going to its index. -/
theorem reset_markAt (c : Cursor) (i : Nat) :
    Source.reset (markAt c.text i) c = c.moveTo i := by
  change c.moveTo (indexAt c.text (utf8Length (c.text.take i))) = c.moveTo i
  rw [indexAt_utf8Length]
  apply ext
  · rfl
  · simp only [index_moveTo]
    omega
  · rfl

theorem reset_position_skip (c : Cursor) (n : Nat) :
    Source.reset (Source.position c) (c.skip n) = c := by
  have h := reset_markAt (c.skip n) c.index
  rwa [moveTo_skip, moveTo_index] at h

/-! ## Uniform scans of a cursor -/

/-- Every cursor simulates itself, and scans only move it forward. -/
def forward : Simulation Cursor Cursor where
  Rel c d := c = d
  Later p q := ∃ n, q.1 = p.1.skip n
  later_refl p := ⟨0, p.1.skip_zero.symm⟩
  later_trans p q r := by
    rintro ⟨m, hm⟩ ⟨n, hn⟩
    exact ⟨m + n, by rw [hn, hm, skip_skip]⟩
  peek c d := by
    rintro rfl
    exact ⟨rfl, rfl, 0, c.skip_zero.symm⟩
  consume c d := by
    rintro rfl
    refine ⟨rfl, rfl, ?_⟩
    cases h : c.ahead with
    | nil => exact ⟨0, by rw [skip_zero]; exact congrArg Prod.snd (consume_nil h)⟩
    | cons x rest => exact ⟨1, congrArg Prod.snd (consume_cons h)⟩
  reset c d c' d' := by
    rintro rfl rfl ⟨n, rfl⟩
    exact ⟨rfl, 0, (reset_position_skip c n).trans c.skip_zero.symm⟩
  location c d := by
    rintro rfl
    rfl
  takeText c d := by
    rintro rfl
    exact ⟨rfl, rfl⟩

variable {α : Type}

theorem exists_skip {scan : Scan Cursor α} (h : Uniform scan scan) (c : Cursor) :
    ∃ n, (scan c).2 = c.skip n :=
  (forward.agrees h (rfl : c = c)).later

/-- A scan that is undone leaves the cursor where it was. -/
theorem keepIf_of_not_keep {scan : Scan Cursor α} {keep : α → Bool} {c : Cursor}
    (h : Uniform scan scan) (hk : keep (scan c).1 = false) :
    Scan.keepIf keep scan c = ((scan c).1, c) := by
  obtain ⟨n, hn⟩ := exists_skip h c
  rw [Scan.keepIf_of_not_keep hk, hn, reset_position_skip]

/-- A look ahead does not move the cursor. -/
theorem lookahead_eq {scan : Scan Cursor Bool} (h : Uniform scan scan) (c : Cursor) :
    Scan.lookahead scan c = ((scan c).1, c) :=
  keepIf_of_not_keep h rfl

theorem steady_of_uniform {scan : Scan Cursor α} (h : Uniform scan scan) :
    Scan.Steady scan := by
  intro c
  obtain ⟨n, hn⟩ := exists_skip h c
  change (scan c).2.ahead.length ≤ c.ahead.length
  rw [hn, ahead_skip, List.length_drop]
  omega

end Cursor
end Stylesheet
