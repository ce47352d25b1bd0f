import Stylesheet.Proofs.Reached

/-!
# Byte buffers

A buffer can also be kept as one text with a cursor that counts its bytes. Then reading cuts the
text at the cursor, and going to a mark sets the cursor to whatever the mark says; nothing but the
marks keeps it from falling inside a code point or out of the buffer. Main statements: a session
over a byte buffer is answered as over a buffer, and a tokenizer over a reached source never does
any of this wrong, so a byte buffer is as good as a buffer.
-/
namespace Stylesheet

/-! ## Cutting a text -/

/-- The two parts that a text is cut into after so many bytes, unless that is inside a code point
or behind the end. -/
def splitAtByte? : Nat → List Char → Option (List Char × List Char)
  | 0, cs => some ([], cs)
  | _ + 1, [] => none
  | n + 1, c :: cs =>
    if c.utf8Size ≤ n + 1 then
      (splitAtByte? (n + 1 - c.utf8Size) cs).map fun (before, behind) => (c :: before, behind)
    else none

theorem splitAtByte?_append (before behind : List Char) :
    splitAtByte? (utf8Length before) (before ++ behind) = some (before, behind) := by
  induction before with
  | nil => simp [splitAtByte?]
  | cons c before ih =>
    obtain ⟨n, hn⟩ := Nat.exists_eq_succ_of_ne_zero (Nat.ne_of_gt c.utf8Size_pos)
    have hlength : utf8Length (c :: before) = n + utf8Length before + 1 := by
      rw [utf8Length_cons]
      omega
    have hle : c.utf8Size ≤ n + utf8Length before + 1 := by omega
    have hrest : n + utf8Length before + 1 - c.utf8Size = utf8Length before := by omega
    rw [hlength, List.cons_append, splitAtByte?, if_pos hle, hrest, ih, Option.map_some]

theorem eq_of_splitAtByte?_eq_some {n : Nat} {cs before behind : List Char}
    (h : splitAtByte? n cs = some (before, behind)) :
    cs = before ++ behind ∧ n = utf8Length before := by
  induction n, cs using splitAtByte?.induct generalizing before with
  | case1 cs =>
    rw [splitAtByte?] at h
    obtain ⟨rfl, rfl⟩ := Prod.mk.inj (Option.some.inj h)
    exact ⟨rfl, rfl⟩
  | case2 n => contradiction
  | case3 n c cs hle ih =>
    rw [splitAtByte?, if_pos hle, Option.map_eq_some_iff] at h
    obtain ⟨⟨rest, behind'⟩, hrest, hparts⟩ := h
    obtain ⟨rfl, rfl⟩ := Prod.mk.inj hparts
    obtain ⟨rfl, hlength⟩ := ih hrest
    refine ⟨rfl, ?_⟩
    rw [utf8Length_cons]
    omega
  | case4 n c cs hle =>
    rw [splitAtByte?, if_neg hle] at h
    contradiction

/-! ## The source -/

/-- A source over a stream that counts bytes. -/
structure ByteSource (ι : Type) where
  input : LineEnding.Normalizer ι
  /-- What was pulled since text was last taken. -/
  buffer : List Char
  /-- Where the source stands, in bytes of the buffer. -/
  cursor : Nat
  /-- The offset of the beginning of the buffer. -/
  consumed : Nat
  location : Location
  /-- The buffer was cut at no boundary, or the source was to go out of its buffer. -/
  fault : Bool
  deriving Repr

namespace ByteSource

variable {ι : Type}

def position (b : ByteSource ι) : Mark := ⟨b.consumed + b.cursor, b.location⟩

/-- The offset of the mark is that of a place in the buffer or at one of its ends. -/
def Holds (b : ByteSource ι) (mark : Mark) : Prop :=
  b.consumed ≤ mark.offset ∧ mark.offset ≤ b.consumed + utf8Length b.buffer

instance (b : ByteSource ι) (mark : Mark) : Decidable (b.Holds mark) :=
  inferInstanceAs (Decidable (_ ∧ _))

/-- Sets the cursor to a mark, or to the end of the buffer that is nearer to it. -/
def reset (mark : Mark) (b : ByteSource ι) : ByteSource ι :=
  { b with
    cursor := min (mark.offset - b.consumed) (utf8Length b.buffer)
    location := mark.location
    fault := b.fault || !decide (b.Holds mark) }

/-- Going to a mark that is held is setting the cursor to it, and nothing else. -/
theorem reset_of_holds {b : ByteSource ι} {mark : Mark} (h : b.Holds mark) :
    b.reset mark =
      { b with cursor := mark.offset - b.consumed, location := mark.location } := by
  have hcursor : min (mark.offset - b.consumed) (utf8Length b.buffer) =
      mark.offset - b.consumed := by
    have hle := h.2
    omega
  simp [reset, hcursor, h]

def takeText (b : ByteSource ι) : String × ByteSource ι :=
  match splitAtByte? b.cursor b.buffer with
  | none => ("", { b with fault := true })
  | some (span, rest) =>
    (String.ofList span,
      { b with buffer := rest, cursor := 0, consumed := b.consumed + b.cursor })

/-- What is pulled and not consumed. -/
def ahead (b : ByteSource ι) : List Char :=
  ((splitAtByte? b.cursor b.buffer).map Prod.snd).getD []

variable [CharStream ι]

def ofStream (input : ι) : ByteSource ι :=
  { input := .ofStream input, buffer := [], cursor := 0, consumed := 0, location := .start,
    fault := false }

def peek (b : ByteSource ι) : Option Char × ByteSource ι :=
  match splitAtByte? b.cursor b.buffer with
  | none => (none, { b with fault := true })
  | some (_, c :: _) => (some c, b)
  | some (_, []) =>
    let (c?, input) := b.input.next
    (c?, { b with input, buffer := b.buffer ++ c?.toList })

def consume (b : ByteSource ι) : Option Char × ByteSource ι :=
  match b.peek with
  | (none, b) => (none, b)
  | (some c, b) =>
    (some c, { b with cursor := b.cursor + c.utf8Size, location := b.location.advance c })

def remaining (b : ByteSource ι) : Nat := b.input.left + b.ahead.length

end ByteSource

namespace BufferedSource

variable {ι : Type}

/-- The source with its buffer as one text that begins at an offset. -/
def bytesFrom (consumed : Nat) (fault : Bool) (s : BufferedSource ι) : ByteSource ι where
  input := s.input
  buffer := s.buffer
  cursor := utf8Length s.passed
  consumed := consumed
  location := s.location
  fault := fault

variable {consumed : Nat} {fault : Bool}

theorem splitAtByte?_bytesFrom (s : BufferedSource ι) :
    splitAtByte? (s.bytesFrom consumed fault).cursor (s.bytesFrom consumed fault).buffer =
      some (s.passed.reverse, s.ahead) := by
  have hsplit := splitAtByte?_append s.passed.reverse s.ahead
  rwa [utf8Length_reverse] at hsplit

variable [CharStream ι]

theorem remaining_bytesFrom (s : BufferedSource ι) :
    (s.bytesFrom consumed fault).remaining = s.remaining := by
  rw [ByteSource.remaining, ByteSource.ahead, splitAtByte?_bytesFrom]
  rfl

theorem peek_bytesFrom (s : BufferedSource ι) :
    (s.bytesFrom consumed fault).peek = (s.peek.1, s.peek.2.bytesFrom consumed fault) := by
  rw [ByteSource.peek, splitAtByte?_bytesFrom]
  obtain ⟨input, passed, ahead, offset, location⟩ := s
  cases ahead with
  | cons c rest => rfl
  | nil => simp only [peek, bytesFrom, buffer, List.append_nil]

theorem consume_bytesFrom (s : BufferedSource ι) :
    (s.bytesFrom consumed fault).consume = (s.consume.1, s.consume.2.bytesFrom consumed fault) := by
  have hhead := s.head_ahead_peek
  rw [ByteSource.consume, peek_bytesFrom, consume]
  cases ha : s.peek.2.ahead with
  | nil =>
    rw [ha] at hhead
    rw [← hhead]
    rfl
  | cons c rest =>
    rw [ha] at hhead
    rw [← hhead]
    have hcursor : utf8Length s.peek.2.passed + c.utf8Size =
        c.utf8Size + utf8Length s.peek.2.passed := Nat.add_comm _ _
    simp [bytesFrom, buffer, ha, hcursor]

end BufferedSource

namespace ByteSource

variable {ι : Type}

/-- Either the cursor is at no boundary, or the buffer is that of a buffered source. -/
theorem exists_eq_bytesFrom {b : ByteSource ι} (h : splitAtByte? b.cursor b.buffer ≠ none) :
    ∃ s : BufferedSource ι, b = s.bytesFrom b.consumed b.fault := by
  obtain ⟨⟨before, behind⟩, hsplit⟩ := Option.ne_none_iff_exists'.mp h
  obtain ⟨hbuffer, hcursor⟩ := eq_of_splitAtByte?_eq_some hsplit
  obtain ⟨input, buffer, cursor, consumed, location, fault⟩ := b
  refine ⟨⟨input, before.reverse, behind, 0, location⟩, ?_⟩
  simp only [BufferedSource.bytesFrom, BufferedSource.buffer, List.reverse_reverse,
    utf8Length_reverse, ← hbuffer, ← hcursor]

variable [CharStream ι]

instance : Source (ByteSource ι) where
  peek := peek
  consume := consume
  position := position
  reset := reset
  takeText := takeText
  remaining := remaining
  remaining_peek_le b := by
    by_cases h : splitAtByte? b.cursor b.buffer = none
    · simp [peek, h, remaining, ahead]
    · obtain ⟨s, hs⟩ := exists_eq_bytesFrom h
      rw [hs, BufferedSource.peek_bytesFrom, BufferedSource.remaining_bytesFrom,
        BufferedSource.remaining_bytesFrom]
      exact s.remaining_peek_le
  remaining_consume_le b := by
    by_cases h : splitAtByte? b.cursor b.buffer = none
    · simp [consume, peek, h, remaining, ahead]
    · obtain ⟨s, hs⟩ := exists_eq_bytesFrom h
      rw [hs, BufferedSource.consume_bytesFrom, BufferedSource.remaining_bytesFrom,
        BufferedSource.remaining_bytesFrom]
      exact s.remaining_consume_le
  remaining_consume_lt b hsome := by
    by_cases h : splitAtByte? b.cursor b.buffer = none
    · simp [peek, h] at hsome
    · obtain ⟨s, hs⟩ := exists_eq_bytesFrom h
      rw [hs, BufferedSource.peek_bytesFrom] at hsome
      rw [hs, BufferedSource.peek_bytesFrom, BufferedSource.consume_bytesFrom,
        BufferedSource.remaining_bytesFrom, BufferedSource.remaining_bytesFrom]
      exact s.remaining_consume_lt hsome

end ByteSource

/-! ## A buffered source and its bytes -/

namespace BufferedSource

section Moves

variable {ι : Type} {s : BufferedSource ι}

/-- The source with its buffer as one text. -/
def bytes (s : BufferedSource ι) : ByteSource ι :=
  s.bytesFrom (s.offset - utf8Length s.passed) false

theorem position_bytes (h : utf8Length s.passed ≤ s.offset) : s.bytes.position = s.position :=
  congrArg (Mark.mk · s.location) (Nat.sub_add_cancel h)

theorem takeText_bytes (h : utf8Length s.passed ≤ s.offset) :
    s.bytes.takeText = (s.takeText.1, s.takeText.2.bytes) := by
  rw [ByteSource.takeText, bytes, splitAtByte?_bytesFrom]
  have hconsumed : s.offset - utf8Length s.passed + utf8Length s.passed = s.offset :=
    Nat.sub_add_cancel h
  simp [bytes, bytesFrom, takeText, buffer, hconsumed]

theorem holds_bytes {mark : Mark} {before behind : List Char} (h : utf8Length s.passed ≤ s.offset)
    (hd : s.Divides mark before behind) :
    s.bytes.Holds mark ∧ mark.offset = s.bytes.consumed + utf8Length before := by
  have hoffset := hd.offset
  have hlength := congrArg utf8Length hd.buffer
  rw [utf8Length_append] at hlength
  simp only [ByteSource.Holds, bytes, bytesFrom]
  omega

end Moves

variable {ι : Type} [CharStream ι] {s s' : BufferedSource ι}

/-- A span has one beginning. -/
theorem SameSpan.bytesFrom_eq (h : SameSpan s s') (hle : utf8Length s.passed ≤ s.offset) :
    s'.bytesFrom (s.offset - utf8Length s.passed) false = s'.bytes ∧
      utf8Length s'.passed ≤ s'.offset := by
  have hoffset := h.offset
  refine ⟨?_, by omega⟩
  rw [bytes]
  congr 1
  omega

/-- Going to a mark that divides the buffer is going there in its bytes. -/
theorem reset_bytes {mark : Mark} {before behind : List Char}
    (h : utf8Length s.passed ≤ s.offset) (hd : s.Divides mark before behind) :
    s.bytes.reset mark = (s.reset mark).bytes ∧
      utf8Length (s.reset mark).passed ≤ (s.reset mark).offset := by
  obtain ⟨hholds, hoffset⟩ := holds_bytes h hd
  obtain ⟨hbytes, hle⟩ := hd.sameSpan.bytesFrom_eq h
  have hcursor : utf8Length (s.reset mark).passed = utf8Length before := by
    rw [hd.reset, utf8Length_reverse]
  refine ⟨?_, hle⟩
  rw [← hbytes, ByteSource.reset_of_holds hholds, hoffset, Nat.add_sub_cancel_left, bytesFrom,
    hd.buffer_reset, hcursor, hd.reset]
  rfl

variable (ι)

/-- A buffered source behaves like its bytes. -/
def asBytes : Simulation (ByteSource ι) (BufferedSource ι) where
  Rel b s := b = s.bytes ∧ utf8Length s.passed ≤ s.offset
  Later p q := ∃ consumed, Strides consumed p.2 q.2
  later_refl p := ⟨[], .refl p.2⟩
  later_trans p q r := by
    rintro ⟨consumed, h⟩ ⟨more, h'⟩
    exact ⟨_, h.trans h'⟩
  peek b s := by
    rintro ⟨rfl, hle⟩
    obtain ⟨hbytes, hle'⟩ := s.sameSpan_peek.bytesFrom_eq hle
    change Agree _ _ _ _ s.bytes.peek s.peek
    rw [bytes, peek_bytesFrom, hbytes]
    exact ⟨rfl, ⟨rfl, hle'⟩, [], s.strides_peek⟩
  consume b s := by
    rintro ⟨rfl, hle⟩
    obtain ⟨hbytes, hle'⟩ := s.strides_consume.toSameSpan.bytesFrom_eq hle
    change Agree _ _ _ _ s.bytes.consume s.consume
    rw [bytes, consume_bytesFrom, hbytes]
    exact ⟨rfl, ⟨rfl, hle'⟩, _, s.strides_consume⟩
  reset b s b' s' := by
    rintro ⟨rfl, hle⟩ ⟨rfl, hle'⟩ ⟨consumed, h⟩
    obtain ⟨before, behind, hd⟩ := h.toSameSpan.covers_position
    change (s'.bytes.reset s.bytes.position = _ ∧ _) ∧ _
    rw [position_bytes hle]
    exact ⟨reset_bytes hle' hd, [], h.reset⟩
  location b s := by
    rintro ⟨rfl, hle⟩
    rfl
  takeText b s := by
    rintro ⟨rfl, hle⟩
    change s.bytes.takeText.1 = s.takeText.1 ∧ s.bytes.takeText.2 = s.takeText.2.bytes ∧ _
    rw [takeText_bytes hle]
    exact ⟨rfl, rfl, Nat.zero_le _⟩

variable {ι} {taken : List Char} {marks : List Mark}

theorem kept_bytes (h : utf8Length s.passed ≤ s.offset) : kept marks s.bytes = kept marks s := by
  have hposition : Source.position s.bytes = Source.position s := position_bytes h
  rw [kept, kept, hposition]

/-- Calls of a reached source and of its bytes are answered alike. -/
theorem scan_bytes (h : Lies taken marks s) {call : Call} (hcall : call.Keeps marks) :
    call.scan s.bytes = ((call.scan s).1, (call.scan s).2.bytes) := by
  have hle := h.passed_le_offset
  obtain ⟨hu, -⟩ | rfl | rfl | ⟨mark, rfl⟩ :=
    Call.uniform_scan (σ := ByteSource ι) (τ := BufferedSource ι) call
  · have hagree := (asBytes ι).agrees hu (⟨rfl, hle⟩ : (asBytes ι).Rel s.bytes s)
    exact Prod.ext hagree.answer hagree.rel.1
  · exact congrArg (fun mark => (Answer.mark mark, s.bytes)) (position_bytes hle)
  · exact hcall.elim
  · obtain ⟨before, behind, hbuffer, rfl⟩ := h.marks mark hcall
    exact congrArg (Prod.mk Answer.nothing) (reset_bytes hle (h.divides hbuffer)).1

end BufferedSource

namespace Tokenizer

open BufferedSource

variable {ι : Type} [CharStream ι]

/-- The tokenizer over the bytes of its source. -/
def overBytes (t : Tokenizer (BufferedSource ι)) : Tokenizer (ByteSource ι) :=
  { t with source := t.source.bytes }

variable {t : Tokenizer (BufferedSource ι)} {taken : List Char} {marks : List Mark}

theorem alike_overBytes (h : t.source.Lies taken marks) : (asBytes ι).Alike t.overBytes t :=
  ⟨⟨rfl, h.passed_le_offset⟩, rfl, rfl, rfl⟩

end Tokenizer

namespace BufferedSource

variable {ι : Type} [CharStream ι] {s : BufferedSource ι} {taken : List Char} {marks : List Mark}

/-- What can be reached with a source can be reached with its bytes. -/
theorem reached_bytes {input : ι} (h : Reached (ofStream input) taken marks s) :
    Reached (ByteSource.ofStream input) taken marks s.bytes := by
  induction h with
  | origin => exact .origin
  | called h call hcall ih =>
    have hscan := scan_bytes (lies_of_reached h) hcall
    have hcalled := ih.called call hcall
    rwa [hscan] at hcalled
  | @textTaken taken marks s h ih =>
    have hle := (lies_of_reached h).passed_le_offset
    have htaken := ih.textTaken
    have htext : Source.takeText s.bytes = (s.takeText.1, s.takeText.2.bytes) := takeText_bytes hle
    rwa [htext, kept_bytes (Nat.zero_le _)] at htaken
  | @returned taken marks t token h ht ih =>
    have hlies := lies_of_reached h
    obtain ⟨hanswer, hnext⟩ := (asBytes ι).alike_nextToken (Tokenizer.alike_overBytes hlies)
    have hreturned := Reached.returned (t := t.overBytes) ih (hanswer.trans ht)
    rwa [hnext.source.1, kept_bytes hnext.source.2] at hreturned
  | @failed taken marks t failure h ht ih =>
    have hlies := lies_of_reached h
    obtain ⟨hanswer, hnext⟩ := (asBytes ι).alike_nextToken (Tokenizer.alike_overBytes hlies)
    have hfailed := Reached.failed (t := t.overBytes) ih (hanswer.trans ht)
    rwa [hnext.source.1] at hfailed

end BufferedSource

/-! ## Sessions over bytes -/

/-- The calls of a session go to marks that were made, and not out of the span. -/
def Heeds {σ : Type} [Source σ] : List Mark → List Call → σ → Prop
  | _, [], _ => True
  | marks, .takeText :: rest, s =>
    Heeds (kept marks (Source.takeText s).2) rest (Source.takeText s).2
  | marks, call :: rest, s =>
    call.Keeps marks ∧ Heeds ((call.scan s).1.marks ++ marks) rest (call.scan s).2

theorem heeds_cons {σ : Type} [Source σ] {marks : List Mark} {call : Call} {rest : List Call}
    {s : σ} (ht : call ≠ .takeText) :
    Heeds marks (call :: rest) s ↔
      call.Keeps marks ∧ Heeds ((call.scan s).1.marks ++ marks) rest (call.scan s).2 := by
  cases call with
  | takeText => contradiction
  | _ => rfl

namespace BufferedSource

variable {ι : Type} [CharStream ι] {s : BufferedSource ι} {taken : List Char} {marks : List Mark}

/-- A reached source and its bytes answer a session alike. -/
theorem session_bytes {input : ι} (h : Reached (ofStream input) taken marks s)
    {calls : List Call} (hc : Heeds marks calls s) : session calls s.bytes = session calls s := by
  induction calls generalizing taken marks s with
  | nil => rfl
  | cons call rest ih =>
    by_cases ht : call = .takeText
    · subst ht
      have htaken : Source.takeText s.bytes = (s.takeText.1, s.takeText.2.bytes) :=
        takeText_bytes (lies_of_reached h).passed_le_offset
      have hscan : Call.takeText.scan s.bytes = (.text s.takeText.1, s.takeText.2.bytes) :=
        congrArg (fun taken => (Answer.text taken.1, taken.2)) htaken
      rw [session, session, hscan]
      exact congrArg (Answer.text s.takeText.1 :: ·) (ih h.textTaken hc)
    · obtain ⟨hkeeps, hrest⟩ := (heeds_cons ht).mp hc
      rw [session, session, scan_bytes (lies_of_reached h) hkeeps]
      exact congrArg ((call.scan s).1 :: ·) (ih (h.called call hkeeps) hrest)

/-- No span begins behind the source. -/
theorem Shows.spanStart_le_offset {c : Cursor} (h : s.Shows c) :
    utf8Length (c.text.take c.spanStart) ≤ s.offset := by
  have htake : c.before.take c.spanStart = c.text.take c.spanStart := by
    rw [Cursor.before, List.take_take, Nat.min_eq_left h.spanStart_le]
  have hbefore : c.text.take c.spanStart ++ c.span = c.before := by
    rw [← htake, Cursor.span, List.take_append_drop]
  rw [h.offset, ← hbefore, utf8Length_append]
  exact Nat.le_add_right _ _

/-- What a cursor allows a session to do, a source that stands where it stands does within its
span. -/
theorem Tracks.heeds [CharStream.Fused ι] {c : Cursor} {made : List Mark}
    (h : Tracks made s c) {calls : List Call} (ha : Admissible made c calls)
    (hmarks : ∀ mark ∈ made, utf8Length (c.text.take c.spanStart) ≤ mark.offset → mark ∈ marks) :
    Heeds marks calls s := by
  induction calls generalizing made marks s c with
  | nil => trivial
  | cons call rest ih =>
    obtain ⟨hallowed, hrest⟩ := ha
    obtain ⟨hanswer, htracks⟩ := h.call hallowed
    by_cases ht : call = .takeText
    · subst ht
      apply ih htracks hrest
      intro mark hmem hle
      have hle : utf8Length c.before ≤ mark.offset := hle
      rw [← h.shows.offset] at hle
      have hstart := h.shows.spanStart_le_offset
      exact List.mem_filter.mpr
        ⟨hmarks mark hmem (Nat.le_trans hstart hle), decide_eq_true hle⟩
    · rw [heeds_cons ht]
      refine ⟨?_, ih htracks hrest ?_⟩
      · cases call with
        | reset mark => exact hmarks mark hallowed.1 hallowed.2
        | takeText => contradiction
        | _ => trivial
      · rw [Cursor.text_respond, Cursor.spanStart_respond c ht, hanswer]
        intro mark hmem hle
        obtain hnew | hold := List.mem_append.mp hmem
        · exact List.mem_append_left _ hnew
        · exact List.mem_append_right _ (hmarks mark hold hle)

/-- A byte buffer over a text answers a session as the cursor over the normalized text responds. -/
theorem session_bytes_ofString (text : String) (calls : List Call)
    (h : Admissible [] (.ofText (LineEnding.normalize text.toList)) calls) :
    session calls (ByteSource.ofStream text.toList) =
      (Cursor.ofText (LineEnding.normalize text.toList)).responses calls := by
  have hshows := shows_ofStream text.toList
  rw [CharStream.drain_list] at hshows
  have htracks : Tracks [] (ofStream text.toList) (.ofText (LineEnding.normalize text.toList)) :=
    ⟨hshows, nofun⟩
  have hheeds : Heeds [] calls (ofStream text.toList) := htracks.heeds h nofun
  rw [← htracks.session_eq h]
  exact session_bytes .origin hheeds

end BufferedSource

/-! ## Nothing goes wrong -/

/-- The operation is done to a buffer that begins behind what was taken, with its cursor at a
boundary. If it goes to a mark, that is the mark of a place in the buffer, and the cursor gets
there. -/
structure ByteSource.Safe {ι : Type} (taken : List Char) (entry : Operation × ByteSource ι) :
    Prop where
  fault : entry.2.fault = false
  consumed : entry.2.consumed = utf8Length taken
  cursor : ∃ before behind, entry.2.buffer = before ++ behind ∧
    entry.2.cursor = utf8Length before
  holds : ∀ mark, entry.1 = .reset mark → entry.2.Holds mark
  mark : ∀ mark, entry.1 = .reset mark → ∃ before behind, entry.2.buffer = before ++ behind ∧
    mark = .behind (taken ++ before)
  reset : ∀ mark, entry.1 = .reset mark → (entry.2.reset mark).position = mark

namespace BufferedSource

variable {ι : Type} {s s' : BufferedSource ι} {taken : List Char} {marks : List Mark}

/-- Operations that go nowhere are safe on the bytes of a source. -/
theorem Lies.safe (h : Lies taken marks s) {operation : Operation}
    (hreset : ∀ mark, operation ≠ .reset mark) : ByteSource.Safe taken (operation, s.bytes) := by
  have hoffset := h.offset
  refine ⟨rfl, ?_, ⟨s.passed.reverse, s.ahead, rfl, ?_⟩, ?_, ?_, ?_⟩
  · simp only [bytes, bytesFrom]
    omega
  · rw [utf8Length_reverse]
    rfl
  all_goals
    intro mark hmark
    exact absurd hmark (hreset mark)

/-- Going back to where the source stood is safe on its bytes. -/
theorem Lies.safe_reset [CharStream ι] (h : Lies taken marks s) {consumed : List Char}
    (hs : Strides consumed s s') :
    ByteSource.Safe taken (.reset s.position, s'.bytes) := by
  have hlies := h.strides hs
  have hsafe : ByteSource.Safe taken (.peek, s'.bytes) :=
    hlies.safe fun _ => Operation.noConfusion
  obtain ⟨more, hd⟩ := hs.divides s.divides_position
  have hholds := (holds_bytes hlies.passed_le_offset hd).1
  refine ⟨hsafe.fault, hsafe.consumed, hsafe.cursor, ?_, ?_, ?_⟩
  · rintro mark ⟨⟩
    exact hholds
  · rintro mark ⟨⟩
    exact ⟨_, _, hd.buffer, h.position⟩
  · rintro mark ⟨⟩
    have hle := hholds.1
    rw [ByteSource.reset_of_holds hholds, ByteSource.position]
    exact congrArg (Mark.mk · s.location) (Nat.add_sub_cancel' hle)

end BufferedSource

namespace Tokenizer

open BufferedSource

variable {ι : Type} [CharStream ι] {t : Tokenizer (BufferedSource ι)} {taken : List Char}
  {marks : List Mark}

theorem safe_operations (h : t.source.Lies taken marks) :
    ∀ entry ∈ t.overBytes.operations, ByteSource.Safe taken entry := by
  intro entry hmem
  cases along_operations (alike_overBytes h) entry hmem with
  | peek hrel hlater | consume hrel hlater | takeText hrel hlater =>
    obtain ⟨consumed, hs⟩ := hlater
    rw [hrel.1]
    exact (h.strides hs).safe fun _ => Operation.noConfusion
  | @reset q r hback hbetween hrel hlater =>
    obtain ⟨consumed, hs⟩ := hbetween
    obtain ⟨more, hmore⟩ := hlater
    have hposition : Source.position q.1 = q.2.position := by
      rw [hback.1]
      exact position_bytes hback.2
    rw [hrel.1, hposition]
    exact (h.strides hs).safe_reset hmore

/-- A tokenizer over any reached source gets on with the bytes of it: it answers as it would, it
leaves the bytes of what it would leave, and every operation on the way is safe. -/
theorem nextToken_overBytes {input : ι} (h : Reached (.ofStream input) taken marks t.source) :
    Reached (ByteSource.ofStream input) taken marks t.overBytes.source ∧
      t.overBytes.nextToken.1 = t.nextToken.1 ∧
      t.overBytes.nextToken.2.source = t.nextToken.2.source.bytes ∧
      ∀ entry ∈ t.overBytes.operations, ByteSource.Safe taken entry := by
  have hlies := lies_of_reached h
  obtain ⟨hanswer, hnext⟩ := (asBytes ι).alike_nextToken (alike_overBytes hlies)
  exact ⟨reached_bytes h, hanswer, hnext.source.1, safe_operations hlies⟩

/-- The quote behind `url(` comes after an end of the stream, and the source goes back behind the
parenthesis: six bytes, of which two are a code point that was consumed before the call. -/
theorem nextToken_overBytes_quotedUrl :
    (overCalled [some 'é', some 'u', some 'r', some 'l', some '(', none, some '"']
        [.consume]).overBytes.nextToken.1 = .ok ⟨.function, "éurl("⟩ ∧
      Operation.reset ⟨6, ⟨1, 6⟩⟩ ∈
        (overCalled [some 'é', some 'u', some 'r', some 'l', some '(', none, some '"']
          [.consume]).overBytes.operations.map Prod.fst ∧
      ∀ entry ∈ (overCalled [some 'é', some 'u', some 'r', some 'l', some '(', none, some '"']
          [.consume]).overBytes.operations, ByteSource.Safe [] entry := by
  have hreached : Reached (BufferedSource.ofStream
        [some 'é', some 'u', some 'r', some 'l', some '(', none, some '"']) [] []
      (overCalled [some 'é', some 'u', some 'r', some 'l', some '(', none, some '"']
        [.consume]).source :=
    .called .origin .consume trivial
  obtain ⟨-, -, -, hsafe⟩ := nextToken_overBytes hreached
  refine ⟨?_, ?_, hsafe⟩
  · decide +kernel
  · decide +kernel

end Tokenizer
end Stylesheet
