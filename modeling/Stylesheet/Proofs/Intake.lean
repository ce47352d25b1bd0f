import Stylesheet.Proofs.LineEndings
import Stylesheet.Proofs.Streaming

/-!
# Intakes

What happens between a reader and a decoder, call by call. An intake is a decoded stream that puts
on record every call of its reader, also those that are interrupted, every call of its decoder with
what came of it, and every code point that it hands out. Main statement: without its record an
intake is the stream, so the two start alike and answer alike at every moment.
-/
namespace Stylesheet

/-! ## Single calls of a reader -/

namespace ByteReader

/-- One call, for at most `n` bytes. It comes upon the first event and no other. -/
def call (n : Nat) (r : ByteReader) : Except ReadFailure (List UInt8) × ByteReader :=
  match r.events with
  | [] => (.ok [], r)
  | .endOfInput :: rest => (.ok [], { r with events := rest })
  | .bytes bytes :: rest =>
    (.ok (bytes.take n),
      ⟨if bytes.length ≤ n then rest else .bytes (bytes.drop n) :: rest,
        r.delivered + (bytes.take n).length⟩)
  | .failure failure :: rest => (.error failure, { r with events := rest })

section Call

variable {r r' : ByteReader} {n : Nat} {failure : ReadFailure}

theorem events_of_call_bytes {b : UInt8} {bytes : List UInt8}
    (h : r.call n = (.ok (b :: bytes), r')) :
    ∃ all rest, r.events = .bytes all :: rest ∧ b :: bytes = all.take n ∧
      r'.events = if all.length ≤ n then rest else .bytes (all.drop n) :: rest := by
  obtain ⟨events, delivered⟩ := r
  cases events with
  | nil => exact absurd (Prod.mk.inj h).1 (by simp)
  | cons event rest =>
    cases event with
    | endOfInput => exact absurd (Prod.mk.inj h).1 (by simp)
    | bytes all =>
      obtain ⟨hbytes, hrest⟩ := Prod.mk.inj h
      exact ⟨all, rest, rfl, (Except.ok.inj hbytes).symm, by rw [← hrest]⟩
    | failure failure => exact absurd (Prod.mk.inj h).1 (by simp)

theorem length_le_of_call {bytes : List UInt8} (h : r.call n = (.ok bytes, r')) :
    bytes.length ≤ n := by
  cases bytes with
  | nil => exact Nat.zero_le n
  | cons b bytes =>
    obtain ⟨all, rest, -, htake, -⟩ := events_of_call_bytes h
    rw [htake]
    exact List.length_take_le n all

theorem events_of_call_error (h : r.call n = (.error failure, r')) :
    r.events = .failure failure :: r'.events := by
  obtain ⟨events, delivered⟩ := r
  cases events with
  | nil => exact absurd (Prod.mk.inj h).1 (by simp)
  | cons event rest =>
    cases event with
    | endOfInput => exact absurd (Prod.mk.inj h).1 (by simp)
    | bytes all => exact absurd (Prod.mk.inj h).1 (by simp)
    | failure failure =>
      obtain ⟨hfailure, hrest⟩ := Prod.mk.inj h
      rw [← hrest, Except.error.inj hfailure]

/-- A bound on how many calls there are before one finds nothing. -/
def effort (r : ByteReader) : Nat := r.events.length + eventsLength r.events

/-- Each call that finds something uses some of it up. -/
theorem effort_lt_of_call_bytes {b : UInt8} {bytes : List UInt8}
    (h : r.call n = (.ok (b :: bytes), r')) : r'.effort < r.effort := by
  obtain ⟨all, rest, hevents, htake, hrest⟩ := events_of_call_bytes h
  have hlength := congrArg List.length htake
  rw [List.length_cons, List.length_take] at hlength
  rw [effort, effort, hevents, hrest]
  split
  · simp only [eventsLength, eventLength, List.length_cons]
    omega
  · simp only [eventsLength, eventLength, List.length_cons, List.length_drop]
    omega

theorem effort_lt_of_call_error (h : r.call n = (.error failure, r')) : r'.effort < r.effort := by
  rw [effort, effort, events_of_call_error h]
  simp only [eventsLength, eventLength, List.length_cons]
  omega

end Call

section Read

variable {r r' : ByteReader} {n : Nat}

/-- A read is a call that is made again as long as it is interrupted. -/
theorem read_eq (n : Nat) (r : ByteReader) :
    r.read n =
      match (r.call n).1 with
      | .ok _ => r.call n
      | .error failure =>
        if failure.reason = .interrupted then (r.call n).2.read n else r.call n := by
  obtain ⟨events, delivered⟩ := r
  cases events with
  | nil => rfl
  | cons event rest =>
    cases event with
    | endOfInput => rfl
    | bytes bytes => rfl
    | failure failure =>
      by_cases hf : failure.reason = .interrupted
      · simp only [call, read, deliver, if_pos hf]
      · simp only [call, read, deliver, if_neg hf]

theorem read_of_call_ok {bytes : List UInt8} (h : r.call n = (.ok bytes, r')) :
    r.read n = (.ok bytes, r') := by
  rw [read_eq, h]

theorem read_of_call_interrupted {failure : ReadFailure} (h : r.call n = (.error failure, r'))
    (hf : failure.reason = .interrupted) : r.read n = r'.read n := by
  rw [read_eq, h]
  dsimp only
  rw [if_pos hf]

theorem read_of_call_error {failure : ReadFailure} (h : r.call n = (.error failure, r'))
    (hf : failure.reason ≠ .interrupted) : r.read n = (.error failure, r') := by
  rw [read_eq, h]
  dsimp only
  rw [if_neg hf]

end Read

end ByteReader

/-! ## Calls on record -/

open Encoding (Decoded Library chunkLength sniffLength)

/-- A call, with what came of it. -/
inductive Act (δ : Type) where
  /-- A call of the reader for at most `asked` bytes. -/
  | read (asked : Nat) (answer : Except ReadFailure (List UInt8))
  /-- A call of the decoder. These bytes may be said to be the last. -/
  | decode (bytes : List UInt8) (last : Bool) (made : Decoded δ)
  /-- A code point that was handed out. -/
  | yield (c : Char)

namespace ByteReader

variable {δ : Type}

/-- Calls until there are `n` bytes or no more come. An interrupted call is made again. -/
def gather (n : Nat) (r : ByteReader) :
    List (Act δ) × Except ReadFailure (List UInt8) × ByteReader :=
  if n = 0 then ([], .ok [], r)
  else
    match _h : r.call n with
    | (.ok [], r) => ([.read n (.ok [])], .ok [], r)
    | (.ok (b :: bytes), r) =>
      let more := gather (n - (bytes.length + 1)) r
      (.read n (.ok (b :: bytes)) :: more.1, more.2.1.map (b :: bytes ++ ·), more.2.2)
    | (.error failure, r) =>
      if failure.reason = .interrupted then
        let more := gather n r
        (.read n (.error failure) :: more.1, more.2)
      else ([.read n (.error failure)], .error failure, r)
termination_by r.effort
decreasing_by
  · exact effort_lt_of_call_bytes _h
  · exact effort_lt_of_call_error _h

/-- The ways in which bytes are gathered. -/
inductive Gathers : Nat → ByteReader → List (Act δ) → Except ReadFailure (List UInt8) →
    ByteReader → Prop
  | enough (r : ByteReader) : Gathers 0 r [] (.ok []) r
  | nothing {n : Nat} {r r' : ByteReader} (hn : n ≠ 0) (h : r.call n = (.ok [], r')) :
      Gathers n r [.read n (.ok [])] (.ok []) r'
  | bytes {n : Nat} {r r' rest : ByteReader} {b : UInt8} {bytes : List UInt8} {acts : List (Act δ)}
      {got : Except ReadFailure (List UInt8)} (hn : n ≠ 0)
      (h : r.call n = (.ok (b :: bytes), r'))
      (hmore : Gathers (n - (bytes.length + 1)) r' acts got rest) :
      Gathers n r (.read n (.ok (b :: bytes)) :: acts) (got.map (b :: bytes ++ ·)) rest
  | interrupted {n : Nat} {r r' rest : ByteReader} {failure : ReadFailure} {acts : List (Act δ)}
      {got : Except ReadFailure (List UInt8)} (hn : n ≠ 0)
      (h : r.call n = (.error failure, r')) (hf : failure.reason = .interrupted)
      (hmore : Gathers n r' acts got rest) :
      Gathers n r (.read n (.error failure) :: acts) got rest
  | failure {n : Nat} {r r' : ByteReader} {failure : ReadFailure} (hn : n ≠ 0)
      (h : r.call n = (.error failure, r')) (hf : failure.reason ≠ .interrupted) :
      Gathers n r [.read n (.error failure)] (.error failure) r'

theorem gathers_gather (n : Nat) (r : ByteReader) :
    Gathers n r (gather (δ := δ) n r).1 (gather (δ := δ) n r).2.1
      (gather (δ := δ) n r).2.2 := by
  fun_induction gather n r with
  | case1 r => exact .enough r
  | case2 n r hn r' h => exact .nothing hn h
  | case3 n r hn b bytes r' h more ih => exact .bytes hn h ih
  | case4 n r hn failure r' h hf more ih => exact .interrupted hn h hf ih
  | case5 n r hn failure r' h hf => exact .failure hn h hf

/-- Gathering is reading in full, put on record. -/
theorem Gathers.readFully {n : Nat} {r rest : ByteReader} {acts : List (Act δ)}
    {got : Except ReadFailure (List UInt8)} (h : Gathers n r acts got rest) :
    r.readFully n = (got, rest) := by
  induction h with
  | enough r => rw [ByteReader.readFully, if_pos rfl]
  | nothing hn h => rw [ByteReader.readFully, if_neg hn, read_of_call_ok h]
  | @bytes n r r' rest b bytes acts got hn h hmore ih =>
    rw [ByteReader.readFully, if_neg hn, read_of_call_ok h]
    dsimp only
    rw [ih]
    cases got with
    | ok more => rfl
    | error failure => rfl
  | @interrupted n r r' rest failure acts got hn h hf hmore ih =>
    rw [← ih, ByteReader.readFully, ByteReader.readFully, if_neg hn, if_neg hn,
      read_of_call_interrupted h hf]
  | failure hn h hf => rw [ByteReader.readFully, if_neg hn, read_of_call_error h hf]

theorem length_le_of_gather {n : Nat} {r rest : ByteReader} {acts : List (Act δ)}
    {bytes : List UInt8} (h : r.gather n = (acts, .ok bytes, rest)) : bytes.length ≤ n := by
  have hgathers := gathers_gather (δ := δ) n r
  rw [h] at hgathers
  exact length_le_of_readFully hgathers.readFully

end ByteReader

/-! ## Streams -/

namespace Encoding.Library.Stream

variable {ε δ : Type} {L : Library ε δ} {s : L.Stream}

/-- The stream whose reader is this one. -/
def withReader (reader : ByteReader) (s : L.Stream) : L.Stream := { s with reader }

/-- What is read next is all that a reader has to do with what is decoded next. -/
theorem decodeMore_withReader {reader : ByteReader} (hs : s.Starved)
    (h : reader.read chunkLength = s.reader.read chunkLength) :
    (s.withReader reader).decodeMore = s.decodeMore := by
  have hs' : (s.withReader reader).Starved := hs
  rw [decodeMore, decodeMore, if_pos hs, if_pos hs']
  cases hread : s.reader.read chunkLength with
  | mk answer rest =>
    have hread' : (s.withReader reader).reader.read chunkLength = (answer, rest) := h.trans hread
    cases answer with
    | ok bytes =>
      rw [readChunk_of_ok hread, readChunk_of_ok hread']
      rfl
    | error failure =>
      rw [readChunk_of_error hread, readChunk_of_error hread']
      rfl

theorem next_of_decoded {c : Char} {rest : List Char} (h : s.decoded = c :: rest) :
    s.next = (some c, s.handOut rest) := by
  rw [next, h]

theorem next_of_finished (hdecoded : s.decoded = []) (hf : s.finished = true) :
    s.next = (none, s) := by
  rw [next]
  simp [hdecoded, hf]

theorem next_of_not_finished (hdecoded : s.decoded = []) (hf : s.finished = false) :
    s.next = s.decodeMore.next := by
  rw [next]
  simp [hdecoded, hf]

end Encoding.Library.Stream

/-! ## Intakes -/

/-- A decoded stream and its record. -/
structure Intake {ε δ : Type} (L : Library ε δ) where
  stream : L.Stream
  acts : List (Act δ)

namespace Intake

open Encoding.Library

variable {ε δ : Type} {L : Library ε δ}

/-- Starts to read, up to where the encoding can be detected. -/
def ofReader [DecidableEq ε] (L : Library ε δ) (reader : ByteReader)
    (protocolLabel? : Option String) (environment? : Option ε) :
    List (Act δ) × Except ReadFailure (Intake L) :=
  match h : reader.gather sniffLength with
  | (acts, .error failure, _) => (acts, .error failure)
  | (acts, .ok bytes, rest) =>
    (acts, .ok
      ⟨.start L protocolLabel? environment? bytes (ByteReader.length_le_of_gather h) rest, acts⟩)

/-- An act leads to this stream. -/
def act (a : Act δ) (s : L.Stream) (i : Intake L) : Intake L := ⟨s, i.acts ++ [a]⟩

@[simp] theorem stream_act (a : Act δ) (s : L.Stream) (i : Intake L) : (i.act a s).stream = s := rfl

@[simp] theorem acts_act (a : Act δ) (s : L.Stream) (i : Intake L) :
    (i.act a s).acts = i.acts ++ [a] := rfl

/-- Calls the reader once more, when nothing is pending. After an interruption only the reader has
moved on. -/
def readOnce (i : Intake L) : Intake L :=
  match h : i.stream.reader.call chunkLength with
  | (.ok bytes, reader) =>
    i.act (.read chunkLength (.ok bytes))
      (i.stream.receive bytes (ByteReader.length_le_of_call h) reader)
  | (.error failure, reader) =>
    i.act (.read chunkLength (.error failure))
      (if failure.reason = .interrupted then i.stream.withReader reader
      else i.stream.fail failure reader)

/-- Calls the decoder. -/
def decodePending (i : Intake L) : Intake L :=
  i.act (.decode i.stream.pending i.stream.readerDone i.stream.decoding) i.stream.decodePending

/-- Hands out a code point. -/
def yield (c : Char) (rest : List Char) (i : Intake L) : Intake L :=
  i.act (.yield c) (i.stream.handOut rest)

/-- What a call of the reader comes to. -/
inductive Reads (i : Intake L) : Intake L → Prop
  | bytes {bytes : List UInt8} {reader : ByteReader}
      (h : i.stream.reader.call chunkLength = (.ok bytes, reader)) :
      Reads i (i.act (.read chunkLength (.ok bytes))
        (i.stream.receive bytes (ByteReader.length_le_of_call h) reader))
  | interrupted {failure : ReadFailure} {reader : ByteReader}
      (h : i.stream.reader.call chunkLength = (.error failure, reader))
      (hf : failure.reason = .interrupted) :
      Reads i (i.act (.read chunkLength (.error failure)) (i.stream.withReader reader))
  | failure {failure : ReadFailure} {reader : ByteReader}
      (h : i.stream.reader.call chunkLength = (.error failure, reader))
      (hf : failure.reason ≠ .interrupted) :
      Reads i (i.act (.read chunkLength (.error failure)) (i.stream.fail failure reader))

variable {i j : Intake L}

theorem reads_readOnce (i : Intake L) : Reads i i.readOnce := by
  unfold readOnce
  split
  case h_1 bytes reader h => exact .bytes h
  case h_2 failure reader h =>
    split
    case isTrue hf => exact .interrupted h hf
    case isFalse hf => exact .failure h hf

/-- How much there is to do before the end of the text is decoded. An interruption counts too. -/
def workLeft (i : Intake L) : Nat :=
  (if i.stream.finished then 0 else 1) +
    (if i.stream.readerDone then 0 else 2 * (i.stream.reader.effort + 1)) +
    if i.stream.pending = [] then 0 else 1

theorem Reads.workLeft_lt (h : Reads i j) (hf : i.stream.finished = false)
    (hs : i.stream.Starved) : j.workLeft < i.workLeft := by
  obtain ⟨hp, hd⟩ := hs
  cases h with
  | @bytes bytes reader h =>
    cases bytes with
    | nil =>
      simp only [stream_act, Stream.receive, workLeft, hf, hd, hp, List.isEmpty_nil,
        Bool.false_eq_true, if_false, if_true]
      omega
    | cons b bytes =>
      have hlt := ByteReader.effort_lt_of_call_bytes h
      simp only [stream_act, Stream.receive, workLeft, hf, hd, hp, List.isEmpty_cons,
        Bool.false_eq_true, if_false, if_true, reduceCtorEq]
      omega
  | interrupted h _ =>
    have hlt := ByteReader.effort_lt_of_call_error h
    simp only [stream_act, Stream.withReader, workLeft, hf, hd, hp, Bool.false_eq_true, if_false,
      if_true]
    omega
  | failure h _ =>
    simp only [stream_act, Stream.fail, workLeft, hf, hd, hp, Bool.false_eq_true, if_false,
      if_true]
    omega

theorem workLeft_decodePending_lt (hf : i.stream.finished = false) (h : ¬ i.stream.Starved) :
    i.decodePending.workLeft < i.workLeft := by
  simp only [decodePending, workLeft, stream_act, Stream.reader_decodePending,
    Stream.finished_decodePending, Stream.readerDone_decodePending,
    Stream.pending_decodePending, if_true, hf]
  by_cases hd : i.stream.readerDone = true
  · simp only [hd, Bool.false_eq_true, if_false, if_true]
    omega
  · have hp : i.stream.pending ≠ [] := fun hnil => h ⟨hnil, Bool.eq_false_iff.mpr hd⟩
    simp only [hd, hp, Bool.false_eq_true, if_false]
    omega

/-- The next code point. Only when all are handed out that there are, more are decoded, and only
when there is nothing to decode, more is read. -/
def next (i : Intake L) : Option Char × Intake L :=
  match i.stream.decoded with
  | c :: rest => (some c, i.yield c rest)
  | [] =>
    if _hf : i.stream.finished then (none, i)
    else if _hs : i.stream.Starved then next i.readOnce
    else next i.decodePending
termination_by i.workLeft
decreasing_by
  · exact (reads_readOnce i).workLeft_lt (Bool.eq_false_iff.mpr _hf) _hs
  · exact workLeft_decodePending_lt (Bool.eq_false_iff.mpr _hf) _hs

/-- The intake after so many answers. -/
def after : Nat → Intake L → Intake L
  | 0, i => i
  | k + 1, i => (after k i).next.2

/-- The answer after so many. -/
def answer (k : Nat) (i : Intake L) : Option Char := (after k i).next.1

/-! ## Steps -/

/-- Everything is handed out and decoded, and the reader is not done. -/
structure Idle (i : Intake L) : Prop where
  decoded : i.stream.decoded = []
  finished : i.stream.finished = false
  pending : i.stream.pending = []
  readerDone : i.stream.readerDone = false

/-- What an intake does from one call to the next. -/
inductive Step (i : Intake L) : Intake L → Prop
  | yield {c : Char} {rest : List Char} (h : i.stream.decoded = c :: rest) :
      Step i (i.yield c rest)
  | decode (hdecoded : i.stream.decoded = []) (hf : i.stream.finished = false)
      (hs : ¬ i.stream.Starved) : Step i i.decodePending
  | read {j : Intake L} (hi : i.Idle) (h : Reads i j) : Step i j

/-- What every step keeps, every answer keeps. -/
theorem next_keeps {P : Intake L → Prop} (hstep : ∀ {i j : Intake L}, Step i j → P i → P j)
    (i : Intake L) (h : P i) : P i.next.2 := by
  fun_induction next i with
  | case1 i c rest hdecoded => exact hstep (.yield hdecoded) h
  | case2 i hdecoded hf => exact h
  | case3 i hdecoded hf hs ih =>
    have hi : i.Idle := ⟨hdecoded, Bool.eq_false_iff.mpr hf, hs.1, hs.2⟩
    exact ih (hstep (.read hi (reads_readOnce i)) h)
  | case4 i hdecoded hf hs ih =>
    exact ih (hstep (.decode hdecoded (Bool.eq_false_iff.mpr hf) hs) h)

theorem after_keeps {P : Intake L → Prop} (hstep : ∀ {i j : Intake L}, Step i j → P i → P j)
    (k : Nat) (i : Intake L) (h : P i) : P (i.after k) := by
  induction k with
  | zero => exact h
  | succ k ih => exact next_keeps hstep (i.after k) ih

/-- There is no further answer only when everything is handed out and the end is decoded. -/
theorem next_eq_none (h : i.next.1 = none) :
    i.next.2.stream.decoded = [] ∧ i.next.2.stream.finished = true := by
  fun_induction next i with
  | case1 i c rest hdecoded => contradiction
  | case2 i hdecoded hf => exact ⟨hdecoded, hf⟩
  | case3 i hdecoded hf hs ih => exact ih h
  | case4 i hdecoded hf hs ih => exact ih h

theorem next_of_finished (hdecoded : i.stream.decoded = []) (hf : i.stream.finished = true) :
    i.next = (none, i) := by
  rw [next]
  simp [hdecoded, hf]

/-- After its first end an intake has nothing more to say, and calls nothing any more. -/
theorem after_end (k m : Nat) (h : i.answer k = none) :
    i.after (k + 1 + m) = i.after (k + 1) ∧ i.answer (k + 1 + m) = none := by
  obtain ⟨hdecoded, hf⟩ := next_eq_none h
  have hnext := next_of_finished hdecoded hf
  have hafter : i.after (k + 1 + m) = i.after (k + 1) := by
    induction m with
    | zero => rfl
    | succ m ih =>
      rw [← Nat.add_assoc, after, ih, after, hnext]
  refine ⟨hafter, ?_⟩
  rw [answer, hafter, after, hnext]

/-! ## The stream of an intake -/

/-- A call of the reader leaves the decoder alone. -/
theorem Reads.frame (h : Reads i j) :
    (∃ answer, j.acts = i.acts ++ [.read chunkLength answer]) ∧
      j.stream.encoding = i.stream.encoding ∧ j.stream.decoder = i.stream.decoder ∧
      j.stream.decoded = i.stream.decoded ∧ j.stream.finished = i.stream.finished := by
  cases h
  all_goals exact ⟨⟨_, rfl⟩, rfl, rfl, rfl, rfl⟩

/-- However often a call is interrupted, the stream reads once. -/
theorem Reads.decodeMore_eq (h : Reads i j) (hs : i.stream.Starved) :
    j.stream.decodeMore = i.stream.decodeMore := by
  cases h with
  | interrupted h hf =>
    exact Stream.decodeMore_withReader hs (ByteReader.read_of_call_interrupted h hf).symm
  | bytes h =>
    rw [stream_act, Stream.decodeMore, Stream.decodeMore, if_pos hs,
      if_neg (Stream.not_starved_receive _ _ _ _),
      Stream.readChunk_of_ok (ByteReader.read_of_call_ok h)]
  | failure h hf =>
    rw [stream_act, Stream.decodeMore, Stream.decodeMore, if_pos hs,
      if_neg (Stream.not_starved_fail _ _ _),
      Stream.readChunk_of_error (ByteReader.read_of_call_error h hf)]

/-- Without its record an intake answers as a stream. -/
theorem next_stream (i : Intake L) : i.stream.next = (i.next.1, i.next.2.stream) := by
  fun_induction next i with
  | case1 i c rest hdecoded => exact Stream.next_of_decoded hdecoded
  | case2 i hdecoded hf => exact Stream.next_of_finished hdecoded hf
  | case3 i hdecoded hf hs ih =>
    have hreads := reads_readOnce i
    obtain ⟨-, -, -, hdecoded', hf'⟩ := hreads.frame
    rw [hdecoded] at hdecoded'
    rw [Bool.eq_false_iff.mpr hf] at hf'
    rw [← ih, Stream.next_of_not_finished hdecoded (Bool.eq_false_iff.mpr hf),
      Stream.next_of_not_finished hdecoded' hf', hreads.decodeMore_eq hs]
  | case4 i hdecoded hf hs ih =>
    rw [← ih, Stream.next_of_not_finished hdecoded (Bool.eq_false_iff.mpr hf), Stream.decodeMore,
      if_neg hs]
    rfl

theorem pulled_stream (k : Nat) (i : Intake L) :
    CharStream.pulled k i.stream = (i.after k).stream := by
  induction k with
  | zero => rfl
  | succ k ih =>
    rw [CharStream.pulled, ih, after]
    exact congrArg Prod.snd (next_stream (i.after k))

theorem answer_stream (k : Nat) (i : Intake L) :
    (CharStream.next (CharStream.pulled k i.stream)).1 = i.answer k := by
  rw [pulled_stream]
  exact congrArg Prod.fst (next_stream (i.after k))

section Open

variable [DecidableEq ε] {reader rest : ByteReader} {protocolLabel? : Option String}
  {environment? : Option ε} {acts : List (Act δ)}

theorem ofReader_of_ok {bytes : List UInt8}
    (h : reader.gather sniffLength = (acts, .ok bytes, rest)) :
    ofReader L reader protocolLabel? environment? =
      (acts, .ok ⟨.start L protocolLabel? environment? bytes (ByteReader.length_le_of_gather h)
        rest, acts⟩) := by
  unfold ofReader
  split
  case h_1 acts' failure rest' h' =>
    rw [h] at h'
    simp at h'
  case h_2 acts' bytes' rest' h' =>
    obtain ⟨rfl, hgot⟩ := Prod.mk.inj (h'.symm.trans h)
    obtain ⟨hbytes, rfl⟩ := Prod.mk.inj hgot
    obtain rfl := Except.ok.inj hbytes
    rfl

theorem ofReader_of_error {failure : ReadFailure}
    (h : reader.gather sniffLength = (acts, .error failure, rest)) :
    ofReader L reader protocolLabel? environment? = (acts, .error failure) := by
  unfold ofReader
  split
  case h_1 acts' failure' rest' h' =>
    obtain ⟨rfl, hgot⟩ := Prod.mk.inj (h'.symm.trans h)
    obtain rfl := Except.error.inj (Prod.mk.inj hgot).1
    rfl
  case h_2 acts' bytes rest' h' =>
    rw [h] at h'
    simp at h'

/-- Without its record an intake starts as a stream. -/
theorem stream_ofReader (reader : ByteReader) (protocolLabel? : Option String)
    (environment? : Option ε) :
    (ofReader L reader protocolLabel? environment?).2.map stream =
      Stream.ofReader L reader protocolLabel? environment? := by
  have hgathers := ByteReader.gathers_gather (δ := δ) sniffLength reader
  cases hgather : reader.gather (δ := δ) sniffLength with
  | mk acts gathered =>
    obtain ⟨got, rest⟩ := gathered
    rw [hgather] at hgathers
    have hfully := hgathers.readFully
    cases got with
    | ok bytes =>
      rw [ofReader_of_ok hgather, Stream.ofReader_of_ok hfully]
      rfl
    | error failure =>
      rw [ofReader_of_error hgather, Stream.ofReader_of_error (congrArg Prod.fst hfully)]
      rfl

end Open

end Intake
end Stylesheet
