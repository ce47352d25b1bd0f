import Stylesheet.ByteReader
import Stylesheet.CharStream
import Stylesheet.Encoding.Decoder

/-!
# Decoded streams

The code points of a style sheet that is still being read, over any library of encodings. The
first bytes are read at once to detect the encoding. After that more is decoded only when every
code point decoded so far has been handed out, and more is read only when every byte read so far
has been decoded. A failure of the reader ends the text as its end would.
-/
namespace Stylesheet

namespace Encoding.Library

open Encoding (Decoded chunkLength sniffLength)

/-- A stream of code points over a reader. -/
structure Stream {ε δ : Type} (L : Library ε δ) where
  reader : ByteReader
  encoding : ε
  decoder : δ
  /-- Read and not decoded. -/
  pending : List UInt8
  /-- Decoded and not handed out. -/
  decoded : List Char
  /-- How many bytes of UTF-8 there is room for at a time. -/
  room : Nat
  /-- The reader has come to its end, or failed. -/
  readerDone : Bool
  /-- The end of the text is decoded. -/
  finished : Bool
  /-- The failure that ended the text. -/
  failure? : Option ReadFailure
  pending_le : pending.length ≤ chunkLength

namespace Stream

variable {ε δ : Type} {L : Library ε δ}

/-! ## Reading -/

/-- A stream in front of its first bytes. If they are too few, the reader has come to its end. -/
def start [DecidableEq ε] (L : Library ε δ) (protocolLabel? : Option String)
    (environment? : Option ε) (bytes : List UInt8) (h : bytes.length ≤ sniffLength)
    (reader : ByteReader) : L.Stream :=
  let encoding := L.detect bytes protocolLabel? environment?
  { reader, encoding, decoder := L.newDecoder encoding, pending := bytes, decoded := [], room := 0,
    readerDone := bytes.length < sniffLength, finished := false, failure? := none,
    pending_le := Nat.le_trans h (by decide) }

/-- Starts to read, up to where the encoding can be detected. It fails if these bytes cannot be
read. -/
def ofReader [DecidableEq ε] (L : Library ε δ) (reader : ByteReader)
    (protocolLabel? : Option String) (environment? : Option ε) :
    Except ReadFailure L.Stream :=
  match h : reader.readFully sniffLength with
  | (.error failure, _) => .error failure
  | (.ok bytes, reader) =>
    .ok (start L protocolLabel? environment? bytes (ByteReader.length_le_of_readFully h) reader)

/-- Takes in what a read got, when nothing is pending. No bytes are the end. -/
def receive (bytes : List UInt8) (h : bytes.length ≤ chunkLength) (reader : ByteReader)
    (s : L.Stream) : L.Stream :=
  { s with reader, pending := bytes, readerDone := bytes.isEmpty, pending_le := h }

/-- Takes in that a read failed. -/
def fail (failure : ReadFailure) (reader : ByteReader) (s : L.Stream) : L.Stream :=
  { s with reader, readerDone := true, failure? := some failure }

/-- Reads once more, when nothing is pending. -/
def readChunk (s : L.Stream) : L.Stream :=
  match h : s.reader.read chunkLength with
  | (.ok bytes, reader) => s.receive bytes (ByteReader.length_le_of_read h) reader
  | (.error failure, reader) => s.fail failure reader

section Reads

variable {reader : ByteReader} {bytes : List UInt8} {failure : ReadFailure}

theorem readChunk_of_ok {s : L.Stream} (h : s.reader.read chunkLength = (.ok bytes, reader)) :
    s.readChunk = s.receive bytes (ByteReader.length_le_of_read h) reader := by
  unfold readChunk
  split
  case h_1 bytes' reader' h' =>
    obtain ⟨hbytes, rfl⟩ := Prod.mk.inj (h'.symm.trans h)
    obtain rfl := Except.ok.inj hbytes
    rfl
  case h_2 failure reader' h' =>
    rw [h] at h'
    simp at h'

theorem readChunk_of_error {s : L.Stream}
    (h : s.reader.read chunkLength = (.error failure, reader)) :
    s.readChunk = s.fail failure reader := by
  unfold readChunk
  split
  case h_1 bytes reader' h' =>
    rw [h] at h'
    simp at h'
  case h_2 failure' reader' h' =>
    obtain ⟨hfailure, rfl⟩ := Prod.mk.inj (h'.symm.trans h)
    obtain rfl := Except.error.inj hfailure
    rfl

variable [DecidableEq ε] {rest : ByteReader} {protocolLabel? : Option String}
  {environment? : Option ε}

theorem ofReader_of_ok (h : reader.readFully sniffLength = (.ok bytes, rest)) :
    ofReader L reader protocolLabel? environment? =
      .ok (start L protocolLabel? environment? bytes (ByteReader.length_le_of_readFully h)
        rest) := by
  unfold ofReader
  split
  case h_1 failure rest' h' =>
    rw [h] at h'
    simp at h'
  case h_2 bytes' rest' h' =>
    obtain ⟨hbytes, rfl⟩ := Prod.mk.inj (h'.symm.trans h)
    obtain rfl := Except.ok.inj hbytes
    rfl

theorem ofReader_of_error (h : (reader.readFully sniffLength).1 = .error failure) :
    ofReader L reader protocolLabel? environment? = .error failure := by
  unfold ofReader
  split
  case h_1 failure' rest h' =>
    rw [h'] at h
    exact congrArg Except.error (Except.error.inj h)
  case h_2 bytes rest h' =>
    rw [h'] at h
    contradiction

end Reads

/-! ## Decoding -/

/-- The room that there is made for what is pending. What there is already is kept. -/
def reserved (s : L.Stream) : Nat :=
  max s.room ((L.maxLength? s.decoder s.pending.length).getD (3 * chunkLength))

/-- What the decoder makes of what is pending. If no more comes, it is told so. -/
def decoding (s : L.Stream) : Decoded δ :=
  L.decode s.decoder s.pending s.reserved s.readerDone

/-- Gives what is pending to the decoder. It may not read all of it. -/
def decodePending (s : L.Stream) : L.Stream :=
  { s with
    decoder := s.decoding.decoder, pending := s.pending.drop s.decoding.read,
    decoded := s.decoding.chars, room := s.reserved,
    finished :=
      s.readerDone && s.decoding.result = .inputEmpty &&
        (s.pending.drop s.decoding.read).isEmpty,
    pending_le := by
      have hle := s.pending_le
      rw [List.length_drop]
      omega }

/-- Nothing is left to decode, and more may come. -/
def Starved (s : L.Stream) : Prop := s.pending = [] ∧ s.readerDone = false

instance (s : L.Stream) : Decidable s.Starved := inferInstanceAs (Decidable (_ ∧ _))

/-- Decodes more, after reading more if there is nothing left to decode. -/
def decodeMore (s : L.Stream) : L.Stream :=
  (if s.Starved then s.readChunk else s).decodePending

/-! ## Progress -/

/-- The decoder always reads all that it is given: there is room for it. -/
theorem result_decoding (s : L.Stream) : s.decoding.result = .inputEmpty := by
  obtain ⟨n, hn⟩ := Option.isSome_iff_exists.mp (L.isSome_maxLength? s.decoder _ s.pending_le)
  refine L.result_eq _ _ _ _ n hn ?_
  rw [reserved, hn]
  exact Nat.le_max_right _ _

theorem read_decoding (s : L.Stream) : s.decoding.read = s.pending.length :=
  L.read_eq _ _ _ _ s.result_decoding

theorem drop_read (s : L.Stream) : s.pending.drop s.decoding.read = [] := by
  rw [read_decoding, List.drop_length]

@[simp] theorem pending_decodePending (s : L.Stream) : s.decodePending.pending = [] :=
  s.drop_read

@[simp] theorem finished_decodePending (s : L.Stream) :
    s.decodePending.finished = s.readerDone := by
  simp [decodePending, s.result_decoding, s.drop_read]

@[simp] theorem readerDone_decodePending (s : L.Stream) :
    s.decodePending.readerDone = s.readerDone := rfl

@[simp] theorem reader_decodePending (s : L.Stream) : s.decodePending.reader = s.reader := rfl

@[simp] theorem encoding_decodePending (s : L.Stream) :
    s.decodePending.encoding = s.encoding := rfl

@[simp] theorem decoder_decodePending (s : L.Stream) :
    s.decodePending.decoder = s.decoding.decoder := rfl

@[simp] theorem decoded_decodePending (s : L.Stream) :
    s.decodePending.decoded = s.decoding.chars := rfl

@[simp] theorem failure?_decodePending (s : L.Stream) :
    s.decodePending.failure? = s.failure? := rfl

/-- How much there is to do before the end of the text is decoded. -/
def workLeft (s : L.Stream) : Nat :=
  (if s.finished then 0 else 1) + (if s.readerDone then 0 else 1) + s.pending.length +
    s.reader.left

theorem workLeft_decodePending_lt {s : L.Stream} (hf : s.finished = false)
    (h : ¬ s.Starved) : s.decodePending.workLeft < s.workLeft := by
  simp only [workLeft, finished_decodePending, readerDone_decodePending,
    pending_decodePending, reader_decodePending, hf, List.length_nil]
  by_cases hd : s.readerDone = true
  · simp only [hd, if_true, Bool.false_eq_true, if_false]
    omega
  · have hp : 0 < s.pending.length := by
      rw [List.length_pos_iff]
      exact fun hnil => h ⟨hnil, Bool.eq_false_iff.mpr hd⟩
    simp only [hd, Bool.false_eq_true, if_false]
    omega

/-- After a read there is something to decode, if only the end of the text. -/
theorem not_starved_receive (bytes : List UInt8) (h : bytes.length ≤ chunkLength)
    (reader : ByteReader) (s : L.Stream) : ¬ (s.receive bytes h reader).Starved := by
  rintro ⟨hnil, hdone⟩
  obtain rfl : bytes = [] := hnil
  contradiction

theorem not_starved_fail (failure : ReadFailure) (reader : ByteReader) (s : L.Stream) :
    ¬ (s.fail failure reader).Starved := by
  rintro ⟨-, hdone⟩
  contradiction

theorem workLeft_readChunk_le {s : L.Stream} (hf : s.finished = false) (h : s.Starved) :
    s.readChunk.finished = false ∧ ¬ s.readChunk.Starved ∧ s.readChunk.workLeft ≤ s.workLeft := by
  obtain ⟨hp, hd⟩ := h
  have hleft := s.reader.readLength_add_left_read_le chunkLength
  cases hread : s.reader.read chunkLength with
  | mk answer reader =>
    rw [hread] at hleft
    cases answer with
    | ok bytes =>
      rw [readChunk_of_ok hread]
      refine ⟨hf, not_starved_receive _ _ _ _, ?_⟩
      simp only [ByteReader.readLength] at hleft
      simp only [receive, workLeft, hf, hp, hd, Bool.false_eq_true, if_false, List.length_nil]
      split
      · omega
      · omega
    | error failure =>
      rw [readChunk_of_error hread]
      refine ⟨hf, not_starved_fail _ _ _, ?_⟩
      simp only [ByteReader.readLength] at hleft
      simp only [fail, workLeft, hf, hp, hd, Bool.false_eq_true, if_false, if_true]
      omega

theorem workLeft_decodeMore_lt {s : L.Stream} (hf : s.finished = false) :
    s.decodeMore.workLeft < s.workLeft := by
  unfold decodeMore
  split
  case isTrue h =>
    obtain ⟨hfinished, hstarved, hle⟩ := workLeft_readChunk_le hf h
    exact Nat.lt_of_lt_of_le (workLeft_decodePending_lt hfinished hstarved) hle
  case isFalse h => exact workLeft_decodePending_lt hf h

/-! ## Code points -/

/-- Hands out the first of the code points, which leaves these. -/
def handOut (chars : List Char) (s : L.Stream) : L.Stream := { s with decoded := chars }

/-- What was decoded before has no part in what is decoded next. -/
theorem decodeMore_handOut (chars : List Char) (s : L.Stream) :
    (s.handOut chars).decodeMore = s.decodeMore := by
  have hstarved : (s.handOut chars).Starved ↔ s.Starved := Iff.rfl
  by_cases h : s.Starved
  · rw [decodeMore, decodeMore, if_pos h, if_pos (hstarved.mpr h)]
    cases hread : s.reader.read chunkLength with
    | mk answer reader =>
      have hread' : (s.handOut chars).reader.read chunkLength = (answer, reader) := hread
      cases answer with
      | ok bytes =>
        rw [readChunk_of_ok hread, readChunk_of_ok hread']
        rfl
      | error failure =>
        rw [readChunk_of_error hread, readChunk_of_error hread']
        rfl
  · rw [decodeMore, decodeMore, if_neg h, if_neg (mt hstarved.mp h)]
    rfl

/-- The next code point. -/
def next (s : L.Stream) : Option Char × L.Stream :=
  match s.decoded with
  | c :: rest => (some c, s.handOut rest)
  | [] => if _h : s.finished then (none, s) else next s.decodeMore
termination_by s.workLeft
decreasing_by exact workLeft_decodeMore_lt (Bool.eq_false_iff.mpr _h)

/-- All the code points that are still to come. -/
def rest (s : L.Stream) : List Char :=
  s.decoded ++ if _h : s.finished then [] else rest s.decodeMore
termination_by s.workLeft
decreasing_by exact workLeft_decodeMore_lt (Bool.eq_false_iff.mpr _h)

theorem rest_of_finished {s : L.Stream} (h : s.finished = true) : s.rest = s.decoded := by
  rw [rest, dif_pos h, List.append_nil]

theorem rest_of_not_finished {s : L.Stream} (h : s.finished = false) :
    s.rest = s.decoded ++ s.decodeMore.rest := by
  rw [rest, dif_neg (by rw [h]; exact Bool.false_ne_true)]

/-- The next code point is the first one of the rest. -/
theorem rest_next (s : L.Stream) : s.next.1 = s.rest.head? ∧ s.next.2.rest = s.rest.tail := by
  fun_induction next s with
  | case1 s c chars h =>
    have hdecoded : (s.handOut chars).decoded = chars := rfl
    cases hf : s.finished with
    | true =>
      have hf' : (s.handOut chars).finished = true := hf
      rw [rest_of_finished hf, rest_of_finished hf', h, hdecoded]
      exact ⟨rfl, rfl⟩
    | false =>
      have hf' : (s.handOut chars).finished = false := hf
      rw [rest_of_not_finished hf, rest_of_not_finished hf', decodeMore_handOut, h, hdecoded]
      exact ⟨rfl, rfl⟩
  | case2 s h hf =>
    rw [rest_of_finished hf, h]
    exact ⟨rfl, rfl⟩
  | case3 s h hf ih =>
    rw [rest_of_not_finished (Bool.eq_false_iff.mpr hf), h, List.nil_append]
    exact ih

instance : CharStream L.Stream where
  next := next
  left s := s.rest.length
  left_next_le s := by
    rw [(rest_next s).2, List.length_tail]
    exact Nat.sub_le _ _
  left_next_lt s h := by
    obtain ⟨hhead, htail⟩ := rest_next s
    rw [hhead] at h
    rw [htail]
    cases hrest : s.rest with
    | nil =>
      rw [hrest] at h
      contradiction
    | cons c chars => exact Nat.lt_succ_self _

end Stream

end Encoding.Library

/-- The streams of this library. -/
abbrev DecodedStream := Encoding.library.Stream

/-- A stream of this library that starts to read. -/
def DecodedStream.ofReader (reader : ByteReader) (protocolLabel? : Option String)
    (environment? : Option Encoding) : Except ReadFailure DecodedStream :=
  Encoding.Library.Stream.ofReader Encoding.library reader protocolLabel? environment?

end Stylesheet
