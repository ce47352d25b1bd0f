import Stylesheet.Proofs.Decoding
import Stylesheet.Proofs.Detection
import Stylesheet.Proofs.Readers
import Stylesheet.Proofs.Views
import Stylesheet.Tokenizer.Bytes

/-!
# Streaming

A style sheet that is decoded while it is read comes to the text that all of its bytes stand for,
in whatever pieces a reader hands them out, with any library whose decoders are faithful. Tokens,
failures and their locations are then the same as those of that text.
-/
namespace Stylesheet

namespace Encoding.Library.Stream

open ByteReader (HandsOut incoming)
open Encoding (sniffLength chunkLength)

variable {ε δ : Type} {L : Library ε δ} {s : L.Stream}

/-! ## What is still to be decoded -/

/-- The bytes that are not decoded yet, and the failure that the stream ends with. -/
def ahead (s : L.Stream) : List UInt8 × Option ReadFailure :=
  if s.readerDone then (s.pending, s.failure?)
  else (s.pending ++ (incoming s.reader.events).1, (incoming s.reader.events).2)

/-- A read leaves alone what has been decoded. -/
theorem frame_readChunk (s : L.Stream) :
    s.readChunk.encoding = s.encoding ∧ s.readChunk.decoder = s.decoder ∧
      s.readChunk.decoded = s.decoded ∧ s.readChunk.finished = s.finished := by
  cases hread : s.reader.read chunkLength with
  | mk answer reader =>
    cases answer with
    | ok bytes =>
      rw [readChunk_of_ok hread]
      exact ⟨rfl, rfl, rfl, rfl⟩
    | error failure =>
      rw [readChunk_of_error hread]
      exact ⟨rfl, rfl, rfl, rfl⟩

@[simp] theorem encoding_decodeMore (s : L.Stream) : s.decodeMore.encoding = s.encoding := by
  unfold decodeMore
  split
  · exact s.frame_readChunk.1
  · rfl

theorem ahead_receive (hn : s.failure? = none) (bytes : List UInt8)
    (h : bytes.length ≤ chunkLength) (reader : ByteReader) :
    (s.receive bytes h reader).ahead = ByteReader.brought (.ok bytes) reader.events := by
  cases bytes with
  | nil => exact congrArg (Prod.mk []) hn
  | cons b bytes => rfl

theorem ahead_fail (hp : s.pending = []) (failure : ReadFailure) (reader : ByteReader) :
    (s.fail failure reader).ahead = ByteReader.brought (.error failure) reader.events :=
  congrArg (Prod.mk · (some failure)) hp

/-- A read brings forward what is still to be decoded, and does not change it. -/
theorem ahead_readChunk (hs : s.Starved) (hn : s.failure? = none) :
    s.readChunk.ahead = s.ahead := by
  obtain ⟨hpending, hdone⟩ := hs
  have hbrought := ByteReader.brought_read (n := chunkLength) (by decide) s.reader
  have hahead : s.ahead = incoming s.reader.events := by
    rw [ahead, hdone, if_neg Bool.false_ne_true, hpending]
    rfl
  rw [hahead, ← hbrought]
  cases hread : s.reader.read chunkLength with
  | mk answer reader =>
    cases answer with
    | ok bytes =>
      rw [readChunk_of_ok hread]
      exact ahead_receive hn _ _ _
    | error failure =>
      rw [readChunk_of_error hread]
      exact ahead_fail hpending _ _

theorem failure?_readChunk (hn : s.failure? = none) (hd : s.readChunk.readerDone = false) :
    s.readChunk.failure? = none := by
  cases hread : s.reader.read chunkLength with
  | mk answer reader =>
    cases answer with
    | ok bytes =>
      rw [readChunk_of_ok hread]
      exact hn
    | error failure =>
      rw [readChunk_of_error hread] at hd
      contradiction

/-! ## Readings -/

/-- A reading comes to these bytes and this failure, and the stream has come so far with it: these
code points are handed out. -/
inductive Follows (bytes : List UInt8) (failure? : Option ReadFailure) (yielded : List Char)
    (s : L.Stream) : Prop
  /-- The decoder has had some of the bytes, and the others are ahead. -/
  | reading {given : List UInt8} (hf : s.finished = false)
      (hfed : L.Fed s.encoding given (yielded ++ s.decoded) s.decoder)
      (hahead : (bytes, failure?) = (given ++ s.ahead.1, s.ahead.2))
      (hnone : s.readerDone = false → s.failure? = none)
  | finished (hf : s.finished = true)
      (htext : yielded ++ s.decoded = L.decodeAll s.encoding bytes)
      (hfailure : s.failure? = failure?)

variable {bytes : List UInt8} {failure? : Option ReadFailure} {yielded : List Char}

theorem Follows.readChunk (h : Follows bytes failure? yielded s) (hf : s.finished = false)
    (hs : s.Starved) : Follows bytes failure? yielded s.readChunk := by
  obtain ⟨hencoding, hdecoder, hdecoded, hfinished⟩ := s.frame_readChunk
  cases h with
  | finished hf' => rw [hf] at hf'; contradiction
  | reading _ hfed hahead hnone =>
    have hn := hnone hs.2
    rw [← hencoding, ← hdecoder, ← hdecoded] at hfed
    rw [← ahead_readChunk hs hn] at hahead
    exact .reading (hfinished.trans hf) hfed hahead (failure?_readChunk hn)

/-- The call of the decoder that writes the end of the text is the one that gets the last bytes. -/
theorem Follows.decodePending (hL : L.Faithful) (h : Follows bytes failure? yielded s)
    (hf : s.finished = false) :
    Follows bytes failure? (yielded ++ s.decoded) s.decodePending := by
  cases h with
  | finished hf' => rw [hf] at hf'; contradiction
  | @reading given _ hfed hahead hnone =>
    have hresult := s.result_decoding
    have hread := s.read_decoding
    rw [decoding] at hresult hread
    cases hd : s.readerDone with
    | true =>
      rw [ahead, if_pos hd] at hahead
      obtain ⟨rfl, rfl⟩ := Prod.mk.inj hahead
      rw [hd] at hresult
      refine .finished (s.finished_decodePending.trans hd) ?_ rfl
      have htext := hL hfed s.pending s.reserved hresult
      rw [← hd] at htext
      exact htext
    | false =>
      have hcall := hfed.call s.pending s.reserved
      rw [← hd, hread, List.take_length] at hcall
      refine .reading (s.finished_decodePending.trans hd) hcall ?_ fun _ => hnone hd
      rw [ahead, hd, if_neg Bool.false_ne_true] at hahead
      rw [ahead, readerDone_decodePending, pending_decodePending, hd, if_neg Bool.false_ne_true,
        List.nil_append, hahead, List.append_assoc]
      rfl

theorem Follows.decodeMore (hL : L.Faithful) (h : Follows bytes failure? yielded s)
    (hf : s.finished = false) : Follows bytes failure? (yielded ++ s.decoded) s.decodeMore := by
  unfold Stream.decodeMore
  split
  case isTrue hs =>
    obtain ⟨-, -, hdecoded, hfinished⟩ := s.frame_readChunk
    have hdecode := (h.readChunk hf hs).decodePending hL (hfinished.trans hf)
    rw [hdecoded] at hdecode
    exact hdecode
  case isFalse hs => exact h.decodePending hL hf

theorem Follows.next (hL : L.Faithful) (h : Follows bytes failure? yielded s) :
    Follows bytes failure? (yielded ++ s.next.1.toList) s.next.2 := by
  fun_induction Stream.next s generalizing yielded with
  | case1 s c rest hdecoded =>
    have happend : yielded ++ [c] ++ rest = yielded ++ s.decoded := by
      rw [hdecoded, List.append_assoc]
      rfl
    cases h with
    | reading hf hfed hahead hnone =>
      rw [← happend] at hfed
      exact .reading hf hfed hahead hnone
    | finished hf htext hfailure =>
      rw [← happend] at htext
      exact .finished hf htext hfailure
  | case2 s hdecoded hf =>
    rw [Option.toList_none, List.append_nil]
    exact h
  | case3 s hdecoded hf ih =>
    have hmore := h.decodeMore hL (Bool.eq_false_iff.mpr hf)
    rw [hdecoded, List.append_nil] at hmore
    exact ih hmore

/-- All the code points are those of all the bytes. -/
theorem Follows.rest_eq (hL : L.Faithful) (h : Follows bytes failure? yielded s) :
    yielded ++ s.rest = L.decodeAll s.encoding bytes := by
  fun_induction Stream.rest s generalizing yielded with
  | case1 s ih =>
    cases hf : s.finished with
    | true =>
      cases h with
      | reading hf' => rw [hf] at hf'; contradiction
      | finished _ htext => simpa using htext
    | false =>
      have hmore := ih (by rw [hf]; exact Bool.false_ne_true) (h.decodeMore hL hf)
      rw [encoding_decodeMore, List.append_assoc] at hmore
      simpa using hmore

/-! ## All the code points -/

theorem drain_eq_rest (s : L.Stream) : CharStream.drain s = s.rest := by
  generalize hrest : s.rest = rest
  induction rest generalizing s with
  | nil =>
    have hhead := s.rest_next.1
    rw [hrest] at hhead
    exact CharStream.drain_of_none (Prod.ext hhead rfl)
  | cons c rest ih =>
    obtain ⟨hhead, htail⟩ := s.rest_next
    rw [hrest] at hhead htail
    rw [CharStream.drain_of_some (Prod.ext hhead rfl)]
    exact congrArg (c :: ·) (ih _ htail)

instance : CharStream.Fused L.Stream where
  next_eq_none s h := by
    obtain ⟨hhead, htail⟩ := s.rest_next
    have hnil : s.rest = [] := List.head?_eq_none_iff.mp (hhead.symm.trans h)
    rw [hnil] at htail
    have hnext := s.next.2.rest_next.1
    rw [htail] at hnext
    exact hnext

/-! ## Beginning -/

variable [DecidableEq ε] {reader : ByteReader} {protocolLabel? : Option String}
  {environment? : Option ε}

/-- A stream is not opened exactly if the reader fails before it has brought what detection
needs. -/
theorem ofReader_eq_error_iff (failure : ReadFailure) :
    ofReader L reader protocolLabel? environment? = .error failure ↔
      (incoming reader.events).2 = some failure ∧
        (incoming reader.events).1.length < sniffLength := by
  rw [← ByteReader.readFully_eq_error_iff]
  cases hfully : reader.readFully sniffLength with
  | mk got rest =>
    cases got with
    | error why =>
      rw [ofReader_of_error (congrArg Prod.fst hfully), Except.error.injEq, Except.error.injEq]
    | ok front => simp [ofReader_of_ok hfully]

theorem ahead_start (bytes : List UInt8) (h : bytes.length ≤ sniffLength) (reader : ByteReader) :
    (start L protocolLabel? environment? bytes h reader).ahead =
      if bytes.length < sniffLength then (bytes, none)
      else (bytes ++ (incoming reader.events).1, (incoming reader.events).2) := by
  simp only [ahead, start, decide_eq_true_eq]

/-- A stream begins in front of all that the reader brings, in the encoding of the first bytes. -/
theorem follows_ofReader (h : ofReader L reader protocolLabel? environment? = .ok s) :
    s.encoding =
        L.detect ((incoming reader.events).1.take sniffLength) protocolLabel? environment? ∧
      Follows (incoming reader.events).1 (incoming reader.events).2 [] s := by
  cases hfully : reader.readFully sniffLength with
  | mk got rest =>
    cases got with
    | error failure =>
      rw [ofReader_of_error (congrArg Prod.fst hfully)] at h
      contradiction
    | ok front =>
      have hbegins := ByteReader.begins_readFully sniffLength reader
      rw [ofReader_of_ok hfully] at h
      rw [hfully] at hbegins
      obtain rfl := Except.ok.inj h
      refine ⟨?_, .reading rfl .new ?_ fun _ => rfl⟩
      · rw [ByteReader.take_incoming_of_readFully hfully]
        rfl
      · rw [List.nil_append, ahead_start]
        exact hbegins

/-- A reader that hands out these bytes lets a stream be opened. -/
theorem exists_ofReader {events : List ReadEvent} {bytes : List UInt8}
    (h : HandsOut events bytes) (L : Library ε δ) (protocolLabel? : Option String)
    (environment? : Option ε) :
    ∃ s, ofReader L (.ofEvents events) protocolLabel? environment? = .ok s ∧
      s.encoding = L.detect bytes protocolLabel? environment? ∧ Follows bytes none [] s := by
  have hincoming : incoming (ByteReader.ofEvents events).events = (bytes, none) := h.incoming_eq
  cases hs : ofReader L (.ofEvents events) protocolLabel? environment? with
  | error failure =>
    obtain ⟨hfailure, -⟩ := (ofReader_eq_error_iff failure).mp hs
    rw [hincoming] at hfailure
    contradiction
  | ok s =>
    obtain ⟨hencoding, hfollows⟩ := follows_ofReader hs
    rw [hincoming] at hencoding hfollows
    exact ⟨s, rfl, hencoding.trans (L.detect_take bytes _ _), hfollows⟩

end Encoding.Library.Stream

/-! ## Tokenizers -/

/-- With a library whose decoders are faithful, a style sheet that is read in pieces has the
encoding, the text, the tokens, the failures and their locations of all of its bytes taken
together. -/
theorem reader_agrees {ε δ : Type} [DecidableEq ε] (L : Encoding.Library ε δ) (hL : L.Faithful)
    {events : List ReadEvent} {bytes : List UInt8} (h : ByteReader.HandsOut events bytes)
    (protocolLabel? : Option String) (environment? : Option ε) :
    (∃ s, Encoding.Library.Stream.ofReader L (.ofEvents events) protocolLabel? environment? =
        .ok s ∧
      s.encoding = (L.decodeStylesheet bytes protocolLabel? environment?).2 ∧
      String.ofList (CharStream.drain s) =
        (L.decodeStylesheet bytes protocolLabel? environment?).1) ∧
    ∃ t, L.tokenizer (.ofEvents events) protocolLabel? environment? = .ok t ∧
      ∀ n, t.answers n =
        (Tokenizer.ofString
          (L.decodeStylesheet bytes protocolLabel? environment?).1).answers n := by
  obtain ⟨s, hs, hencoding, hfollows⟩ :=
    Encoding.Library.Stream.exists_ofReader h L protocolLabel? environment?
  have hdrain : CharStream.drain s =
      (L.decodeStylesheet bytes protocolLabel? environment?).1.toList := by
    have hrest := hfollows.rest_eq hL
    rw [List.nil_append, hencoding] at hrest
    rw [Encoding.Library.Stream.drain_eq_rest, hrest, Encoding.Library.decodeStylesheet,
      String.toList_ofList]
  refine ⟨⟨s, hs, hencoding, ?_⟩, .ofSource (.ofStream s), ?_, fun n => ?_⟩
  · rw [hdrain, String.ofList_toList]
  · rw [Encoding.Library.tokenizer, Encoding.Library.source, hs]
    rfl
  · have hreader := BufferedSource.shows_ofStream s
    have hstring := BufferedSource.shows_ofStream
      (L.decodeStylesheet bytes protocolLabel? environment?).1.toList
    rw [hdrain] at hreader
    rw [CharStream.drain_list] at hstring
    have halike := (BufferedSource.asCursor L.Stream).alike_ofSource hreader
    have halike' := (BufferedSource.asCursor (List Char)).alike_ofSource hstring
    rw [Simulation.answers_eq _ halike n]
    exact (Simulation.answers_eq _ halike' n).symm

/-- A sequence of two bytes with an interruption in between. -/
theorem reader_agrees_interrupted :
    ByteReader.HandsOut [.bytes [0x61, 0xC3], .failure ⟨.interrupted, "again"⟩,
        .bytes [0xA9, 0x7B], .endOfInput] [0x61, 0xC3, 0xA9, 0x7B] ∧
      Encoding.library.Faithful ∧
      ∃ t, Tokenizer.ofReader (.ofEvents [.bytes [0x61, 0xC3], .failure ⟨.interrupted, "again"⟩,
          .bytes [0xA9, 0x7B], .endOfInput]) none none = .ok t ∧
        ∀ n, t.answers n = (Tokenizer.ofString "aé\x7b").answers n := by
  have h : ByteReader.HandsOut
      [.bytes [0x61, 0xC3], .failure ⟨.interrupted, "again"⟩, .bytes [0xA9, 0x7B], .endOfInput]
      ([0x61, 0xC3] ++ ([0xA9, 0x7B] ++ [])) :=
    .bytes (by decide) (.interrupted rfl (.bytes (by decide) (.endOfInput [])))
  have htext : (Encoding.library.decodeStylesheet [0x61, 0xC3, 0xA9, 0x7B] none none).1 =
      "aé\x7b" := by
    decide +kernel
  have hagrees := (reader_agrees Encoding.library Encoding.library_faithful h none none).2
  rw [← htext]
  exact ⟨h, Encoding.library_faithful, hagrees⟩

end Stylesheet
