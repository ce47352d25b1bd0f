import Stylesheet.Proofs.Discipline

/-!
# Read failures

What a reader brings is cut off by the first failure that is not just an interruption. Main
statement: such a failure keeps a stream from being opened exactly if it comes before the bytes
that detection needs; later it ends the text as its end would, and is reported from then on.
Interruptions change nothing.
-/
namespace Stylesheet

open Encoding (Library chunkLength sniffLength)

/-! ## Streams -/

namespace CharStream

variable {ι : Type} [CharStream ι]

theorem pulled_succ (n : Nat) (s : ι) : pulled (n + 1) s = pulled n (next s).2 := by
  rw [Nat.add_comm, pulled_add]
  rfl

theorem items_succ (n : Nat) (s : ι) : items (n + 1) s = (next s).1 :: items n (next s).2 := by
  induction n with
  | zero => rfl
  | succ n ih => rw [items, ih, pulled_succ, items, List.cons_append]

/-- The first items are the code points that the stream comes to, and then there is no more. -/
theorem items_drain (s : ι) :
    items (drain s).length s = (drain s).map some ∧
      (next (pulled (drain s).length s)).1 = none := by
  induction s using drain.induct with
  | case1 s rest h =>
    rw [drain_of_none h]
    exact ⟨rfl, congrArg Prod.fst h⟩
  | case2 s c rest h ih =>
    rw [drain_of_some h, List.length_cons, items_succ, pulled_succ, h]
    exact ⟨congrArg (some c :: ·) ih.1, ih.2⟩

end CharStream

/-! ## Readings that are cut off -/

namespace Encoding.Library.Stream

variable {ε δ : Type} {L : Library ε δ} {s : L.Stream} {bytes : List UInt8}
  {failure? : Option ReadFailure} {yielded : List Char}

theorem Follows.pulled (hL : L.Faithful) (h : Follows bytes failure? yielded s) (k : Nat) :
    Follows bytes failure? (yielded ++ (CharStream.items k s).filterMap id)
      (CharStream.pulled k s) := by
  induction k with
  | zero =>
    rw [CharStream.items, List.filterMap_nil, List.append_nil]
    exact h
  | succ k ih =>
    have hnext := ih.next hL
    rw [List.append_assoc] at hnext
    rw [CharStream.items, List.filterMap_append]
    cases hc : (CharStream.next (CharStream.pulled k s)).1 with
    | none =>
      have hc' : (CharStream.pulled k s).next.1 = none := hc
      rw [hc'] at hnext
      exact hnext
    | some c =>
      have hc' : (CharStream.pulled k s).next.1 = some c := hc
      rw [hc'] at hnext
      exact hnext

/-- At most the failure that the reader comes to is reported. -/
theorem Follows.failure?_eq (h : Follows bytes failure? yielded s) :
    s.failure? = none ∨ s.failure? = failure? := by
  cases h with
  | finished hf htext hfailure => exact .inr hfailure
  | reading hf hfed hahead hnone =>
    cases hd : s.readerDone with
    | false => exact .inl (hnone hd)
    | true =>
      rw [ahead, if_pos hd] at hahead
      exact .inr (Prod.mk.inj hahead).2.symm

/-- It is reported when the end of the text is decoded. -/
theorem Follows.failure?_of_finished (h : Follows bytes failure? yielded s)
    (hf : s.finished = true) : s.failure? = failure? := by
  cases h with
  | finished _ _ hfailure => exact hfailure
  | reading hf' => rw [hf] at hf'; contradiction

end Encoding.Library.Stream

namespace Intake

open ByteReader (incoming)
open Encoding.Library

variable {ε δ : Type} [DecidableEq ε] {L : Library ε δ}

/-- How a reading is cut off: which text it comes to, and when a failure is reported. -/
structure CutOff (bytes : List UInt8) (failure? : Option ReadFailure)
    (protocolLabel? : Option String) (environment? : Option ε) (i : Intake L) : Prop where
  encoding :
    i.stream.encoding = L.detect (bytes.take sniffLength) protocolLabel? environment?
  text : CharStream.drain i.stream = L.decodeAll i.stream.encoding bytes
  /-- From the call that failed on, its failure is reported. -/
  reported : ∀ k,
    (CharStream.pulled k i.stream).failure? = (i.after k).acts.findSome? Act.failure?
  /-- No other failure is. -/
  none_or : ∀ k, (CharStream.pulled k i.stream).failure? = none ∨
    (CharStream.pulled k i.stream).failure? = failure?
  /-- With the first end at the latest. -/
  ended : ∀ k, (CharStream.next (CharStream.pulled k i.stream)).1 = none →
    (CharStream.pulled (k + 1) i.stream).failure? = failure?

theorem cutOff_ofReader (hL : L.Faithful) {reader : ByteReader} {protocolLabel? : Option String}
    {environment? : Option ε} {i : Intake L}
    (h : (ofReader L reader protocolLabel? environment?).2 = .ok i) :
    CutOff (incoming reader.events).1 (incoming reader.events).2 protocolLabel? environment? i := by
  have ho := inOrder_ofReader h
  have hstream : Stream.ofReader L reader protocolLabel? environment? = .ok i.stream := by
    rw [← stream_ofReader, h]
    rfl
  obtain ⟨hencoding, hfollows⟩ := Stream.follows_ofReader hstream
  refine ⟨hencoding, ?_, fun k => ?_, fun k => ?_, fun k hend => ?_⟩
  · rw [Stream.drain_eq_rest]
    exact hfollows.rest_eq hL
  · rw [pulled_stream, (ho.after k).sound.failure?]
  · exact (hfollows.pulled hL k).failure?_eq
  · rw [answer_stream] at hend
    have hf := (next_eq_none hend).2
    apply (hfollows.pulled hL (k + 1)).failure?_of_finished
    rw [pulled_stream]
    exact hf

end Intake

/-! ## Interruptions -/

/-- An interruption, after which a read is tried again. -/
def ReadEvent.isInterruption : ReadEvent → Bool
  | .failure why => why.reason = .interrupted
  | _ => false

namespace ByteReader

/-- The events without the interruptions. -/
def quiet (events : List ReadEvent) : List ReadEvent :=
  events.filter fun event => !event.isInterruption

def calm (r : ByteReader) : ByteReader := { r with events := quiet r.events }

theorem deliver_quiet (n : Nat) (events : List ReadEvent) :
    deliver n (quiet events) = ((deliver n events).1, quiet (deliver n events).2) := by
  induction events with
  | nil => rfl
  | cons event rest ih =>
    cases event with
    | endOfInput => rfl
    | bytes bytes =>
      have hquiet : quiet (.bytes bytes :: rest) = .bytes bytes :: quiet rest := rfl
      rw [hquiet, deliver, deliver]
      split <;> rfl
    | failure failure =>
      by_cases hf : failure.reason = .interrupted
      · have hquiet : quiet (.failure failure :: rest) = quiet rest := by
          simp [quiet, ReadEvent.isInterruption, hf]
        rw [hquiet, ih, deliver, if_pos hf]
      · have hquiet : quiet (.failure failure :: rest) = .failure failure :: quiet rest := by
          simp [quiet, ReadEvent.isInterruption, hf]
        rw [hquiet, deliver, deliver, if_neg hf, if_neg hf]

theorem read_calm (n : Nat) (r : ByteReader) :
    r.calm.read n = ((r.read n).1, (r.read n).2.calm) := by
  rw [read, calm, deliver_quiet, read]
  cases hdeliver : deliver n r.events with
  | mk answer events => cases answer <;> rfl

theorem readFully_calm (n : Nat) (r : ByteReader) :
    r.calm.readFully n = ((r.readFully n).1, (r.readFully n).2.calm) := by
  induction n using Nat.strongRecOn generalizing r with
  | ind n ih =>
    rw [readFully, readFully, read_calm]
    by_cases hzero : n = 0
    · rw [if_pos hzero, if_pos hzero]
    · rw [if_neg hzero, if_neg hzero]
      cases hread : r.read n with
      | mk answer rest =>
        cases answer with
        | error failure => rfl
        | ok bytes =>
          cases bytes with
          | nil => rfl
          | cons b bytes =>
            dsimp only
            rw [ih (n - (bytes.length + 1)) (by omega) rest]
            cases hmore : rest.readFully (n - (bytes.length + 1)) with
            | mk got rest' => cases got <;> rfl

end ByteReader

namespace Encoding.Library.Stream

variable {ε δ : Type} {L : Library ε δ}

/-- The stream on the same reader without the interruptions. -/
def calm (s : L.Stream) : L.Stream := s.withReader s.reader.calm

theorem readChunk_calm (s : L.Stream) : s.calm.readChunk = s.readChunk.calm := by
  cases hread : s.reader.read chunkLength with
  | mk answer rest =>
    have hread' : s.calm.reader.read chunkLength = (answer, rest.calm) := by
      have hcalm := s.reader.read_calm chunkLength
      rw [hread] at hcalm
      exact hcalm
    cases answer with
    | ok bytes =>
      rw [readChunk_of_ok hread, readChunk_of_ok hread']
      rfl
    | error failure =>
      rw [readChunk_of_error hread, readChunk_of_error hread']
      rfl

theorem decodeMore_calm (s : L.Stream) : s.calm.decodeMore = s.decodeMore.calm := by
  have hstarved : s.calm.Starved ↔ s.Starved := Iff.rfl
  by_cases hs : s.Starved
  · rw [decodeMore, decodeMore, if_pos hs, if_pos (hstarved.mpr hs), readChunk_calm]
    rfl
  · rw [decodeMore, decodeMore, if_neg hs, if_neg (mt hstarved.mp hs)]
    rfl

theorem next_calm (s : L.Stream) : s.calm.next = (s.next.1, s.next.2.calm) := by
  fun_induction next s with
  | case1 s c rest hdecoded => exact next_of_decoded hdecoded
  | case2 s hdecoded hf => exact next_of_finished hdecoded hf
  | case3 s hdecoded hf ih =>
    have hdecoded' : s.calm.decoded = [] := hdecoded
    have hf' : s.calm.finished = false := Bool.eq_false_iff.mpr hf
    rw [next_of_not_finished hdecoded' hf', decodeMore_calm, ih]

theorem ofReader_calm [DecidableEq ε] (L : Library ε δ) (r : ByteReader)
    (protocolLabel? : Option String) (environment? : Option ε) :
    ofReader L r.calm protocolLabel? environment? =
      (ofReader L r protocolLabel? environment?).map calm := by
  have hcalm := ByteReader.readFully_calm sniffLength r
  cases hfully : r.readFully sniffLength with
  | mk got rest =>
    rw [hfully] at hcalm
    cases got with
    | error failure =>
      rw [ofReader_of_error (congrArg Prod.fst hcalm), ofReader_of_error (congrArg Prod.fst hfully)]
      rfl
    | ok bytes =>
      rw [ofReader_of_ok hcalm, ofReader_of_ok hfully]
      rfl

theorem pulled_calm (k : Nat) (s : L.Stream) :
    CharStream.pulled k s.calm = (CharStream.pulled k s).calm := by
  induction k with
  | zero => rfl
  | succ k ih =>
    rw [CharStream.pulled, ih]
    exact congrArg Prod.snd (next_calm (CharStream.pulled k s))

theorem items_calm (k : Nat) (s : L.Stream) :
    CharStream.items k s.calm = CharStream.items k s := by
  induction k with
  | zero => rfl
  | succ k ih =>
    have hnext : (CharStream.next (CharStream.pulled k s).calm).1 =
        (CharStream.next (CharStream.pulled k s)).1 := by
      change (CharStream.pulled k s).calm.next.1 = (CharStream.pulled k s).next.1
      rw [next_calm]
    rw [CharStream.items, CharStream.items, ih, pulled_calm, hnext]

/-- Whoever opens a stream and pulls it gets the same both times: the failure, or else the
encoding, every answer, and the failure that is reported after it. -/
def SameRun : Except ReadFailure L.Stream → Except ReadFailure L.Stream → Prop
  | .error failure, .error failure' => failure = failure'
  | .ok s, .ok s' =>
    s.encoding = s'.encoding ∧
      ∀ k, CharStream.items k s = CharStream.items k s' ∧
        (CharStream.pulled k s).failure? = (CharStream.pulled k s').failure?
  | _, _ => False

theorem sameRun_of_calm {a b : Except ReadFailure L.Stream} (h : a.map calm = b.map calm) :
    SameRun a b := by
  cases a with
  | error failure =>
    cases b with
    | error failure' => exact Except.error.inj h
    | ok s' => contradiction
  | ok s =>
    cases b with
    | error failure' => contradiction
    | ok s' =>
      have hcalm : s.calm = s'.calm := Except.ok.inj h
      refine ⟨?_, fun k => ⟨?_, ?_⟩⟩
      · change s.calm.encoding = s'.calm.encoding
        rw [hcalm]
      · rw [← items_calm, hcalm, items_calm]
      · change (CharStream.pulled k s).calm.failure? = (CharStream.pulled k s').calm.failure?
        rw [← pulled_calm, hcalm, pulled_calm]

end Encoding.Library.Stream

/-! ## Main statement -/

open ByteReader (incoming quiet)

/-- A reader fails a stream that is opened on it exactly if it fails before it has given the first
bytes. Any other stream comes to the text of all the bytes there are before the first failure, in
the encoding of the first ones, and reports that failure from the read on that came to it.
Interruptions may be anywhere. This is so with any library whose decoders are faithful. -/
theorem read_failures {ε δ : Type} [DecidableEq ε] (L : Library ε δ) (hL : L.Faithful)
    (events : List ReadEvent) (protocolLabel? : Option String) (environment? : Option ε) :
    (∀ failure,
      Encoding.Library.Stream.ofReader L (.ofEvents events) protocolLabel? environment? =
          .error failure ↔
        (incoming events).2 = some failure ∧ (incoming events).1.length < sniffLength) ∧
      (∀ s,
        Encoding.Library.Stream.ofReader L (.ofEvents events) protocolLabel? environment? =
            .ok s →
          ∃ i, (Intake.ofReader L (.ofEvents events) protocolLabel? environment?).2 = .ok i ∧
            i.stream = s ∧
            Intake.CutOff (incoming events).1 (incoming events).2 protocolLabel? environment?
              i) ∧
      ∀ events', quiet events' = quiet events →
        Encoding.Library.Stream.SameRun
          (Encoding.Library.Stream.ofReader L (.ofEvents events) protocolLabel? environment?)
          (Encoding.Library.Stream.ofReader L (.ofEvents events') protocolLabel?
            environment?) := by
  refine ⟨fun failure => ?_, fun s hs => ?_, fun events' hquiet => ?_⟩
  · exact Encoding.Library.Stream.ofReader_eq_error_iff failure
  · have hstream :=
      Intake.stream_ofReader (L := L) (.ofEvents events) protocolLabel? environment?
    rw [hs] at hstream
    cases h : (Intake.ofReader L (.ofEvents events) protocolLabel? environment?).2 with
    | error failure =>
      rw [h] at hstream
      contradiction
    | ok i =>
      rw [h] at hstream
      exact ⟨i, rfl, Except.ok.inj hstream, Intake.cutOff_ofReader hL h⟩
  · apply Encoding.Library.Stream.sameRun_of_calm
    have hcalm : (ByteReader.ofEvents events').calm = (ByteReader.ofEvents events).calm := by
      simp only [ByteReader.calm, ByteReader.ofEvents, hquiet]
    rw [← Encoding.Library.Stream.ofReader_calm, ← Encoding.Library.Stream.ofReader_calm, hcalm]

/-- A failure that cuts off a sequence of two bytes, behind the bytes that detection needs. -/
theorem read_failures_late :
    Encoding.library.Faithful ∧
      ∃ s,
        DecodedStream.ofReader (.ofEvents [.bytes (List.replicate 1024 0x61), .bytes [0xC3],
          .failure ⟨.connectionReset, "reset"⟩]) none none = .ok s ∧
        CharStream.drain s = List.replicate 1024 'a' ++ ['\uFFFD'] ∧
        (CharStream.pulled 1026 s).failure? = some ⟨.connectionReset, "reset"⟩ := by
  obtain ⟨hfails, hcut, -⟩ := read_failures Encoding.library Encoding.library_faithful
    [.bytes (List.replicate 1024 0x61), .bytes [0xC3], .failure ⟨.connectionReset, "reset"⟩]
    none none
  have hincoming : incoming [.bytes (List.replicate 1024 0x61), .bytes [0xC3],
      .failure ⟨.connectionReset, "reset"⟩] =
        (List.replicate 1024 0x61 ++ [0xC3], some ⟨.connectionReset, "reset"⟩) := by
    decide +kernel
  rw [hincoming] at hfails hcut
  refine ⟨Encoding.library_faithful, ?_⟩
  rw [DecodedStream.ofReader]
  cases hs : Encoding.Library.Stream.ofReader Encoding.library
      (.ofEvents [.bytes (List.replicate 1024 0x61), .bytes [0xC3],
        .failure ⟨.connectionReset, "reset"⟩]) none none with
  | error failure =>
    have hlt := ((hfails failure).mp hs).2
    rw [List.length_append, List.length_replicate] at hlt
    exact absurd hlt (by decide)
  | ok s =>
    obtain ⟨i, -, rfl, hi⟩ := hcut s hs
    have hencoding : i.stream.encoding = .utf8 := hi.encoding.trans (by decide +kernel)
    have htext : CharStream.drain i.stream = List.replicate 1024 'a' ++ ['\uFFFD'] := by
      rw [hi.text, hencoding]
      decide +kernel
    have hend := (CharStream.items_drain i.stream).2
    rw [htext, List.length_append, List.length_replicate] at hend
    exact ⟨i.stream, rfl, htext, hi.ended 1025 hend⟩

end Stylesheet
