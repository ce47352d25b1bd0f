import Stylesheet.Proofs.Intake

/-!
# The discipline of calls

Which calls of a reader and of a decoder are in order after those that were made before: none of a
reader that is done, none while something is left to decode or to hand out, and no byte decoded
twice or out of turn. Main statement: an intake makes no other calls, on any reader and for any
number of answers, and it makes finitely many.
-/
namespace Stylesheet

open Encoding (Decoded Library chunkLength sniffLength)

/-! ## Records -/

namespace Act

variable {δ : Type}

/-- The bytes that the reader gave. -/
def received : Act δ → List UInt8
  | read _ (.ok bytes) => bytes
  | _ => []

/-- The bytes that the decoder read. -/
def given : Act δ → List UInt8
  | decode bytes _ made => bytes.take made.read
  | _ => []

/-- The code points that the decoder made of them. -/
def produced : Act δ → List Char
  | decode _ _ made => made.chars
  | _ => []

def yielded : Act δ → List Char
  | yield c => [c]
  | _ => []

/-- The reader is done: it gave nothing, or failed and was not just interrupted. -/
def ends : Act δ → Bool
  | read _ (.ok bytes) => bytes.isEmpty
  | read _ (.error failure) => failure.reason != .interrupted
  | _ => false

/-- The decoder was told that nothing more comes, and has read and written everything. -/
def closes : Act δ → Bool
  | decode bytes last made =>
    last && made.result = .inputEmpty && (bytes.drop made.read).isEmpty
  | _ => false

def isRead : Act δ → Bool
  | read _ _ => true
  | _ => false

/-- The failure that the reader is done with. -/
def failure? : Act δ → Option ReadFailure
  | read _ (.error failure) => if failure.reason = .interrupted then none else some failure
  | _ => none

theorem failure?_eq_none {a : Act δ} (h : a.ends = false) : a.failure? = none := by
  cases a with
  | decode bytes last made => rfl
  | yield c => rfl
  | read asked answer =>
    cases answer with
    | ok bytes => rfl
    | error failure =>
      have hf : failure.reason = .interrupted := by simpa [ends] using h
      exact if_pos hf

end Act

/-- Each act was in order after those before it. -/
inductive Orderly {δ : Type} (P : List (Act δ) → Act δ → Prop) (start : List (Act δ)) :
    List (Act δ) → Prop
  | start : Orderly P start start
  | act {acts : List (Act δ)} {a : Act δ} (h : Orderly P start acts) (ha : P acts a) :
      Orderly P start (acts ++ [a])

theorem Orderly.cons {δ : Type} {P : List (Act δ) → Act δ → Prop} {start acts : List (Act δ)}
    {a : Act δ} (ha : P start a) (h : Orderly P (start ++ [a]) acts) : Orderly P start acts := by
  induction h with
  | start => exact .act .start ha
  | act _ hb ih => exact .act ih hb

/-- Calls that are in order to begin with: the reader is asked for as many bytes as are still
needed to detect the encoding, and only as long as it is not done. -/
inductive Opening {δ : Type} (n : Nat) (before : List (Act δ)) : Act δ → Prop
  | read {asked : Nat} {answer : Except ReadFailure (List UInt8)} (hpos : 0 < asked)
      (hasked : (before.flatMap Act.received).length + asked = n)
      (hdone : before.any Act.ends = false) : Opening n before (.read asked answer)

/-- Calls that are in order later on. -/
inductive Allowed {ε δ : Type} (L : Library ε δ) (e : ε) (before : List (Act δ)) : Act δ → Prop
  /-- The reader is not done, and all that it gave is decoded and handed out. -/
  | read {answer : Except ReadFailure (List UInt8)} (hdone : before.any Act.ends = false)
      (hgiven : before.flatMap Act.given = before.flatMap Act.received)
      (hyielded : before.flatMap Act.yielded = before.flatMap Act.produced) :
      Allowed L e before (.read chunkLength answer)
  /-- The decoder is not closed, and all that it made is handed out. It is the one that has read
  the bytes before, gets those that it did not have yet, and is told if no more come. It reads all
  of them. -/
  | decode {bytes : List UInt8} {last : Bool} {made : Decoded δ} {d : δ} {room : Nat}
      (hclosed : before.any Act.closes = false)
      (hyielded : before.flatMap Act.yielded = before.flatMap Act.produced)
      (hfed : L.Fed e (before.flatMap Act.given) (before.flatMap Act.produced) d)
      (hbytes : before.flatMap Act.given ++ bytes = before.flatMap Act.received)
      (hlast : last = before.any Act.ends) (hmade : made = L.decode d bytes room last)
      (hread : made.read = bytes.length) : Allowed L e before (.decode bytes last made)
  /-- The code point is the next one that the decoder made. -/
  | yield {c : Char} {rest : List Char}
      (h : before.flatMap Act.produced = before.flatMap Act.yielded ++ c :: rest) :
      Allowed L e before (.yield c)

/-! ## Opening -/

namespace ByteReader

/-- The events behind the first `n` bytes. -/
def behind : Nat → List ReadEvent → List ReadEvent
  | 0, events => events
  | _ + 1, [] => []
  | n + 1, .bytes bytes :: rest =>
    if bytes.length ≤ n + 1 then behind (n + 1 - bytes.length) rest
    else .bytes (bytes.drop (n + 1)) :: rest
  | n + 1, _ :: rest => behind (n + 1) rest

theorem behind_pos {n : Nat} (hn : n ≠ 0) (event : ReadEvent) (rest : List ReadEvent) :
    behind n (event :: rest) =
      match event with
      | .bytes bytes =>
        if bytes.length ≤ n then behind (n - bytes.length) rest
        else .bytes (bytes.drop n) :: rest
      | _ => behind n rest := by
  obtain ⟨n, rfl⟩ := Nat.exists_eq_succ_of_ne_zero hn
  cases event <;> rfl

section Calls

variable {n : Nat} {r r' : ByteReader} {bytes : List UInt8}

/-- A call moves on by the bytes that it gave. -/
theorem behind_of_call {b : UInt8} (h : r.call n = (.ok (b :: bytes), r')) :
    behind n r.events = behind (n - (b :: bytes).length) r'.events := by
  obtain ⟨all, rest, hevents, htake, hrest⟩ := events_of_call_bytes h
  have hn : n ≠ 0 := by
    rintro rfl
    contradiction
  rw [hevents, hrest, htake, behind_pos hn]
  dsimp only
  by_cases hle : all.length ≤ n
  · rw [if_pos hle, if_pos hle, List.take_of_length_le hle]
  · have hzero : n - (all.take n).length = 0 := by
      rw [List.length_take]
      omega
    rw [if_neg hle, if_neg hle, hzero, behind]

theorem behind_of_call_error (hn : n ≠ 0) {failure : ReadFailure}
    (h : r.call n = (.error failure, r')) : behind n r.events = behind n r'.events := by
  rw [events_of_call_error h, behind_pos hn]

end Calls

section Gathers

variable {δ : Type} {n : Nat} {r rest : ByteReader} {acts : List (Act δ)}
  {got : Except ReadFailure (List UInt8)}

theorem Gathers.orderly (h : Gathers n r acts got rest) (before : List (Act δ))
    (hdone : before.any Act.ends = false) :
    Orderly (Opening ((before.flatMap Act.received).length + n)) before (before ++ acts) := by
  induction h generalizing before with
  | enough r =>
    rw [List.append_nil]
    exact .start
  | nothing hn h => exact .act .start (.read (Nat.pos_of_ne_zero hn) rfl hdone)
  | failure hn h hf => exact .act .start (.read (Nat.pos_of_ne_zero hn) rfl hdone)
  | @bytes n r r' rest b bytes acts got hn h hmore ih =>
    have hle := length_le_of_call h
    rw [List.length_cons] at hle
    have hafter := ih (before ++ [Act.read n (.ok (b :: bytes))]) (by simp [hdone, Act.ends])
    have hasked : ((before ++ [Act.read n (.ok (b :: bytes))]).flatMap Act.received).length +
        (n - (bytes.length + 1)) = (before.flatMap Act.received).length + n := by
      simp only [List.flatMap_append, List.flatMap_singleton, Act.received, List.length_append,
        List.length_cons]
      omega
    rw [hasked, List.append_assoc] at hafter
    exact .cons (.read (Nat.pos_of_ne_zero hn) rfl hdone) hafter
  | @interrupted n r r' rest failure acts got hn h hf hmore ih =>
    have hafter := ih (before ++ [Act.read n (.error failure)]) (by simp [hdone, Act.ends, hf])
    rw [List.append_assoc, List.flatMap_append, List.flatMap_singleton] at hafter
    simp only [Act.received, List.append_nil] at hafter
    exact .cons (.read (Nat.pos_of_ne_zero hn) rfl hdone) hafter

/-- All that is done to begin with is reading. -/
theorem Gathers.exists_read (h : Gathers n r acts got rest) :
    ∀ a ∈ acts, ∃ asked answer, a = .read asked answer := by
  induction h with
  | enough r => simp
  | nothing hn h => simp
  | failure hn h hf => simp
  | bytes hn h hmore ih => simpa using ih
  | interrupted hn h hf hmore ih => simpa using ih

theorem Gathers.flatMap_eq_nil (h : Gathers n r acts got rest) {α : Type} {f : Act δ → List α}
    (hf : ∀ asked answer, f (.read asked answer) = []) : acts.flatMap f = [] := by
  apply List.flatMap_eq_nil_iff.mpr
  intro a ha
  obtain ⟨asked, answer, rfl⟩ := h.exists_read a ha
  exact hf asked answer

/-- What was gathered, and why no more was. -/
def Gathered (n : Nat) (r rest : ByteReader) (acts : List (Act δ)) :
    Except ReadFailure (List UInt8) → Prop
  | .ok bytes =>
    acts.flatMap Act.received = bytes ∧ bytes.length ≤ n ∧
      acts.any Act.ends = decide (bytes.length < n) ∧ acts.findSome? Act.failure? = none ∧
      (bytes.length = n → rest.events = behind n r.events)
  | .error failure =>
    (acts.flatMap Act.received).length < n ∧ acts.any Act.ends = true ∧
      acts.findSome? Act.failure? = some failure

theorem Gathers.gathered (h : Gathers n r acts got rest) : Gathered n r rest acts got := by
  induction h with
  | enough r => simp [Gathered, behind]
  | nothing hn h =>
    have hpos := Nat.pos_of_ne_zero hn
    simp [Gathered, Act.received, Act.ends, Act.failure?, hpos, hn.symm]
  | failure hn h hf =>
    have hpos := Nat.pos_of_ne_zero hn
    simp [Gathered, Act.received, Act.ends, Act.failure?, hpos, hf]
  | @bytes n r r' rest b bytes acts got hn h hmore ih =>
    have hle := length_le_of_call h
    rw [List.length_cons] at hle
    cases got with
    | ok more =>
      obtain ⟨hreceived, hmorele, hends, hfailure, hrest⟩ := ih
      refine ⟨?_, ?_, ?_, ?_, ?_⟩
      · rw [List.flatMap_cons, hreceived]
        rfl
      · simp only [List.cons_append, List.length_cons, List.length_append]
        omega
      · rw [List.any_cons, hends]
        simp only [Act.ends, List.isEmpty_cons, Bool.false_or, decide_eq_decide,
          List.cons_append, List.length_cons, List.length_append]
        omega
      · rw [List.findSome?_cons_of_isNone (by rfl), hfailure]
      · intro hall
        simp only [List.cons_append, List.length_cons, List.length_append] at hall
        rw [behind_of_call h, List.length_cons]
        exact hrest (by omega)
    | error failure =>
      obtain ⟨hlt, hends, hfailure⟩ := ih
      refine ⟨?_, ?_, ?_⟩
      · rw [List.flatMap_cons, List.length_append]
        simp only [Act.received, List.length_cons]
        omega
      · rw [List.any_cons, hends, Bool.or_true]
      · rw [List.findSome?_cons_of_isNone (by rfl), hfailure]
  | @interrupted n r r' rest failure acts got hn h hf hmore ih =>
    have hnone : Act.failure? (δ := δ) (.read n (.error failure)) = none := if_pos hf
    cases got with
    | ok more =>
      obtain ⟨hreceived, hmorele, hends, hfailure, hrest⟩ := ih
      refine ⟨hreceived, hmorele, ?_, ?_, ?_⟩
      · rw [List.any_cons, hends, Act.ends, hf]
        rfl
      · rw [List.findSome?_cons_of_isNone (by rw [hnone]; rfl), hfailure]
      · intro hall
        rw [behind_of_call_error hn h]
        exact hrest hall
    | error failure =>
      obtain ⟨hlt, hends, hfailure⟩ := ih
      refine ⟨hlt, ?_, ?_⟩
      · rw [List.any_cons, hends, Bool.or_true]
      · rw [List.findSome?_cons_of_isNone (by rw [hnone]; rfl), hfailure]

/-- How many calls there can be. -/
def callsLeft (done : Bool) (r : ByteReader) : Nat := if done then 0 else r.effort + 1

theorem Gathers.countP_le (h : Gathers n r acts got rest) :
    acts.countP Act.isRead + callsLeft (acts.any Act.ends) rest ≤ callsLeft false r := by
  induction h with
  | enough r => simp
  | nothing hn h => simp [Act.isRead, Act.ends, callsLeft]
  | failure hn h hf => simp [Act.isRead, Act.ends, callsLeft, hf]
  | @bytes n r r' rest b bytes acts got hn h hmore ih =>
    have hlt := effort_lt_of_call_bytes h
    have hends : Act.ends (δ := δ) (.read n (.ok (b :: bytes))) = false := rfl
    rw [List.countP_cons_of_pos rfl, List.any_cons, hends, Bool.false_or]
    simp only [callsLeft, Bool.false_eq_true, if_false] at ih ⊢
    omega
  | @interrupted n r r' rest failure acts got hn h hf hmore ih =>
    have hlt := effort_lt_of_call_error h
    have hends : Act.ends (δ := δ) (.read n (.error failure)) = false := by
      simp [Act.ends, hf]
    rw [List.countP_cons_of_pos rfl, List.any_cons, hends, Bool.false_or]
    simp only [callsLeft, Bool.false_eq_true, if_false] at ih ⊢
    omega

end Gathers

end ByteReader

/-! ## Going on -/

namespace Intake

open ByteReader (callsLeft)
open Encoding.Library

variable {ε δ : Type} {L : Library ε δ} {i j : Intake L}

/-- The state is what the record comes to. -/
structure Sound (i : Intake L) : Prop where
  received : i.acts.flatMap Act.received = i.acts.flatMap Act.given ++ i.stream.pending
  fed : i.stream.finished = false →
    L.Fed i.stream.encoding (i.acts.flatMap Act.given) (i.acts.flatMap Act.produced)
      i.stream.decoder
  yielded : i.acts.flatMap Act.produced = i.acts.flatMap Act.yielded ++ i.stream.decoded
  ends : i.acts.any Act.ends = i.stream.readerDone
  closes : i.acts.any Act.closes = i.stream.finished
  failure? : i.acts.findSome? Act.failure? = i.stream.failure?
  /-- There is no failure that the reader is not done with. -/
  failed : i.stream.readerDone = false → i.stream.failure? = none
  /-- The decoder is closed last. -/
  closed : i.stream.finished = true → i.stream.pending = [] ∧ i.stream.readerDone = true

theorem Sound.yield (hs : Sound i) {c : Char} {rest : List Char}
    (h : i.stream.decoded = c :: rest) : Sound (i.yield c rest) where
  received := by simpa [Intake.yield, Stream.handOut, Act.received, Act.given] using hs.received
  fed := by simpa [Intake.yield, Stream.handOut, Act.produced, Act.given] using hs.fed
  yielded := by
    have hyielded := hs.yielded
    rw [h] at hyielded
    simpa [Intake.yield, Stream.handOut, Act.produced, Act.yielded] using hyielded
  ends := by simpa [Intake.yield, Stream.handOut, Act.ends] using hs.ends
  closes := by simpa [Intake.yield, Stream.handOut, Act.closes] using hs.closes
  failure? := by simpa [Intake.yield, Stream.handOut, Act.failure?] using hs.failure?
  failed := hs.failed
  closed := hs.closed

/-- The decoder reads all that is pending. -/
theorem given_decodePending (hs : Sound i) :
    i.decodePending.acts.flatMap Act.given = i.acts.flatMap Act.received := by
  rw [hs.received]
  simp [decodePending, Act.given, i.stream.read_decoding]

theorem Sound.decode (hs : Sound i) (hdecoded : i.stream.decoded = [])
    (hf : i.stream.finished = false) : Sound i.decodePending where
  received := by
    rw [given_decodePending hs]
    simp [decodePending, Act.received]
  fed hd := by
    have hd' : i.stream.readerDone = false := i.stream.finished_decodePending.symm.trans hd
    have hcall := (hs.fed hf).call i.stream.pending i.stream.reserved
    rw [← hd'] at hcall
    simpa [decodePending, Act.given, Act.produced, Stream.decoding] using hcall
  yielded := by
    have hyielded := hs.yielded
    rw [hdecoded, List.append_nil] at hyielded
    simpa [decodePending, Act.produced, Act.yielded] using hyielded
  ends := by simpa [decodePending, Act.ends] using hs.ends
  closes := by
    have hcloses := hs.closes
    rw [hf] at hcloses
    simp [decodePending, Act.closes, hcloses, i.stream.result_decoding, i.stream.drop_read]
  failure? := by simpa [decodePending, Act.failure?] using hs.failure?
  failed := hs.failed
  closed hd := ⟨i.stream.pending_decodePending, i.stream.finished_decodePending.symm.trans hd⟩

/-- When nothing is left of what was decoded, it is all handed out. -/
theorem Sound.yielded_eq (hs : Sound i) (hdecoded : i.stream.decoded = []) :
    i.acts.flatMap Act.yielded = i.acts.flatMap Act.produced := by
  rw [hs.yielded, hdecoded, List.append_nil]

/-- When nothing is pending, everything is decoded. -/
theorem Sound.given_eq (hs : Sound i) (hpending : i.stream.pending = []) :
    i.acts.flatMap Act.given = i.acts.flatMap Act.received := by
  rw [hs.received, hpending, List.append_nil]

/-- A stream that takes in just what a call of the reader got, and leaves the decoder alone, is what
the record comes to. -/
theorem Sound.act_read (hs : Sound i) (hi : i.Idle) {answer : Except ReadFailure (List UInt8)}
    {s : L.Stream} (hencoding : s.encoding = i.stream.encoding)
    (hdecoder : s.decoder = i.stream.decoder) (hdecoded : s.decoded = i.stream.decoded)
    (hfinished : s.finished = i.stream.finished)
    (hpending : s.pending = (Act.read (δ := δ) chunkLength answer).received)
    (hdone : s.readerDone = (Act.read (δ := δ) chunkLength answer).ends)
    (hfailure : s.failure? = (Act.read (δ := δ) chunkLength answer).failure?) :
    Sound (i.act (.read chunkLength answer) s) where
  received := by
    have hgiven := hs.given_eq hi.pending
    simp [hgiven, hpending, Act.given]
  fed hf := by
    have hfed := hs.fed hi.finished
    rw [← hencoding, ← hdecoder] at hfed
    simpa [Act.given, Act.produced] using hfed
  yielded := by
    have hyielded := hs.yielded
    rw [← hdecoded] at hyielded
    simpa [Act.produced, Act.yielded] using hyielded
  ends := by
    have hends := hs.ends
    rw [hi.readerDone] at hends
    simp [hends, hdone]
  closes := by
    have hcloses := hs.closes
    rw [← hfinished] at hcloses
    simpa [Act.closes] using hcloses
  failure? := by
    have hnone := hs.failure?
    rw [hs.failed hi.readerDone] at hnone
    simp [List.findSome?_append, hnone, hfailure]
  failed hd := hfailure.trans (Act.failure?_eq_none (hdone.symm.trans hd))
  closed hf := by
    have hopen := hfinished.trans hi.finished
    rw [stream_act, hopen] at hf
    contradiction

theorem Sound.read (hs : Sound i) (hi : i.Idle) (h : Reads i j) : Sound j := by
  have hnone := hs.failed hi.readerDone
  cases h with
  | bytes h => exact hs.act_read hi rfl rfl rfl rfl rfl rfl hnone
  | interrupted h hf =>
    refine hs.act_read hi rfl rfl rfl rfl hi.pending (hi.readerDone.trans ?_) (hnone.trans ?_)
    · simp [Act.ends, hf]
    · simp [Act.failure?, hf]
  | failure h hf =>
    refine hs.act_read hi rfl rfl rfl rfl hi.pending ?_ ?_
    · simp [Act.ends, hf, Stream.fail]
    · simp [Act.failure?, hf, Stream.fail]

/-! ## Runs -/

/-- What holds of an intake as it goes on: after the calls that it began with, all of them were in
order, and there were not too many. -/
structure InOrder (e : ε) (start : List (Act δ)) (bound : Nat) (i : Intake L) : Prop where
  sound : Sound i
  encoding : i.stream.encoding = e
  orderly : Orderly (Allowed L e) start i.acts
  calls : i.acts.countP Act.isRead + callsLeft i.stream.readerDone i.stream.reader ≤ bound

theorem Reads.calls (h : Reads i j) (hi : i.Idle) :
    j.acts.countP Act.isRead + callsLeft j.stream.readerDone j.stream.reader ≤
      i.acts.countP Act.isRead + callsLeft i.stream.readerDone i.stream.reader := by
  have hcount {answer : Except ReadFailure (List UInt8)} :
      (i.acts ++ [Act.read chunkLength answer]).countP Act.isRead =
        i.acts.countP Act.isRead + 1 := by
    rw [List.countP_append]
    rfl
  have hdone := hi.readerDone
  cases h with
  | @bytes bytes reader h =>
    cases bytes with
    | nil =>
      simp only [acts_act, stream_act, Stream.receive, hcount, callsLeft, hdone,
        List.isEmpty_nil, Bool.false_eq_true, if_false, if_true]
      omega
    | cons b bytes =>
      have hlt := ByteReader.effort_lt_of_call_bytes h
      simp only [acts_act, stream_act, Stream.receive, hcount, callsLeft, hdone,
        List.isEmpty_cons, Bool.false_eq_true, if_false]
      omega
  | interrupted h hf =>
    have hlt := ByteReader.effort_lt_of_call_error h
    simp only [acts_act, stream_act, Stream.withReader, hcount, callsLeft, hdone,
      Bool.false_eq_true, if_false]
    omega
  | failure h hf =>
    simp only [acts_act, stream_act, Stream.fail, hcount, callsLeft, hdone, Bool.false_eq_true,
      if_false, if_true]
    omega

variable {e : ε} {start : List (Act δ)} {bound : Nat}

/-- Whatever an intake does was in order. -/
theorem InOrder.step (ho : InOrder e start bound i) (h : Step i j) :
    InOrder e start bound j := by
  have hs := ho.sound
  have hencoding := ho.encoding
  subst hencoding
  cases h with
  | yield h =>
    refine ⟨hs.yield h, rfl, .act ho.orderly ?_, ?_⟩
    · apply Allowed.yield
      rw [hs.yielded, h]
    · simpa [Intake.yield, Stream.handOut, List.countP_append, Act.isRead] using ho.calls
  | decode hdecoded hf hstarved =>
    refine ⟨hs.decode hdecoded hf, rfl, .act ho.orderly ?_, ?_⟩
    · exact .decode (hs.closes.trans hf) (hs.yielded_eq hdecoded) (hs.fed hf) hs.received.symm
        hs.ends.symm rfl i.stream.read_decoding
    · simpa [decodePending, List.countP_append, Act.isRead] using ho.calls
  | read hi h =>
    obtain ⟨⟨answer, hacts⟩, hencoding, -, -, -⟩ := h.frame
    refine ⟨hs.read hi h, hencoding, ?_, Nat.le_trans (h.calls hi) ho.calls⟩
    rw [hacts]
    exact .act ho.orderly
      (.read (hs.ends.trans hi.readerDone) (hs.given_eq hi.pending) (hs.yielded_eq hi.decoded))

/-- Any number of answers comes with calls that are in order. -/
theorem InOrder.after (ho : InOrder e start bound i) (k : Nat) :
    InOrder e start bound (i.after k) :=
  after_keeps (fun hstep h => h.step hstep) k i ho

section Begin

variable [DecidableEq ε] {reader : ByteReader} {protocolLabel? : Option String}
  {environment? : Option ε}

/-- What an intake is opened with. -/
theorem exists_gather (h : (ofReader L reader protocolLabel? environment?).2 = .ok i) :
    ∃ acts bytes rest, ∃ hle : bytes.length ≤ sniffLength,
      reader.gather (δ := δ) sniffLength = (acts, .ok bytes, rest) ∧
        (ofReader L reader protocolLabel? environment?).1 = acts ∧
        i = ⟨.start L protocolLabel? environment? bytes hle rest, acts⟩ := by
  cases hgather : reader.gather (δ := δ) sniffLength with
  | mk acts gathered =>
    obtain ⟨got, rest⟩ := gathered
    cases got with
    | error failure =>
      rw [ofReader_of_error hgather] at h
      contradiction
    | ok bytes =>
      rw [ofReader_of_ok hgather] at h ⊢
      exact ⟨acts, bytes, rest, _, rfl, rfl, (Except.ok.inj h).symm⟩

/-- An intake begins with calls that are in order. -/
theorem inOrder_ofReader (h : (ofReader L reader protocolLabel? environment?).2 = .ok i) :
    InOrder i.stream.encoding (ofReader L reader protocolLabel? environment?).1
      (callsLeft false reader) i := by
  obtain ⟨acts, bytes, rest, hle, hgather, hacts, rfl⟩ := exists_gather h
  rw [hacts]
  have hgathers := ByteReader.gathers_gather (δ := δ) sniffLength reader
  rw [hgather] at hgathers
  obtain ⟨hreceived, -, hends, hfailure, -⟩ := hgathers.gathered
  have hgiven := hgathers.flatMap_eq_nil (f := Act.given) fun _ _ => rfl
  have hproduced := hgathers.flatMap_eq_nil (f := Act.produced) fun _ _ => rfl
  have hyielded := hgathers.flatMap_eq_nil (f := Act.yielded) fun _ _ => rfl
  have hcloses : acts.any Act.closes = false := by
    apply List.any_eq_false.mpr
    intro a ha
    obtain ⟨asked, answer, rfl⟩ := hgathers.exists_read a ha
    exact Bool.false_ne_true
  have hcount := hgathers.countP_le
  dsimp only at hreceived hgiven hproduced hyielded hends hcloses hcount
  rw [hends] at hcount
  refine ⟨⟨?_, fun _ => ?_, ?_, hends, hcloses, hfailure, fun _ => rfl, fun hf => ?_⟩, rfl,
    .start, hcount⟩
  · rw [hreceived, hgiven]
    rfl
  · rw [hgiven, hproduced]
    exact .new
  · rw [hproduced, hyielded]
    rfl
  · contradiction

theorem yielded_ofReader (h : (ofReader L reader protocolLabel? environment?).2 = .ok i) :
    i.acts.flatMap Act.yielded = [] := by
  obtain ⟨acts, bytes, rest, hle, hgather, -, rfl⟩ := exists_gather h
  have hgathers := ByteReader.gathers_gather (δ := δ) sniffLength reader
  rw [hgather] at hgathers
  exact hgathers.flatMap_eq_nil fun _ _ => rfl

end Begin

/-- Each answer is put on record. -/
theorem yielded_next (i : Intake L) :
    i.next.2.acts.flatMap Act.yielded = i.acts.flatMap Act.yielded ++ i.next.1.toList := by
  fun_induction next i with
  | case1 i c rest hdecoded => simp [Intake.yield, Act.yielded]
  | case2 i hdecoded hf => simp
  | case3 i hdecoded hf hs ih =>
    obtain ⟨⟨answer, hacts⟩, -⟩ := (reads_readOnce i).frame
    rw [ih, hacts]
    simp [Act.yielded]
  | case4 i hdecoded hf hs ih =>
    rw [ih]
    simp [decodePending, Act.yielded]

theorem yielded_after (h : i.acts.flatMap Act.yielded = []) (k : Nat) :
    (i.after k).acts.flatMap Act.yielded = (CharStream.items k i.stream).filterMap id := by
  induction k with
  | zero => exact h
  | succ k ih =>
    rw [after, yielded_next, ih, CharStream.items, answer_stream, List.filterMap_append, answer]
    cases (i.after k).next.1 with
    | none => rfl
    | some c => rfl

/-! ## Main statement -/

/-- How an intake begins: with the calls that were made and what came of them. -/
structure Opens (events : List ReadEvent) (acts : List (Act δ))
    (got : Except ReadFailure (Intake L)) : Prop where
  orderly : Orderly (Opening sniffLength) [] acts
  received_le : (acts.flatMap Act.received).length ≤ sniffLength
  /-- When the bytes that are needed are there, nothing behind them has been touched. -/
  untouched : ∀ i, got = .ok i → (acts.flatMap Act.received).length = sniffLength →
    i.stream.reader.events = ByteReader.behind sniffLength events
  failed : ∀ failure, got = .error failure → (acts.flatMap Act.received).length < sniffLength

/-- How it has gone on after so many answers. -/
structure GoesOn (start : List (Act δ)) (bound : Nat) (i : Intake L) (k : Nat) : Prop where
  orderly : Orderly (Allowed L i.stream.encoding) start (i.after k).acts
  /-- All the calls of the reader together are finitely many. -/
  calls_le : (i.after k).acts.countP Act.isRead ≤ bound
  /-- Without its record it is the stream that has been pulled so often. -/
  stream : (i.after k).stream = CharStream.pulled k i.stream
  yielded : (i.after k).acts.flatMap Act.yielded = (CharStream.items k i.stream).filterMap id
  /-- By the first end every byte is decoded, the decoder closed, and every code point that it made
  handed out. -/
  complete : i.answer k = none →
    (i.after (k + 1)).acts.flatMap Act.given = (i.after (k + 1)).acts.flatMap Act.received ∧
      (i.after (k + 1)).acts.any Act.closes = true ∧
      (i.after (k + 1)).acts.flatMap Act.yielded = (i.after (k + 1)).acts.flatMap Act.produced
  /-- The first end is the last thing that happens. -/
  ended : i.answer k = none →
    ∀ m, i.after (k + 1 + m) = i.after (k + 1) ∧ i.answer (k + 1 + m) = none

variable [DecidableEq ε] (L) (events : List ReadEvent) (protocolLabel? : Option String)
  (environment? : Option ε)

theorem opens_ofReader :
    Opens events (ofReader L (.ofEvents events) protocolLabel? environment?).1
      (ofReader L (.ofEvents events) protocolLabel? environment?).2 := by
  have hgathers := ByteReader.gathers_gather (δ := δ) sniffLength (.ofEvents events)
  have horderly := hgathers.orderly [] rfl
  have hgathered := hgathers.gathered
  rw [List.nil_append, List.flatMap_nil, List.length_nil, Nat.zero_add] at horderly
  cases hgather : ByteReader.gather (δ := δ) sniffLength (.ofEvents events) with
  | mk acts gathered =>
    obtain ⟨got, rest⟩ := gathered
    rw [hgather] at horderly hgathered
    cases got with
    | error failure =>
      obtain ⟨hlt, -⟩ := hgathered
      rw [ofReader_of_error hgather]
      exact ⟨horderly, Nat.le_of_lt hlt, fun i hi => by contradiction, fun _ _ => hlt⟩
    | ok bytes =>
      obtain ⟨hreceived, hle, -, -, huntouched⟩ := hgathered
      rw [ofReader_of_ok hgather]
      dsimp only at hreceived horderly ⊢
      refine ⟨horderly, ?_, fun i hi hlength => ?_, fun failure hf => by contradiction⟩
      · rw [hreceived]
        exact hle
      · obtain rfl := Except.ok.inj hi
        rw [hreceived] at hlength
        exact huntouched hlength

variable {L} {events} {protocolLabel?} {environment?}

theorem goesOn_ofReader
    (h : (ofReader L (.ofEvents events) protocolLabel? environment?).2 = .ok i) (k : Nat) :
    GoesOn (ofReader L (.ofEvents events) protocolLabel? environment?).1
      (events.length + ByteReader.eventsLength events + 1) i k := by
  have ho := inOrder_ofReader h
  have hk := ho.after k
  have hyielded := yielded_after (yielded_ofReader h) k
  refine ⟨hk.orderly, ?_, (pulled_stream k i).symm, hyielded, fun hend => ?_,
    fun hend m => after_end k m hend⟩
  · exact Nat.le_trans (Nat.le_add_right _ _) hk.calls
  · obtain ⟨hdecoded, hf⟩ := next_eq_none hend
    have hs := (ho.after (k + 1)).sound
    exact ⟨hs.given_eq (hs.closed hf).1, hs.closes.trans hf, hs.yielded_eq hdecoded⟩

end Intake

/-- An intake is the decoded stream on the same reader, over the same library, and whatever the
reader comes upon, it calls the reader and the decoder in order from the beginning on, and only so
often that each of its answers comes. -/
theorem calls_in_order {ε δ : Type} [DecidableEq ε] (L : Library ε δ) (events : List ReadEvent)
    (protocolLabel? : Option String) (environment? : Option ε) :
    (Intake.ofReader L (.ofEvents events) protocolLabel? environment?).2.map Intake.stream =
        Encoding.Library.Stream.ofReader L (.ofEvents events) protocolLabel? environment? ∧
      Intake.Opens events (Intake.ofReader L (.ofEvents events) protocolLabel? environment?).1
        (Intake.ofReader L (.ofEvents events) protocolLabel? environment?).2 ∧
      ∀ i, (Intake.ofReader L (.ofEvents events) protocolLabel? environment?).2 = .ok i → ∀ k,
        Intake.GoesOn (Intake.ofReader L (.ofEvents events) protocolLabel? environment?).1
          (events.length + ByteReader.eventsLength events + 1) i k :=
  ⟨Intake.stream_ofReader _ _ _, Intake.opens_ofReader _ _ _ _,
    fun _ h k => Intake.goesOn_ofReader h k⟩

end Stylesheet
