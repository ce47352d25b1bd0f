/-!
# Byte readers

A reader hands out bytes in the pieces that they arrive in. What will arrive is a list of events,
so a reader is a value and reading from it a function.
-/
namespace Stylesheet

/-- Why a read fails. -/
inductive ReadFailure.Reason where
  /-- Nothing is wrong, and the read is to be tried again. -/
  | interrupted
  | unexpectedEof
  | connectionReset
  | wouldBlock
  | timedOut
  | other
  deriving DecidableEq, Repr, Inhabited

structure ReadFailure where
  reason : ReadFailure.Reason
  message : String
  deriving DecidableEq, Repr, Inhabited

/-- What a reader comes upon. -/
inductive ReadEvent where
  /-- Bytes, handed out in as many reads as it takes. No bytes at all are an end of the input. -/
  | bytes (bytes : List UInt8)
  | endOfInput
  | failure (failure : ReadFailure)
  deriving DecidableEq, Repr

structure ByteReader where
  events : List ReadEvent
  /-- How many bytes have been handed out. -/
  delivered : Nat
  deriving Repr

namespace ByteReader

def ofEvents (events : List ReadEvent) : ByteReader := ⟨events, 0⟩

/-- The bytes of one event that a read of at most `n` bytes gets, and the events after it. No
bytes are the end of the input. An interrupted read is tried again. -/
def deliver (n : Nat) : List ReadEvent → Except ReadFailure (List UInt8) × List ReadEvent
  | [] => (.ok [], [])
  | .endOfInput :: rest => (.ok [], rest)
  | .bytes bytes :: rest =>
    (.ok (bytes.take n),
      if bytes.length ≤ n then rest else .bytes (bytes.drop n) :: rest)
  | .failure failure :: rest =>
    if failure.reason = .interrupted then deliver n rest else (.error failure, rest)

/-- Reads at most `n` bytes. -/
def read (n : Nat) (r : ByteReader) : Except ReadFailure (List UInt8) × ByteReader :=
  match deliver n r.events with
  | (.ok bytes, events) => (.ok bytes, ⟨events, r.delivered + bytes.length⟩)
  | (.error failure, events) => (.error failure, ⟨events, r.delivered⟩)

/-- Reads until there are `n` bytes or the input ends. -/
def readFully (n : Nat) (r : ByteReader) : Except ReadFailure (List UInt8) × ByteReader :=
  if n = 0 then (.ok [], r)
  else
    match r.read n with
    | (.error failure, r) => (.error failure, r)
    | (.ok [], r) => (.ok [], r)
    | (.ok (b :: bytes), r) =>
      match readFully (n - (bytes.length + 1)) r with
      | (.ok more, r) => (.ok (b :: bytes ++ more), r)
      | (.error failure, r) => (.error failure, r)
termination_by n

/-- How many bytes an event brings. -/
def eventLength : ReadEvent → Nat
  | .bytes bytes => bytes.length
  | _ => 0

def eventsLength : List ReadEvent → Nat
  | [] => 0
  | event :: rest => eventLength event + eventsLength rest

/-- How many bytes a read got. -/
def readLength : Except ReadFailure (List UInt8) → Nat
  | .ok bytes => bytes.length
  | .error _ => 0

/-- How many bytes there are still to read. -/
def left (r : ByteReader) : Nat := eventsLength r.events

/-- What a read hands out, it takes from what is left. -/
theorem readLength_add_eventsLength_deliver_le (n : Nat) (events : List ReadEvent) :
    readLength (deliver n events).1 + eventsLength (deliver n events).2
      ≤ eventsLength events := by
  induction events with
  | nil => simp [deliver, readLength, eventsLength]
  | cons e rest ih =>
    cases e with
    | endOfInput => simp [deliver, readLength, eventLength, eventsLength]
    | bytes bytes =>
      simp only [deliver, readLength, eventsLength, eventLength, List.length_take]
      split
      · omega
      · simp only [eventsLength, eventLength, List.length_drop]
        omega
    | failure failure =>
      by_cases hf : failure.reason = .interrupted
      · simpa [deliver, hf, eventLength, eventsLength] using ih
      · simp [deliver, hf, readLength, eventLength, eventsLength]

theorem readLength_add_left_read_le (n : Nat) (r : ByteReader) :
    readLength (r.read n).1 + (r.read n).2.left ≤ r.left := by
  have hd := readLength_add_eventsLength_deliver_le n r.events
  rw [read]
  cases hdeliver : deliver n r.events with
  | mk answer events =>
    rw [hdeliver] at hd
    cases answer <;> exact hd

/-! ## How much a read gets -/

theorem readLength_deliver_le (n : Nat) (events : List ReadEvent) :
    readLength (deliver n events).1 ≤ n := by
  induction events with
  | nil => exact Nat.zero_le n
  | cons event rest ih =>
    cases event with
    | endOfInput => exact Nat.zero_le n
    | bytes bytes => exact List.length_take_le n bytes
    | failure failure =>
      rw [deliver]
      split
      · exact ih
      · exact Nat.zero_le n

theorem readLength_read_le (n : Nat) (r : ByteReader) : readLength (r.read n).1 ≤ n := by
  have hd := readLength_deliver_le n r.events
  rw [read]
  cases hdeliver : deliver n r.events with
  | mk answer events =>
    rw [hdeliver] at hd
    cases answer <;> exact hd

theorem length_le_of_read {n : Nat} {r r' : ByteReader} {bytes : List UInt8}
    (h : r.read n = (.ok bytes, r')) : bytes.length ≤ n := by
  have hle := readLength_read_le n r
  rwa [h] at hle

theorem length_le_of_readFully {n : Nat} {r r' : ByteReader} {bytes : List UInt8}
    (h : r.readFully n = (.ok bytes, r')) : bytes.length ≤ n := by
  induction n using Nat.strongRecOn generalizing r r' bytes with
  | ind n ih =>
    rw [readFully] at h
    split at h
    case isTrue =>
      obtain ⟨hbytes, -⟩ := Prod.mk.inj h
      obtain rfl := Except.ok.inj hbytes
      exact Nat.zero_le n
    case isFalse hn =>
      split at h
      case h_1 => simp at h
      case h_2 =>
        obtain ⟨hbytes, -⟩ := Prod.mk.inj h
        obtain rfl := Except.ok.inj hbytes
        exact Nat.zero_le n
      case h_3 b piece r'' hread =>
        have hpiece := length_le_of_read hread
        rw [List.length_cons] at hpiece
        split at h
        case h_1 more rest hmore =>
          obtain ⟨hbytes, -⟩ := Prod.mk.inj h
          obtain rfl := Except.ok.inj hbytes
          have hle := ih _ (by omega) hmore
          rw [List.length_append, List.length_cons]
          omega
        case h_2 => simp at h

end ByteReader
end Stylesheet
