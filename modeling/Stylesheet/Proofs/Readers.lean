import Stylesheet.ByteReader

/-!
# What a reader brings

The bytes up to the first end or the first failure that is not just an interruption, and that
failure. Main statement: whatever a read answers, the answer and what the reader brings from then
on make up what it brought before.
-/
namespace Stylesheet.ByteReader

/-- The bytes up to the first end or failure, and the failure. -/
def incoming : List ReadEvent → List UInt8 × Option ReadFailure
  | [] => ([], none)
  | .endOfInput :: _ => ([], none)
  | .bytes [] :: _ => ([], none)
  | .bytes (b :: bytes) :: rest => (b :: bytes ++ (incoming rest).1, (incoming rest).2)
  | .failure failure :: rest =>
    if failure.reason = .interrupted then incoming rest else ([], some failure)

theorem incoming_bytes {bytes : List UInt8} (hb : bytes ≠ []) (rest : List ReadEvent) :
    incoming (.bytes bytes :: rest) = (bytes ++ (incoming rest).1, (incoming rest).2) := by
  cases bytes with
  | nil => contradiction
  | cons b bytes => rw [incoming]

/-! ## Readers that do not fail -/

/-- The events hand out these bytes, in any pieces and with any number of interruptions, and come
to an end. What a reader does after it said so does not matter. -/
inductive HandsOut : List ReadEvent → List UInt8 → Prop
  | nothing : HandsOut [] []
  | endOfInput (rest : List ReadEvent) : HandsOut (.endOfInput :: rest) []
  | noBytes (rest : List ReadEvent) : HandsOut (.bytes [] :: rest) []
  | bytes {piece more : List UInt8} {rest : List ReadEvent} (hp : piece ≠ [])
      (h : HandsOut rest more) : HandsOut (.bytes piece :: rest) (piece ++ more)
  | interrupted {failure : ReadFailure} {bytes : List UInt8} {rest : List ReadEvent}
      (hf : failure.reason = .interrupted) (h : HandsOut rest bytes) :
      HandsOut (.failure failure :: rest) bytes

theorem HandsOut.incoming_eq {events : List ReadEvent} {bytes : List UInt8}
    (h : HandsOut events bytes) : incoming events = (bytes, none) := by
  induction h with
  | nothing => rfl
  | endOfInput rest => rfl
  | noBytes rest => rfl
  | bytes hp h ih => rw [incoming_bytes hp, ih]
  | interrupted hf h ih => rw [incoming, if_pos hf, ih]

/-! ## Reads -/

/-- What a reader brings of which a read gets this answer and leaves these events. -/
def brought (answer : Except ReadFailure (List UInt8)) (events : List ReadEvent) :
    List UInt8 × Option ReadFailure :=
  match answer with
  | .ok [] => ([], none)
  | .ok bytes => (bytes ++ (incoming events).1, (incoming events).2)
  | .error failure => ([], some failure)

theorem brought_bytes {bytes : List UInt8} (hb : bytes ≠ []) (events : List ReadEvent) :
    brought (.ok bytes) events = (bytes ++ (incoming events).1, (incoming events).2) := by
  cases bytes with
  | nil => contradiction
  | cons b bytes => rfl

theorem brought_deliver {n : Nat} (hn : 0 < n) (events : List ReadEvent) :
    brought (deliver n events).1 (deliver n events).2 = incoming events := by
  induction events with
  | nil => rfl
  | cons event rest ih =>
    cases event with
    | endOfInput => rfl
    | failure failure =>
      rw [deliver, incoming]
      split
      · exact ih
      · rfl
    | bytes bytes =>
      rw [deliver]
      dsimp only
      by_cases hnil : bytes = []
      · subst hnil
        rw [List.take_nil]
        rfl
      have htake : bytes.take n ≠ [] := by
        intro htake
        obtain hzero | hnil' := List.take_eq_nil_iff.mp htake
        · omega
        · exact hnil hnil'
      rw [brought_bytes htake, incoming_bytes hnil]
      split
      case isTrue hle => rw [List.take_of_length_le hle]
      case isFalse hle =>
        have hdrop : bytes.drop n ≠ [] := by
          rw [ne_eq, List.drop_eq_nil_iff]
          exact hle
        rw [incoming_bytes hdrop, ← List.append_assoc, List.take_append_drop]

theorem brought_read {n : Nat} (hn : 0 < n) (r : ByteReader) :
    brought (r.read n).1 (r.read n).2.events = incoming r.events := by
  rw [← brought_deliver hn r.events, read]
  cases deliver n r.events with
  | mk answer events =>
    cases answer with
    | ok bytes => rfl
    | error failure => rfl

/-- What a reader brings of which the first `n` bytes are read like this. If there are fewer, it has
come to its end, or to its failure. -/
def Begins (n : Nat) (incoming : List UInt8 × Option ReadFailure) (rest : List ReadEvent) :
    Except ReadFailure (List UInt8) → Prop
  | .ok bytes =>
    incoming = if bytes.length < n then (bytes, none)
      else (bytes ++ (ByteReader.incoming rest).1, (ByteReader.incoming rest).2)
  | .error failure => incoming.2 = some failure ∧ incoming.1.length < n

/-- A piece that is read first goes in front of what is read then. -/
theorem Begins.append {n : Nat} {more : List UInt8 × Option ReadFailure} {rest : List ReadEvent}
    {got : Except ReadFailure (List UInt8)} {piece : List UInt8} (hle : piece.length ≤ n)
    (h : Begins (n - piece.length) more rest got) :
    Begins n (piece ++ more.1, more.2) rest (got.map (piece ++ ·)) := by
  cases got with
  | error failure =>
    obtain ⟨hfailure, hlt⟩ := h
    refine ⟨hfailure, ?_⟩
    rw [List.length_append]
    omega
  | ok bytes =>
    dsimp only [Begins, Except.map] at h ⊢
    rw [h, List.length_append]
    by_cases hlt : bytes.length < n - piece.length
    · rw [if_pos hlt, if_pos (by omega)]
    · rw [if_neg hlt, if_neg (by omega), List.append_assoc]

theorem begins_readFully (n : Nat) (r : ByteReader) :
    Begins n (incoming r.events) (r.readFully n).2.events (r.readFully n).1 := by
  induction n using Nat.strongRecOn generalizing r with
  | ind n ih =>
    rw [readFully]
    by_cases hzero : n = 0
    · subst hzero
      rfl
    have hpos := Nat.pos_of_ne_zero hzero
    have hbrought := brought_read hpos r
    rw [if_neg hzero]
    cases hread : r.read n with
    | mk answer r' =>
      rw [hread] at hbrought
      rw [← hbrought]
      cases answer with
      | error failure => exact ⟨rfl, hpos⟩
      | ok bytes =>
        cases bytes with
        | nil => exact (if_pos hpos).symm
        | cons b bytes =>
          have hmore := (ih (n - (bytes.length + 1)) (by omega) r').append
            (length_le_of_read hread)
          dsimp only at hmore ⊢
          cases hfully : r'.readFully (n - (bytes.length + 1)) with
          | mk got rest =>
            rw [hfully] at hmore
            cases got with
            | ok more => exact hmore
            | error failure => exact hmore

section Front

variable {n : Nat} {r rest : ByteReader}

/-- The first bytes are there, unless a failure comes before them. -/
theorem readFully_eq_error_iff (failure : ReadFailure) :
    (r.readFully n).1 = .error failure ↔
      (incoming r.events).2 = some failure ∧ (incoming r.events).1.length < n := by
  have hbegins := begins_readFully n r
  cases hgot : (r.readFully n).1 with
  | error why =>
    rw [hgot] at hbegins
    obtain ⟨hwhy, hlt⟩ := hbegins
    rw [hwhy, Except.error.injEq, Option.some.injEq]
    exact ⟨fun h => ⟨h, hlt⟩, fun h => h.1⟩
  | ok bytes =>
    rw [hgot] at hbegins
    refine ⟨fun h => by contradiction, fun ⟨hfailure, hlt⟩ => ?_⟩
    dsimp only [Begins] at hbegins
    split at hbegins
    case isTrue =>
      rw [hbegins] at hfailure
      contradiction
    case isFalse hle =>
      rw [hbegins, List.length_append] at hlt
      omega

theorem take_incoming_of_readFully {bytes : List UInt8} (h : r.readFully n = (.ok bytes, rest)) :
    (incoming r.events).1.take n = bytes := by
  have hle := length_le_of_readFully h
  have hbegins := begins_readFully n r
  rw [h] at hbegins
  dsimp only [Begins] at hbegins
  rw [hbegins]
  split
  case isTrue => exact List.take_of_length_le hle
  case isFalse => exact List.take_left' (by omega)

end Front

end Stylesheet.ByteReader
