import Stylesheet.Proofs.Runs

/-!
# Drivers

A tokenizer can be asked for tokens in two ways, in any order, over a source that may go on after
it said it had ended. A failure is for good: it is every later answer of `nextToken`, and nothing is
read any more. What `next` hands out ends for good as well, whatever is asked in between. Main
statement: this holds after any requests, and the tokens of a text are what `next` hands out.
-/
namespace Stylesheet.Tokenizer

variable {σ : Type} [Source σ]

/-! ## Requests -/

/-- The two ways to ask for a token. -/
inductive Request where
  | nextToken
  | next
  deriving DecidableEq, Repr

/-- What a request is answered. Nothing is answered by `next` only, at the end of its tokens. -/
def respond (t : Tokenizer σ) : Request → Option (Except Failure Token) × Tokenizer σ
  | .nextToken => (some t.nextToken.1, t.nextToken.2)
  | .next => t.next

/-- The tokenizer after one request after another. -/
def asked : List Request → Tokenizer σ → Tokenizer σ
  | [], t => t
  | request :: rest, t => (t.respond request).2.asked rest

/-- Each of the requests with its answer. -/
def history : List Request → Tokenizer σ → List (Request × Option (Except Failure Token))
  | [], _ => []
  | request :: rest, t =>
    (request, (t.respond request).1) :: (t.respond request).2.history rest

theorem asked_append (requests later : List Request) (t : Tokenizer σ) :
    t.asked (requests ++ later) = (t.asked requests).asked later := by
  induction requests generalizing t with
  | nil => rfl
  | cons request rest ih => exact ih _

/-- What `next` makes of an answer: the token at the end is not handed out. -/
def item : Except Failure Token → Option (Except Failure Token)
  | .ok token => if token.kind = .done then none else some (.ok token)
  | .error failure => some (.error failure)

/-- The last thing that `next` does is to hand out a failure or nothing. -/
def isLast : Option (Except Failure Token) → Bool
  | some (.ok _) => false
  | some (.error _) | none => true

theorem item_eq_error_iff {answer : Except Failure Token} {failure : Failure} :
    item answer = some (.error failure) ↔ answer = .error failure := by
  cases answer with
  | error other => simp [item]
  | ok token =>
    rw [item]
    split <;> simp

/-- `next` handed out a failure. -/
def handsFailure : Request × Option (Except Failure Token) → Bool
  | (.next, some (.error _)) => true
  | _ => false

/-! ## One request -/

section One

variable {t : Tokenizer σ}

theorem finished_nextToken (t : Tokenizer σ) : t.nextToken.2.finished = t.finished := by
  have hstep := t.nextToken_step
  generalize t.nextToken = r at hstep ⊢
  cases hstep <;> rfl

theorem nextToken_of_failure {failure : Failure} (h : t.failure? = some failure) :
    t.nextToken = (.error failure, t) :=
  (Step.failed h).nextToken_eq

theorem next_of_finished (h : t.finished = true) : t.next = (none, t) := by
  simp only [next, h, if_true]

/-- Before its end, `next` does what `nextToken` does, and takes note of the end. -/
theorem next_eq (h : t.finished = false) :
    t.next = (item t.nextToken.1,
      { t.nextToken.2 with finished := isLast (item t.nextToken.1) }) := by
  have hfinished := t.finished_nextToken
  rw [h] at hfinished
  rw [next, h]
  generalize t.nextToken = r at hfinished ⊢
  obtain ⟨answer, u⟩ := r
  obtain ⟨source, blocks, failure?, finished⟩ := u
  obtain rfl : finished = false := hfinished
  cases answer with
  | error failure => rfl
  | ok token =>
    by_cases hk : token.kind = .done
    · simp [item, isLast, hk]
    · simp [item, isLast, hk]

theorem next_of_item {token : Token} (h : t.finished = false)
    (hi : item t.nextToken.1 = some (.ok token)) : t.next = (some (.ok token), t.nextToken.2) := by
  have hfinished := t.finished_nextToken
  rw [h] at hfinished
  rw [next_eq h, hi, isLast, ← hfinished]

theorem finished_next (h : t.finished = false) : t.next.2.finished = isLast t.next.1 := by
  rw [next_eq h]

theorem finished_respond (h : t.finished = true) (request : Request) :
    (t.respond request).2.finished = true := by
  cases request with
  | nextToken => exact t.finished_nextToken.trans h
  | next =>
    rw [respond, next_of_finished h]
    exact h

end One

/-! ## Failures -/

/-- The tokenizer has failed, and nothing has changed in it since but what `next` takes note of. -/
structure Stuck (failure : Failure) (t u : Tokenizer σ) : Prop where
  failure : u.failure? = some failure
  source : u.source = t.source
  blocks : u.blocks = t.blocks

theorem stuck_respond {t : Tokenizer σ} {failure : Failure} (h : t.failure? = some failure)
    (request : Request) : Stuck failure t (t.respond request).2 := by
  cases request with
  | nextToken =>
    rw [respond, nextToken_of_failure h]
    exact ⟨h, rfl, rfl⟩
  | next =>
    rw [respond]
    cases hf : t.finished with
    | true =>
      rw [next_of_finished hf]
      exact ⟨h, rfl, rfl⟩
    | false =>
      rw [next_eq hf, nextToken_of_failure h]
      exact ⟨h, rfl, rfl⟩

theorem stuck_asked {t : Tokenizer σ} {failure : Failure} (h : t.failure? = some failure)
    (requests : List Request) : Stuck failure t (t.asked requests) := by
  induction requests generalizing t with
  | nil => exact ⟨h, rfl, rfl⟩
  | cons request rest ih =>
    have hone := stuck_respond h request
    have hrest := ih hone.failure
    exact ⟨hrest.failure, hrest.source.trans hone.source, hrest.blocks.trans hone.blocks⟩

theorem failure_of_respond {t : Tokenizer σ} {request : Request} {failure : Failure}
    (h : (t.respond request).1 = some (.error failure)) :
    (t.respond request).2.failure? = some failure := by
  cases request with
  | nextToken => exact (next_of_error (Option.some.inj h)).1
  | next =>
    rw [respond] at h ⊢
    cases hf : t.finished with
    | true =>
      rw [next_of_finished hf] at h
      contradiction
    | false =>
      rw [next_eq hf] at h ⊢
      exact (next_of_error (item_eq_error_iff.mp h)).1

/-- A failure that was answered once is the one that the tokenizer is stuck with. -/
theorem failure_of_mem_history {t : Tokenizer σ} {requests : List Request} {request : Request}
    {failure : Failure} (h : (request, some (.error failure)) ∈ t.history requests) :
    (t.asked requests).failure? = some failure := by
  induction requests generalizing t with
  | nil => contradiction
  | cons first rest ih =>
    obtain hfirst | hrest := List.mem_cons.mp h
    · obtain ⟨rfl, hanswer⟩ := Prod.mk.inj hfirst
      exact (stuck_asked (failure_of_respond hanswer.symm) rest).failure
    · exact ih hrest

/-! ## The end of the tokens -/

theorem finished_asked {t : Tokenizer σ} (h : t.finished = true) (requests : List Request) :
    (t.asked requests).finished = true := by
  induction requests generalizing t with
  | nil => exact h
  | cons request rest ih => exact ih (finished_respond h request)

/-- `next` has come to its end exactly if it has given a last answer. -/
theorem finished_asked_iff {t : Tokenizer σ} (h : t.finished = false) (requests : List Request) :
    (t.asked requests).finished = true ↔
      ∃ answer, (.next, answer) ∈ t.history requests ∧ isLast answer = true := by
  induction requests generalizing t with
  | nil => simp [asked, history, h]
  | cons request rest ih =>
    cases hf : (t.respond request).2.finished with
    | false =>
      rw [asked, ih hf, history]
      constructor
      · rintro ⟨answer, hmem, hlast⟩
        exact ⟨answer, List.mem_cons_of_mem _ hmem, hlast⟩
      · rintro ⟨answer, hmem, hlast⟩
        obtain hfirst | hrest := List.mem_cons.mp hmem
        · obtain ⟨rfl, rfl⟩ := Prod.mk.inj hfirst
          rw [respond, finished_next h] at hf
          rw [respond, hf] at hlast
          contradiction
        · exact ⟨answer, hrest, hlast⟩
    | true =>
      refine ⟨fun _ => ?_, fun _ => finished_asked hf rest⟩
      cases request with
      | nextToken =>
        rw [respond, finished_nextToken, h] at hf
        contradiction
      | next =>
        rw [respond, finished_next h] at hf
        exact ⟨t.next.1, List.mem_cons_self, hf⟩

/-- At most one failure is still handed out, and none behind the end. -/
theorem countP_history_le (t : Tokenizer σ) (requests : List Request) :
    (t.history requests).countP handsFailure ≤ if t.finished then 0 else 1 := by
  induction requests generalizing t with
  | nil => exact Nat.zero_le _
  | cons request rest ih =>
    have hrest := ih (t.respond request).2
    rw [history, List.countP_cons]
    cases hf : t.finished with
    | true =>
      rw [finished_respond hf, if_pos rfl] at hrest
      have hfirst : handsFailure (request, (t.respond request).1) = false := by
        cases request with
        | nextToken => rfl
        | next =>
          rw [respond, next_of_finished hf]
          rfl
      simpa [hfirst] using hrest
    | false =>
      have hle : (if (t.respond request).2.finished then 0 else 1) ≤ 1 := by split <;> decide
      cases hfirst : handsFailure (request, (t.respond request).1) with
      | false => simpa using Nat.le_trans hrest hle
      | true =>
        -- A failure that is handed out is the last thing that is.
        have hlast : (t.respond request).2.finished = true := by
          cases request with
          | nextToken => contradiction
          | next =>
            rw [respond] at hfirst ⊢
            rw [finished_next hf]
            cases ha : t.next.1 with
            | none => rfl
            | some answer =>
              rw [ha] at hfirst
              cases answer with
              | error failure => rfl
              | ok token => contradiction
        rw [hlast, if_pos rfl] at hrest
        simpa using hrest

/-! ## The protocol -/

/-- What has become of the two ways to ask after these requests. -/
structure Protocol (t : Tokenizer σ) (requests : List Request) : Prop where
  /-- A failure stays the answer of `nextToken`, whatever is asked later, and nothing is read any
  more. -/
  failed : ∀ request failure, (request, some (.error failure)) ∈ t.history requests →
    ∀ later, (t.asked (requests ++ later)).nextToken.1 = .error failure ∧
      (t.asked (requests ++ later)).depth = (t.asked requests).depth ∧
      (t.asked (requests ++ later)).source = (t.asked requests).source
  /-- Before its last answer, and for it, `next` does what `nextToken` would have done. -/
  going : (∀ answer, (.next, answer) ∈ t.history requests → isLast answer = false) →
    ∃ finished, (t.asked requests).next =
      (item (t.asked requests).nextToken.1, { (t.asked requests).nextToken.2 with finished })
  /-- After its last answer, `next` answers nothing and does nothing. -/
  ended : ∀ answer, (.next, answer) ∈ t.history requests → isLast answer = true →
    (t.asked requests).next = (none, t.asked requests)
  once : (t.history requests).countP handsFailure ≤ 1

theorem protocol_of_finished_eq_false {t : Tokenizer σ} (h : t.finished = false)
    (requests : List Request) : Protocol t requests := by
  constructor
  · intro request failure hmem later
    have hfailure := failure_of_mem_history hmem
    have hstuck := stuck_asked hfailure later
    rw [asked_append]
    exact ⟨congrArg Prod.fst (nextToken_of_failure hstuck.failure),
      congrArg List.length hstuck.blocks, hstuck.source⟩
  · intro hgoing
    have hfinished : (t.asked requests).finished = false := by
      rw [Bool.eq_false_iff, Ne, finished_asked_iff h]
      rintro ⟨answer, hmem, hlast⟩
      rw [hgoing answer hmem] at hlast
      contradiction
    exact ⟨_, next_eq hfinished⟩
  · intro answer hmem hlast
    exact next_of_finished ((finished_asked_iff h requests).mpr ⟨answer, hmem, hlast⟩)
  · have hcount := t.countP_history_le requests
    rwa [h, if_neg Bool.false_ne_true] at hcount

/-! ## Lists of tokens -/

/-- All that `next` hands out before it says that there is no more. -/
inductive Collects : Tokenizer σ → List (Except Failure Token) → Prop
  | nil {t : Tokenizer σ} (h : t.next.1 = none) : Collects t []
  | cons {t : Tokenizer σ} {first : Except Failure Token} {rest : List (Except Failure Token)}
      (h : t.next.1 = some first) (hr : Collects t.next.2 rest) : Collects t (first :: rest)

/-- What was handed out, as a list of tokens that says how it ends. -/
inductive Lists : List (Except Failure Token) → List Token → Prop
  | done {tokens : List Token} (hk : ∀ token ∈ tokens, token.kind ≠ .done ∧ token.kind ≠ .error) :
      Lists (tokens.map .ok) (tokens ++ [⟨.done, ""⟩])
  | failed {tokens : List Token} (failure : Failure)
      (hk : ∀ token ∈ tokens, token.kind ≠ .done ∧ token.kind ≠ .error) :
      Lists (tokens.map .ok ++ [.error failure]) (tokens ++ [Token.ofFailure failure])

theorem outcomes_succ (t : Tokenizer σ) (n : Nat) :
    t.outcomes (n + 1) =
      t.nextToken.1 :: if isLast (item t.nextToken.1) then [] else t.nextToken.2.outcomes n := by
  rw [outcomes]
  generalize t.nextToken = r
  obtain ⟨answer, u⟩ := r
  cases answer with
  | error failure => rfl
  | ok token =>
    by_cases hk : token.kind = .done
    · simp [item, isLast, hk]
    · simp [item, isLast, hk]

/-- No token has the kind that stands for a failure. -/
theorem kind_ne_error {t : Tokenizer σ} {token : Token} (h : t.nextToken.1 = .ok token) :
    token.kind ≠ .error := by
  have hstep := t.nextToken_step
  generalize t.nextToken = r at hstep h
  cases hstep with
  | failed | unclosedBlock | unterminatedComment => contradiction
  | done =>
    obtain rfl := Except.ok.inj h
    exact Kind.noConfusion
  | @token s s' c lexeme kind hf hp hl hk =>
    obtain rfl := Except.ok.inj h
    have hallowed := Scan.answers_lexeme c s
    rw [hl] at hallowed
    exact (settle_proper hallowed hk).2

theorem kind_ne_error_of_mem_outcomes {t : Tokenizer σ} {n : Nat} {token : Token}
    (h : .ok token ∈ t.outcomes n) : token.kind ≠ .error := by
  induction n generalizing t with
  | zero => contradiction
  | succ n ih =>
    rw [outcomes_succ] at h
    obtain hfirst | hrest := List.mem_cons.mp h
    · exact kind_ne_error hfirst.symm
    · split at hrest
      · contradiction
      · exact ih hrest

/-- What `next` hands out are the outcomes of the tokenizer but for the token at the end. -/
theorem collects_of_outcomes {t : Tokenizer σ} {n : Nat} {tokens : List Token}
    {last : Except Failure Token} (hf : t.finished = false)
    (h : t.outcomes n = tokens.map .ok ++ [last]) (hl : isLast (item last) = true) :
    Collects t (tokens.map .ok ++ (item last).toList) := by
  induction tokens generalizing t n with
  | nil =>
    cases n with
    | zero => contradiction
    | succ n =>
      rw [outcomes_succ] at h
      obtain ⟨hanswer, -⟩ := List.cons.inj h
      have hnext := next_eq hf
      rw [hanswer, hl] at hnext
      cases hi : item last with
      | none =>
        rw [hi] at hnext
        exact .nil (congrArg Prod.fst hnext)
      | some answer =>
        rw [hi] at hnext
        refine .cons (congrArg Prod.fst hnext) (.nil ?_)
        rw [hnext]
        exact congrArg Prod.fst (next_of_finished rfl)
  | cons token tokens ih =>
    cases n with
    | zero => contradiction
    | succ n =>
      rw [outcomes_succ] at h
      obtain ⟨hanswer, hrest⟩ := List.cons.inj h
      split at hrest
      · simp at hrest
      · rename_i hgoes
        have hitem : item t.nextToken.1 = some (.ok token) := by
          rw [hanswer, item] at hgoes ⊢
          split
          · rename_i hdone
            rw [if_pos hdone] at hgoes
            exact absurd rfl hgoes
          · rfl
        have hnext := next_of_item hf hitem
        refine .cons (congrArg Prod.fst hnext) ?_
        rw [hnext]
        exact ih (t.finished_nextToken.trans hf) hrest

theorem outcomesOf_eq (text : String) :
    outcomesOf text = (ofNormalized text).outcomes (text.length + 1) :=
  Simulation.outcomes_eq _ (alike_ofNormalized text) _

theorem spells_outcomesOf (text : String) :
    Spells (outcomesOf text) (LineEnding.normalize text.toList) := by
  have hlength := LineEnding.length_normalize_le text.toList
  rw [outcomesOf_eq]
  exact spells_outcomes (ready_ofSource_ofText _) (Nat.lt_succ_of_le hlength)

theorem tokenize_of_outcomesOf {text : String} {tokens : List Token} {last : Except Failure Token}
    (h : outcomesOf text = tokens.map .ok ++ [last]) :
    tokenize text = tokens ++ [Token.ofOutcome last] := by
  rw [tokenize, h, List.map_append, List.map_map]
  exact congrArg (· ++ [Token.ofOutcome last]) (List.map_id tokens)

/-- What a text is listed as is what `next` hands out over it. -/
theorem lists_tokenize (text : String) :
    ∃ items, Collects (ofString text) items ∧ Lists items (tokenize text) := by
  obtain ⟨tokens, last, unread, houtcomes, hkinds, hlast, -⟩ := spells_outcomesOf text
  have hproper : ∀ token ∈ tokens, token.kind ≠ .done ∧ token.kind ≠ .error := by
    intro token hmem
    have hmem' : .ok token ∈ outcomesOf text := by
      rw [houtcomes]
      exact List.mem_append_left _ (List.mem_map_of_mem hmem)
    exact ⟨hkinds token hmem, kind_ne_error_of_mem_outcomes hmem'⟩
  refine ⟨_, collects_of_outcomes rfl houtcomes ?_, ?_⟩
  · cases hlast <;> rfl
  · rw [tokenize_of_outcomesOf houtcomes]
    cases hlast with
    | done =>
      have hlists := Lists.done hproper
      rwa [← List.append_nil (tokens.map _)] at hlists
    | unclosedBlock | unterminatedComment => exact .failed _ hproper

/-- Both ways to ask for tokens keep to their ends, over every source and after any requests, and
the tokens of a text are those that one of them hands out. -/
theorem drivers_keep_protocol :
    (∀ (σ : Type) [Source σ] (s : σ) (requests : List Request),
      Protocol (ofSource s) requests) ∧
    ∀ text : String, ∃ items, Collects (ofString text) items ∧ Lists items (tokenize text) :=
  ⟨fun _ _ _ requests => protocol_of_finished_eq_false rfl requests, lists_tokenize⟩

end Stylesheet.Tokenizer
