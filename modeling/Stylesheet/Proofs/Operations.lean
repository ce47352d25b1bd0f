import Stylesheet.Proofs.Simulation

/-!
# Operations

All that a tokenizer does to its source is a few operations. A logged source takes down each of
them, together with the source as it was then, and is otherwise the source itself. Main statements:
a tokenizer does not notice the log, and sources that behave alike have as many operations done to
them.
-/
namespace Stylesheet

/-! ## What a call for a token reads -/

section Reading

variable {σ τ : Type} [Source σ] [Source τ]

/-- The kind of the next token among open blocks. Apart from taking the text of the token, this is
all that a call does with a source. -/
def Scan.kindAmong (blocks : Nesting) : Scan σ (Except Cause Kind) := do
  match ← peek with
  | none =>
    match blocks with
    | [] => return .ok .done
    | block :: _ => return .error (.unclosedBlock block)
  | some c => return blocks.settle (← lexeme c)

theorem Uniform.kindAmong (blocks : Nesting) :
    Uniform (Scan.kindAmong (σ := σ) blocks) (Scan.kindAmong (σ := τ) blocks) := by
  apply Uniform.bind .peek
  intro c?
  cases c? with
  | none => cases blocks <;> exact .pure _
  | some c => exact .bind (.lexeme c) fun _ => .pure _

namespace Tokenizer

theorem readKind_eq (t : Tokenizer σ) :
    t.readKind = ((Scan.kindAmong t.blocks t.source).1,
      { t with source := (Scan.kindAmong t.blocks t.source).2 }) := by
  unfold readKind Scan.kindAmong
  rw [Scan.bind_apply, Scan.peek]
  cases Source.peek t.source with
  | mk c? s =>
    cases c? with
    | none => cases t.blocks <;> rfl
    | some c => rfl

/-- A call that finds a kind takes the text that was read. -/
theorem nextToken_of_kind {t : Tokenizer σ} {kind : Kind} {s : σ} (hf : t.failure? = none)
    (hk : Scan.kindAmong t.blocks t.source = (.ok kind, s)) :
    t.nextToken = (.ok ⟨kind, (Source.takeText s).1⟩,
      { t with source := (Source.takeText s).2, blocks := t.blocks.after kind }) := by
  simp only [nextToken, hf, readKind_eq, hk, emit]

/-- A call that finds none leaves the text that was read in the span. -/
theorem nextToken_of_cause {t : Tokenizer σ} {cause : Cause} {s : σ} (hf : t.failure? = none)
    (hk : Scan.kindAmong t.blocks t.source = (.error cause, s)) :
    t.nextToken = (.error ⟨cause, t.location⟩,
      { t with source := s, failure? := some ⟨cause, t.location⟩ }) := by
  simp only [nextToken, hf, readKind_eq, hk]

/-- What a call does with the source: nothing, or read it, or read it and take the text. -/
theorem source_nextToken (t : Tokenizer σ) :
    (∃ failure, t.nextToken.1 = .error failure ∧ (t.nextToken.2.source = t.source ∨
      t.nextToken.2.source = (Scan.kindAmong t.blocks t.source).2)) ∨
    ∃ kind, t.nextToken.1 =
        .ok ⟨kind, (Source.takeText (Scan.kindAmong t.blocks t.source).2).1⟩ ∧
      t.nextToken.2.source = (Source.takeText (Scan.kindAmong t.blocks t.source).2).2 := by
  cases hf : t.failure? with
  | some failure =>
    rw [(Step.failed hf).nextToken_eq]
    exact .inl ⟨failure, rfl, .inl rfl⟩
  | none =>
    cases hk : Scan.kindAmong t.blocks t.source with
    | mk kind s =>
      cases kind with
      | ok kind =>
        rw [nextToken_of_kind hf hk]
        exact .inr ⟨kind, rfl, rfl⟩
      | error cause =>
        rw [nextToken_of_cause hf hk]
        exact .inl ⟨_, rfl, .inr rfl⟩

end Tokenizer

end Reading

/-! ## The log -/

/-- What is done to a source. Asking where it stands does nothing to it. -/
inductive Operation where
  | peek
  | consume
  | reset (mark : Mark)
  | takeText
  deriving DecidableEq, Repr

/-- A source and the operations so far, the latest first, each with the source that it was done
to. -/
structure Logged (σ : Type) where
  source : σ
  log : List (Operation × σ)

namespace Logged

variable {σ τ : Type}

/-- The source after one operation more. -/
def next (l : Logged σ) (operation : Operation) (s : σ) : Logged σ :=
  ⟨s, (operation, l.source) :: l.log⟩

variable [Source σ] [Source τ]

instance : Source (Logged σ) where
  peek l := ((Source.peek l.source).1, l.next .peek (Source.peek l.source).2)
  consume l := ((Source.consume l.source).1, l.next .consume (Source.consume l.source).2)
  position l := Source.position l.source
  reset mark l := l.next (.reset mark) (Source.reset mark l.source)
  takeText l := ((Source.takeText l.source).1, l.next .takeText (Source.takeText l.source).2)
  remaining l := Source.remaining l.source
  remaining_peek_le l := Source.remaining_peek_le l.source
  remaining_consume_le l := Source.remaining_consume_le l.source
  remaining_consume_lt l h := Source.remaining_consume_lt l.source h

/-- A source behaves alike with and without its log. -/
def unlogged (σ : Type) [Source σ] : Simulation (Logged σ) σ where
  Rel l s := l.source = s
  Later _ _ := True
  later_refl _ := trivial
  later_trans _ _ _ _ _ := trivial
  peek l s h := by
    subst h
    exact ⟨rfl, rfl, trivial⟩
  consume l s h := by
    subst h
    exact ⟨rfl, rfl, trivial⟩
  reset l s l' s' h h' _ := by
    subst h h'
    exact ⟨rfl, trivial⟩
  location l s h := by
    subst h
    rfl
  takeText l s h := by
    subst h
    exact ⟨rfl, rfl⟩

end Logged

/-- Sources that behave alike are operated on alike. -/
def Simulation.logged {σ τ : Type} [Source σ] [Source τ] (S : Simulation σ τ) :
    Simulation (Logged σ) (Logged τ) where
  Rel l m := S.Rel l.source m.source ∧ l.log.length = m.log.length
  Later p q := S.Later (p.1.source, p.2.source) (q.1.source, q.2.source)
  later_refl _ := S.later_refl _
  later_trans _ _ _ := S.later_trans _ _ _
  peek l m h := by
    obtain ⟨hrel, hlength⟩ := h
    have hpeek := S.peek _ _ hrel
    exact ⟨hpeek.answer, ⟨hpeek.rel, congrArg (· + 1) hlength⟩, hpeek.later⟩
  consume l m h := by
    obtain ⟨hrel, hlength⟩ := h
    have hconsume := S.consume _ _ hrel
    exact ⟨hconsume.answer, ⟨hconsume.rel, congrArg (· + 1) hlength⟩, hconsume.later⟩
  reset l m l' m' h h' hlater := by
    obtain ⟨hrel', hlength⟩ := h'
    obtain ⟨hrel, hlater⟩ := S.reset _ _ _ _ h.1 hrel' hlater
    exact ⟨⟨hrel, congrArg (· + 1) hlength⟩, hlater⟩
  location l m h := S.location _ _ h.1
  takeText l m h := by
    obtain ⟨hrel, hlength⟩ := h
    obtain ⟨htext, hrel⟩ := S.takeText _ _ hrel
    exact ⟨htext, hrel, congrArg (· + 1) hlength⟩

namespace Simulation

variable {σ τ : Type} [Source σ] [Source τ] (S : Simulation σ τ)

/-- What can be done on the way from a pair of related sources: each operation is done to a source
later on the way, and going back is to where one before it stood. -/
inductive Along (p : σ × τ) : Operation × σ → Prop
  | peek {q : σ × τ} (hrel : S.Rel q.1 q.2) (hlater : S.Later p q) : Along p (.peek, q.1)
  | consume {q : σ × τ} (hrel : S.Rel q.1 q.2) (hlater : S.Later p q) : Along p (.consume, q.1)
  | takeText {q : σ × τ} (hrel : S.Rel q.1 q.2) (hlater : S.Later p q) : Along p (.takeText, q.1)
  | reset {q r : σ × τ} (hback : S.Rel q.1 q.2) (hbetween : S.Later p q) (hrel : S.Rel r.1 r.2)
      (hlater : S.Later q r) : Along p (.reset (Source.position q.1), r.1)

variable {S}

/-- What is done on the way from a later pair is done on the way from an earlier one. -/
theorem Along.mono {p q : σ × τ} {entry : Operation × σ} (hpq : S.Later p q)
    (h : S.Along q entry) : S.Along p entry := by
  cases h with
  | peek hrel hlater => exact .peek hrel (S.later_trans _ _ _ hpq hlater)
  | consume hrel hlater => exact .consume hrel (S.later_trans _ _ _ hpq hlater)
  | takeText hrel hlater => exact .takeText hrel (S.later_trans _ _ _ hpq hlater)
  | reset hback hbetween hrel hlater =>
    exact .reset hback (S.later_trans _ _ _ hpq hbetween) hrel hlater

variable (S)

/-- What a source has had done to it while it was read like another one. -/
def tracked : Simulation (Logged σ) τ where
  Rel l t := S.Rel l.source t
  Later p q := S.Later (p.1.source, p.2) (q.1.source, q.2) ∧
    ∃ done, q.1.log = done ++ p.1.log ∧ ∀ entry ∈ done, S.Along (p.1.source, p.2) entry
  later_refl p := ⟨S.later_refl _, [], rfl, nofun⟩
  later_trans p q r := by
    rintro ⟨hpq, done, hdone, halong⟩ ⟨hqr, more, hmore, halong'⟩
    refine ⟨S.later_trans _ _ _ hpq hqr, more ++ done, ?_, ?_⟩
    · rw [hmore, hdone, List.append_assoc]
    · intro entry hmem
      obtain hmem | hmem := List.mem_append.mp hmem
      · exact (halong' entry hmem).mono hpq
      · exact halong entry hmem
  peek l t h := by
    have hpeek := S.peek _ _ h
    refine ⟨hpeek.answer, hpeek.rel, hpeek.later, [(.peek, l.source)], rfl, ?_⟩
    intro entry hmem
    rw [List.mem_singleton.mp hmem]
    exact .peek (q := (l.source, t)) h (S.later_refl _)
  consume l t h := by
    have hconsume := S.consume _ _ h
    refine ⟨hconsume.answer, hconsume.rel, hconsume.later, [(.consume, l.source)], rfl, ?_⟩
    intro entry hmem
    rw [List.mem_singleton.mp hmem]
    exact .consume (q := (l.source, t)) h (S.later_refl _)
  reset l t l' t' h h' := by
    rintro ⟨hlater, done, hdone, halong⟩
    obtain ⟨hrel, hreset⟩ := S.reset _ _ _ _ h h' hlater
    refine ⟨hrel, hreset, (.reset (Source.position l.source), l'.source) :: done, ?_, ?_⟩
    · exact congrArg (List.cons _) hdone
    · intro entry hmem
      obtain rfl | hmem := List.mem_cons.mp hmem
      · exact .reset (q := (l.source, t)) (r := (l'.source, t')) h (S.later_refl _) h' hlater
      · exact halong entry hmem
  location l t h := S.location _ _ h
  takeText l t h := S.takeText _ _ h

end Simulation

/-! ## Tokenizers -/

namespace Tokenizer

variable {σ τ : Type} [Source σ] [Source τ]

/-- The tokenizer over its source with an empty log. -/
def logged (t : Tokenizer σ) : Tokenizer (Logged σ) := { t with source := ⟨t.source, []⟩ }

/-- What the next call does to the source, the latest operation first. -/
def operations (t : Tokenizer σ) : List (Operation × σ) := t.logged.nextToken.2.source.log

/-- The log makes no difference to a call. -/
theorem nextToken_logged (t : Tokenizer σ) :
    t.logged.nextToken.1 = t.nextToken.1 ∧
      t.logged.nextToken.2.source.source = t.nextToken.2.source := by
  have halike : (Logged.unlogged σ).Alike t.logged t := ⟨rfl, rfl, rfl, rfl⟩
  obtain ⟨hanswer, hnext⟩ := (Logged.unlogged σ).alike_nextToken halike
  exact ⟨hanswer, hnext.source⟩

theorem length_operations_eq {S : Simulation σ τ} {t : Tokenizer σ} {u : Tokenizer τ}
    (h : S.Alike t u) : t.operations.length = u.operations.length := by
  have halike : S.logged.Alike t.logged u.logged :=
    ⟨⟨h.source, rfl⟩, h.blocks, h.failure, h.finished⟩
  exact (S.logged.alike_nextToken halike).2.source.2

/-- All that a call does to the source is done on the way from where the call begins. -/
theorem along_operations {S : Simulation σ τ} {t : Tokenizer σ} {u : Tokenizer τ}
    (h : S.Alike t u) : ∀ entry ∈ t.operations, S.Along (t.source, u.source) entry := by
  have hread := S.tracked.agrees (.kindAmong t.blocks) (s := t.logged.source) h.source
  obtain ⟨hlater, done, hdone, halong⟩ := hread.later
  rw [show t.logged.source.log = [] from rfl, List.append_nil] at hdone
  subst hdone
  intro entry hmem
  obtain ⟨failure, -, hsource | hsource⟩ | ⟨kind, -, hsource⟩ := t.logged.source_nextToken
  · rw [operations, hsource] at hmem
    contradiction
  · rw [operations, hsource] at hmem
    exact halong entry hmem
  · rw [operations, hsource] at hmem
    obtain rfl | hmem := List.mem_cons.mp hmem
    · exact .takeText (q := (_, _)) hread.rel hlater
    · exact halong entry hmem

end Tokenizer
end Stylesheet
