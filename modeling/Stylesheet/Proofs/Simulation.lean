import Stylesheet.Proofs.Calls
import Stylesheet.Proofs.Uniform

/-!
# Simulations of sources

A simulation relates the states of two sources that answer alike. A mark is only good for a while,
so it also says which pairs of states come later than others within a span: going back to the
marks of an earlier pair has to lead to related states again. Main statements: uniform scans
answer alike on related sources, and so do tokenizers, in any number of calls.
-/
namespace Stylesheet

/-- What two related states `s` and `t` come to when they are read alike: one answer, and states
that are related and later. -/
structure Agree {σ τ α : Type} (Rel : σ → τ → Prop) (Later : σ × τ → σ × τ → Prop) (s : σ) (t : τ)
    (r : α × σ) (r' : α × τ) : Prop where
  answer : r.1 = r'.1
  rel : Rel r.2 r'.2
  later : Later (s, t) (r.2, r'.2)

structure Simulation (σ τ : Type) [Source σ] [Source τ] where
  Rel : σ → τ → Prop
  Later : σ × τ → σ × τ → Prop
  later_refl : ∀ p, Later p p
  later_trans : ∀ p q r, Later p q → Later q r → Later p r
  peek : ∀ s t, Rel s t → Agree Rel Later s t (Source.peek s) (Source.peek t)
  consume : ∀ s t, Rel s t → Agree Rel Later s t (Source.consume s) (Source.consume t)
  /-- Going back to where an earlier pair stood. -/
  reset : ∀ s t s' t', Rel s t → Rel s' t' → Later (s, t) (s', t') →
    Rel (Source.reset (Source.position s) s') (Source.reset (Source.position t) t') ∧
    Later (s, t) (Source.reset (Source.position s) s', Source.reset (Source.position t) t')
  location : ∀ s t, Rel s t → Source.location s = Source.location t
  takeText : ∀ s t, Rel s t → (Source.takeText s).1 = (Source.takeText t).1 ∧
    Rel (Source.takeText s).2 (Source.takeText t).2

namespace Simulation

variable {σ τ : Type} [Source σ] [Source τ] (S : Simulation σ τ)

/-- Related states stay related when they are read alike. -/
abbrev Agrees {α : Type} (s : σ) (t : τ) (r : α × σ) (r' : α × τ) : Prop :=
  Agree S.Rel S.Later s t r r'

theorem agrees_keepIf {α : Type} {scan : Scan σ α} {scan' : Scan τ α} (keep : α → Bool) {s : σ}
    {t : τ} (hst : S.Rel s t) (h : S.Agrees s t (scan s) (scan' t)) :
    S.Agrees s t (Scan.keepIf keep scan s) (Scan.keepIf keep scan' t) := by
  cases hk : keep (scan s).1 with
  | true =>
    have hk' : keep (scan' t).1 = true := h.answer ▸ hk
    rw [Scan.keepIf_of_keep hk, Scan.keepIf_of_keep hk']
    exact h
  | false =>
    have hk' : keep (scan' t).1 = false := h.answer ▸ hk
    rw [Scan.keepIf_of_not_keep hk, Scan.keepIf_of_not_keep hk']
    obtain ⟨hrel, hlater⟩ := S.reset s t _ _ hst h.rel h.later
    exact ⟨h.answer, hrel, hlater⟩

theorem agrees_iterate {α β : Type} {round : β → Scan σ (Scan.Round β α)}
    {round' : β → Scan τ (Scan.Round β α)}
    {advances : ∀ b, Scan.Advances Scan.Round.GoesOn (round b)}
    {advances' : ∀ b, Scan.Advances Scan.Round.GoesOn (round' b)}
    (h : ∀ b s t, S.Rel s t → S.Agrees s t (round b s) (round' b t)) (b : β) {s : σ} {t : τ}
    (hst : S.Rel s t) :
    S.Agrees s t (Scan.iterate round advances b s) (Scan.iterate round' advances' b t) := by
  -- A round that asks for another one leaves less to read on the left-hand side.
  induction hn : Source.remaining s using Nat.strongRecOn generalizing b s t with
  | ind n ih =>
    have hr := h b s t hst
    have ha := advances b s
    rw [Scan.iterate_eq, Scan.iterate_eq]
    cases hs : round b s with
    | mk a s' =>
      cases ht : round' b t with
      | mk a' t' =>
        rw [hs, ht] at hr
        rw [hs] at ha
        obtain ⟨rfl, hrel, hlater⟩ := hr
        cases a with
        | again b' =>
          have hi := ih _ (hn ▸ ha trivial) b' hrel rfl
          exact ⟨hi.answer, hi.rel, S.later_trans _ _ _ hlater hi.later⟩
        | finish a => exact ⟨rfl, hrel, hlater⟩

/-- Uniform scans answer alike on related sources. -/
theorem agrees {α : Type} {scan : Scan σ α} {scan' : Scan τ α} (h : Uniform scan scan') {s : σ}
    {t : τ} (hst : S.Rel s t) : S.Agrees s t (scan s) (scan' t) := by
  induction h generalizing s t with
  | pure a => exact ⟨rfl, hst, S.later_refl _⟩
  | peek => exact S.peek s t hst
  | consume => exact S.consume s t hst
  | @bind _ _ scan scan' next next' first rest ih ihr =>
    have hf := ih hst
    have hr := ihr (scan s).1 hf.rel
    rw [Scan.bind_apply, Scan.bind_apply, ← hf.answer]
    exact ⟨hr.answer, hr.rel, S.later_trans _ _ _ hf.later hr.later⟩
  | keepIf keep inner ih => exact S.agrees_keepIf keep hst (ih hst)
  | iterate b inner ih => exact S.agrees_iterate (fun b _ _ hst => ih b hst) b hst

/-! ## Tokenizers -/

/-- Tokenizers that differ in their sources only, which are related. -/
structure Alike (t : Tokenizer σ) (u : Tokenizer τ) : Prop where
  source : S.Rel t.source u.source
  blocks : t.blocks = u.blocks
  failure : t.failure? = u.failure?
  finished : t.finished = u.finished

theorem alike_ofSource {s : σ} {t : τ} (h : S.Rel s t) :
    S.Alike (.ofSource s) (.ofSource t) := ⟨h, rfl, rfl, rfl⟩

theorem alike_readKind {t : Tokenizer σ} {u : Tokenizer τ} (h : S.Alike t u) :
    t.readKind.1 = u.readKind.1 ∧ S.Alike t.readKind.2 u.readKind.2 := by
  have hp := S.peek _ _ h.source
  unfold Tokenizer.readKind
  cases hs : Source.peek t.source with
  | mk c? s =>
    cases ht : Source.peek u.source with
    | mk c?' s' =>
      rw [hs, ht] at hp
      obtain ⟨rfl, hrel, -⟩ := hp
      cases c? with
      | none => exact ⟨by simp only [h.blocks], hrel, h.blocks, h.failure, h.finished⟩
      | some c =>
        have hl := S.agrees (.lexeme c) hrel
        exact ⟨by simp only [h.blocks, hl.answer], hl.rel, h.blocks, h.failure, h.finished⟩

theorem alike_emit {t : Tokenizer σ} {u : Tokenizer τ} (h : S.Alike t u) (kind : Kind) :
    (t.emit kind).1 = (u.emit kind).1 ∧ S.Alike (t.emit kind).2 (u.emit kind).2 := by
  obtain ⟨htext, hrel⟩ := S.takeText _ _ h.source
  refine ⟨?_, hrel, ?_, h.failure, h.finished⟩
  · simp only [Tokenizer.emit, htext]
  · simp only [Tokenizer.emit, h.blocks]

/-- One call of related tokenizers has one answer and leaves them related. -/
theorem alike_nextToken {t : Tokenizer σ} {u : Tokenizer τ} (h : S.Alike t u) :
    t.nextToken.1 = u.nextToken.1 ∧ S.Alike t.nextToken.2 u.nextToken.2 := by
  have hl : t.location = u.location := S.location _ _ h.source
  unfold Tokenizer.nextToken
  rw [← h.failure]
  cases hf : t.failure? with
  | some failure => exact ⟨rfl, h⟩
  | none =>
    obtain ⟨hk, hn⟩ := S.alike_readKind h
    cases ht : t.readKind with
    | mk kind t' =>
      cases hu : u.readKind with
      | mk kind' u' =>
        rw [ht, hu] at hk hn
        obtain rfl : kind = kind' := hk
        cases kind with
        | ok kind =>
          obtain ⟨htoken, hnext⟩ := S.alike_emit hn kind
          exact ⟨congrArg Except.ok htoken, hnext⟩
        | error cause =>
          exact ⟨by simp only [hl], hn.source, hn.blocks, by simp only [hl], hn.finished⟩

theorem alike_after {t : Tokenizer σ} {u : Tokenizer τ} (h : S.Alike t u) (n : Nat) :
    S.Alike (t.after n) (u.after n) := by
  induction n with
  | zero => exact h
  | succ n ih => exact (S.alike_nextToken ih).2

/-- Related tokenizers answer alike in any number of calls. -/
theorem answers_eq {t : Tokenizer σ} {u : Tokenizer τ} (h : S.Alike t u) (n : Nat) :
    t.answers n = u.answers n := by
  induction n with
  | zero => rfl
  | succ n ih =>
    obtain ⟨hanswer, -⟩ := S.alike_nextToken (S.alike_after h n)
    rw [Tokenizer.answers, Tokenizer.answers, ih, hanswer]

/-- Related tokenizers have the same outcomes. -/
theorem outcomes_eq {t : Tokenizer σ} {u : Tokenizer τ} (h : S.Alike t u) (n : Nat) :
    t.outcomes n = u.outcomes n := by
  induction n generalizing t u with
  | zero => rfl
  | succ n ih =>
    obtain ⟨ha, hn⟩ := S.alike_nextToken h
    unfold Tokenizer.outcomes
    cases ht : t.nextToken with
    | mk a t' =>
      cases hu : u.nextToken with
      | mk a' u' =>
        rw [ht, hu] at ha hn
        obtain rfl : a = a' := ha
        cases a with
        | error failure => rfl
        | ok token =>
          have hi := ih hn
          simp only [hi]

end Simulation
end Stylesheet
