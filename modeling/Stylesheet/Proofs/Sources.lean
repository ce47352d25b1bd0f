import Stylesheet.Proofs.Drivers

/-!
# Sources

The tokens of a text do not depend on the source it is read from. A simulation between two sources
carries over to tokenizers that are asked the same, in either way and in any order. Main statement:
a buffered source over a text and an array that holds the normalized text cannot be told apart by
what a tokenizer over them answers, nor by where it stands.
-/
namespace Stylesheet

namespace Simulation

variable {σ τ : Type} [Source σ] [Source τ] (S : Simulation σ τ) {t : Tokenizer σ} {u : Tokenizer τ}

theorem alike_next (h : S.Alike t u) : t.next.1 = u.next.1 ∧ S.Alike t.next.2 u.next.2 := by
  cases hf : t.finished with
  | true =>
    rw [Tokenizer.next_of_finished hf, Tokenizer.next_of_finished (h.finished.symm.trans hf)]
    exact ⟨rfl, h⟩
  | false =>
    obtain ⟨hanswer, hnext⟩ := S.alike_nextToken h
    rw [Tokenizer.next_eq hf, Tokenizer.next_eq (h.finished.symm.trans hf), hanswer]
    exact ⟨rfl, hnext.source, hnext.blocks, hnext.failure, rfl⟩

theorem alike_respond (h : S.Alike t u) (request : Tokenizer.Request) :
    (t.respond request).1 = (u.respond request).1 ∧
      S.Alike (t.respond request).2 (u.respond request).2 := by
  cases request with
  | nextToken =>
    obtain ⟨hanswer, hnext⟩ := S.alike_nextToken h
    exact ⟨congrArg some hanswer, hnext⟩
  | next => exact S.alike_next h

theorem alike_asked (h : S.Alike t u) (requests : List Tokenizer.Request) :
    S.Alike (t.asked requests) (u.asked requests) := by
  induction requests generalizing t u with
  | nil => exact h
  | cons request rest ih => exact ih (S.alike_respond h request).2

/-- Related tokenizers answer alike whatever they are asked. -/
theorem history_eq (h : S.Alike t u) (requests : List Tokenizer.Request) :
    t.history requests = u.history requests := by
  induction requests generalizing t u with
  | nil => rfl
  | cons request rest ih =>
    obtain ⟨hanswer, hnext⟩ := S.alike_respond h request
    rw [Tokenizer.history, Tokenizer.history, hanswer, ih hnext]

end Simulation

namespace Tokenizer

variable {σ τ : Type} [Source σ] [Source τ]

/-- What can be seen of two tokenizers is the same after these requests. -/
structure SeenAlike (t : Tokenizer σ) (u : Tokenizer τ) (requests : List Request) : Prop where
  answers : t.history requests = u.history requests
  depth : (t.asked requests).depth = (u.asked requests).depth
  location : (t.asked requests).location = (u.asked requests).location

theorem seenAlike_of_alike {S : Simulation σ τ} {t : Tokenizer σ} {u : Tokenizer τ}
    (h : S.Alike t u) (requests : List Request) : SeenAlike t u requests := by
  have hasked := S.alike_asked h requests
  exact ⟨S.history_eq h requests, congrArg List.length hasked.blocks,
    S.location _ _ hasked.source⟩

theorem SeenAlike.trans_symm {υ : Type} [Source υ] {t : Tokenizer σ} {u : Tokenizer τ}
    {v : Tokenizer υ} {requests : List Request} (h : SeenAlike t v requests)
    (h' : SeenAlike u v requests) : SeenAlike t u requests :=
  ⟨h.answers.trans h'.answers.symm, h.depth.trans h'.depth.symm,
    h.location.trans h'.location.symm⟩

/-- A tokenizer over a text, and one over the array of its normalized code points, are alike in
all that can be seen of them, whatever they are asked. Both show the same cursor. -/
theorem seenAlike_ofString_indexed (text : String) (requests : List Request) :
    SeenAlike (ofString text)
      (ofSource (IndexedSource.ofString (String.ofList (LineEnding.normalize text.toList))))
      requests := by
  have hbuffered := seenAlike_of_alike (alike_ofNormalized text) requests
  have hshows := IndexedSource.shows_ofString (String.ofList (LineEnding.normalize text.toList))
  rw [String.toList_ofList] at hshows
  have hindexed := seenAlike_of_alike (IndexedSource.asCursor.alike_ofSource hshows) requests
  exact hbuffered.trans_symm hindexed

end Tokenizer
end Stylesheet
