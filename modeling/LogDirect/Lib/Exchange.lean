import LogDirect.Lib.TSys

/-!
# Rounds of question and answer

What is seen of a client that asks one question at a time and of a server that
takes it, answers it, and lets the client read the answer. A sequence of events
is good (`Ends`) if it consists of whole rounds — the question asked is the one
taken, the answer given is the one read — and one round under way.

A system of which such events are seen is `ExactlyOnce` if the events of every run
are good, and every run can go on, without a new question, until the question
under way has been taken and its answer, if it has one, has been read.
-/

namespace Lib.Exchange

variable {ρ α : Type}

/-- What client and server do with questions and answers. -/
inductive Event (ρ α : Type)
  | ask (q : ρ)
  | take (q : ρ)
  | answer (a : α)
  | read (a : α)

/-- How far the round under way has come. -/
inductive Round (ρ α : Type)
  | rest
  | asked (q : ρ)
  | taken (q : ρ)
  | answered (q : ρ) (a : α)

/-- The events of a whole round. -/
def whole (p : ρ × α) : List (Event ρ α) := [.ask p.1, .take p.1, .answer p.2, .read p.2]

namespace Round

/-- The events of the round under way. -/
def events : Round ρ α → List (Event ρ α)
  | .rest => []
  | .asked q => [.ask q]
  | .taken q => [.ask q, .take q]
  | .answered q a => [.ask q, .take q, .answer a]

/-- Whole rounds, and then this one. -/
def Ends (es : List (Event ρ α)) (r : Round ρ α) : Prop :=
  ∃ done : List (ρ × α), es = done.flatMap whole ++ r.events

theorem ends_nil : Ends ([] : List (Event ρ α)) .rest := ⟨[], rfl⟩

variable {es : List (Event ρ α)}

theorem Ends.ask (h : Ends es .rest) (q : ρ) : Ends (es ++ [.ask q]) (.asked q) := by
  obtain ⟨done, rfl⟩ := h
  exact ⟨done, by simp [events]⟩

theorem Ends.take {q : ρ} (h : Ends es (.asked q)) : Ends (es ++ [.take q]) (.taken q) := by
  obtain ⟨done, rfl⟩ := h
  exact ⟨done, by simp [events]⟩

theorem Ends.answer {q : ρ} (h : Ends es (.taken q)) (a : α) :
    Ends (es ++ [.answer a]) (.answered q a) := by
  obtain ⟨done, rfl⟩ := h
  exact ⟨done, by simp [events]⟩

theorem Ends.read {q : ρ} {a : α} (h : Ends es (.answered q a)) : Ends (es ++ [.read a]) .rest := by
  obtain ⟨done, rfl⟩ := h
  exact ⟨done ++ [(q, a)], by simp [events, whole]⟩

/-- Every question has been taken, and every answer read. -/
def Over : Round ρ α → Prop
  | .rest => True
  | .taken _ => True
  | .asked _ => False
  | .answered _ _ => False

end Round

/-- The question of an event. -/
def Event.asks : Event ρ α → List ρ
  | .ask q => [q]
  | .take _ => []
  | .answer _ => []
  | .read _ => []

/-- Exactly once and in order, and with the answer to the question. -/
structure ExactlyOnce {σ ℓ : Type} (T : TSys σ ℓ) (events : List (σ × ℓ) → List (Event ρ α)) :
    Prop where
  rounds : ∀ s tr s', T.init s → T.Run s tr s' → ∃ r, Round.Ends (events tr) r
  finishes : ∀ s tr s', T.init s → T.Run s tr s' → ∃ tr' s'', T.Run s' tr' s'' ∧
    (events tr').flatMap Event.asks = [] ∧ ∃ r, Round.Ends (events (tr ++ tr')) r ∧ r.Over

end Lib.Exchange
