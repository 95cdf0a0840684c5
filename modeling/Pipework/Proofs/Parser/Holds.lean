import Pipework.Proofs.Parser.Carries

/-! Parsers that leave it open how far the text is good: the cursor says the same after them as
before, and their faults say it too. -/

namespace Pipework.Parser

open Token

variable {α β : Type} {n : Nat} {p q : Parser α} {m : Message} {inserts : List String}

/-- The text stays good up to `n`, whether the parser reads or refuses. -/
abbrev Holds (n : Nat) (p : Parser α) : Prop :=
  Carries (fun c => c.good = n) (fun f => f.checkpoint = some n) p fun _ => True

theorem Holds.refuses {c : Cursor} {f : Fault} (h : Holds c.good p) (hf : Refuses p c f) :
    f.checkpoint = some c.good := by
  have hrun := h c rfl
  rw [show p c = .error f from hf] at hrun
  exact hrun

theorem Holds.reads {c d : Cursor} {a : α} (h : Holds c.good p) (hd : Reads p c a d) :
    d.good = c.good := by
  have hrun := h c rfl
  rw [show p c = .ok (a, d) from hd] at hrun
  exact hrun.1

/-! ## Composing -/

theorem holds_pure (a : α) : Holds n (pure a) := carries_pure trivial

theorem Holds.bind {k : α → Parser β} (h : Holds n p) (hk : ∀ a, Holds n (k a)) :
    Holds n (p >>= k) := Carries.bind h fun a _ => hk a

theorem holds_many {step : Parser (Option α)} (h : Holds n step) : Holds n (many step) :=
  carries_many_any h

/-! ## Looking -/

theorem holds_get : Holds n get := carries_get.imp fun _ _ => trivial

theorem holds_peek : Holds n peek := carries_look _ fun _ _ => trivial

theorem holds_previousStop : Holds n previousStop := carries_look _ fun _ _ => trivial

/-! ## Refusing -/

theorem holds_refuse (offset : Nat) : Holds n (refuse offset m inserts : Parser α) :=
  fun _ hc => congrArg some hc

theorem holds_refuseHere : Holds n (refuseHere m inserts : Parser α) := fun _ hc => congrArg some hc

theorem unexpected_checkpoint (c : Cursor) (expected : String) :
    (c.unexpected expected).checkpoint = some c.good := by
  unfold Cursor.unexpected
  split <;> rfl

theorem holds_unexpected (expected : String) : Holds n (unexpected expected : Parser α) :=
  fun c hc => (unexpected_checkpoint c expected).trans (congrArg some hc)

theorem holds_requireAdjacent : Holds n (requireAdjacent m) :=
  carries_adjacent.bind fun _ _ => .ite (carries_pure trivial) holds_refuseHere

/-! ## Moving -/

theorem holds_next : Holds n next := fun c hc => ⟨(Cursor.next_good c).trans hc, trivial⟩

theorem holds_eat (k : Kind) : Holds n (eat k) := by
  intro c hc
  rw [eat, Cursor.eat_eq]
  by_cases hk : c.peekIs k = true
  · rw [if_pos hk]
    exact holds_next c hc
  · rw [if_neg hk]
    exact (unexpected_checkpoint c k.symbol).trans (congrArg some hc)

theorem holds_eatIf (k : Kind) : Holds n (eatIf k) := by
  intro c hc
  simp only [eatIf, Cursor.eatIf]
  split
  · exact ⟨(Cursor.next_good c).trans hc, trivial⟩
  · exact ⟨hc, trivial⟩

end Pipework.Parser
