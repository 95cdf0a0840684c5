import Pipework.Proofs.Parser.Refuses

/-! What parsers carry along the tokens. A property of cursors is kept from one part of a parser to
the next, and every fault that ends one has a property of faults: one rule for each way of building
a parser, whatever the two properties are. -/

namespace Pipework.Parser

open Token

variable {α β : Type} {I : Cursor → Prop} {F : Fault → Prop} {P : α → Prop} {Q : β → Prop}

/-- On a cursor in `I`, the parser moves to another with a result in `P`, or gives a fault in `F`. -/
def Carries (I : Cursor → Prop) (F : Fault → Prop) (p : Parser α) (P : α → Prop) : Prop :=
  ∀ c, I c → match p c with
    | .ok (a, d) => I d ∧ P a
    | .error f => F f

/-- A parser that cannot have a result gives a fault. -/
theorem Carries.exists_refuses {p : Parser α} {c : Cursor} (h : Carries I F p fun _ => False)
    (hc : I c) : ∃ f, Refuses p c f ∧ F f := by
  have hrun := h c hc
  unfold Refuses
  cases hp : p c with
  | error f =>
    rw [hp] at hrun
    exact ⟨f, rfl, hrun⟩
  | ok r =>
    rw [hp] at hrun
    exact hrun.2.elim

/-! ## Composing -/

theorem carries_pure {a : α} (h : P a) : Carries I F (pure a) P := fun _ hc => ⟨hc, h⟩

theorem Carries.bind {p : Parser α} {k : α → Parser β} (hp : Carries I F p P)
    (hk : ∀ a, P a → Carries I F (k a) Q) : Carries I F (p >>= k) Q := by
  intro c hc
  have hrun := hp c hc
  simp only [Bind.bind, StateT.bind, Except.bind]
  cases h : p c with
  | error f =>
    rw [h] at hrun
    exact hrun
  | ok r =>
    rw [h] at hrun
    exact hk r.1 hrun.2 r.2 hrun.1

theorem Carries.imp {p : Parser α} {P' : α → Prop} (hp : Carries I F p P) (h : ∀ a, P a → P' a) :
    Carries I F p P' := by
  intro c hc
  have hrun := hp c hc
  cases hp : p c with
  | error f =>
    rw [hp] at hrun
    exact hrun
  | ok r =>
    rw [hp] at hrun
    exact ⟨hrun.1, h r.1 hrun.2⟩

theorem Carries.ite {C : Prop} [Decidable C] {p q : Parser α} (hp : Carries I F p P)
    (hq : Carries I F q P) : Carries I F (if C then p else q) P := by
  split
  · exact hp
  · exact hq

/-- The parser may refuse the text before it goes on. -/
theorem Carries.guard {C : Prop} [Decidable C] {p : Parser Unit} {k : Unit → Parser β}
    (hp : Carries I F p fun _ => True) (hk : Carries I F (k ()) Q) :
    Carries I F (if C then p >>= k else k ()) Q := .ite (hp.bind fun _ _ => hk) hk

/-! ## Looking -/

theorem carries_get : Carries I F get I := fun _ hc => ⟨hc, hc⟩

theorem carries_look (look : Cursor → α) (h : ∀ c : Cursor, I c → P (look c)) :
    Carries I F (do return look (← get)) P := carries_get.bind fun c hc => carries_pure (h c hc)

theorem carries_peekKind : Carries I F peekKind fun _ => True := carries_look _ fun _ _ => trivial

theorem carries_secondKind : Carries I F secondKind fun _ => True :=
  carries_look (fun c => (c.peekAt 1).map Token.kind) fun _ _ => trivial

theorem carries_adjacent : Carries I F adjacent fun _ => True := carries_look _ fun _ _ => trivial

theorem carries_hasNext : Carries I F hasNext fun _ => True := carries_look _ fun _ _ => trivial

/-! ## Repeating -/

theorem carries_manyWithin {step : Parser (Option α)}
    (h : Carries I F step fun a? => ∀ a, a? = some a → P a) (fuel : Nat) :
    Carries I F (manyWithin step fuel) fun as => ∀ a ∈ as, P a := by
  induction fuel with
  | zero => exact carries_pure nofun
  | succ fuel ih =>
    refine h.bind fun a? ha => ?_
    cases a? with
    | none => exact carries_pure nofun
    | some a => exact ih.bind fun as has => carries_pure (List.forall_mem_cons.mpr ⟨ha a rfl, has⟩)

theorem carries_many {step : Parser (Option α)}
    (h : Carries I F step fun a? => ∀ a, a? = some a → P a) :
    Carries I F (many step) fun as => ∀ a ∈ as, P a :=
  carries_get.bind fun _ _ => carries_manyWithin h _

/-- Nothing is asked of the items. -/
theorem carries_many_any {step : Parser (Option α)} (h : Carries I F step fun _ => True) :
    Carries I F (many step) fun _ => True :=
  (carries_many (P := fun _ => True) (h.imp fun _ _ _ _ => trivial)).imp fun _ _ => trivial

end Pipework.Parser
