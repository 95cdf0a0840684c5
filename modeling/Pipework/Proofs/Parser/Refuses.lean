import Pipework.Proofs.Parser.Repetition

/-! Runs of parsers that end in a fault: parts that are read, and then one that is refused. -/

namespace Pipework

/-- The fault of an outcome, if it is one. -/
def faultOf {α : Type} : Except Fault α → Option Fault
  | .ok _ => none
  | .error f => some f

theorem faultOf_eq_some {α : Type} {x : Except Fault α} {f : Fault} :
    faultOf x = some f ↔ x = .error f := by
  cases x <;> simp [faultOf]

namespace Parser

open Token

variable {α β : Type} {c d : Cursor} {f : Fault}

/-- From `c` the parser gives the fault. -/
def Refuses (p : Parser α) (c : Cursor) (f : Fault) : Prop := p c = .error f

theorem refuses_bind {p : Parser α} {k : α → Parser β} : Refuses (p >>= k) c f ↔
    Refuses p c f ∨ ∃ a d, Reads p c a d ∧ Refuses (k a) d f := by
  simp only [Refuses, Reads, bind, StateT.bind, Except.bind]
  cases p c with
  | error e => simp
  | ok r =>
    obtain ⟨a, d⟩ := r
    constructor
    · exact fun h => .inr ⟨a, d, rfl, h⟩
    · rintro (h | ⟨a', d', hd, h⟩)
      · cases h
      · obtain ⟨rfl, rfl⟩ := Prod.mk.inj (Except.ok.inj hd)
        exact h

/-- A parser is refused with its first part. -/
theorem Refuses.bind {p : Parser α} {k : α → Parser β} (h : Refuses p c f) :
    Refuses (p >>= k) c f := refuses_bind.mpr (.inl h)

/-- A parser is refused where a part is refused after those that are read. -/
theorem Reads.refuses {p : Parser α} {k : α → Parser β} {a : α} (h : Reads p c a d)
    (hk : Refuses (k a) d f) : Refuses (p >>= k) c f := refuses_bind.mpr (.inr ⟨a, d, h, hk⟩)

theorem Reads.exists_refuses {p : Parser α} {k : α → Parser β} {P : Fault → Prop} {a : α}
    (h : Reads p c a d) (hk : ∃ f, Refuses (k a) d f ∧ P f) : ∃ f, Refuses (p >>= k) c f ∧ P f := by
  obtain ⟨f, hf, hP⟩ := hk
  exact ⟨f, h.refuses hf, hP⟩

/-- A repetition is refused where a step is refused after items that are read. -/
theorem many_refuses {step : Parser (Option α)} {P : Fault → Prop} {Item : List Sight → α → Prop}
    {Follow : List View → Prop} {rest : List Sight} (hstep : Repeats step Item Follow)
    (hr : Follow (rest.map Sight.toView)) (hne : rest ≠ [])
    (refused : ∀ {c}, c.sights = rest → ∃ f, Refuses step c f ∧ P f) {vs : List Sight} {as : List α}
    (h : Many Item vs as) (hc : c.sights = vs ++ rest) : ∃ f, Refuses (many step) c f ∧ P f := by
  obtain ⟨e, n, hp, hgo⟩ := many_after hstep hr hne h hc
  obtain ⟨f, hf, hP⟩ := refused (hp.left hc)
  have hmany : Refuses ((as ++ ·) <$> manyWithin step (n + 1)) e f := by
    rw [map_eq_pure_bind]
    exact hf.bind.bind
  exact ⟨f, hgo.trans hmany, hP⟩

/-! ## What is found before the end -/

/-- What a repetition finds before it ends, be it with a fault. -/
def foundWithin (step : Parser (Option α)) : Nat → Cursor → List α
  | 0, _ => []
  | fuel + 1, c =>
    match step c with
    | .ok (some a, d) => a :: foundWithin step fuel d
    | _ => []

section

variable {step : Parser (Option α)} {a : α} {as : List α} {fuel : Nat}

theorem foundWithin_cons (h : Reads step c (some a) d) :
    foundWithin step (fuel + 1) c = a :: foundWithin step fuel d := by
  rw [foundWithin, show step c = .ok (some a, d) from h]

theorem foundWithin_refused (h : Refuses step c f) : foundWithin step fuel c = [] := by
  cases fuel with
  | zero => rfl
  | succ fuel => rw [foundWithin, show step c = .error f from h]

/-- A repetition that is refused has found items up to where a step is refused. -/
theorem found_of_refuses (Item : List Sight → α → Prop) (I : Cursor → Prop)
    (found : ∀ {c a d}, Reads step c (some a) d → (∃ vs, c.Passes vs d ∧ Item vs a) ∧ I d)
    (hc : I c) (h : Refuses (manyWithin step fuel) c f) : ∃ vs d, c.Passes vs d ∧
      Many Item vs (foundWithin step fuel c) ∧ I d ∧ Refuses step d f := by
  induction fuel generalizing c with
  | zero => cases h
  | succ fuel ih =>
    rcases refuses_bind.mp h with h | ⟨a?, e, hs, h⟩
    · rw [foundWithin_refused h]
      exact ⟨[], c, .refl c, .nil, hc, h⟩
    · cases a? with
      | none => cases h
      | some a =>
        obtain ⟨⟨us, hu, ha⟩, he⟩ := found hs
        obtain ⟨vs, d, hv, hm, hd, hf⟩ : ∃ vs d, e.Passes vs d ∧
            Many Item vs (foundWithin step fuel e) ∧ I d ∧ Refuses step d f := by
          rcases refuses_bind.mp h with h | ⟨_, _, _, h⟩
          · exact ih he h
          · cases h
        rw [foundWithin_cons hs]
        exact ⟨us ++ vs, d, hu.trans hv, .cons ha hm, hd, hf⟩

end

end Parser

end Pipework
