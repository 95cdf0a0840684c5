import Mathlib

/-! Runs of programs with a state. A program is taken apart with the lemmas on `Runs`, so that each
state on its way has a name. -/

namespace Pipework.Graph

variable {σ α β : Type} {s t : σ}

/-- From `s` the program gives `a` and leaves `t`. -/
def Runs (x : StateM σ α) (s : σ) (a : α) (t : σ) : Prop := x.run s = (a, t)

theorem runs_run (x : StateM σ α) (s : σ) : Runs x s (x.run s).1 (x.run s).2 := rfl

theorem Runs.unique {x : StateM σ α} {a b : α} {u : σ} (h : Runs x s a t) (h' : Runs x s b u) :
    a = b ∧ t = u := Prod.mk.inj (h.symm.trans h')

@[simp] theorem runs_pure {a b : α} : Runs (pure a) s b t ↔ b = a ∧ t = s :=
  eq_comm.trans Prod.ext_iff

@[simp] theorem runs_bind {x : StateM σ α} {f : α → StateM σ β} {b : β} :
    Runs (x >>= f) s b t ↔ ∃ a u, Runs x s a u ∧ Runs (f a) u b t := by
  constructor
  · exact fun h => ⟨(x.run s).1, (x.run s).2, rfl, h⟩
  · rintro ⟨a, u, h, h'⟩
    rw [Runs, StateT.run_bind, h]
    exact h'

@[simp] theorem runs_map {x : StateM σ α} {f : α → β} {b : β} :
    Runs (f <$> x) s b t ↔ ∃ a, Runs x s a t ∧ b = f a := by
  rw [map_eq_pure_bind, runs_bind]
  simp only [runs_pure]
  grind

@[simp] theorem runs_get {a : σ} : Runs get s a t ↔ a = s ∧ t = s :=
  eq_comm.trans Prod.ext_iff

@[simp] theorem runs_modify {f : σ → σ} {u : PUnit} : Runs (modify f) s u t ↔ t = f s :=
  eq_comm.trans (Prod.ext_iff.trans (and_iff_right rfl))

@[simp] theorem runs_mapM_nil {f : α → StateM σ β} {bs : List β} :
    Runs ([].mapM f) s bs t ↔ bs = [] ∧ t = s := by
  simp

@[simp] theorem runs_mapM_cons {f : α → StateM σ β} {a : α} {as : List α} {bs : List β} :
    Runs ((a :: as).mapM f) s bs t ↔
      ∃ c cs u, Runs (f a) s c u ∧ Runs (as.mapM f) u cs t ∧ bs = c :: cs := by
  simp only [List.mapM_cons, runs_bind, runs_pure]
  grind

end Pipework.Graph
