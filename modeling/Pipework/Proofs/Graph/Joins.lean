import Pipework.Proofs.Graph.Reachability

/-! Which node is taken for the join of a split. All nodes that can be taken lie on one cycle of plain
links; if it has only one node, it does not matter in which order the nodes are looked at. -/

namespace Pipework.Graph

open Relation

variable {g : Graph} {entries order : List Nat} {n m : Nat} {i j : Option Nat}

/-! ## Nodes that can be the join -/

/-- Plain links lead to the node from every entry. -/
def IsCommon (g : Graph) (entries : List Nat) (n : Nat) : Prop := ∀ e ∈ entries, TransGen g.Leads e n

/-- A common node from which plain links lead to all others. -/
structure CanJoin (g : Graph) (entries : List Nat) (n : Nat) : Prop where
  common : g.IsCommon entries n
  onward : ∀ m, g.IsCommon entries m → m = n ∨ TransGen g.Leads n m

theorem IsCommon.onward (h : g.IsCommon entries n) (hl : TransGen g.Leads n m) :
    g.IsCommon entries m := fun e he => (h e he).trans hl

/-- With one node that can be the join, it is the nodes on cycles through it that can. -/
theorem CanJoin.iff_cycle (h : g.CanJoin entries n) : g.CanJoin entries m ↔
    m = n ∨ TransGen g.Leads n m ∧ TransGen g.Leads m n := by
  constructor
  · intro hm
    refine or_iff_not_imp_left.mpr fun hne => ⟨?_, ?_⟩
    · exact (h.onward m hm.common).resolve_left hne
    · exact (hm.onward n h.common).resolve_left fun he => hne he.symm
  · rintro (rfl | ⟨hnm, hmn⟩)
    · exact h
    · refine ⟨h.common.onward hnm, fun c hc => .inr ?_⟩
      obtain rfl | hc := h.onward c hc
      · exact hmn
      · exact hmn.trans hc

/-! ## Searching in an order -/

/-- The first of some nodes from which all others can be reached. -/
def firstJoin (g : Graph) (order : List Nat) : Option Nat :=
  order.find? fun candidate =>
    order.all fun other => other == candidate || (g.reachable candidate).contains other

/-- The join that is found when the common nodes are looked at in some order. -/
def MayJoin (g : Graph) (entries : List Nat) (join : Option Nat) : Prop :=
  ∃ order : List Nat, (∀ n, n ∈ order ↔ g.IsCommon entries n) ∧ g.firstJoin order = join

theorem all_onward_iff (ho : ∀ n, n ∈ order ↔ g.IsCommon entries n) (hn : n ∈ order) :
    (order.all fun other => other == n || (g.reachable n).contains other) = true ↔
      g.CanJoin entries n := by
  simp only [List.all_eq_true, Bool.or_eq_true, beq_iff_eq, List.contains_iff_mem, mem_reachable, ho]
  exact ⟨fun h => ⟨(ho n).mp hn, h⟩, fun h => h.onward⟩

theorem canJoin_of_firstJoin (ho : ∀ n, n ∈ order ↔ g.IsCommon entries n)
    (h : g.firstJoin order = some n) : g.CanJoin entries n :=
  (all_onward_iff ho (List.mem_of_find?_eq_some h)).mp (List.find?_eq_some_iff_append.mp h).1

theorem not_canJoin_of_firstJoin (ho : ∀ n, n ∈ order ↔ g.IsCommon entries n)
    (h : g.firstJoin order = none) : ¬ g.CanJoin entries n := fun hn => by
  have hmem := (ho n).mpr hn.common
  exact List.find?_eq_none.mp h n hmem ((all_onward_iff ho hmem).mpr hn)

/-- The reader looks at the common nodes in an order of its own. -/
theorem exists_order (hne : entries ≠ []) : ∃ order : List Nat,
    (∀ n, n ∈ order ↔ g.IsCommon entries n) ∧ g.joinOf entries = g.firstJoin order := by
  obtain ⟨e, es, rfl⟩ := List.exists_cons_of_ne_nil hne
  refine ⟨(g.reachable e).filter fun id => (es.map g.reachable).all fun r => r.contains id, ?_, rfl⟩
  simp [IsCommon, mem_reachable]

theorem mayJoin_joinOf (hne : entries ≠ []) : g.MayJoin entries (g.joinOf entries) := by
  obtain ⟨order, ho, h⟩ := exists_order (g := g) hne
  exact ⟨order, ho, h.symm⟩

/-- No order lists all numbers, and without entries all of them are common. -/
theorem MayJoin.ne_nil (h : g.MayJoin entries i) : entries ≠ [] := by
  rintro rfl
  obtain ⟨order, ho, -⟩ := h
  obtain ⟨x, hx⟩ := Infinite.exists_notMem_finset order.toFinset
  exact hx (List.mem_toFinset.mpr ((ho x).mpr (by simp [IsCommon])))

theorem mayJoin_some_iff (hne : entries ≠ []) :
    g.MayJoin entries (some n) ↔ g.CanJoin entries n := by
  constructor
  · rintro ⟨order, ho, h⟩
    exact canJoin_of_firstJoin ho h
  · intro h
    obtain ⟨order, ho, -⟩ := exists_order (g := g) hne
    have ho' : ∀ m, m ∈ n :: order ↔ g.IsCommon entries m := fun m => by
      rw [List.mem_cons, ho, or_iff_right_of_imp]
      rintro rfl
      exact h.common
    exact ⟨n :: order, ho', List.find?_cons_of_pos ((all_onward_iff ho' (by simp)).mpr h)⟩

theorem mayJoin_none_iff (hne : entries ≠ []) :
    g.MayJoin entries none ↔ ∀ n, ¬ g.CanJoin entries n := by
  constructor
  · rintro ⟨order, ho, h⟩ n
    exact not_canJoin_of_firstJoin ho h
  · intro h
    have hj := mayJoin_joinOf (g := g) hne
    cases hjoin : g.joinOf entries with
    | none => rwa [hjoin] at hj
    | some n =>
      rw [hjoin] at hj
      exact absurd ((mayJoin_some_iff hne).mp hj) (h n)

/-- All orders lead to one join exactly if no other node lies on a cycle with it. -/
theorem mayJoin_unique_iff (hne : entries ≠ []) :
    (∀ i j, g.MayJoin entries i → g.MayJoin entries j → i = j) ↔
      ∀ n m, g.CanJoin entries n → TransGen g.Leads n m → TransGen g.Leads m n → m = n := by
  constructor
  · intro h n m hn hnm hmn
    have hm := hn.iff_cycle.mpr (.inr ⟨hnm, hmn⟩)
    exact Option.some.inj (h _ _ ((mayJoin_some_iff hne).mpr hm) ((mayJoin_some_iff hne).mpr hn))
  · intro h i j hi hj
    cases i with
    | none =>
      cases j with
      | none => rfl
      | some m =>
        exact absurd ((mayJoin_some_iff hne).mp hj) ((mayJoin_none_iff hne).mp hi m)
    | some n =>
      have hn := (mayJoin_some_iff hne).mp hi
      cases j with
      | none => exact absurd hn ((mayJoin_none_iff hne).mp hj n)
      | some m =>
        obtain rfl | ⟨hnm, hmn⟩ := hn.iff_cycle.mp ((mayJoin_some_iff hne).mp hj)
        · rfl
        · rw [h n m hn hnm hmn]

end Pipework.Graph
