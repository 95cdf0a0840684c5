import Pipework.Proofs.Graph.Reading

/-! Reading a graph ends whichever nodes the flows of its splits are taken to meet at. The choice can be
another one each time, also for the same split; what is read next hangs on it. -/

namespace Pipework.Graph

variable {g : Graph} {meets : List Nat → Option Nat → Prop} {r r' : Reading} {id : Nat} {n : Node}
  {stop : Option Nat} {entries : List Nat}

section

variable (g : Graph) (meets : List Nat → Option Nat → Prop)

mutual

/-- Reading the flow from `entries` on comes to an end. At a split there is a join to take, and reading
ends with each that can be taken. -/
inductive FlowEnds : Reading → List Nat → Option Nat → Prop where
  | nil {r : Reading} {stop : Option Nat} : FlowEnds r [] stop
  | halt {r : Reading} {stop : Option Nat} {id : Nat} (h : Halts g r stop id) : FlowEnds r [id] stop
  | app {r : Reading} {stop : Option Nat} {id : Nat} {n : Node} (h : Fresh g r stop id n)
      (hs : n.isSync = false) (hf : FlowEnds (r.withApp g n) (g.successors id) stop) :
      FlowEnds r [id] stop
  | pass {r : Reading} {stop : Option Nat} {id : Nat} {n : Node} (h : Fresh g r stop id n)
      (hs : n.isSync = true) (hl : ¬ 1 < (g.successors id).length)
      (hf : FlowEnds (r.visit id) (g.successors id) stop) : FlowEnds r [id] stop
  | fork {r : Reading} {stop : Option Nat} {id : Nat} {n : Node} (h : Fresh g r stop id n)
      (hs : n.isSync = true) (hl : 1 < (g.successors id).length)
      (hj : ∃ join, meets (g.successors id) join)
      (hb : ∀ join, meets (g.successors id) join → BranchesEnd (r.visit id) (g.successors id) join)
      (hf : ∀ join bs r₁, meets (g.successors id) join →
        ReadsBranches g meets (r.visit id) (g.successors id) join bs r₁ →
          FlowEnds r₁ join.toList stop) : FlowEnds r [id] stop
  | split {r : Reading} {stop : Option Nat} {entries : List Nat} (hl : 1 < entries.length)
      (hj : ∃ join, meets entries join) (hb : ∀ join, meets entries join → BranchesEnd r entries join)
      (hf : ∀ join bs r₁, meets entries join → ReadsBranches g meets r entries join bs r₁ →
        FlowEnds r₁ join.toList stop) : FlowEnds r entries stop

/-- Reading one branch from each entry comes to an end. -/
inductive BranchesEnd : Reading → List Nat → Option Nat → Prop where
  | nil {r : Reading} {join : Option Nat} : BranchesEnd r [] join
  | cons {r : Reading} {join : Option Nat} {entry : Nat} {entries : List Nat}
      (hf : FlowEnds r [entry] join)
      (hb : ∀ es r₁, ReadsFlow g meets r [entry] join es r₁ → BranchesEnd r₁ entries join) :
      BranchesEnd r (entry :: entries) join

end

inductive HeadsEnd : Reading → Nat → Prop where
  | done {r : Reading} {index : Nat} (h : r.heads[index]? = none) : HeadsEnd r index
  | next {r : Reading} {index head : Nat} (h : r.heads[index]? = some head)
      (hf : FlowEnds g meets r [head] none)
      (hr : ∀ es r₁, ReadsFlow g meets r [head] none es r₁ → HeadsEnd r₁ (index + 1)) :
      HeadsEnd r index

/-- Reading the graph ends, first the flow from the start and then the sequences of the heads. -/
structure GraphEnds (start : Node) : Prop where
  flow : FlowEnds g meets {} (g.successors start.id) none
  heads : ∀ es r, ReadsFlow g meets {} (g.successors start.id) none es r → HeadsEnd g meets r 0

end

theorem halts_or_fresh (g : Graph) (r : Reading) (stop : Option Nat) (id : Nat) :
    Halts g r stop id ∨ ∃ n, Fresh g r stop id n := by
  by_cases hs : some id = stop
  · exact .inl (.inl hs)
  · cases hn : g.node? id with
    | none => exact .inl (.inr fun n h => absurd (hn.symm.trans h) nofun)
    | some n =>
      by_cases hend : n.name = endName ∨ id ∈ r.visited
      · exact .inl (.inr fun m hm => Option.some.inj (hn.symm.trans hm) ▸ hend)
      · rw [not_or] at hend
        exact .inr ⟨n, hs, hn, hend.1, hend.2⟩

theorem branchesEnd_of_flows {bound : Nat}
    (ih : ∀ {r entries stop}, fuelFor g r entries ≤ bound → FlowEnds g meets r entries stop)
    {join : Option Nat} (hb : 2 * unread g r + 1 ≤ bound) : BranchesEnd g meets r entries join := by
  induction entries generalizing r with
  | nil => exact .nil
  | cons entry entries ih' =>
    refine .cons (ih (by simpa [fuelFor] using hb)) fun es r₁ he => ih' ?_
    have := unread_le (g := g) he.visited
    omega

/-- The nodes that are not read bound what can still be read, whatever the joins are. -/
theorem flowEnds (hm : ∀ entries, entries ≠ [] → ∃ join, meets entries join) {bound : Nat} :
    ∀ {r : Reading} {entries : List Nat} {stop : Option Nat}, fuelFor g r entries ≤ bound →
      FlowEnds g meets r entries stop := by
  induction bound with
  | zero =>
    intro r entries stop hb
    obtain rfl : entries = [] := List.length_eq_zero_iff.mp (by unfold fuelFor at hb; omega)
    exact .nil
  | succ bound ih =>
    intro r entries stop hb
    rcases entries with _ | ⟨id, _ | ⟨other, entries⟩⟩
    · exact .nil
    · have hb : 2 * unread g r + 1 ≤ bound + 1 := by simpa [fuelFor] using hb
      obtain hh | ⟨n, hn⟩ := halts_or_fresh g r stop id
      · exact .halt hh
      · have hlt := fun (s : Reading) (hs : s.visited = id :: r.visited) => hn.unread_lt hs
        cases hs : n.isSync with
        | false =>
          have := hlt (r.withApp g n) (by rw [Reading.withApp, (node?_eq_some hn.node).2])
          exact .app hn hs (ih (Nat.le_trans (fuelFor_le ..) (by omega)))
        | true =>
          have := hlt (r.visit id) rfl
          by_cases hl : 1 < (g.successors id).length
          · have hne := List.ne_nil_of_length_pos (Nat.lt_of_succ_lt hl)
            refine .fork hn hs hl (hm _ hne) (fun join _ => branchesEnd_of_flows ih (by omega))
              fun join bs r₁ _ hbs => ih (Nat.le_trans (fuelFor_join ..) ?_)
            have := unread_le (g := g) hbs.visited
            omega
          · exact .pass hn hs hl (ih (Nat.le_trans (fuelFor_le ..) (by omega)))
    · have hb : 2 * unread g r + 2 ≤ bound + 1 := by simpa [fuelFor] using hb
      refine .split (by simp) (hm _ (by simp)) (fun join _ => branchesEnd_of_flows ih (by omega))
        fun join bs r₁ _ hbs => ih (Nat.le_trans (fuelFor_join ..) ?_)
      have := unread_le (g := g) hbs.visited
      omega

/-- Each node becomes a head once at most, so the nodes bound the sequences. -/
theorem headsEnd (hm : ∀ entries, entries ≠ [] → ∃ join, meets entries join) {index : Nat}
    (hr : r.Heads g) : HeadsEnd g meets r index := by
  induction hk : g.nodes.length - index generalizing r index with
  | zero => exact .done (List.getElem?_eq_none (Nat.le_trans hr.length_le (by omega)))
  | succ k ih =>
    cases hi : r.heads[index]? with
    | none => exact .done hi
    | some head =>
      exact .next hi (flowEnds hm (Nat.le_refl _)) fun es r₁ hf => ih (hf.keeps (kept_heads g) hr) (by omega)

/-- Reading a graph ends, if there is always a join to take. -/
theorem graphEnds (hm : ∀ entries, entries ≠ [] → ∃ join, meets entries join) (start : Node) :
    GraphEnds g meets start where
  flow := flowEnds hm (Nat.le_refl _)
  heads _ _ hf := headsEnd hm (hf.keeps (kept_heads g) (heads_empty g))

end Pipework.Graph
