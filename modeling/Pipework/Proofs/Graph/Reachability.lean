import Mathlib
import Pipework.Graph.Basic

/-! The search along plain links finds all that they lead to, and where flows meet is where they
are said to join. -/

namespace Pipework.Graph

open Relation

variable {g : Graph} {a b : Nat}

def Leads (g : Graph) (a b : Nat) : Prop := b ∈ g.successors a

theorem leads_iff : g.Leads a b ↔
    ∃ l ∈ g.links, l.source = a ∧ l.target = b ∧ l.isTransition = false := by
  simp [Leads, successors, and_left_comm, and_comm]

theorem mem_predecessors : a ∈ g.predecessors b ↔ g.Leads a b := by
  rw [leads_iff]
  simp [predecessors, and_left_comm, and_comm]

/-! ## Search -/

/-- What is found stays within any set that no link leaves. -/
theorem explore_within {P : Nat → Prop} (hP : ∀ {a b}, P a → g.Leads a b → P b) {fuel : Nat}
    {pending seen : List Nat} (hp : ∀ a ∈ pending, P a) (hs : ∀ a ∈ seen, P a) :
    ∀ a ∈ explore g fuel pending seen, P a := by
  induction fuel generalizing pending seen with
  | zero => exact hs
  | succ fuel ih =>
    cases pending with
    | nil => exact hs
    | cons id pending =>
      obtain ⟨hid, hp⟩ := List.forall_mem_cons.mp hp
      rw [explore]
      split
      · exact ih hp hs
      · refine ih (fun a ha => ?_) (List.forall_mem_cons.mpr ⟨hid, hs⟩)
        obtain ha | ha := List.mem_append.mp ha
        · exact hp a ha
        · exact hP hid ha

/-- The plain links from nodes that are not seen. -/
def unexplored (g : Graph) (seen : List Nat) : Nat :=
  g.links.countP fun l => l.source ∉ seen && !l.isTransition

theorem unexplored_cons {seen : List Nat} (h : a ∉ seen) :
    g.unexplored seen = (g.successors a).length + g.unexplored (a :: seen) := by
  rw [unexplored, unexplored, successors, List.length_map, ← List.countP_eq_length_filter]
  induction g.links with
  | nil => rfl
  | cons l ls ih =>
    rw [List.countP_cons, List.countP_cons, List.countP_cons, ih]
    by_cases hl : l.source = a <;> cases l.isTransition <;> simp [hl, h] <;> omega

/-- With fuel for all pending nodes and all links, the search ends in a set that no link leaves. -/
theorem explore_closed (fuel : Nat) (pending seen : List Nat)
    (hf : pending.length + g.unexplored seen ≤ fuel)
    (hs : ∀ a ∈ seen, ∀ b, g.Leads a b → b ∈ seen ++ pending) :
    (∀ a ∈ seen ++ pending, a ∈ explore g fuel pending seen) ∧
      ∀ a ∈ explore g fuel pending seen, ∀ b, g.Leads a b → b ∈ explore g fuel pending seen := by
  induction fuel generalizing pending seen with
  | zero =>
    obtain rfl : pending = [] := List.length_eq_zero_iff.mp (by omega)
    simpa [explore] using hs
  | succ fuel ih =>
    cases pending with
    | nil => simpa [explore] using hs
    | cons id pending =>
      rw [List.length_cons] at hf
      rw [explore]
      split
      · next hid =>
        have hkeep : ∀ b ∈ seen ++ id :: pending, b ∈ seen ++ pending := fun b hb => by
          obtain rfl | hb := List.mem_cons.mp (List.perm_middle.mem_iff.mp hb)
          · exact List.mem_append_left _ hid
          · exact hb
        obtain ⟨hsub, hclosed⟩ := ih pending seen (by omega) fun a ha b hb => hkeep b (hs a ha b hb)
        exact ⟨fun a ha => hsub a (hkeep a ha), hclosed⟩
      · next hid =>
        have hu := unexplored_cons (g := g) hid
        have hkeep : ∀ b ∈ seen ++ id :: pending,
            b ∈ (id :: seen) ++ (pending ++ g.successors id) := fun b hb => by
          rw [List.cons_append, ← List.append_assoc]
          exact List.mem_append_left _ (List.perm_middle.mem_iff.mp hb)
        obtain ⟨hsub, hclosed⟩ := ih (pending ++ g.successors id) (id :: seen)
          (by rw [List.length_append]; omega) fun a ha b hb => by
            obtain rfl | ha := List.mem_cons.mp ha
            · exact List.mem_append_right _ (List.mem_append_right _ hb)
            · exact hkeep b (hs a ha b hb)
        exact ⟨fun a ha => hsub a (hkeep a ha), hclosed⟩

theorem mem_reachable : b ∈ g.reachable a ↔ TransGen g.Leads a b := by
  constructor
  · exact explore_within (P := TransGen g.Leads a) TransGen.tail (fun _ h => .single h) (by simp) b
  · intro h
    have hlinks : (g.successors a).length ≤ g.links.length := by
      rw [successors, List.length_map]
      exact List.length_filter_le ..
    have hunseen : g.unexplored [] ≤ g.links.length := List.countP_le_length
    obtain ⟨hsub, hclosed⟩ := explore_closed (g := g) (2 * g.links.length + 1)
      (g.successors a) [] (by omega) (by simp)
    induction h with
    | single h => exact hsub _ h
    | tail _ h ih => exact hclosed _ ih _ h

/-! ## Joins -/

/-- Flows join at the node that all of them reach, if whatever else they all reach comes after it and
does not lead back. -/
theorem joinOf_eq_some {entries : List Nat} {next : Nat} (hne : entries ≠ [])
    (hall : ∀ e ∈ entries, TransGen g.Leads e next)
    (honly : ∀ c, (∀ e ∈ entries, TransGen g.Leads e c) → c = next ∨ TransGen g.Leads next c)
    (hback : ∀ c, TransGen g.Leads next c → ¬ TransGen g.Leads c next) :
    g.joinOf entries = some next := by
  obtain ⟨e, es, rfl⟩ := List.exists_cons_of_ne_nil hne
  simp only [joinOf, List.map_cons]
  have hcommon : ∀ c, c ∈ (g.reachable e).filter
      (fun id => (es.map g.reachable).all fun r => r.contains id) ↔
        ∀ x ∈ e :: es, TransGen g.Leads x c := by
    simp [mem_reachable]
  generalize (g.reachable e).filter _ = common at hcommon
  have hnext : next ∈ common := (hcommon next).mpr hall
  cases hfind : common.find? _ with
  | none =>
    refine absurd ?_ (List.find?_eq_none.mp hfind next hnext)
    simp only [List.all_eq_true, Bool.or_eq_true, beq_iff_eq, List.contains_iff_mem, mem_reachable]
    exact fun c hc => honly c ((hcommon c).mp hc)
  | some c =>
    obtain hc | hc := honly c ((hcommon c).mp (List.mem_of_find?_eq_some hfind))
    · rw [hc]
    · have h := List.find?_some hfind
      simp only [List.all_eq_true, Bool.or_eq_true, beq_iff_eq, List.contains_iff_mem,
        mem_reachable] at h
      obtain h | h := h next hnext
      · rw [h]
      · exact absurd h (hback c hc)

end Pipework.Graph
