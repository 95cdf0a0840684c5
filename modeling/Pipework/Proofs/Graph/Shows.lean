import Pipework.Proofs.Graph.Growth
import Pipework.Proofs.Task.Validity

/-! When a graph shows a flow: its elements are in the nodes of an interval, one after the other, and
lead on to one node after the flow. -/

namespace Pipework.Graph

open Pipework.Task Relation

/-- From the nodes from `lo` up to `hi` plain links lead to `next` or stay among them. -/
def Encloses (g : Graph) (lo hi next : Nat) : Prop :=
  ∀ a b, lo ≤ a → a < hi → g.Leads a b → b = next ∨ (lo ≤ b ∧ b < hi)

section

variable (g : Graph) (P : Task.Node → Nat → Prop)

mutual

def ShowsSequence : Sequence → Nat → Nat → Nat → Prop
  | ⟨es, _, _⟩, lo, hi, next => es ≠ [] ∧ ShowsElements es lo hi next

/-- The elements are in the nodes from `lo` up to `hi`, and `next` is the node after the last. What
else is to hold of an app or split at a node is left to `P`. -/
def ShowsElements : List Element → Nat → Nat → Nat → Prop
  | [], lo, hi, _ => lo = hi
  | e :: es, lo, hi, next => ∃ mid, ShowsElement e lo mid (if es.isEmpty then next else mid) ∧
      ShowsElements es mid hi next

def ShowsElement : Element → Nat → Nat → Nat → Prop
  | .app a, lo, hi, next => lo < hi ∧ g.node? lo = some { targetKey a with id := lo } ∧
      P (.app a) lo ∧ g.successors lo = [next]
  | .split s, lo, hi, next => ShowsSplit s lo hi next

def ShowsSplit : Split → Nat → Nat → Nat → Prop
  | ⟨label, bs, start, stop⟩, lo, hi, next =>
    g.node? lo = some ⟨lo, syncName, label.map Label.name, []⟩ ∧ P (.split ⟨label, bs, start, stop⟩) lo ∧
      ShowsBranches bs (g.successors lo) (lo + 1) hi next

/-- Each branch is in the nodes after those of the one before, from its entry on. -/
def ShowsBranches : List Sequence → List Nat → Nat → Nat → Nat → Prop
  | [], entries, lo, hi, _ => entries = [] ∧ lo = hi
  | b :: bs, entries, lo, hi, next => ∃ mid rest, entries = lo :: rest ∧ Encloses g lo mid next ∧
      ShowsSequence b lo mid next ∧ ShowsBranches bs rest mid hi next

end

end

variable {g : Graph} {P Q : Task.Node → Nat → Prop}

theorem ShowsSequence.elements {s : Sequence} {lo hi next : Nat} (h : ShowsSequence g P s lo hi next) :
    ShowsElements g P s.elements lo hi next := by
  cases s
  exact h.2

/-! ## Intervals -/

mutual

theorem ShowsSequence.lt : {s : Sequence} → {lo hi next : Nat} → ShowsSequence g P s lo hi next →
    lo < hi
  | ⟨[], _, _⟩, _, _, _, ⟨hne, _⟩ => absurd rfl hne
  | ⟨_ :: _, _, _⟩, _, _, _, ⟨_, _, he, hes⟩ => Nat.lt_of_lt_of_le he.lt (ShowsElements.le hes)

theorem ShowsElements.le : {es : List Element} → {lo hi next : Nat} →
    ShowsElements g P es lo hi next → lo ≤ hi
  | [], _, _, _, h => Nat.le_of_eq h
  | _ :: _, _, _, _, ⟨_, he, hes⟩ => Nat.le_of_lt (Nat.lt_of_lt_of_le he.lt (ShowsElements.le hes))

theorem ShowsElement.lt : {e : Element} → {lo hi next : Nat} → ShowsElement g P e lo hi next →
    lo < hi
  | .app _, _, _, _, h => h.1
  | .split _, _, _, _, h => ShowsSplit.lt h

theorem ShowsSplit.lt : {s : Split} → {lo hi next : Nat} → ShowsSplit g P s lo hi next → lo < hi
  | ⟨_, _, _, _⟩, _, _, _, ⟨_, _, h⟩ => ShowsBranches.le h

theorem ShowsBranches.le : {bs : List Sequence} → {entries : List Nat} → {lo hi next : Nat} →
    ShowsBranches g P bs entries lo hi next → lo ≤ hi
  | [], _, _, _, _, h => Nat.le_of_eq h.2
  | _ :: _, _, _, _, _, ⟨_, _, _, _, hb, hbs⟩ =>
    Nat.le_of_lt (Nat.lt_of_lt_of_le hb.lt (ShowsBranches.le hbs))

end

/-! ## What is asked of apps and splits -/

mutual

theorem ShowsSequence.imp : {s : Sequence} → {lo hi next : Nat} → ShowsSequence g P s lo hi next →
    (∀ n ∈ nodesOf s.elements, ∀ id, P n id → Q n id) → ShowsSequence g Q s lo hi next
  | ⟨_, _, _⟩, _, _, _, ⟨hne, h⟩, hPQ => ⟨hne, h.imp hPQ⟩

theorem ShowsElements.imp : {es : List Element} → {lo hi next : Nat} →
    ShowsElements g P es lo hi next → (∀ n ∈ nodesOf es, ∀ id, P n id → Q n id) →
      ShowsElements g Q es lo hi next
  | [], _, _, _, h, _ => h
  | e :: es, _, _, _, ⟨mid, he, hes⟩, hPQ => by
    rw [nodesOf_cons] at hPQ
    exact ⟨mid, he.imp fun n hn => hPQ n (List.mem_append_left _ hn),
      hes.imp fun n hn => hPQ n (List.mem_append_right _ hn)⟩

theorem ShowsElement.imp : {e : Element} → {lo hi next : Nat} → ShowsElement g P e lo hi next →
    (∀ n ∈ nodesOf [e], ∀ id, P n id → Q n id) → ShowsElement g Q e lo hi next
  | .app a, _, _, _, ⟨hlt, hn, hP, hs⟩, hPQ => ⟨hlt, hn, hPQ (.app a) (by simp) _ hP, hs⟩
  | .split _, _, _, _, h, hPQ => ShowsSplit.imp h hPQ

theorem ShowsSplit.imp : {s : Split} → {lo hi next : Nat} → ShowsSplit g P s lo hi next →
    (∀ n ∈ nodesOf [.split s], ∀ id, P n id → Q n id) → ShowsSplit g Q s lo hi next
  | ⟨_, _, _, _⟩, _, _, _, ⟨hn, hP, h⟩, hPQ =>
    ⟨hn, hPQ _ (by simp) _ hP, h.imp fun n hn => hPQ n (by simp [hn])⟩

theorem ShowsBranches.imp : {bs : List Sequence} → {entries : List Nat} → {lo hi next : Nat} →
    ShowsBranches g P bs entries lo hi next →
      (∀ n ∈ nodesOfBranches bs, ∀ id, P n id → Q n id) →
        ShowsBranches g Q bs entries lo hi next
  | [], _, _, _, _, h, _ => h
  | ⟨_, _, _⟩ :: _, _, _, _, _, ⟨mid, rest, he, hin, hb, hbs⟩, hPQ =>
    ⟨mid, rest, he, hin, hb.imp fun n hn => hPQ n (by simp [hn]),
      hbs.imp fun n hn => hPQ n (by simp [hn])⟩

end

/-- An app or split of a flow. -/
def IsFlowNode : Task.Node → Prop
  | .app _ | .split _ => True
  | _ => False

/-- The node that an app or split is drawn as. -/
def flowNode (id : Nat) : Task.Node → Node
  | .app a => { targetKey a with id }
  | n => ⟨id, syncName, n.label?, []⟩

mutual

/-- Every app and split of a flow has a node of it. -/
theorem ShowsElements.at : {es : List Element} → {lo hi next : Nat} →
    ShowsElements g P es lo hi next → ∀ n ∈ nodesOf es, IsFlowNode n →
      ∃ id, P n id ∧ g.node? id = some (flowNode id n) ∧ lo ≤ id ∧ id < hi
  | [], _, _, _, _, _, hn, _ => absurd hn List.not_mem_nil
  | e :: es, lo, hi, _, ⟨mid, he, hes⟩, n, hn, hf => by
    have hlt := he.lt
    have hle := hes.le
    rw [nodesOf_cons] at hn
    rcases List.mem_append.mp hn with hn | hn
    · obtain ⟨id, hP, hnode, hlo, hhi⟩ := he.at n hn hf
      exact ⟨id, hP, hnode, hlo, by omega⟩
    · obtain ⟨id, hP, hnode, hlo, hhi⟩ := hes.at n hn hf
      exact ⟨id, hP, hnode, by omega, hhi⟩

theorem ShowsElement.at : {e : Element} → {lo hi next : Nat} → ShowsElement g P e lo hi next →
    ∀ n ∈ nodesOf [e], IsFlowNode n →
      ∃ id, P n id ∧ g.node? id = some (flowNode id n) ∧ lo ≤ id ∧ id < hi
  | .app a, lo, _, _, ⟨hlt, hnode, hP, _⟩, n, hn, hf => by
    rw [nodesOf_app, nodesOf_nil, List.append_nil] at hn
    rcases List.mem_cons.mp hn with rfl | hn
    · exact ⟨lo, hP, hnode, Nat.le_refl _, hlt⟩
    · obtain ⟨t, -, rfl⟩ := List.mem_map.mp hn
      exact absurd hf id
  | .split ⟨label, bs, start, stop⟩, lo, _, _, ⟨hnode, hP, h⟩, n, hn, hf => by
    rw [nodesOf_split, nodesOf_nil, List.append_nil] at hn
    rcases List.mem_cons.mp hn with rfl | hn
    · exact ⟨lo, hP, hnode, Nat.le_refl _, h.le⟩
    · obtain ⟨id, hP, hnode, hlo, hhi⟩ := h.at n hn hf
      exact ⟨id, hP, hnode, by omega, hhi⟩

theorem ShowsBranches.at : {bs : List Sequence} → {entries : List Nat} → {lo hi next : Nat} →
    ShowsBranches g P bs entries lo hi next → ∀ n ∈ nodesOfBranches bs, IsFlowNode n →
      ∃ id, P n id ∧ g.node? id = some (flowNode id n) ∧ lo ≤ id ∧ id < hi
  | [], _, _, _, _, _, _, hn, _ => absurd hn List.not_mem_nil
  | ⟨es, start, stop⟩ :: bs, _, lo, hi, _, ⟨mid, _, _, _, hb, hbs⟩, n, hn, hf => by
    have hlt := hb.lt
    have hle := hbs.le
    rw [nodesOfBranches_cons, nodes_sequence] at hn
    rcases List.mem_append.mp hn with hn | hn
    · rcases List.mem_cons.mp hn with rfl | hn
      · exact absurd hf id
      · obtain ⟨id, hP, hnode, hlo, hhi⟩ := hb.2.at n hn hf
        exact ⟨id, hP, hnode, hlo, by omega⟩
    · obtain ⟨id, hP, hnode, hlo, hhi⟩ := hbs.at n hn hf
      exact ⟨id, hP, hnode, by omega, hhi⟩

end

end Pipework.Graph
