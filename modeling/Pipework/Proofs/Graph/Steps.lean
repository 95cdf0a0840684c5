import Pipework.Graph.Drawing
import Pipework.Proofs.Graph.Reachability
import Pipework.Proofs.Graph.Runs

/-! The steps of drawing, and what each of them adds to a drawing. -/

namespace Pipework.Graph

open Pipework.Task

/-- The links with a condition from a node. -/
def conditionals (g : Graph) (id : Nat) : List Link :=
  g.links.filter fun l => l.source == id && l.isTransition

theorem node?_eq_getElem? {g : Graph} (h : ∀ (i : Nat) (n : Node), g.nodes[i]? = some n → n.id = i)
    (id : Nat) :
    g.node? id = g.nodes[id]? := by
  cases hn : g.nodes[id]? with
  | none =>
    refine List.find?_eq_none.mpr fun n hm => ?_
    obtain ⟨i, hi, rfl⟩ := List.mem_iff_getElem.mp hm
    have := h i _ (List.getElem?_eq_getElem hi)
    have := List.getElem?_eq_none_iff.mp hn
    simp only [beq_iff_eq]
    omega
  | some n =>
    obtain ⟨hid, rfl⟩ := List.getElem?_eq_some_iff.mp hn
    refine List.find?_eq_some_iff_getElem.mpr ⟨by simpa using h id _ hn, id, hid, rfl, fun j hj => ?_⟩
    have := h j _ (List.getElem?_eq_getElem (by omega : j < g.nodes.length))
    simp only [Bool.not_eq_true', beq_eq_false_iff_ne]
    omega

theorem lookup_mono {α : Type} [BEq α] {ps qs : List (α × Nat)} (h : ps <+: qs) {l : α} {id : Nat}
    (hl : ps.lookup l = some id) : qs.lookup l = some id := by
  obtain ⟨rs, rfl⟩ := h
  rw [List.lookup_append, hl]
  rfl

/-! ## Steps -/

namespace Drawing

/-- The nodes drawn so far; the next node has this id. -/
def size (d : Drawing) : Nat := d.graph.nodes.length

def jumpsFrom (d : Drawing) (id : Nat) : List Jump := d.jumps.filter fun j => j.source == id

def targetIds (d : Drawing) : List Nat := d.targets.map Prod.snd

def withNode (d : Drawing) (name : String) (label : Option String)
    (properties : List (String × String)) : Drawing :=
  { d with graph := { d.graph with nodes := d.graph.nodes ++ [⟨d.size, name, label, properties⟩] } }

def withLinks (d : Drawing) (ls : List Link) : Drawing :=
  { d with graph := { d.graph with links := d.graph.links ++ ls } }

/-- The first node of a label counts. -/
def registered (labels : List (String × Nat)) (label : Option String) (id : Nat) :
    List (String × Nat) :=
  match label with
  | none => labels
  | some name => if (labels.lookup name).isSome then labels else labels ++ [(name, id)]

def withLabel (d : Drawing) (label : Option String) (id : Nat) : Drawing :=
  { d with labels := registered d.labels label id }

def withTarget (d : Drawing) (key : Node) : Drawing :=
  { d.withNode key.name key.label key.properties with targets := d.targets ++ [(key, d.size)] }

def withJump (d : Drawing) (j : Jump) : Drawing := { d with jumps := d.jumps ++ [j] }

def withJumps (d : Drawing) (js : List Jump) : Drawing := { d with jumps := js }

/-- A node of a flow after the given ends. -/
def place (d : Drawing) (ends : List Nat) (name : String) (label : Option String)
    (properties : List (String × String)) : Drawing :=
  ((d.withNode name label properties).withLabel label d.size).withLinks
    (ends.map fun e => ⟨e, d.size, none⟩)

end Drawing

open Drawing

variable {d d' : Drawing}

@[simp] theorem runs_addNode {name : String} {label : Option String}
    {properties : List (String × String)} {id : Nat} :
    Runs (addNode name label properties) d id d' ↔
      id = d.size ∧ d' = d.withNode name label properties := by
  simp [addNode, withNode, size]
  grind

@[simp] theorem runs_addLink {l : Link} {u : Unit} :
    Runs (addLink l) d u d' ↔ d' = d.withLinks [l] := by
  simp [addLink, withLinks]

@[simp] theorem runs_join {ends : List Nat} {id : Nat} {u : Unit} :
    Runs (join ends id) d u d' ↔ d' = d.withLinks (ends.map fun e => ⟨e, id, none⟩) := by
  rw [join, List.forM_eq_forM]
  induction ends generalizing d with
  | nil => simp [withLinks]
  | cons e es ih =>
    rw [List.forM_cons, runs_bind]
    simp [ih, withLinks]

@[simp] theorem runs_registerLabel {label : Option String} {id : Nat} {u : Unit} :
    Runs (registerLabel label id) d u d' ↔ d' = d.withLabel label id := by
  cases label with
  | none => simp [registerLabel, withLabel, registered]
  | some l =>
    simp only [registerLabel, runs_modify, withLabel, registered]
    split <;> rfl

theorem runs_nodeNamed {name : String} {id : Nat} : Runs (nodeNamed name) d id d' ↔
    (∃ n, d.graph.named? name = some n ∧ id = n.id ∧ d' = d) ∨
      (d.graph.named? name = none ∧ id = d.size ∧ d' = d.withNode name none []) := by
  simp only [nodeNamed, runs_bind, runs_get, existsAndEq, true_and]
  cases d.graph.named? name <;> simp

theorem runs_theEnd {id : Nat} : Runs theEnd d id d' ↔
    (d.endNode = some id ∧ d' = d) ∨ (d.endNode = none ∧ id = d.size ∧
      d' = { d.withNode endName none [] with endNode := some d.size }) := by
  simp only [theEnd, runs_bind, runs_get, existsAndEq, true_and]
  cases d.endNode <;> simp [eq_comm, and_comm]

/-- What a target app is known by. -/
def targetKey (a : App) : Node :=
  ⟨0, a.name, a.label.map Label.name, Argument.properties a.arguments⟩

theorem runs_targetNode {a : App} {r : Nat × Bool} : Runs (targetNode a) d r d' ↔
    (∃ id, d.targets.lookup (targetKey a) = some id ∧ r = (id, false) ∧ d' = d) ∨
      (d.targets.lookup (targetKey a) = none ∧ r = (d.size, true) ∧
        d' = d.withTarget (targetKey a)) := by
  simp only [targetNode, runs_bind, runs_get, existsAndEq, true_and, targetKey]
  cases d.targets.lookup _ with
  | some id => simp
  | none =>
    simp only [runs_bind, runs_addNode, runs_modify, runs_pure, existsAndEq, true_and, reduceCtorEq,
      false_and, exists_false, false_or, exists_const]
    rfl

/-! ## What steps add -/

namespace Drawing

section

variable (d) (ends : List Nat) (name : String) (label : Option String)
  (properties : List (String × String)) (ls : List Link) (key : Node) (j : Jump) (id : Nat)

@[simp] theorem size_withNode : (d.withNode name label properties).size = d.size + 1 := by
  simp [size, withNode]

@[simp] theorem size_withLinks : (d.withLinks ls).size = d.size := rfl

@[simp] theorem labels_withLinks : (d.withLinks ls).labels = d.labels := rfl

@[simp] theorem jumps_withLinks : (d.withLinks ls).jumps = d.jumps := rfl

@[simp] theorem size_withTarget : (d.withTarget key).size = d.size + 1 := by
  simp [size, withTarget, withNode]

@[simp] theorem size_withJump : (d.withJump j).size = d.size := rfl

@[simp] theorem size_place : (d.place ends name label properties).size = d.size + 1 := by
  simp [size, place, withLinks, withLabel, withNode]

end

theorem prefix_registered (labels : List (String × Nat)) (label : Option String) (id : Nat) :
    labels <+: registered labels label id := by
  unfold registered
  split
  · exact List.prefix_rfl
  · split
    · exact List.prefix_rfl
    · exact List.prefix_append ..

theorem mem_registered {labels : List (String × Nat)} {label : Option String} {id : Nat}
    {p : String × Nat} (h : p ∈ registered labels label id) :
    p ∈ labels ∨ (label = some p.1 ∧ p.2 = id) := by
  unfold registered at h
  split at h
  · exact .inl h
  · split at h
    · exact .inl h
    · obtain h | h := List.mem_append.mp h
      · exact .inl h
      · obtain rfl := List.mem_singleton.mp h
        exact .inr ⟨rfl, rfl⟩

theorem lookup_registered {labels : List (String × Nat)} {label : Option String} {id : Nat}
    {l : String} : ((registered labels label id).lookup l).isSome ↔
      (labels.lookup l).isSome ∨ label = some l := by
  cases label with
  | none => simp [registered]
  | some name =>
    simp only [registered]
    by_cases hl : name = l
    · subst hl
      split <;> simp_all
    · have hne : (l == name) = false := beq_false_of_ne (Ne.symm hl)
      split <;> simp [List.lookup_append, List.lookup_cons, hl, hne]

theorem lookup_registered_self {labels : List (String × Nat)} {label : Option String} {id : Nat}
    {l : String} (hl : label = some l) (hnone : labels.lookup l = none) :
    (registered labels label id).lookup l = some id := by
  subst hl
  simp [registered, hnone, List.lookup_append]

theorem leads_withLinks {ls : List Link} {a b : Nat} : (d.withLinks ls).graph.Leads a b ↔
    d.graph.Leads a b ∨ ∃ l ∈ ls, l.source = a ∧ l.target = b ∧ l.isTransition = false := by
  simp only [leads_iff, withLinks, List.mem_append, or_and_right, exists_or]

/-- What is joined is led to by all the ends. -/
theorem leads_join {ends : List Nat} {id a b : Nat} :
    (d.withLinks (ends.map fun e => ⟨e, id, none⟩)).graph.Leads a b ↔
      d.graph.Leads a b ∨ (a ∈ ends ∧ b = id) := by
  rw [leads_withLinks]
  refine or_congr Iff.rfl ?_
  constructor
  · rintro ⟨l, hl, rfl, rfl, -⟩
    obtain ⟨e, he, rfl⟩ := List.mem_map.mp hl
    exact ⟨he, rfl⟩
  · rintro ⟨ha, rfl⟩
    exact ⟨_, List.mem_map_of_mem ha, rfl, rfl, rfl⟩

theorem leads_place {ends : List Nat} {name : String} {label : Option String}
    {properties : List (String × String)} {a b : Nat} :
    (d.place ends name label properties).graph.Leads a b ↔
      d.graph.Leads a b ∨ (a ∈ ends ∧ b = d.size) := leads_join

end Drawing

end Pipework.Graph
