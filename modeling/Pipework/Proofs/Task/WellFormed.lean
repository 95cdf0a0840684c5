import Pipework.Proofs.Task.Validity

/-! What it takes for a task to be valid, said of its sequences and elements alone. The survey goes
through them in the order of a walk, keeps the keys it has come by and stops at its first fault;
none of this shows in the result. -/

namespace Pipework.Task

/-! ## The elements of a flow -/

mutual

/-- The elements of a sequence; those of the branches of a split follow it. -/
def Sequence.flow : Sequence → List Element
  | ⟨es, _, _⟩ => elementsFlow es

def Element.flow : Element → List Element
  | .app a => [.app a]
  | .split ⟨label, bs, start, stop⟩ => .split ⟨label, bs, start, stop⟩ :: branchesFlow bs

def elementsFlow : List Element → List Element
  | [] => []
  | e :: es => e.flow ++ elementsFlow es

def branchesFlow : List Sequence → List Element
  | [] => []
  | b :: bs => b.flow ++ branchesFlow bs

end

/-- All elements of a task, at any depth of its splits. -/
def flow (t : Task) : List Element := t.sequences.flatMap Sequence.flow

def Element.labelName? (e : Element) : Option String := e.label.map Label.name

/-- How an element is known: by its label, or else by the name of its app. -/
def Element.key? : Element → Option String
  | .app a => some a.labelName
  | .split s => s.labelName?

/-- What there is to ask of a task as a whole. -/
structure IsWellFormed (t : Task) : Prop where
  branches : ∀ s, .split s ∈ t.flow → 2 ≤ s.branches.length
  named : ∀ s ∈ t.sequences.tail, ∃ e es, s.elements = e :: es ∧ e.label.isSome = true
  keys : (t.flow.filterMap Element.key?).Nodup
  jumps : ∀ a, .app a ∈ t.flow → ∀ j ∈ a.transitions, ∀ l, j.target = .label l →
    ∃ e ∈ t.flow, e.labelName? = some l

/-! ## The walk over the elements -/

/-- What a walk meets at an element itself, before it goes into the branches. -/
def Element.nodes : Element → List Node
  | .app a => .app a :: a.transitions.map Node.transition
  | .split s => [.split s]

/-- A node, if it is one of an element. -/
def Node.part? : Node → Option Node
  | .task _ | .sequence _ _ => none
  | n => some n

/-- A sequence of a task after its first. -/
def Node.secondary? : Node → Option Sequence
  | .sequence s (some (_ + 1)) => some s
  | _ => none

section

variable {α : Type} {f : Node → Option α}

mutual

theorem Sequence.filterMap_flow (hf : ∀ s, f (.sequence s none) = none) : (s : Sequence) →
    s.nodes.filterMap f = (s.flow.flatMap Element.nodes).filterMap f
  | ⟨es, _, _⟩ => by
    rw [nodes_sequence, List.filterMap_cons_none (hf _), Sequence.flow, filterMap_elementsFlow hf es]

theorem Element.filterMap_flow (hf : ∀ s, f (.sequence s none) = none) : (e : Element) →
    (nodesOf [e]).filterMap f = (e.flow.flatMap Element.nodes).filterMap f
  | .app a => by simp [Element.flow, Element.nodes]
  | .split ⟨_, bs, _, _⟩ => by
    simp [Element.flow, Element.nodes, List.filterMap_cons, filterMap_branchesFlow hf bs]

theorem filterMap_elementsFlow (hf : ∀ s, f (.sequence s none) = none) : (es : List Element) →
    (nodesOf es).filterMap f = ((elementsFlow es).flatMap Element.nodes).filterMap f
  | [] => rfl
  | e :: es => by
    rw [nodesOf_cons, List.filterMap_append, Element.filterMap_flow hf e,
      filterMap_elementsFlow hf es, elementsFlow, List.flatMap_append, List.filterMap_append]

theorem filterMap_branchesFlow (hf : ∀ s, f (.sequence s none) = none) : (bs : List Sequence) →
    (nodesOfBranches bs).filterMap f = ((branchesFlow bs).flatMap Element.nodes).filterMap f
  | [] => rfl
  | b :: bs => by
    rw [nodesOfBranches_cons, List.filterMap_append, Sequence.filterMap_flow hf b,
      filterMap_branchesFlow hf bs, branchesFlow, List.flatMap_append, List.filterMap_append]

end

/-- Where sequences do not count, a walk is one over the elements. -/
theorem filterMap_flow (htask : ∀ t, f (.task t) = none) (hf : ∀ s i, f (.sequence s i) = none)
    (t : Task) : t.nodes.filterMap f = t.flow.flatMap fun e => e.nodes.filterMap f := by
  rw [filterMap_nodes f htask hf, flow, List.flatMap_assoc]
  refine List.flatMap_congr fun s _ => ?_
  obtain ⟨es, start, stop⟩ := s
  rw [filterMap_elementsFlow (hf · none), List.filterMap_flatMap, Sequence.flow]

/-- Where an element counts once at most, so does each of a flow. -/
theorem filterMap_flow_toList {g : Element → Option α} (htask : ∀ t, f (.task t) = none)
    (hf : ∀ s i, f (.sequence s i) = none) (hg : ∀ e : Element, e.nodes.filterMap f = (g e).toList)
    (t : Task) : t.nodes.filterMap f = t.flow.filterMap g := by
  rw [filterMap_flow htask hf, List.filterMap_eq_flatMap_toList]
  exact List.flatMap_congr fun e _ => hg e

end

theorem Element.filterMap_label (e : Element) :
    e.nodes.filterMap Node.label? = e.labelName?.toList := by
  cases e with
  | app a => cases h : a.label <;> simp [nodes, Node.label?, labelName?, label, h]
  | split s => cases h : s.label <;> simp [nodes, Node.label?, labelName?, label, h]

theorem Element.filterMap_key (e : Element) :
    e.nodes.filterMap (fun n => n.key?.map Prod.fst) = e.key?.toList := by
  cases e with
  | app a =>
    obtain ⟨label, name, arguments, transitions, start, stop⟩ := a
    cases label <;> simp [nodes, Node.key?, key?, App.labelName]
  | split s => cases h : s.label <;> simp [nodes, Node.key?, key?, Split.labelName?, h]

theorem flow_labels (t : Task) :
    t.nodes.filterMap Node.label? = t.flow.filterMap Element.labelName? :=
  filterMap_flow_toList (fun _ => rfl) (fun _ _ => rfl) Element.filterMap_label t

theorem flow_keys (t : Task) :
    (t.nodes.filterMap Node.key?).map Prod.fst = t.flow.filterMap Element.key? := by
  rw [List.map_filterMap]
  exact filterMap_flow_toList (fun _ => rfl) (fun _ _ => rfl) Element.filterMap_key t

/-- The sequences that a walk gives an index above 0 are those after the first. -/
theorem flow_secondary (t : Task) : t.nodes.filterMap Node.secondary? = t.sequences.tail := by
  have hown : ∀ e : Element, e.nodes.filterMap Node.secondary? = [] := fun e => by
    cases e <;> simp [Element.nodes, Node.secondary?]
  have hbelow : ∀ es, (nodesOf es).filterMap Node.secondary? = [] := fun es => by
    simp [filterMap_elementsFlow (f := Node.secondary?) (fun _ => rfl), List.filterMap_flatMap, hown]
  have hsequence : ∀ (s : Sequence) (i : Nat),
      (Event.entered (s.walk (fun _ => true) (some i))).filterMap Node.secondary? =
        (Node.secondary? (.sequence s (some i))).toList := by
    rintro ⟨es, start, stop⟩ i
    have hes := hbelow es
    rw [nodesOf] at hes
    rw [Sequence.walk, entered_around, List.filterMap_cons, hes]
    cases i <;> rfl
  -- The first sequence has index 0, so the induction starts behind it.
  have hwalk : ∀ (ss : List Sequence) (i : Nat),
      (Event.entered (walkSequences (fun _ => true) (i + 1) ss)).filterMap Node.secondary? = ss := by
    intro ss
    induction ss with
    | nil => intro i; rfl
    | cons s ss ih =>
      intro i
      rw [walkSequences, entered_append, List.filterMap_append, hsequence, ih]
      rfl
  rw [nodes, events, walk, entered_around, List.filterMap_cons_none rfl]
  cases t.sequences with
  | nil => rfl
  | cons s ss =>
    rw [walkSequences, entered_append, List.filterMap_append, hsequence, hwalk]
    rfl

variable {t : Task} {n : Node}

theorem mem_nodes_iff (hn : n.part? = some n) : n ∈ t.nodes ↔ ∃ e ∈ t.flow, n ∈ e.nodes := by
  have hpart : ∀ ns : List Node, n ∈ ns.filterMap Node.part? ↔ n ∈ ns := fun ns => by
    rw [List.mem_filterMap]
    refine ⟨?_, fun h => ⟨n, h, hn⟩⟩
    rintro ⟨m, hm, h⟩
    cases m <;> cases h <;> exact hm
  simp only [← hpart t.nodes, filterMap_flow (f := Node.part?) (fun _ => rfl) (fun _ _ => rfl),
    List.mem_flatMap, hpart]

theorem mem_nodes_split {s : Split} : .split s ∈ t.nodes ↔ .split s ∈ t.flow := by
  rw [mem_nodes_iff rfl]
  constructor
  · rintro ⟨_ | r, he, hs⟩
    · simp [Element.nodes] at hs
    · obtain ⟨⟩ := List.mem_singleton.mp hs
      exact he
  · exact fun hs => ⟨_, hs, List.mem_singleton_self _⟩

theorem mem_nodes_transition {j : Transition} : .transition j ∈ t.nodes ↔
    ∃ a, .app a ∈ t.flow ∧ j ∈ a.transitions := by
  rw [mem_nodes_iff rfl]
  constructor
  · rintro ⟨a | _, he, hj⟩
    · exact ⟨a, he, by simpa [Element.nodes] using hj⟩
    · simp [Element.nodes] at hj
  · rintro ⟨a, ha, hj⟩
    exact ⟨_, ha, by simpa [Element.nodes] using hj⟩

theorem mem_jumps {l : String} : l ∈ t.nodes.filterMap Node.jump? ↔
    ∃ a, .app a ∈ t.flow ∧ ∃ j ∈ a.transitions, j.target = .label l := by
  rw [List.mem_filterMap]
  constructor
  · rintro ⟨n, hn, hl⟩
    cases n with
    | task | sequence | split | app => cases hl
    | transition j =>
      obtain ⟨a, ha, hj⟩ := mem_nodes_transition.mp hn
      refine ⟨a, ha, j, hj, ?_⟩
      cases h : j.target with
      | label name => simpa [Node.jump?, h, Target.label?] using hl
      | app b => simp [Node.jump?, h, Target.label?] at hl
  · rintro ⟨a, ha, j, hj, hl⟩
    exact ⟨_, mem_nodes_transition.mpr ⟨a, ha, hj⟩, by simp [Node.jump?, hl, Target.label?]⟩

theorem mem_keys_label {l : String} : (l, KeyKind.label) ∈ t.nodes.filterMap Node.key? ↔
    ∃ e ∈ t.flow, e.labelName? = some l := by
  rw [← List.mem_filterMap, ← flow_labels, List.mem_filterMap, List.mem_filterMap]
  simp only [Node.key?_eq_label]

theorem Sequence.label?_isSome {s : Sequence} : s.label?.isSome = true ↔
    ∃ e es, s.elements = e :: es ∧ e.label.isSome = true := by
  cases h : s.elements <;> simp [Sequence.label?, h]

theorem forall_isSound : (∀ n ∈ t.nodes, n.IsSound) ↔
    (∀ s, .split s ∈ t.flow → 2 ≤ s.branches.length) ∧
      ∀ s ∈ t.sequences.tail, s.label?.isSome = true := by
  rw [← flow_secondary]
  constructor
  · refine fun h => ⟨fun s hs => h _ (mem_nodes_split.mpr hs), fun s hs => ?_⟩
    obtain ⟨n, hn, hs⟩ := List.mem_filterMap.mp hs
    match n, hs with
    | .sequence _ (some (_ + 1)), rfl => exact h _ hn
  · rintro ⟨hbranches, hnamed⟩ n hn
    match n, hn with
    | .task _, _ | .app _, _ | .transition _, _ => trivial
    | .sequence _ none, _ | .sequence _ (some 0), _ => trivial
    | .sequence s (some (i + 1)), hn => exact hnamed s (List.mem_filterMap.mpr ⟨_, hn, rfl⟩)
    | .split s, hn => exact hbranches s (mem_nodes_split.mp hn)

/-- A task is valid exactly if it is well-formed: whichever fault a survey meets first, and in
whichever order it comes by keys and jumps, it has none exactly where there is none. -/
theorem validate_iff_isWellFormed (t : Task) : t.validate = .ok () ↔ t.IsWellFormed := by
  rw [validate_iff, forall_isSound, flow_keys]
  simp only [mem_jumps, mem_keys_label, Sequence.label?_isSome]
  constructor
  · rintro ⟨⟨hbranches, hnamed⟩, hkeys, hjumps⟩
    exact ⟨hbranches, hnamed, hkeys, fun a ha j hj l hl => hjumps l ⟨a, ha, j, hj, hl⟩⟩
  · rintro ⟨hbranches, hnamed, hkeys, hjumps⟩
    exact ⟨⟨hbranches, hnamed⟩, hkeys, fun l ⟨a, ha, j, hj, hl⟩ => hjumps a ha j hj l hl⟩

end Pipework.Task
