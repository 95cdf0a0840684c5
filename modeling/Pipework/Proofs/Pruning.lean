import Pipework.Stream.Walk
import Pipework.Task.Walk

/-! What it means that a walk skips: the events below a node that is skipped are missing, and nothing
else is. A walk asks at each node, so the answer can depend on all that the visitor was told before. -/

namespace Pipework

/-- What a visitor answers at a node, by the events it was told before. -/
abbrev Answers (α : Type) : Type := List (Event α) → α → Bool

/-! ## Events -/

namespace Event

variable {α : Type} {answers : Answers α} {past ds es : List (Event α)} {n : α}

/-- Each node that is entered is left once, and in between so are those entered after it. -/
inductive Nested : List (Event α) → Prop where
  | nil : Nested []
  | around (n : α) {inner rest : List (Event α)} (hinner : Nested inner) (hrest : Nested rest) :
    Nested (.enter n :: inner ++ .leave n :: rest)

theorem Nested.append (hds : Nested ds) (hes : Nested es) : Nested (ds ++ es) := by
  induction hds with
  | nil => exact hes
  | around n hinner _ _ ih => simpa using Nested.around n hinner ih

/-- Drops the events between entering and leaving a node at which the answer was no. `dropping` counts
the nodes to be left until then, of which the last is that node; `past` is what has been kept. -/
def prune (answers : Answers α) : (past : List (Event α)) → (dropping : Nat) → List (Event α) →
    List (Event α)
  | _, _, [] => []
  | past, 0, .enter n :: es =>
    .enter n :: prune answers (past ++ [.enter n]) (if answers past n then 0 else 1) es
  | past, 0, .leave n :: es => .leave n :: prune answers (past ++ [.leave n]) 0 es
  | past, k + 1, .enter _ :: es => prune answers past (k + 2) es
  | past, 1, .leave n :: es => .leave n :: prune answers (past ++ [.leave n]) 0 es
  | past, k + 2, .leave _ :: es => prune answers past (k + 1) es

/-- Whatever was entered while events are dropped is also left. -/
theorem prune_dropped (hds : Nested ds) (k : Nat) :
    prune answers past (k + 1) (ds ++ es) = prune answers past (k + 1) es := by
  induction hds generalizing k es with
  | nil => rfl
  | around n _ _ ihinner ihrest =>
    rw [List.append_assoc, List.cons_append, List.cons_append, prune, ihinner, prune, ihrest]

theorem prune_append (hds : Nested ds) : prune answers past 0 (ds ++ es) =
    prune answers past 0 ds ++ prune answers (past ++ prune answers past 0 ds) 0 es := by
  induction hds generalizing past es with
  | nil => simp [prune]
  | @around n inner rest hinner _ ihinner ihrest =>
    have hdropped : ∀ fs, prune answers (past ++ [.enter n]) 1 (inner ++ .leave n :: fs) =
        .leave n :: prune answers (past ++ [.enter n] ++ [.leave n]) 0 fs := fun fs => by
      rw [prune_dropped hinner, prune]
    cases hn : answers past n with
    | false => simp [prune, hn, hdropped, ihrest]
    | true => simp [prune, hn, ihinner, ihrest]

/-- A node is kept, and what is below it exactly if the answer is yes. -/
theorem prune_around (hds : Nested ds) : prune answers past 0 (around (fun _ => true) n ds) =
    .enter n :: (if answers past n then prune answers (past ++ [.enter n]) 0 ds else []) ++
      [.leave n] := by
  cases hn : answers past n with
  | false => simp [around, prune, hn, prune_dropped hds]
  | true => simp [around, prune, hn, prune_append hds]

example : prune (fun _ n => n != 1) [] 0
      [.enter 0, .enter 1, .enter 2, .leave 2, .leave 1, .enter 3, .leave 3, .leave 0] =
    [.enter 0, .enter 1, .leave 1, .enter 3, .leave 3, .leave 0] := by decide

end Event

/-! ## Trees -/

/-- A definition with all that a walk goes to below it. -/
inductive Tree (α : Type) where
  | node (root : α) (below : List (Tree α))

namespace Tree

open Event

variable {α : Type} {answers : Answers α}

mutual

def walk (descends : α → Bool) : Tree α → List (Event α)
  | .node n ts => around descends n (walkAll descends ts)

def walkAll (descends : α → Bool) : List (Tree α) → List (Event α)
  | [] => []
  | t :: ts => t.walk descends ++ walkAll descends ts

end

theorem walkAll_eq_flatMap (descends : α → Bool) (ts : List (Tree α)) :
    walkAll descends ts = ts.flatMap (walk descends) := by
  induction ts with
  | nil => rfl
  | cons t ts ih => rw [walkAll, ih, List.flatMap_cons]

mutual

/-- What a visitor is told of a tree after it was told `past`. -/
def visit (answers : Answers α) (past : List (Event α)) : Tree α → List (Event α)
  | .node n ts =>
    .enter n :: (if answers past n then visitAll answers (past ++ [.enter n]) ts else []) ++
      [.leave n]

def visitAll (answers : Answers α) (past : List (Event α)) : List (Tree α) → List (Event α)
  | [] => []
  | t :: ts => t.visit answers past ++ visitAll answers (past ++ t.visit answers past) ts

end

mutual

theorem visit_const (p : α → Bool) (past : List (Event α)) : (t : Tree α) →
    t.visit (fun _ => p) past = t.walk p
  | .node n ts => by rw [visit, visitAll_const p _ ts, walk, around]

theorem visitAll_const (p : α → Bool) (past : List (Event α)) : (ts : List (Tree α)) →
    visitAll (fun _ => p) past ts = walkAll p ts
  | [] => rfl
  | t :: ts => by rw [visitAll, visit_const p past t, visitAll_const p _ ts, walkAll]

end

mutual

theorem nested_visit (past : List (Event α)) : (t : Tree α) → Nested (t.visit answers past)
  | .node n ts => by
    rw [visit]
    split
    · exact .around n (nested_visitAll _ ts) .nil
    · exact .around n .nil .nil

theorem nested_visitAll (past : List (Event α)) : (ts : List (Tree α)) →
    Nested (visitAll answers past ts)
  | [] => .nil
  | t :: ts => (nested_visit past t).append (nested_visitAll _ ts)

end

theorem nested_walk (descends : α → Bool) (t : Tree α) : Nested (t.walk descends) :=
  visit_const descends [] t ▸ nested_visit [] t

theorem nested_walkAll (descends : α → Bool) (ts : List (Tree α)) : Nested (walkAll descends ts) :=
  visitAll_const descends [] ts ▸ nested_visitAll [] ts

mutual

theorem prune_walk (past : List (Event α)) : (t : Tree α) →
    prune answers past 0 (t.walk fun _ => true) = t.visit answers past
  | .node n ts => by
    rw [walk, prune_around (nested_walkAll _ ts), prune_walkAll _ ts, visit]

theorem prune_walkAll (past : List (Event α)) : (ts : List (Tree α)) →
    prune answers past 0 (walkAll (fun _ => true) ts) = visitAll answers past ts
  | [] => rfl
  | t :: ts => by
    rw [walkAll, prune_append (nested_walk _ t), prune_walk past t, prune_walkAll _ ts, visitAll]

end

end Tree

/-! ## Streams -/

namespace Stream

def App.tree (a : App) : Tree Node :=
  .node (.app a) (a.arguments.map fun x => .node (.argument x) [])

def tree (s : Stream) : Tree Node :=
  .node (.stream s)
    ((s.source.toList.map fun e => .node (.source e) []) ++ s.apps.map App.tree ++
      s.sink.toList.map fun e => .node (.sink e) [])

/-- What a visitor is told of a stream. -/
def visit (answers : Answers Node) (s : Stream) : List (Event Node) := s.tree.visit answers []

theorem App.walk_tree (descends : Node → Bool) (a : App) :
    a.tree.walk descends = a.walk descends := by
  simp [App.tree, Tree.walk, Tree.walkAll_eq_flatMap, App.walk, List.flatMap_map, Tree.walkAll]

theorem walk_tree (descends : Node → Bool) (s : Stream) :
    s.tree.walk descends = s.walk descends := by
  simp [tree, Tree.walk, Tree.walkAll_eq_flatMap, walk, List.flatMap_map, App.walk_tree]

end Stream

/-! ## Tasks -/

namespace Task

def App.tree (a : App) : Tree Node :=
  .node (.app a) (a.transitions.map fun t => .node (.transition t) [])

mutual

def Sequence.tree (index : Option Nat) : Sequence → Tree Node
  | ⟨elements, start, stop⟩ =>
    .node (.sequence ⟨elements, start, stop⟩ index) (elementTrees elements)

def Element.tree : Element → Tree Node
  | .app a => a.tree
  | .split ⟨label, branches, start, stop⟩ =>
    .node (.split ⟨label, branches, start, stop⟩) (branchTrees branches)

def elementTrees : List Element → List (Tree Node)
  | [] => []
  | e :: es => e.tree :: elementTrees es

def branchTrees : List Sequence → List (Tree Node)
  | [] => []
  | b :: bs => b.tree none :: branchTrees bs

end

def sequenceTrees (index : Nat) : List Sequence → List (Tree Node)
  | [] => []
  | s :: ss => s.tree (some index) :: sequenceTrees (index + 1) ss

def tree (t : Task) : Tree Node := .node (.task t) (sequenceTrees 0 t.sequences)

/-- What a visitor is told of a task. -/
def visit (answers : Answers Node) (t : Task) : List (Event Node) := t.tree.visit answers []

variable (descends : Node → Bool)

theorem App.walk_tree (a : App) : a.tree.walk descends = a.walk descends := by
  simp [App.tree, Tree.walk, Tree.walkAll_eq_flatMap, App.walk, List.flatMap_map]

mutual

theorem Sequence.walk_tree (index : Option Nat) : (s : Sequence) →
    (s.tree index).walk descends = s.walk descends index
  | ⟨es, _, _⟩ => by rw [Sequence.tree, Tree.walk, walk_elementTrees es, Sequence.walk]

theorem Element.walk_tree : (e : Element) → e.tree.walk descends = e.walk descends
  | .app a => by rw [Element.tree, App.walk_tree, Element.walk]
  | .split ⟨_, bs, _, _⟩ => by
    rw [Element.tree, Tree.walk, walk_branchTrees bs, Element.walk, Split.walk]

theorem walk_elementTrees : (es : List Element) →
    Tree.walkAll descends (elementTrees es) = walkElements descends es
  | [] => rfl
  | e :: es => by
    rw [elementTrees, Tree.walkAll, Element.walk_tree e, walk_elementTrees es, walkElements]

theorem walk_branchTrees : (bs : List Sequence) →
    Tree.walkAll descends (branchTrees bs) = walkBranches descends bs
  | [] => rfl
  | b :: bs => by
    rw [branchTrees, Tree.walkAll, Sequence.walk_tree none b, walk_branchTrees bs, walkBranches]

end

theorem walk_sequenceTrees (index : Nat) (ss : List Sequence) :
    Tree.walkAll descends (sequenceTrees index ss) = walkSequences descends index ss := by
  induction ss generalizing index with
  | nil => rfl
  | cons s ss ih =>
    rw [sequenceTrees, Tree.walkAll, Sequence.walk_tree, ih, walkSequences]

theorem walk_tree (t : Task) : t.tree.walk descends = t.walk descends := by
  rw [tree, Tree.walk, walk_sequenceTrees, walk]

end Task

/-! ## Pruning -/

/-- What a visitor is told is nested, and it is what it would be told if nothing were skipped, less
what is below the nodes skipped; for answers that go by the node alone it is the walk itself. -/
theorem visits_prune :
    (∀ (s : Stream) (answers : Answers Stream.Node), Event.Nested (s.visit answers) ∧
      s.visit answers = Event.prune answers [] 0 (s.walk fun _ => true)) ∧
    (∀ (t : Task) (answers : Answers Task.Node), Event.Nested (t.visit answers) ∧
      t.visit answers = Event.prune answers [] 0 t.events) ∧
    (∀ (s : Stream) (p : Stream.Node → Bool), s.visit (fun _ => p) = s.walk p) ∧
    ∀ (t : Task) (p : Task.Node → Bool), t.visit (fun _ => p) = t.walk p := by
  refine ⟨fun s answers => ⟨Tree.nested_visit [] _, ?_⟩, fun t answers => ⟨Tree.nested_visit [] _, ?_⟩,
    fun s p => ?_, fun t p => ?_⟩
  · rw [← Stream.walk_tree, Tree.prune_walk, Stream.visit]
  · rw [Task.events, ← Task.walk_tree, Tree.prune_walk, Task.visit]
  · rw [Stream.visit, Tree.visit_const, Stream.walk_tree]
  · rw [Task.visit, Tree.visit_const, Task.walk_tree]

end Pipework
