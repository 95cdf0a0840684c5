import Pipework.Graph.Writer
import Pipework.Proofs.Graph.Reading
import Pipework.Proofs.Task.Printing

/-! The text of a graph is that of the task that is read back from it: the writer goes through the nodes
as the reader does, and puts down each element as it comes to it. -/

namespace Pipework.Graph

open Pipework.Task

variable {g : Graph} {r r' r₁ : Reading} {id : Nat} {n : Node} {text : String} {w w' : Writing} {u : Unit}
  {stop : Option Nat} {entries : List Nat} {fuel : Nat}

/-! ## Texts -/

/-- The writer's state with the text so far. -/
def Reading.written (r : Reading) (text : String) : Writing := ⟨text, r.visited, r.heads⟩

def Writing.add (w : Writing) (piece : String) : Writing := { w with text := w.text ++ piece }

@[simp] theorem Writing.add_empty (w : Writing) : w.add "" = w := by simp [add]

@[simp] theorem Writing.add_add (w : Writing) (a b : String) : (w.add a).add b = w.add (a ++ b) := by
  simp [add, String.append_assoc]

@[simp] theorem Reading.written_add (r : Reading) (text piece : String) :
    (r.written text).add piece = r.written (text ++ piece) := rfl

@[simp] theorem Reading.written_visited (r : Reading) (text : String) :
    (r.written text).visited = r.visited := rfl

@[simp] theorem runs_put {piece : String} : Runs (put piece) w u w' ↔ w' = w.add piece := runs_modify

/-- Pieces in a row, each parted from what stands before it, but for one that is the `first`. -/
def row (separator : String) (first : Bool) : List String → String
  | [] => ""
  | piece :: pieces => (if first then "" else separator) ++ piece ++ row separator false pieces

theorem row_eq_intercalate (separator : String) :
    (pieces : List String) → row separator true pieces = separator.intercalate pieces
  | [] => by simp [row]
  | [piece] => by simp [row]
  | piece :: next :: pieces => by
    have ih := row_eq_intercalate separator (next :: pieces)
    simp only [row, if_true, String.empty_append] at ih
    simp [row, ← ih, String.append_assoc]

theorem runs_separate {separator : String} {first : Bool} :
    Runs (separate separator first) w u w' ↔ w' = w.add (if first then "" else separator) := by
  cases first <;> simp [separate]

/-! ## Apps -/

theorem runs_writeLabel : Runs (writeLabel n.label) w u w' ↔ w' = w.add (Label.render n.toLabel) := by
  cases hl : n.label <;> simp [writeLabel, Node.toLabel, hl, Label.render]

theorem runs_writeProperties {properties : List (String × String)} :
    Runs (forM properties writeProperty) w u w' ↔
      w' = w.add (Argument.renderAll (properties.map fun p => ⟨p.1, p.2, 0, 0⟩)) := by
  induction properties generalizing w with
  | nil => simp [Argument.renderAll]
  | cons p properties ih =>
    simp [ih, writeProperty, Argument.renderAll, Argument.render, String.append_assoc]

theorem runs_writePlainApp : Runs (writePlainApp n) w u w' ↔ w' = w.add (n.toApp []).render := by
  simp [writePlainApp, runs_writeLabel, runs_writeProperties, Node.toApp, App.render, renderTransitions,
    String.append_assoc]

theorem runs_enqueue : Runs (enqueue id) (r.written text) u w ↔
    w = ({ r with heads := addHeads r.heads [id] } : Reading).written text := by
  by_cases h : id ∈ r.heads <;> simp [enqueue, addHeads, Reading.written, h]

theorem runs_writeTarget : Runs (writeTarget g n) (r.written text) u w ↔
    w = ({ r with heads := addHeads r.heads (g.headOf n).toList } : Reading).written
      (text ++ (g.targetOf n).render) := by
  unfold writeTarget targetOf headOf isJumpTarget jumpLabel
  cases hm : n.isMarker with
  | true => simp [Target.render, Node.toApp, Node.toLabel, App.render, Label.render, Argument.renderAll,
      renderTransitions]
  | false =>
    cases hl : n.label with
    | none => simp [runs_writePlainApp, Target.render]
    | some label =>
      cases hp : (g.predecessors n.id).isEmpty <;> cases hh : g.headsSequence n.id
      · simp [Target.render, String.append_assoc]
      · simp [predecessors_of_headsSequence hh] at hp
      · simp [runs_writePlainApp, Target.render]
      · simp [runs_enqueue, Target.render]

theorem runs_writeTransitions {ts : List (Condition × Node)} :
    Runs (forM ts (writeTransition g)) (r.written text) u w ↔
      w = ({ r with heads := addHeads r.heads (ts.filterMap fun t => g.headOf t.2) } : Reading).written
        (text ++ renderTransitions (ts.map fun t => ⟨t.1, g.targetOf t.2, 0, 0⟩)) := by
  induction ts generalizing r text with
  | nil => simp [renderTransitions]
  | cons t ts ih =>
    simp [writeTransition, runs_writeTarget, ih, heads_cons, addHeads_append, renderTransitions,
      Transition.render, String.append_assoc]

theorem runs_writeApp : Runs (writeApp g n) (r.written text) u w ↔
    w = ({ r with heads := addHeads r.heads (g.headsOf n) } : Reading).written
      (text ++ (g.appOf n).render) := by
  have happ : (g.appOf n).render = (n.toApp []).render ++ renderTransitions (g.appOf n).transitions := by
    simp [appOf, Node.toApp, App.render, renderTransitions]
  rw [happ]
  simp [writeApp, runs_writePlainApp, runs_writeTransitions, headsOf, appOf, Node.toApp,
    String.append_assoc]

/-! ## Flows -/

/-- Elements as they are written, the `first` or others in front of them. -/
def flowText (first : Bool) (es : List Element) : String := row " && " first (renderElements es)

theorem flowText_true (es : List Element) : flowText true es = (⟨es, 0, 0⟩ : Sequence).render := by
  rw [flowText, row_eq_intercalate, Sequence.render]

@[simp] theorem flowText_nil (first : Bool) : flowText first [] = "" := rfl

theorem append_flowText_cons (text : String) (first : Bool) (e : Element) (es : List Element) :
    text ++ flowText first (e :: es) =
      text ++ (if first then "" else " && ") ++ e.render ++ flowText false es := by
  simp [flowText, renderElements, row, String.append_assoc]

theorem writes_halt {first : Bool} (h : Halts g r stop id) :
    Runs (writeWithin g (fuel + 1) first [id] stop) (r.written text) () (r.written text) := by
  rw [writeWithin]
  by_cases hs : some id = stop
  · simp [hs]
  · cases hn : g.node? id with
    | none => simp [hs]
    | some n =>
      have hend : n.name = endName ∨ id ∈ r.visited := h.resolve_left hs n hn
      simp [hs, Reading.written, hend]

theorem runs_mark : Runs (mark id) (r.written text) u w ↔ w = (r.visit id).written text := runs_modify

theorem runs_visit_app (h : Fresh g r stop id n) :
    Runs (writeApp g n) ((r.visit id).written text) u w ↔
      w = (r.withApp g n).written (text ++ (g.appOf n).render) := by
  rw [runs_writeApp, Reading.withApp, (node?_eq_some h.node).2, Reading.visit]

section

variable {first : Bool} (h : Fresh g r stop id n)

include h

theorem writes_app (hs : n.isSync = false)
    (hf : Runs (writeWithin g fuel false (g.successors id) stop) ((r.withApp g n).written
      (text ++ (if first then "" else " && ") ++ (g.appOf n).render)) () w) :
    Runs (writeWithin g (fuel + 1) first [id] stop) (r.written text) () w := by
  rw [writeWithin]
  simpa [h.going, h.node, h.name, h.new, hs, runs_mark, runs_separate, runs_visit_app h] using hf

theorem writes_pass (hs : n.isSync = true) (hl : ¬ 1 < (g.successors id).length)
    (hf : Runs (writeWithin g fuel first (g.successors id) stop) ((r.visit id).written text) () w) :
    Runs (writeWithin g (fuel + 1) first [id] stop) (r.written text) () w := by
  rw [writeWithin]
  simpa [h.going, h.node, h.name, h.new, hs, hl, runs_mark] using hf

theorem writes_fork (hs : n.isSync = true) (hl : 1 < (g.successors id).length) {join : Option Nat}
    (hb : Runs (writeSplit g (fun entry => writeWithin g fuel true [entry]) (g.successors id))
      ((r.visit id).written (text ++ (if first then "" else " && ") ++ Label.render n.toLabel)) join w)
    (hf : Runs (writeWithin g fuel false join.toList stop) w () w') :
    Runs (writeWithin g (fuel + 1) first [id] stop) (r.written text) () w' := by
  simp only [String.append_assoc] at hb
  simp only [writeWithin, h.going, if_false, h.node, h.name, decide_false, Bool.false_or,
    decide_eq_true_eq, hs, if_true, gt_iff_lt, hl, runs_bind, runs_get, existsAndEq, and_true,
    exists_eq_left, Reading.written_visited, h.new, runs_mark, runs_separate, runs_writeLabel,
    exists_const, Writing.add_add, Reading.written_add]
  exact ⟨join, w, hb, hf⟩

end

/-- One branch of the text for each that is read. -/
theorem runs_writeBranches {flow : Nat → Read (List Element)} {branch : Nat → Write Unit}
    (ih : ∀ {r r' entry es text}, Runs (flow entry) r es r' →
      Runs (branch entry) (r.written text) () (r'.written (text ++ flowText true es)))
    {first : Bool} {ess : List (List Element)} (h : Runs (entries.mapM flow) r ess r') :
    Runs (writeBranches branch first entries) (r.written text) () (r'.written
      (text ++ row " || " first (renderBranches (ess.map fun es => ⟨es, 0, 0⟩)))) := by
  induction entries generalizing r ess first text with
  | nil =>
    obtain ⟨rfl, rfl⟩ := runs_mapM_nil.mp h
    simp [writeBranches, renderBranches, row]
  | cons entry entries ih' =>
    obtain ⟨es, fss, s, he, hes, rfl⟩ := runs_mapM_cons.mp h
    simp only [writeBranches, runs_bind, runs_separate, Reading.written_add]
    refine ⟨(), _, rfl, (), _, ih he, ?_⟩
    rw [flowText_true, List.map_cons, renderBranches, row, ← String.append_assoc, ← String.append_assoc]
    exact ih' hes

/-- The split that is written is the one that is read, but for its label. -/
theorem runs_writeSplit {flow : List Nat → Option Nat → Read (List Element)}
    {branch : Nat → Option Nat → Write Unit}
    (ih : ∀ {r r' entry stop es text}, Runs (flow [entry] stop) r es r' →
      Runs (branch entry stop) (r.written text) () (r'.written (text ++ flowText true es)))
    {label : Option Label} {e : Element} {join : Option Nat}
    (h : Runs (readSplit g flow label entries) r (e, join) r') : ∃ split : String,
      e.render = Label.render label ++ split ∧
        ∀ text, Runs (writeSplit g branch entries) (r.written text) join (r'.written (text ++ split)) := by
  obtain ⟨rfl, ess, hb, rfl⟩ := runs_readSplit.mp h
  refine ⟨"<" ++ " || ".intercalate (renderBranches (ess.map fun es => ⟨es, 0, 0⟩)) ++ ">", ?_,
    fun text => ?_⟩
  · simp [Element.render, Split.render, String.append_assoc]
  · simp only [writeSplit, runs_bind, runs_put, runs_pure, Reading.written_add]
    refine ⟨(), _, rfl, (), _, runs_writeBranches ih hb, (), _, rfl, trivial, ?_⟩
    rw [row_eq_intercalate, Reading.written_add]
    simp only [String.append_assoc]

/-- A flow is written as it is read. -/
theorem runs_writeWithin : ∀ {first : Bool} {r r' : Reading} {entries : List Nat} {stop : Option Nat}
    {es : List Element} {text : String}, Runs (flowWithin g fuel entries stop) r es r' →
      Runs (writeWithin g fuel first entries stop) (r.written text) ()
        (r'.written (text ++ flowText first es)) := by
  induction fuel with
  | zero =>
    intro first r r' entries stop es text h
    obtain ⟨rfl, rfl⟩ := runs_pure.mp h
    simp [writeWithin]
  | succ fuel ih =>
    intro first r r' entries stop es text h
    rcases entries with _ | ⟨id, _ | ⟨other, entries⟩⟩
    · obtain ⟨rfl, rfl⟩ := runs_pure.mp h
      simp [writeWithin]
    · obtain ⟨hh, rfl, rfl⟩ | ⟨n, hn, ⟨hs, fs, hf, rfl⟩ | ⟨hs, hl, hf⟩ |
        ⟨hs, hl, e, join, s, fs, hsplit, hf, rfl⟩⟩ := runs_flowWithin_single h
      · simpa using writes_halt hh
      · rw [append_flowText_cons]
        exact writes_app hn hs (ih hf)
      · exact writes_pass hn hs hl (ih hf)
      · obtain ⟨split, he, hw⟩ := runs_writeSplit (fun h => ih h) hsplit
        rw [append_flowText_cons, he, ← String.append_assoc]
        exact writes_fork hn hs hl (hw _) (ih hf)
    · simp only [flowWithin, runs_bind, runs_pure] at h
      obtain ⟨⟨e, join⟩, s, hs, fs, _, hf, rfl, rfl⟩ := h
      obtain ⟨split, he, hw⟩ := runs_writeSplit (fun h => ih h) hs
      simp only [writeWithin, runs_bind, runs_separate, Reading.written_add]
      rw [append_flowText_cons, he, Label.render, String.empty_append]
      exact ⟨(), _, rfl, join, _, hw _, ih hf⟩

theorem runs_writeFlow {s : Sequence} (h : Runs (readFlow g entries) r s r') :
    Runs (writeFlow g entries) (r.written text) () (r'.written (text ++ s.render)) := by
  simp only [readFlow, runs_bind, runs_pure] at h
  obtain ⟨es, _, hes, rfl, rfl⟩ := h
  rw [← flowText_true]
  exact runs_writeWithin hes

/-! ## Lines -/

theorem runs_writeLines {fuel index : Nat} {ss : List Sequence}
    (h : Runs (readHeads g fuel index) r ss r') :
    Runs (writeLines g fuel index) (r.written text) ()
      (r'.written (text ++ row "\n" false (ss.map Sequence.render))) := by
  induction fuel generalizing index r ss text with
  | zero =>
    obtain ⟨rfl, rfl⟩ := runs_pure.mp h
    simp [writeLines, row]
  | succ fuel ih =>
    simp only [readHeads, runs_bind, runs_get, existsAndEq, true_and] at h
    simp only [writeLines, runs_bind, runs_get, existsAndEq, true_and]
    have hq : (r.written text).queued = r.heads := rfl
    rw [hq]
    cases hi : r.heads[index]? with
    | none =>
      rw [hi] at h
      obtain ⟨rfl, rfl⟩ := runs_pure.mp h
      simp [row]
    | some head =>
      rw [hi] at h
      simp only [runs_bind, runs_pure] at h
      obtain ⟨s, _, hs, ss, _, hss, rfl, rfl⟩ := h
      simp only [runs_bind, runs_put, Reading.written_add]
      refine ⟨(), _, rfl, (), _, runs_writeFlow hs, ?_⟩
      rw [List.map_cons, row, ← String.append_assoc, ← String.append_assoc]
      exact ih hss

theorem runs_writeAll {start : Node} {ss : List Sequence} (h : Runs (readAll g start) r ss r') :
    Runs (writeAll g start) (r.written text) ()
      (r'.written (text ++ "\n".intercalate (ss.map Sequence.render))) := by
  simp only [readAll, runs_bind, runs_pure] at h
  obtain ⟨first, s, hfirst, rest, _, hrest, rfl, rfl⟩ := h
  simp only [writeAll, runs_bind]
  refine ⟨(), _, runs_writeFlow hfirst, ?_⟩
  rw [← row_eq_intercalate, List.map_cons, row, if_pos rfl, String.empty_append, ← String.append_assoc]
  exact runs_writeLines hrest

/-- What is written of a graph is the task that is read back from it, in its one spelling. -/
theorem render_eq_readback (g : Graph) : g.render = g.readback.render := by
  rw [render, Task.render, readback]
  cases g.named? startName with
  | none => simp
  | some start =>
    have hw : Runs (writeAll g start) {} () _ := @runs_writeAll g {} _ "" _ _ (runs_run (readAll g start) {})
    exact (congrArg (fun p => p.2.text) hw).trans String.empty_append

end Pipework.Graph
