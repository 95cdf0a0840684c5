import Mathlib
import Pipework.Task.Printer
import Pipework.Task.Shape
import Pipework.Task.Validation

/-! What depends on the shape of a task alone: whether it is valid, and how it is printed. -/

namespace Pipework.Task

/-! ## Walks -/

def Node.withoutPositions : Node → Node
  | .task t => .task t.withoutPositions
  | .sequence s index => .sequence s.withoutPositions index
  | .split s => .split s.withoutPositions
  | .app a => .app a.withoutPositions
  | .transition t => .transition t.withoutPositions

@[simp] theorem entered_around {α : Type} (n : α) (below : List (Event α)) :
    Event.entered (Event.around (fun _ => true) n below) = n :: Event.entered below := by
  simp [Event.around, Event.entered]

@[simp] theorem entered_append {α : Type} (es fs : List (Event α)) :
    Event.entered (es ++ fs) = Event.entered es ++ Event.entered fs := List.filterMap_append

@[simp] theorem entered_nil {α : Type} : Event.entered ([] : List (Event α)) = [] := rfl

theorem entered_transitions (ts : List Transition) :
    Event.entered (ts.flatMap fun t => Event.around (fun _ => true) (.transition t) []) =
      ts.map Node.transition := by
  induction ts with
  | nil => rfl
  | cons t ts ih => simp [ih]

theorem App.entered_walk (a : App) : Event.entered (a.withoutPositions.walk fun _ => true) =
    (Event.entered (a.walk fun _ => true)).map Node.withoutPositions := by
  cases a
  simp [App.walk, App.withoutPositions, entered_transitions, transitionsWithoutPositions_eq_map,
    Node.withoutPositions, Function.comp_def]

mutual

theorem Sequence.entered_walk (index : Option Nat) : (s : Sequence) →
    Event.entered (s.withoutPositions.walk (fun _ => true) index) =
      (Event.entered (s.walk (fun _ => true) index)).map Node.withoutPositions
  | ⟨es, _, _⟩ => by
    simp [Sequence.withoutPositions, Sequence.walk, entered_walkElements es, Node.withoutPositions]

theorem Split.entered_walk : (s : Split) →
    Event.entered (s.withoutPositions.walk fun _ => true) =
      (Event.entered (s.walk fun _ => true)).map Node.withoutPositions
  | ⟨_, bs, _, _⟩ => by
    simp [Split.withoutPositions, Split.walk, entered_walkBranches bs, Node.withoutPositions]

theorem Element.entered_walk : (e : Element) →
    Event.entered (e.withoutPositions.walk fun _ => true) =
      (Event.entered (e.walk fun _ => true)).map Node.withoutPositions
  | .app a => a.entered_walk
  | .split s => s.entered_walk

theorem entered_walkElements : (es : List Element) →
    Event.entered (walkElements (fun _ => true) (elementsWithoutPositions es)) =
      (Event.entered (walkElements (fun _ => true) es)).map Node.withoutPositions
  | [] => rfl
  | e :: es => by
    simp [elementsWithoutPositions, walkElements, e.entered_walk, entered_walkElements es]

theorem entered_walkBranches : (bs : List Sequence) →
    Event.entered (walkBranches (fun _ => true) (sequencesWithoutPositions bs)) =
      (Event.entered (walkBranches (fun _ => true) bs)).map Node.withoutPositions
  | [] => rfl
  | b :: bs => by
    simp [sequencesWithoutPositions, walkBranches, b.entered_walk, entered_walkBranches bs]

end

theorem entered_walkSequences (index : Nat) (ss : List Sequence) :
    Event.entered (walkSequences (fun _ => true) index (ss.map Sequence.withoutPositions)) =
      (Event.entered (walkSequences (fun _ => true) index ss)).map Node.withoutPositions := by
  induction ss generalizing index with
  | nil => rfl
  | cons s ss ih => simp [walkSequences, s.entered_walk, ih]

theorem entered_events (t : Task) : Event.entered t.withoutPositions.events =
    (Event.entered t.events).map Node.withoutPositions := by
  simp [events, walk, withoutPositions, entered_walkSequences, Node.withoutPositions]

/-! ## Validation -/

/-- The surveys differ in positions at most, and in what else a fault has besides its reason. -/
structure Survey.Alike (s r : Survey) : Prop where
  keys : s.keys = r.keys
  jumps : s.jumps.map Prod.fst = r.jumps.map Prod.fst
  fault : s.fault.map Fault.message = r.fault.map Fault.message

namespace Survey

variable {s r : Survey}

theorem Alike.fail (h : s.Alike r) (n n' : Nat) (m : Message) (i i' : List String) :
    (s.fail n m i).Alike (r.fail n' m i') where
  keys := h.keys
  jumps := h.jumps
  fault := by
    have := h.fault
    cases hs : s.fault <;> cases hr : r.fault <;> simp_all [Survey.fail]

theorem Alike.register (h : s.Alike r) (key : String) (kind : KeyKind) (n n' : Nat) :
    (s.register key kind n).Alike (r.register key kind n') := by
  unfold Survey.register
  rw [← h.keys]
  split
  · exact ⟨by simp [h.keys], h.jumps, h.fault⟩
  · exact h.fail ..

theorem Alike.enterSequence (h : s.Alike r) (sequence : Sequence) (index : Option Nat) :
    (s.enterSequence sequence index).Alike (r.enterSequence sequence.withoutPositions index) := by
  obtain ⟨es, start, stop⟩ := sequence
  have hlabel : (Sequence.withoutPositions ⟨es, start, stop⟩).label?.isNone =
      (Sequence.mk es start stop).label?.isNone := by
    match es with
    | [] => rfl
    | .app ⟨l, _, _, _, _, _⟩ :: _ | .split ⟨l, _, _, _⟩ :: _ => cases l <;> rfl
  unfold Survey.enterSequence
  split
  · rw [hlabel]
    split
    · exact h.fail ..
    · exact h
  · exact h

theorem Alike.enterSplit (h : s.Alike r) (split : Split) :
    (s.enterSplit split).Alike (r.enterSplit split.withoutPositions) := by
  obtain ⟨label, bs, start, stop⟩ := split
  simp only [Survey.enterSplit, Split.withoutPositions, sequencesWithoutPositions_eq_map,
    List.length_map]
  have hb : Alike (if bs.length < 2 then s.fail start .taskValidationSplitWithOneFlow [] else s)
      (if bs.length < 2 then r.fail 0 .taskValidationSplitWithOneFlow [] else r) := by
    split
    · exact h.fail ..
    · exact h
  cases label with
  | none => exact hb
  | some l => exact hb.register ..

theorem Alike.enterApp (h : s.Alike r) (a : App) :
    (s.enterApp a).Alike (r.enterApp a.withoutPositions) := by
  obtain ⟨label, name, arguments, transitions, start, stop⟩ := a
  cases label <;> exact h.register ..

theorem Alike.enterTransition (h : s.Alike r) (t : Transition) :
    (s.enterTransition t).Alike (r.enterTransition t.withoutPositions) := by
  obtain ⟨condition, target, start, stop⟩ := t
  cases target with
  | app a => exact h
  | label n =>
    refine ⟨h.keys, ?_, h.fault⟩
    simp [Survey.enterTransition, Transition.withoutPositions, Target.withoutPositions, Target.label?,
      h.jumps]

theorem Alike.step (h : s.Alike r) (n : Node) : (s.step n).Alike (r.step n.withoutPositions) := by
  cases n with
  | task => exact h
  | sequence sequence index => exact h.enterSequence sequence index
  | split split => exact h.enterSplit split
  | app a => exact h.enterApp a
  | transition t => exact h.enterTransition t

theorem Alike.run (h : s.Alike r) (ns : List Node) :
    (ns.foldl Survey.step s).Alike ((ns.map Node.withoutPositions).foldl Survey.step r) := by
  induction ns generalizing s r with
  | nil => exact h
  | cons n ns ih => exact ih (h.step n)

theorem find?_isSome (p : String → Bool) (js : List (String × Nat)) :
    (js.find? fun j => p j.1).isSome = ((js.map Prod.fst).find? p).isSome := by
  simp [List.find?_map]

theorem Alike.finish (h : s.Alike r) : s.finish.Alike r.finish := by
  unfold Survey.finish
  have hj : (s.jumps.find? fun j => s.keys.lookup j.1 != some .label).isSome =
      (r.jumps.find? fun j => r.keys.lookup j.1 != some .label).isSome := by
    rw [find?_isSome fun n => s.keys.lookup n != some .label,
      find?_isSome fun n => r.keys.lookup n != some .label, h.jumps, h.keys]
  split <;> split <;> simp_all [h.fail]

end Survey

theorem survey_alike (t : Task) : t.survey.Alike t.withoutPositions.survey := by
  have h : Survey.Alike { text := t.text } { text := t.withoutPositions.text } := ⟨rfl, rfl, rfl⟩
  unfold survey
  rw [entered_events]
  exact (h.run _).finish

theorem validate_eq_ok {t : Task} : t.validate = .ok () ↔ t.survey.fault = none := by
  unfold validate
  split <;> simp_all

/-- Positions do not matter to whether a task is valid. -/
theorem validate_withoutPositions {t : Task} :
    t.withoutPositions.validate = .ok () ↔ t.validate = .ok () := by
  rw [validate_eq_ok, validate_eq_ok, ← Option.map_eq_none_iff (f := Fault.message),
    ← (survey_alike t).fault, Option.map_eq_none_iff]

/-! ## Printing -/

theorem render_label (label : Option Label) :
    Label.render (label.map Label.withoutPosition) = Label.render label := by
  cases label <;> rfl

theorem renderAll_arguments (arguments : List Argument) :
    Argument.renderAll (arguments.map Argument.withoutPosition) = Argument.renderAll arguments := by
  rw [Argument.renderAll, Argument.renderAll, List.map_map]
  rfl

mutual

theorem App.render_withoutPositions : (a : App) → a.withoutPositions.render = a.render
  | ⟨label, name, arguments, ts, _, _⟩ => by
    simp only [App.withoutPositions, App.render, render_label, renderAll_arguments,
      renderTransitions_withoutPositions ts]

theorem Transition.render_withoutPositions : (t : Transition) → t.withoutPositions.render = t.render
  | ⟨condition, target, _, _⟩ => by
    simp only [Transition.withoutPositions, Transition.render, Target.render_withoutPositions target]

theorem Target.render_withoutPositions : (t : Target) → t.withoutPositions.render = t.render
  | .label _ => rfl
  | .app a => App.render_withoutPositions a

theorem renderTransitions_withoutPositions : (ts : List Transition) →
    renderTransitions (transitionsWithoutPositions ts) = renderTransitions ts
  | [] => rfl
  | t :: ts => by
    simp only [transitionsWithoutPositions, renderTransitions, Transition.render_withoutPositions t,
      renderTransitions_withoutPositions ts]

end

mutual

theorem Split.render_withoutPositions : (s : Split) → s.withoutPositions.render = s.render
  | ⟨label, bs, _, _⟩ => by
    simp only [Split.withoutPositions, Split.render, render_label, renderBranches_withoutPositions bs]

theorem Sequence.render_withoutPositions : (s : Sequence) → s.withoutPositions.render = s.render
  | ⟨es, _, _⟩ => by
    simp only [Sequence.withoutPositions, Sequence.render, renderElements_withoutPositions es]

theorem Element.render_withoutPositions : (e : Element) → e.withoutPositions.render = e.render
  | .app a => App.render_withoutPositions a
  | .split s => Split.render_withoutPositions s

theorem renderElements_withoutPositions : (es : List Element) →
    renderElements (elementsWithoutPositions es) = renderElements es
  | [] => rfl
  | e :: es => by
    simp only [elementsWithoutPositions, renderElements, Element.render_withoutPositions e,
      renderElements_withoutPositions es]

theorem renderBranches_withoutPositions : (bs : List Sequence) →
    renderBranches (sequencesWithoutPositions bs) = renderBranches bs
  | [] => rfl
  | b :: bs => by
    simp only [sequencesWithoutPositions, renderBranches, Sequence.render_withoutPositions b,
      renderBranches_withoutPositions bs]

end

/-- Positions do not matter to how a task is printed, and neither do its name and text. -/
theorem render_eq_of_sequences {t u : Task}
    (h : t.sequences = u.sequences.map Sequence.withoutPositions) : t.render = u.render := by
  rw [render, render, h, List.map_map]
  congr 2
  funext s
  exact Sequence.render_withoutPositions s

end Pipework.Task
