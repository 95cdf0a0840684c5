import Pipework.Task.Basic

/-! Equality of tasks, and their shape: what is left without offsets and text. -/

namespace Pipework.Task

/-! ## Equality -/

mutual

def App.decEq : (a b : App) → Decidable (a = b)
  | ⟨l, n, as, ts, s, e⟩, ⟨l', n', as', ts', s', e'⟩ =>
    have := transitionsDecEq ts ts'
    decidable_of_iff (l = l' ∧ n = n' ∧ as = as' ∧ ts = ts' ∧ s = s' ∧ e = e') (by simp)

def Transition.decEq : (a b : Transition) → Decidable (a = b)
  | ⟨c, t, s, e⟩, ⟨c', t', s', e'⟩ =>
    have := Target.decEq t t'
    decidable_of_iff (c = c' ∧ t = t' ∧ s = s' ∧ e = e') (by simp)

def Target.decEq : (a b : Target) → Decidable (a = b)
  | .label n, .label n' => decidable_of_iff (n = n') (by simp)
  | .app a, .app b =>
    have := App.decEq a b
    decidable_of_iff (a = b) (by simp)
  | .label _, .app _ => isFalse nofun
  | .app _, .label _ => isFalse nofun

def transitionsDecEq : (a b : List Transition) → Decidable (a = b)
  | [], [] => isTrue rfl
  | [], _ :: _ => isFalse nofun
  | _ :: _, [] => isFalse nofun
  | t :: ts, t' :: ts' =>
    have := Transition.decEq t t'
    have := transitionsDecEq ts ts'
    decidable_of_iff (t = t' ∧ ts = ts') (by simp)

end

instance : DecidableEq App := App.decEq

mutual

def Split.decEq : (a b : Split) → Decidable (a = b)
  | ⟨l, bs, s, e⟩, ⟨l', bs', s', e'⟩ =>
    have := sequencesDecEq bs bs'
    decidable_of_iff (l = l' ∧ bs = bs' ∧ s = s' ∧ e = e') (by simp)

def Sequence.decEq : (a b : Sequence) → Decidable (a = b)
  | ⟨es, s, e⟩, ⟨es', s', e'⟩ =>
    have := elementsDecEq es es'
    decidable_of_iff (es = es' ∧ s = s' ∧ e = e') (by simp)

def Element.decEq : (a b : Element) → Decidable (a = b)
  | .app a, .app b => decidable_of_iff (a = b) (by simp)
  | .split a, .split b =>
    have := Split.decEq a b
    decidable_of_iff (a = b) (by simp)
  | .app _, .split _ => isFalse nofun
  | .split _, .app _ => isFalse nofun

def elementsDecEq : (a b : List Element) → Decidable (a = b)
  | [], [] => isTrue rfl
  | [], _ :: _ => isFalse nofun
  | _ :: _, [] => isFalse nofun
  | x :: xs, y :: ys =>
    have := Element.decEq x y
    have := elementsDecEq xs ys
    decidable_of_iff (x = y ∧ xs = ys) (by simp)

def sequencesDecEq : (a b : List Sequence) → Decidable (a = b)
  | [], [] => isTrue rfl
  | [], _ :: _ => isFalse nofun
  | _ :: _, [] => isFalse nofun
  | x :: xs, y :: ys =>
    have := Sequence.decEq x y
    have := sequencesDecEq xs ys
    decidable_of_iff (x = y ∧ xs = ys) (by simp)

end

instance : DecidableEq Sequence := Sequence.decEq

instance : DecidableEq Task := fun ⟨n, t, ss⟩ ⟨n', t', ss'⟩ =>
  decidable_of_iff (n = n' ∧ t = t' ∧ ss = ss') (by simp)

/-! ## Shape -/

mutual

def App.withoutPositions : App → App
  | ⟨label, name, arguments, transitions, _, _⟩ =>
    { label := label.map Label.withoutPosition, name,
      arguments := arguments.map Argument.withoutPosition,
      transitions := transitionsWithoutPositions transitions, start := 0, stop := 0 }

def Transition.withoutPositions : Transition → Transition
  | ⟨condition, target, _, _⟩ => ⟨condition, target.withoutPositions, 0, 0⟩

def Target.withoutPositions : Target → Target
  | .label name => .label name
  | .app a => .app a.withoutPositions

def transitionsWithoutPositions : List Transition → List Transition
  | [] => []
  | t :: ts => t.withoutPositions :: transitionsWithoutPositions ts

end

mutual

def Split.withoutPositions : Split → Split
  | ⟨label, branches, _, _⟩ =>
    ⟨label.map Label.withoutPosition, sequencesWithoutPositions branches, 0, 0⟩

def Sequence.withoutPositions : Sequence → Sequence
  | ⟨elements, _, _⟩ => ⟨elementsWithoutPositions elements, 0, 0⟩

def Element.withoutPositions : Element → Element
  | .app a => .app a.withoutPositions
  | .split s => .split s.withoutPositions

def elementsWithoutPositions : List Element → List Element
  | [] => []
  | e :: es => e.withoutPositions :: elementsWithoutPositions es

def sequencesWithoutPositions : List Sequence → List Sequence
  | [] => []
  | s :: ss => s.withoutPositions :: sequencesWithoutPositions ss

end

theorem transitionsWithoutPositions_eq_map (ts : List Transition) :
    transitionsWithoutPositions ts = ts.map Transition.withoutPositions := by
  induction ts with
  | nil => rfl
  | cons t ts ih => simp [transitionsWithoutPositions, ih]

theorem elementsWithoutPositions_eq_map (es : List Element) :
    elementsWithoutPositions es = es.map Element.withoutPositions := by
  induction es with
  | nil => rfl
  | cons e es ih => simp [elementsWithoutPositions, ih]

theorem sequencesWithoutPositions_eq_map (ss : List Sequence) :
    sequencesWithoutPositions ss = ss.map Sequence.withoutPositions := by
  induction ss with
  | nil => rfl
  | cons s ss ih => simp [sequencesWithoutPositions, ih]

def withoutPositions (t : Task) : Task :=
  { name := t.name, text := "", sequences := t.sequences.map Sequence.withoutPositions }

def sameShape (a b : Task) : Bool := a.withoutPositions == b.withoutPositions

end Pipework.Task
