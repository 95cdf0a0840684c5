import Pipework.Proofs.Graph.Reading
import Pipework.Proofs.Task.Validity
import Pipework.Graph.Drawing

/-! In which order the sequences of a task are drawn: a jump to a label that has no node yet draws the
sequence that is named by the label, whose own jumps are resolved last. -/

namespace Pipework.Graph

open Pipework.Task

/-- The labels of a sequence. -/
def labelsIn (s : Sequence) : List String := (nodesOf s.elements).filterMap Node.label?

/-- The labels that transitions of a sequence lead to, in their order. -/
def jumpsIn (s : Sequence) : List String := (nodesOf s.elements).filterMap Node.jump?

/-- The sequence is named by a label of it. -/
theorem mem_labelsIn {s : Sequence} {l : String} (h : s.label? = some l) : l ∈ labelsIn s := by
  obtain ⟨_ | ⟨e, es⟩, start, stop⟩ := s
  · cases h
  · rw [labelsIn, nodesOf_cons, List.filterMap_append]
    refine List.mem_append_left _ ?_
    cases e with
    | app a => exact List.mem_filterMap.mpr ⟨.app a, by simp, h⟩
    | split s =>
      obtain ⟨label, bs, start, stop⟩ := s
      exact List.mem_filterMap.mpr ⟨.split ⟨label, bs, start, stop⟩, by simp, h⟩

theorem eq_of_mem_labelsIn {ss : List Sequence} (h : (ss.flatMap labelsIn).Nodup) {r s : Sequence}
    (hr : r ∈ ss) (hs : s ∈ ss) {l : String} (hlr : l ∈ labelsIn r) (hls : l ∈ labelsIn s) : r = s := by
  by_contra hne
  have : Std.Symm (Function.onFun List.Disjoint labelsIn) := ⟨fun _ _ h => h.symm⟩
  exact (List.nodup_flatMap.mp h).2.forall hr hs hne hlr hls

theorem nodup_labelsIn {t : Task} (h : t.validate = .ok ()) : (t.sequences.flatMap labelsIn).Nodup := by
  have := nodup_labels h
  rwa [filterMap_nodes Node.label? (fun _ => rfl) fun _ _ => rfl] at this

/-! ## Jumps of a task -/

mutual

theorem length_jumpsIn : (s : Sequence) → (jumpsIn s).length ≤ countTransitions s
  | ⟨es, _, _⟩ => length_jumps_elements es

theorem length_jumps_elements : (es : List Element) →
    ((nodesOf es).filterMap Node.jump?).length ≤ countInElements es
  | [] => Nat.le_refl _
  | .app a :: es => by
    rw [nodesOf_app, List.filterMap_cons_none rfl, List.filterMap_append, List.length_append,
      countInElements]
    refine Nat.add_le_add ?_ (length_jumps_elements es)
    rw [← List.length_map Node.transition]
    exact List.length_filterMap_le ..
  | .split ⟨label, bs, start, stop⟩ :: es => by
    rw [nodesOf_split, List.filterMap_cons_none rfl, List.filterMap_append, List.length_append,
      countInElements, countInSplit]
    exact Nat.add_le_add (length_jumps_branches bs) (length_jumps_elements es)

theorem length_jumps_branches : (bs : List Sequence) →
    ((nodesOfBranches bs).filterMap Node.jump?).length ≤ countInBranches bs
  | [] => Nat.le_refl _
  | ⟨es, start, stop⟩ :: bs => by
    rw [nodesOfBranches_cons, nodes_sequence, List.cons_append, List.filterMap_cons_none rfl,
      List.filterMap_append, List.length_append, countInBranches]
    exact Nat.add_le_add (length_jumps_elements es) (length_jumps_branches bs)

end

theorem length_flatMap_jumpsIn (ss : List Sequence) :
    (ss.flatMap jumpsIn).length ≤ countInBranches ss := by
  induction ss with
  | nil => exact Nat.le_refl _
  | cons s ss ih =>
    rw [List.flatMap_cons, List.length_append, countInBranches]
    exact Nat.add_le_add (length_jumpsIn s) ih

/-! ## The queue of jumps -/

/-- Resolving a queue of jumps, when the sequences `done` are drawn: the sequences `order` are drawn, one
after the other, and the labels `misses` are not found. -/
inductive Unrolls (secondary : List Sequence) :
    List Sequence → List String → List Sequence → List String → Prop where
  | nil {done : List Sequence} : Unrolls secondary done [] [] []
  | known {done order : List Sequence} {queue misses : List String} {l : String}
      (hl : l ∈ done.flatMap labelsIn) (h : Unrolls secondary done queue order misses) :
      Unrolls secondary done (l :: queue) order misses
  | draw {done order : List Sequence} {queue misses : List String} {l : String} {s : Sequence}
      (hl : l ∉ done.flatMap labelsIn) (hs : secondary.find? (fun s => s.label? == some l) = some s)
      (h : Unrolls secondary (done ++ [s]) (queue ++ jumpsIn s) order misses) :
      Unrolls secondary done (l :: queue) (s :: order) misses
  | miss {done order : List Sequence} {queue misses : List String} {l : String}
      (hl : l ∉ done.flatMap labelsIn)
      (hs : secondary.find? (fun s => s.label? == some l) = none)
      (h : Unrolls secondary done queue order misses) :
      Unrolls secondary done (l :: queue) order (l :: misses)

variable {secondary done order : List Sequence} {queue misses : List String}

/-- The jumps of sequences that are drawn already draw nothing. -/
theorem Unrolls.of_known (h : ∀ l ∈ queue, l ∈ done.flatMap labelsIn) :
    Unrolls secondary done queue [] [] := by
  induction queue with
  | nil => exact .nil
  | cons l queue ih =>
    obtain ⟨hl, hqueue⟩ := List.forall_mem_cons.mp h
    exact .known hl (ih hqueue)

/-- A sequence is drawn for a jump of the queue or of a sequence that is drawn before it. -/
theorem Unrolls.called (h : Unrolls secondary done queue order misses) {xs ys : List Sequence}
    {s : Sequence} (ho : order = xs ++ s :: ys) :
    ∃ l ∈ queue ++ xs.flatMap jumpsIn, s.label? = some l := by
  induction h generalizing xs with
  | nil => simp at ho
  | known _ _ ih | miss _ _ _ ih =>
    obtain ⟨l, hl, hs⟩ := ih ho
    exact ⟨l, List.mem_cons_of_mem _ hl, hs⟩
  | draw _ hs _ ih =>
    cases xs with
    | nil =>
      obtain ⟨rfl, -⟩ := List.cons.inj ho
      exact ⟨_, List.mem_cons_self, by simpa using List.find?_some hs⟩
    | cons x xs =>
      obtain ⟨rfl, rfl⟩ := List.cons.inj ho
      obtain ⟨l, hl, hs⟩ := ih rfl
      rw [List.append_assoc] at hl
      exact ⟨l, List.mem_cons_of_mem _ hl, hs⟩

theorem mem_labels_append {l : String} (hl : l ∈ done.flatMap labelsIn) :
    l ∈ (done ++ order).flatMap labelsIn := by
  rw [List.flatMap_append]
  exact List.mem_append_left _ hl

/-- The label of a jump is drawn in the end, unless it names no secondary sequence. -/
theorem Unrolls.covered (h : Unrolls secondary done queue order misses) {l : String}
    (hl : l ∈ queue ++ order.flatMap jumpsIn) :
    l ∈ (done ++ order).flatMap labelsIn ∨ ∀ s ∈ secondary, s.label? ≠ some l := by
  induction h with
  | nil => cases hl
  | known hm _ ih =>
    rcases List.mem_cons.mp hl with rfl | hl
    · exact .inl (mem_labels_append hm)
    · exact ih hl
  | @draw done order queue misses m s hm hs _ ih =>
    rw [List.append_cons]
    rcases List.mem_cons.mp hl with rfl | hl
    · have hlabel : s.label? = some l := by simpa using List.find?_some hs
      exact .inl (mem_labels_append (List.mem_flatMap.mpr ⟨s, by simp, mem_labelsIn hlabel⟩))
    · exact ih (by simpa using hl)
  | miss hm hs _ ih =>
    rcases List.mem_cons.mp hl with rfl | hl
    · exact .inr fun s hmem => by simpa using List.find?_eq_none.mp hs s hmem
    · exact ih hl

theorem not_mem_done {s : Sequence} {l : String} (hl : l ∉ done.flatMap labelsIn)
    (hs : secondary.find? (fun s => s.label? == some l) = some s) : s ∉ done := fun hmem =>
  hl (List.mem_flatMap.mpr ⟨s, hmem, mem_labelsIn (by simpa using List.find?_some hs)⟩)

/-- Each secondary sequence is drawn once at most. -/
theorem Unrolls.nodup (h : Unrolls secondary done queue order misses) :
    order.Nodup ∧ ∀ s ∈ order, s ∈ secondary ∧ s ∉ done := by
  induction h with
  | nil => simp
  | known _ _ ih | miss _ _ _ ih => exact ih
  | draw hl hs _ ih =>
    obtain ⟨hnodup, horder⟩ := ih
    refine ⟨List.nodup_cons.mpr ⟨fun hmem => (horder _ hmem).2 (by simp), hnodup⟩,
      List.forall_mem_cons.mpr ⟨⟨List.mem_of_find?_eq_some hs, not_mem_done hl hs⟩, fun r hr => ?_⟩⟩
    obtain ⟨hmem, hdone⟩ := horder r hr
    exact ⟨hmem, fun hr => hdone (List.mem_append_left _ hr)⟩

theorem Unrolls.length_jumps_le (h : Unrolls secondary done queue order misses) :
    (order.flatMap jumpsIn).length ≤ (secondary.flatMap jumpsIn).length := by
  obtain ⟨hnodup, horder⟩ := h.nodup
  obtain ⟨rs, hperm, hsub⟩ := hnodup.subperm fun s hs => (horder s hs).1
  rw [← (hperm.flatMap_right jumpsIn).length_eq]
  exact (hsub.flatMap jumpsIn).length_le

/-- The transitions of a task bound the jumps that are resolved. -/
theorem Unrolls.length_le {first : Sequence}
    (h : Unrolls secondary done (jumpsIn first) order misses) :
    (jumpsIn first).length + (order.flatMap jumpsIn).length ≤ countInBranches (first :: secondary) := by
  have := h.length_jumps_le
  have := length_flatMap_jumpsIn secondary
  have := length_jumpsIn first
  rw [countInBranches]
  omega

/-- The secondary sequences that are not drawn. -/
def undrawn (secondary done : List Sequence) : Nat := secondary.countP fun s => s ∉ done

theorem undrawn_lt {s : Sequence} {l : String} (hl : l ∉ done.flatMap labelsIn)
    (hs : secondary.find? (fun s => s.label? == some l) = some s) :
    undrawn secondary (done ++ [s]) < undrawn secondary done := by
  refine countP_lt (fun r hr => ?_) (List.mem_of_find?_eq_some hs) (by simp)
    (by simpa using not_mem_done hl hs)
  simp only [decide_eq_true_eq, List.mem_append, not_or] at hr ⊢
  exact hr.1

/-- Resolving ends: a jump is taken from the queue, or there is one sequence less to draw. -/
theorem exists_unrolls (secondary : List Sequence) : (done : List Sequence) → (queue : List String) →
    ∃ order misses, Unrolls secondary done queue order misses
  | _, [] => ⟨[], [], .nil⟩
  | done, l :: queue => by
    by_cases hl : l ∈ done.flatMap labelsIn
    · obtain ⟨order, misses, h⟩ := exists_unrolls secondary done queue
      exact ⟨order, misses, .known hl h⟩
    · cases hs : secondary.find? fun s => s.label? == some l with
      | none =>
        obtain ⟨order, misses, h⟩ := exists_unrolls secondary done queue
        exact ⟨order, l :: misses, .miss hl hs h⟩
      | some s =>
        have hlt := undrawn_lt hl hs
        obtain ⟨order, misses, h⟩ := exists_unrolls secondary (done ++ [s]) (queue ++ jumpsIn s)
        exact ⟨s :: order, misses, .draw hl hs h⟩
termination_by done queue => (undrawn secondary done, queue.length)

end Pipework.Graph
