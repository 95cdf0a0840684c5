import Pipework.Proofs.Task.WellFormed
import Pipework.Task.FanOut

/-! What the fan-out of a task is: the largest number of apps that are elements of the branches of one
split. The counts that a walk keeps of the open splits come and go with them, so the largest is
found whatever was measured before. -/

namespace Pipework.Task

open Token (toOption_eq_some)

/-! ## The numbers of apps -/

def Element.isApp : Element → Bool
  | .app _ => true
  | .split _ => false

/-- How many apps are elements themselves. -/
def appCount (es : List Element) : Nat := es.countP Element.isApp

def branchesAppCount (bs : List Sequence) : Nat := (bs.map fun b => appCount b.elements).sum

/-- How many apps are elements of the branches of a split; those of splits within it are none. -/
def Split.breadth (s : Split) : Nat := branchesAppCount s.branches

/-- What a task can have for its fan-out. -/
def fanOuts (t : Task) : Set Nat :=
  {n | n = 0 ∨ (n = 1 ∧ ∃ s ∈ t.sequences, ∃ a, .app a ∈ s.elements) ∨
    ∃ s, .split s ∈ t.flow ∧ n = s.breadth}

theorem appCount_pos {es : List Element} : 0 < appCount es ↔ ∃ a, .app a ∈ es := by
  rw [appCount, List.countP_pos_iff]
  constructor
  · rintro ⟨a | _, he, h⟩
    · exact ⟨a, he⟩
    · cases h
  · exact fun ⟨a, ha⟩ => ⟨_, ha, rfl⟩

/-! ## The walk -/

namespace FanOut

variable {f g h : FanOut} {m n : Nat} {es fs : List Element}

/-- Passing apps and elements, a walk counts the apps for the split that is open, if there is one, and
has seen what the splits among the elements come to. -/
structure Passes (apps : Nat) (flow : List Element) (f g : FanOut) : Prop where
  openSplits : g.openSplits = f.openSplits.modifyHead (· + apps)
  /-- The largest is said by its bounds, so that those of parts come together. -/
  largest : ∀ k, g.largest ≤ k ↔ f.largest ≤ k ∧ (f.openSplits = [] → 0 < apps → 1 ≤ k) ∧
    ∀ s, .split s ∈ flow → s.breadth ≤ k

theorem Passes.refl (f : FanOut) : Passes 0 [] f f where
  openSplits := by cases f.openSplits <;> simp
  largest := by simp

theorem Passes.trans (hf : Passes m es f g) (hg : Passes n fs g h) :
    Passes (m + n) (es ++ fs) f h where
  openSplits := by
    rw [hg.openSplits, hf.openSplits]
    cases f.openSplits <;> simp [Nat.add_assoc]
  largest k := by
    have hopen : g.openSplits = [] ↔ f.openSplits = [] := by
      rw [hf.openSplits]
      cases f.openSplits <;> simp
    simp only [hg.largest, hf.largest, hopen, List.mem_append, or_imp, forall_and]
    grind

theorem passes_app (f : FanOut) (a : App) : Passes 1 [.app a] f (f.step (.enter (.app a))) := by
  cases hf : f.openSplits <;> exact ⟨by simp [step, hf], by simp [step, hf]⟩

/-- The count of a split begins at 0 and is left behind with it. -/
theorem Passes.split {s : Split} (hg : Passes s.breadth fs (f.step (.enter (.split s))) g) :
    Passes 0 (.split s :: fs) f (g.step (.leave (.split s))) := by
  have hopen : g.openSplits = s.breadth :: f.openSplits := by
    simpa [step] using hg.openSplits
  refine ⟨?_, fun k => ?_⟩
  · simp only [step, hopen]
    cases f.openSplits <;> simp
  · have hle := hg.largest k
    simp only [step, reduceCtorEq, false_imp_iff, true_and] at hle
    simp only [step, hopen, Nat.max_le, hle, List.mem_cons, Element.split.injEq, Nat.lt_irrefl,
      false_imp_iff, implies_true, true_and, forall_eq_or_imp]
    tauto

/-- Transitions count for nothing. -/
theorem foldl_app (f : FanOut) (a : App) :
    (a.walk fun _ => true).foldl step f = f.step (.enter (.app a)) := by
  have htransitions : ∀ (ts : List Transition) (g : FanOut),
      (ts.flatMap fun t => Event.around (fun _ => true) (.transition t) []).foldl step g = g := by
    intro ts
    induction ts with
    | nil => exact fun g => rfl
    | cons t ts ih =>
      intro g
      rw [List.flatMap_cons, List.foldl_append, ih]
      rfl
  rw [App.walk, Event.around, if_pos rfl, List.foldl_append, List.foldl_cons, List.foldl_cons,
    htransitions]
  rfl

mutual

theorem passes_sequence (f : FanOut) (index : Option Nat) : (s : Sequence) →
    Passes (appCount s.elements) s.flow f ((s.walk (fun _ => true) index).foldl step f)
  | ⟨es, start, stop⟩ => by
    have hes := passes_elements f es
    simpa [Sequence.walk, Event.around, Sequence.flow, step] using hes

theorem passes_element (f : FanOut) : (e : Element) →
    Passes (appCount [e]) e.flow f ((e.walk fun _ => true).foldl step f)
  | .app a => by
    rw [Element.walk, foldl_app]
    exact passes_app f a
  | .split ⟨label, bs, start, stop⟩ => by
    have hbs := passes_branches (f.step (.enter (.split ⟨label, bs, start, stop⟩))) bs
    have hsplit := Passes.split (s := ⟨label, bs, start, stop⟩) hbs
    simpa [Element.walk, Split.walk, Event.around, appCount, Element.isApp, Element.flow] using hsplit

theorem passes_elements (f : FanOut) : (es : List Element) →
    Passes (appCount es) (elementsFlow es) f ((walkElements (fun _ => true) es).foldl step f)
  | [] => .refl f
  | e :: es => by
    have hes := (passes_element f e).trans (passes_elements _ es)
    have hcount : appCount (e :: es) = appCount [e] + appCount es := by
      rw [← List.singleton_append, appCount, List.countP_append]
      rfl
    rw [walkElements, List.foldl_append, hcount, elementsFlow]
    exact hes

theorem passes_branches (f : FanOut) : (bs : List Sequence) →
    Passes (branchesAppCount bs) (branchesFlow bs) f
      ((walkBranches (fun _ => true) bs).foldl step f)
  | [] => .refl f
  | b :: bs => by
    have hbs := (passes_sequence f none b).trans (passes_branches _ bs)
    rw [walkBranches, List.foldl_append]
    exact hbs

end

theorem passes_sequences (f : FanOut) (index : Nat) (ss : List Sequence) :
    Passes (branchesAppCount ss) (ss.flatMap Sequence.flow) f
      ((walkSequences (fun _ => true) index ss).foldl step f) := by
  induction ss generalizing f index with
  | nil => exact .refl f
  | cons s ss ih =>
    have hss := (passes_sequence f (some index) s).trans (ih _ (index + 1))
    rw [walkSequences, List.foldl_append]
    exact hss

/-- A measurement begins anew. -/
theorem passes_measure (f : FanOut) (t : Task) :
    Passes (branchesAppCount t.sequences) t.flow {} (f.measure t) := by
  have hss := passes_sequences {} 0 t.sequences
  simpa [measure, events, walk, Event.around, step, flow] using hss

theorem measure_isGreatest (f : FanOut) (t : Task) : IsGreatest t.fanOuts (f.measure t).largest := by
  have hle := (passes_measure f t).largest
  have houter : 0 < branchesAppCount t.sequences ↔ ∃ s ∈ t.sequences, ∃ a, .app a ∈ s.elements := by
    simp only [← appCount_pos, branchesAppCount, List.sum_pos_iff_exists_pos_nat, List.mem_map,
      exists_exists_and_eq_and]
  have hbound : ∀ k, (f.measure t).largest ≤ k ↔ ∀ n ∈ t.fanOuts, n ≤ k := fun k => by
    simp only [hle, houter, fanOuts, Set.mem_ofPred_eq]
    grind
  refine ⟨?_, fun n hn => (hbound _).mp le_rfl n hn⟩
  -- A bound of all the numbers that is none of them could be lowered.
  by_contra hmem
  have hpos : (f.measure t).largest ≠ 0 := fun h0 => hmem (h0 ▸ .inl rfl)
  have := (hbound ((f.measure t).largest - 1)).mpr fun n hn => by
    have := (hbound _).mp le_rfl n hn
    have : n ≠ (f.measure t).largest := fun h => hmem (h ▸ hn)
    omega
  omega

end FanOut

/-! ## Tasks that are read -/

/-- A first element is an app, or a split whose first branch goes on like this. -/
theorem Sequence.exists_breadth : (s : Sequence) → s.IsProper →
    (∃ a, .app a ∈ s.elements) ∨ ∃ p, .split p ∈ s.flow ∧ 1 ≤ p.breadth
  | ⟨[], _, _⟩, h => absurd rfl h.1
  | ⟨.app a :: _, _, _⟩, _ => .inl ⟨a, List.mem_cons_self⟩
  | ⟨.split ⟨label, [], start, stop⟩ :: es, _, _⟩, h => by
    have hsplit : Node.IsProper (.split ⟨label, [], start, stop⟩) := h.2 _ (by simp)
    exact absurd rfl hsplit
  | ⟨.split ⟨label, b :: bs, start, stop⟩ :: es, _, _⟩, h => by
    have hbelow : ∀ n ∈ b.nodes, n.IsProper := fun n hn => h.2 n (by simp [hn])
    have hb : b.IsProper := by
      cases b
      rw [nodes_sequence] at hbelow
      exact ⟨hbelow _ List.mem_cons_self, fun n hn => hbelow n (List.mem_cons_of_mem _ hn)⟩
    refine .inr ?_
    obtain happ | ⟨p, hp, hle⟩ := exists_breadth b hb
    · refine ⟨⟨label, b :: bs, start, stop⟩, by simp [flow, elementsFlow, Element.flow], ?_⟩
      have hpos := appCount_pos.mpr happ
      simp only [Split.breadth, branchesAppCount, List.map_cons, List.sum_cons]
      omega
    · exact ⟨p, by simp [flow, elementsFlow, Element.flow, branchesFlow, hp], hle⟩

theorem exists_pos_fanOuts {options : Options} {text : String} {t : Task}
    (h : parseWith options text = .ok t) : ∃ n ∈ t.fanOuts, 1 ≤ n := by
  obtain ⟨hne, hproper⟩ := proper_of_parse h
  obtain ⟨s, hs⟩ := List.exists_mem_of_ne_nil _ hne
  obtain happ | ⟨p, hp, hle⟩ := s.exists_breadth (hproper s hs)
  · exact ⟨1, .inr (.inl ⟨rfl, s, hs, happ⟩), le_rfl⟩
  · exact ⟨_, .inr (.inr ⟨p, List.mem_flatMap.mpr ⟨s, hs, hp⟩, rfl⟩), hle⟩

/-- Whatever was measured before, the largest count is the fan-out of the task; one that is read has
an app somewhere, so it is not 0. -/
theorem FanOut.measure_largest (f : FanOut) (t : Task) :
    IsGreatest t.fanOuts (f.measure t).largest ∧
      ∀ options text, parseWith options text = .ok t → 1 ≤ (f.measure t).largest := by
  have hgreatest := f.measure_isGreatest t
  refine ⟨hgreatest, fun options text h => ?_⟩
  obtain ⟨n, hn, hle⟩ := exists_pos_fanOuts h
  exact hle.trans (hgreatest.2 hn)

/-- The counts left open by another walk are forgotten, and the inner split is not part of the outer. -/
theorem FanOut.measure_largest_nested : ∃ t, parseWith {} "<a || <b || c || d>>" = .ok t ∧
    IsGreatest t.fanOuts 3 ∧ 1 ≤ (FanOut.measure ⟨[5, 0], 9⟩ t).largest := by
  obtain ⟨t, ht, hlargest⟩ : ∃ t, (parseWith {} "<a || <b || c || d>>").toOption = some t ∧
      (FanOut.measure ⟨[5, 0], 9⟩ t).largest = 3 := by decide +kernel
  obtain ⟨hgreatest, hpos⟩ := measure_largest ⟨[5, 0], 9⟩ t
  exact ⟨t, toOption_eq_some.mp ht, hlargest ▸ hgreatest, hpos _ _ (toOption_eq_some.mp ht)⟩

end Pipework.Task
