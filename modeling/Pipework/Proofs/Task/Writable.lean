import Pipework.Proofs.Task.Validity

/-! A task built by hand is read back from its printed text if nothing in it is empty and none of its
names ends in a hyphen. -/

namespace Pipework.Task

open Token Pipework.Parser Read

/-! ## Names -/

/-- The name of an app and that of its label. -/
def App.ownNames (a : App) : List String := (a.label.map Label.name).toList ++ [a.name]

def Target.names : Target → List String
  | .label name => [name]
  | .app a => a.ownNames

/-- The names written at a node; a transition has those of what it leads to. -/
def Node.names : Node → List String
  | .app a => a.ownNames
  | .split s => (s.label.map Label.name).toList
  | .transition t => t.target.names
  | _ => []

/-- The labels, app names and jump labels of a task, in the order of the walk. -/
def names (t : Task) : List String := t.nodes.flatMap Node.names

theorem mem_nodesOf {es : List Element} {e : Element} {n : Node} (he : e ∈ es)
    (hn : n ∈ nodesOf [e]) : n ∈ nodesOf es := by
  rw [nodesOf_eq_flatMap]
  exact List.mem_flatMap.mpr ⟨e, he, hn⟩

theorem App.mem_ownNames_of_plainName? {a : App} {name : String} (h : a.plainName? = some name) :
    name ∈ a.ownNames := by
  unfold plainName? at h
  split at h
  · cases h
    simp [ownNames]
  · cases h

theorem Target.mem_names_of_lastName? {t : Target} {name : String} (h : t.lastName? = some name) :
    name ∈ t.names := by
  cases t with
  | label n =>
    cases h
    simp [names]
  | app a => exact App.mem_ownNames_of_plainName? h

/-- The name that the text of an element ends in is one of its names. -/
theorem Element.exists_node_of_lastName? {e : Element} {name : String}
    (h : e.lastName? = some name) : ∃ n ∈ nodesOf [e], name ∈ n.names := by
  cases e with
  | split s => cases h
  | app a =>
    have h : a.lastName? = some name := h
    unfold App.lastName? at h
    cases ht : a.transitions.getLast? with
    | none =>
      rw [ht] at h
      exact ⟨.app a, by simp, App.mem_ownNames_of_plainName? h⟩
    | some t =>
      rw [ht] at h
      have hmem : t ∈ a.transitions := List.mem_of_getLast? ht
      exact ⟨.transition t, by simp [hmem], Target.mem_names_of_lastName? h⟩

theorem Sequence.exists_node_of_lastName? {s : Sequence} {name : String}
    (h : s.lastName? = some name) : ∃ n ∈ nodesOf s.elements, name ∈ n.names := by
  obtain ⟨e, he, hl⟩ := Option.bind_eq_some_iff.mp h
  obtain ⟨n, hn, hname⟩ := e.exists_node_of_lastName? hl
  exact ⟨n, mem_nodesOf (List.mem_of_getLast? he) hn, hname⟩

/-! ## Tasks that can be written -/

/-- The name has no hyphen that a `>` after it would make an arrow of. -/
def KeepsArrows (name : String) : Prop := name.toList.getLast? ≠ some '-'

instance (name : String) : Decidable (KeepsArrows name) := inferInstanceAs (Decidable (_ ≠ _))

theorem endsHyphen_eq_false {name : Option String} :
    endsHyphen name = false ↔ ∀ n ∈ name, KeepsArrows n := by
  cases name <;> simp [endsHyphen, KeepsArrows]

/-- A split whose names keep arrows ends in none. -/
theorem Sequence.closes_of_names {levels : Nat} {s : Sequence} (h : s.IsWritable levels)
    (hn : ∀ n ∈ nodesOf s.elements, ∀ name ∈ n.names, KeepsArrows name) : s.closes = true := by
  induction levels generalizing s with
  | zero => cases h
  | succ levels ih =>
    obtain ⟨es, start, stop⟩ := s
    refine elementsClose_iff.mpr fun e he => ?_
    cases e with
    | app a => rfl
    | split p =>
      have hbs : ∀ b ∈ p.branches, ∀ n ∈ nodesOf b.elements, ∀ name ∈ n.names, KeepsArrows name := by
        intro b hb n hmem
        refine hn n (mem_nodesOf he ?_)
        obtain ⟨label, branches, start, stop⟩ := p
        obtain ⟨elements, start, stop⟩ := b
        rw [nodesOf_split, nodesOfBranches_eq_flatMap]
        refine List.mem_cons_of_mem _ (List.mem_append_left _ ?_)
        refine List.mem_flatMap.mpr ⟨_, hb, ?_⟩
        rw [nodes_sequence]
        exact List.mem_cons_of_mem _ hmem
      refine closes_split.mpr ⟨fun b hb => ?_, fun b hb => ?_⟩
      · exact ih ((h.2 _ he).branches b hb) (hbs b hb)
      · refine endsHyphen_eq_false.mpr fun name hname => ?_
        obtain ⟨n, hmem, hname⟩ := b.exists_node_of_lastName? hname
        exact hbs b (List.mem_of_getLast? hb) n hmem name hname

theorem isWord_of_digits {text : String} (hne : text ≠ "")
    (hd : text.toList.all Text.isAsciiDigit = true) : isWord text = true := by
  obtain ⟨c, cs, hcs⟩ := List.exists_cons_of_ne_nil (mt String.toList_eq_nil_iff.mp hne)
  have hstart : ∀ d ∈ c :: cs, Text.startsName d = true := by
    intro d hmem
    rw [hcs, List.all_eq_true] at hd
    exact startsName_of_isAsciiDigit (hd d hmem)
  rw [isWord, hcs, isNameWord, hstart c (by simp), Bool.true_and, List.all_eq_true]
  intro d hmem
  rw [hstart d (List.mem_cons_of_mem _ hmem), Bool.true_or]

theorem Condition.isWritable_exitCode {text : String} : (Condition.exitCode text).IsWritable ↔
    text = "*" ∨ text ≠ "" ∧ text.toList.all Text.isAsciiDigit = true := by
  constructor
  · rintro (rfl | ⟨hw, hd⟩)
    · exact .inl rfl
    · refine .inr ⟨?_, hd⟩
      rintro rfl
      exact absurd hw (by decide)
  · rintro (rfl | ⟨hne, hd⟩)
    · exact .inl rfl
    · exact .inr ⟨isWord_of_digits hne hd, hd⟩

structure IsWritable (t : Task) : Prop where
  name : ∀ n ∈ t.name, Text.isLegalName n = true
  nonempty : t.sequences ≠ []
  /-- Splits are at most `maxDepth - 1` deep. -/
  sequences : ∀ s ∈ t.sequences, s.IsWritable maxDepth
  names : ∀ n ∈ t.names, KeepsArrows n

theorem IsWritable.closes {t : Task} (h : t.IsWritable) : t.closes = true := by
  refine branchesClose_iff.mpr fun s hs =>
    Sequence.closes_of_names (h.sequences s hs) fun n hn name hname => ?_
  exact h.names name (List.mem_flatMap.mpr ⟨n, mem_nodes ⟨s, hs, hn⟩, hname⟩)

theorem sameShape_render {t : Task} (h : t.IsWritable) :
    ∃ m, parseWith { name := t.name, validate := false } t.render = .ok m ∧ m.sameShape t = true := by
  obtain ⟨m, hm, hs⟩ := parseUnchecked_of_closes h.name ⟨h.nonempty, h.sequences⟩ h.closes
  refine ⟨m, ?_, by simpa [sameShape] using hs⟩
  simp [parseWith, hm, bind, Except.bind, pure, Except.pure]

/-- Numbers for names, a status over two lines, and a second sequence that begins with a number as an
exit code does. -/
theorem sameShape_render_numbers : ∃ t : Task, t.IsWritable ∧
    t.render = "1: 0 --x.y='it''s \x7c' *->:s 'a\n''->'->l: 2 && s: <b || <d || c 0->:1>>\n3 4->5\n6" ∧
      ∃ m, parseWith { name := t.name, validate := false } t.render = .ok m ∧ m.sameShape t = true := by
  have h : IsWritable ⟨some "n-1", "", [
      ⟨[.app ⟨some ⟨"1", 0, 0⟩, "0", [⟨"x.y", "it's \x7c", 0, 0⟩],
          [⟨.exitCode "*", .label "s", 0, 0⟩,
            ⟨.exitStatus "a\n'->", .app ⟨some ⟨"l", 0, 0⟩, "2", [], [], 0, 0⟩, 0, 0⟩], 0, 0⟩,
        .split ⟨some ⟨"s", 0, 0⟩, [⟨[.app ⟨none, "b", [], [], 0, 0⟩], 0, 0⟩,
          ⟨[.split ⟨none, [⟨[.app ⟨none, "d", [], [], 0, 0⟩], 0, 0⟩,
            ⟨[.app ⟨none, "c", [], [⟨.exitCode "0", .label "1", 0, 0⟩], 0, 0⟩], 0, 0⟩], 0, 0⟩], 0, 0⟩], 0, 0⟩],
        0, 0⟩,
      ⟨[.app ⟨none, "3", [], [⟨.exitCode "4", .app ⟨none, "5", [], [], 0, 0⟩, 0, 0⟩], 0, 0⟩], 0, 0⟩,
      ⟨[.app ⟨none, "6", [], [], 0, 0⟩], 0, 0⟩]⟩ := by
    refine ⟨by decide +kernel, by simp, ?_, by decide +kernel⟩
    have plain : ∀ {label : Option Label} {n : String}, (∀ l ∈ label, isWord l.name = true) →
        isWord n = true → App.IsPlain ⟨label, n, [], [], 0, 0⟩ := fun hl hn => ⟨hl, hn, by simp⟩
    have single : ∀ {levels : Nat} {e : Element}, e.IsWritable (Sequence.IsWritable levels) →
        Sequence.IsWritable (levels + 1) ⟨[e], 0, 0⟩ := fun he => ⟨by simp, by simpa using he⟩
    have alone : ∀ {levels : Nat} {n : String}, isWord n = true →
        Sequence.IsWritable (levels + 1) ⟨[.app ⟨none, n, [], [], 0, 0⟩], 0, 0⟩ := fun hn =>
      single ⟨plain (by simp) hn, by simp⟩
    have code : ∀ {n : String}, n ≠ "" ∧ n.toList.all Text.isAsciiDigit = true →
        (Condition.exitCode n).IsWritable := fun hn => Condition.isWritable_exitCode.mpr (.inr hn)
    have hc : ∀ {levels : Nat}, Sequence.IsWritable (levels + 1)
        ⟨[.app ⟨none, "c", [], [⟨.exitCode "0", .label "1", 0, 0⟩], 0, 0⟩], 0, 0⟩ := by
      refine single ⟨⟨by simp, by decide +kernel, by simp⟩, ?_⟩
      simp only [List.forall_mem_singleton]
      exact ⟨code (by decide), (by decide +kernel : isWord "1" = true)⟩
    simp only [List.forall_mem_cons, List.not_mem_nil, false_implies, implies_true, and_true]
    refine ⟨⟨by simp, ?_⟩, single ⟨⟨by simp, by decide +kernel, by simp⟩, ?_⟩,
      alone (by decide +kernel)⟩
    · simp only [List.forall_mem_cons, List.not_mem_nil, false_implies, implies_true, and_true]
      refine ⟨⟨⟨by decide +kernel, by decide +kernel, ?_⟩, ?_⟩, by decide +kernel, by simp, ?_⟩
      · simp only [List.forall_mem_singleton]
        exact ⟨['x'], [['y']], by decide +kernel, by decide +kernel, rfl⟩
      · simp only [List.forall_mem_cons, List.not_mem_nil, false_implies, implies_true, and_true]
        exact ⟨⟨.inl rfl, (by decide +kernel : isWord "s" = true)⟩, trivial,
          plain (by decide +kernel) (by decide +kernel), rfl⟩
      · simp only [List.forall_mem_cons, List.not_mem_nil, false_implies, implies_true, and_true]
        refine ⟨alone (by decide +kernel), single ⟨by simp, by simp, ?_⟩⟩
        simp only [List.forall_mem_cons, List.not_mem_nil, false_implies, implies_true, and_true]
        exact ⟨alone (by decide +kernel), hc⟩
    · simp only [List.forall_mem_singleton]
      exact ⟨code (by decide), plain (by simp) (by decide +kernel), rfl⟩
  exact ⟨_, h, by decide +kernel, sameShape_render h⟩

end Pipework.Task
