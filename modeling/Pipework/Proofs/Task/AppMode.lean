import Pipework.Proofs.Task.Marks
import Pipework.Proofs.Task.Nesting

/-! Tasks are read without arguments as they are read with them, but for those that have any: what
is derived either way is the same, node by node. -/

namespace Pipework.Task

open Token Pipework.Parser Read

/-! ## Tasks without arguments -/

/-- No argument is written at the node, be it at an app of a flow or at one that a transition leads
to. -/
def Node.IsBare : Node → Prop
  | .app a => a.arguments = []
  | .transition t => ∀ a, t.target = .app a → a.arguments = []
  | _ => True

def Sequence.IsBare (s : Sequence) : Prop := ∀ n ∈ nodesOf s.elements, n.IsBare

def IsBare (t : Task) : Prop := ∀ n ∈ t.nodes, n.IsBare

theorem isBare_iff {t : Task} : t.IsBare ↔ ∀ s ∈ t.sequences, s.IsBare :=
  ⟨fun h s hs n hn => h n (mem_nodes ⟨s, hs, hn⟩),
    fun h => forall_mem_nodes trivial (fun _ _ _ => trivial) h⟩

theorem bare_append {es fs : List Element} : (∀ n ∈ nodesOf (es ++ fs), n.IsBare) ↔
    (∀ n ∈ nodesOf es, n.IsBare) ∧ ∀ n ∈ nodesOf fs, n.IsBare := by
  rw [nodesOf_eq_flatMap, List.flatMap_append, ← nodesOf_eq_flatMap, ← nodesOf_eq_flatMap,
    List.forall_mem_append]

theorem bare_flatten {ess : List (List Element)} : (∀ n ∈ nodesOf ess.flatten, n.IsBare) ↔
    ∀ es ∈ ess, ∀ n ∈ nodesOf es, n.IsBare := by
  induction ess with
  | nil => simp
  | cons es ess ih => rw [List.flatten_cons, bare_append, ih, List.forall_mem_cons]

theorem bare_app {a : App} : (∀ n ∈ nodesOf [.app a], n.IsBare) ↔
    a.arguments = [] ∧ ∀ t ∈ a.transitions, (Node.transition t).IsBare := by
  rw [nodesOf_app, nodesOf_nil, List.append_nil, List.forall_mem_cons, List.forall_mem_map]
  exact Iff.rfl

theorem bare_split {label : Option Label} {bs : List Sequence} {start stop : Nat} :
    (∀ n ∈ nodesOf [.split ⟨label, bs, start, stop⟩], n.IsBare) ↔ ∀ b ∈ bs, b.IsBare := by
  rw [nodesOf_split, nodesOf_nil, List.append_nil, List.forall_mem_cons, nodesOfBranches_eq_flatMap]
  have hsequence : ∀ b : Sequence, (∀ n ∈ b.nodes, n.IsBare) ↔ b.IsBare := by
    intro b
    obtain ⟨elements, start, stop⟩ := b
    rw [nodes_sequence, List.forall_mem_cons]
    exact and_iff_right trivial
  simp only [List.forall_mem_flatMap, hsequence]
  exact and_iff_right trivial

/-! ## Derivations -/

/-- What the one relation derives is what the other derives and the predicate lets through. -/
def Filters {α : Type} (Item' Item : List Sight → α → Prop) (P : α → Prop) : Prop :=
  ∀ vs a, Item' vs a ↔ Item vs a ∧ P a

section

variable {α : Type} {Item Item' : List Sight → α → Prop} {P : α → Prop}

theorem Filters.many (h : Filters Item' Item P) :
    Filters (Many Item') (Many Item) fun as => ∀ a ∈ as, P a := by
  intro vs as
  constructor
  · intro hm
    exact ⟨hm.mono fun _ _ _ ha => ((h _ _).mp ha).1, hm.forall_item fun ha => ((h _ _).mp ha).2⟩
  · intro hm
    obtain ⟨hm, hP⟩ := hm
    exact hm.mono fun _ a ha hi => (h _ _).mpr ⟨hi, hP a ha⟩

theorem Filters.behind {separator : Kind} (h : Filters Item' Item P) :
    Filters (Behind separator Item') (Behind separator Item) P := by
  intro vs a
  constructor
  · intro hb
    obtain ⟨hv, ha⟩ := hb
    obtain ⟨ha, hP⟩ := (h _ _).mp ha
    exact ⟨.mk hv ha, hP⟩
  · intro hb
    obtain ⟨⟨hv, ha⟩, hP⟩ := hb
    exact .mk hv ((h _ _).mpr ⟨ha, hP⟩)

end

theorem filters_plain : Filters (DerivesPlain false) (DerivesPlain true) (·.arguments = []) := by
  intro vs a
  constructor
  · intro h
    obtain ⟨hl, hn, has, hm⟩ := h
    exact ⟨.mk hl hn has fun _ => rfl, by simpa using hm⟩
  · intro h
    obtain ⟨⟨hl, hn, has, -⟩, hnil⟩ := h
    exact .mk hl hn has fun hne => absurd hnil hne

theorem filters_transition : Filters (DerivesTransition false) (DerivesTransition true)
    fun t => (Node.transition t).IsBare := by
  intro vs t
  constructor
  · intro h
    obtain ⟨hs, hk, ht⟩ := h
    cases ht with
    | label hc hn => exact ⟨.mk hs hk (.label hc hn), nofun⟩
    | app ha =>
      obtain ⟨ha, hnil⟩ := (filters_plain _ _).mp ha
      refine ⟨.mk hs hk (.app ha), fun b hb => ?_⟩
      obtain rfl := Target.app.inj hb
      exact hnil
  · intro h
    obtain ⟨⟨hs, hk, ht⟩, hbare⟩ := h
    cases ht with
    | label hc hn => exact .mk hs hk (.label hc hn)
    | app ha => exact .mk hs hk (.app ((filters_plain _ _).mpr ⟨ha, hbare _ rfl⟩))

theorem filters_app : Filters (DerivesApp false) (DerivesApp true)
    fun a => a.arguments = [] ∧ ∀ t ∈ a.transitions, (Node.transition t).IsBare := by
  intro vs a
  constructor
  · intro h
    obtain ⟨ha, hts⟩ := h
    obtain ⟨ha, hnil⟩ := (filters_plain _ _).mp ha
    obtain ⟨hts, hbare⟩ := (filters_transition.many _ _).mp hts
    exact ⟨.mk ha hts, hnil, hbare⟩
  · intro h
    obtain ⟨⟨ha, hts⟩, hnil, hbare⟩ := h
    exact .mk ((filters_plain _ _).mpr ⟨ha, hnil⟩) ((filters_transition.many _ _).mpr ⟨hts, hbare⟩)

/-- One level: within brackets stand sequences one level further down. -/
theorem filters_elements {Inner Inner' : List Sight → Sequence → Prop}
    (hinner : Filters Inner' Inner Sequence.IsBare) :
    Filters (DerivesElements false Inner') (DerivesElements true Inner)
      fun es => ∀ n ∈ nodesOf es, n.IsBare := by
  intro vs es
  constructor
  · intro h
    cases h with
    | group hk hs hk' =>
      obtain ⟨hs, hbare⟩ := (hinner _ _).mp hs
      exact ⟨.group hk hs hk', hbare⟩
    | split hl hk hf hm hk' =>
      obtain ⟨hf, hfirst⟩ := (hinner _ _).mp hf
      obtain ⟨hm, hrest⟩ := (hinner.behind.many _ _).mp hm
      exact ⟨.split hl hk hf hm hk', bare_split.mpr (List.forall_mem_cons.mpr ⟨hfirst, hrest⟩)⟩
    | app ha =>
      obtain ⟨ha, hbare⟩ := (filters_app _ _).mp ha
      exact ⟨.app ha, bare_app.mpr hbare⟩
  · intro h
    obtain ⟨h, hbare⟩ := h
    cases h with
    | group hk hs hk' => exact .group hk ((hinner _ _).mpr ⟨hs, hbare⟩) hk'
    | split hl hk hf hm hk' =>
      obtain ⟨hfirst, hrest⟩ := List.forall_mem_cons.mp (bare_split.mp hbare)
      exact .split hl hk ((hinner _ _).mpr ⟨hf, hfirst⟩)
        ((hinner.behind.many _ _).mpr ⟨hm, hrest⟩) hk'
    | app ha => exact .app ((filters_app _ _).mpr ⟨ha, bare_app.mp hbare⟩)

theorem filters_sequence {levels : Nat} :
    Filters (DerivesSequence false levels) (DerivesSequence true levels) Sequence.IsBare := by
  induction levels with
  | zero => exact fun _ _ => iff_of_false id And.left
  | succ levels ih =>
    have helements := filters_elements ih
    intro vs s
    constructor
    · intro h
      obtain ⟨us, ws, first, rest, rfl, hf, hm, rfl⟩ := h
      obtain ⟨hf, hfirst⟩ := (helements _ _).mp hf
      obtain ⟨hm, hrest⟩ := (helements.behind.many _ _).mp hm
      exact ⟨⟨us, ws, first, rest, rfl, hf, hm, rfl⟩,
        bare_append.mpr ⟨hfirst, bare_flatten.mpr hrest⟩⟩
    · intro h
      obtain ⟨⟨us, ws, first, rest, rfl, hf, hm, rfl⟩, hbare⟩ := h
      obtain ⟨hfirst, hrest⟩ := bare_append.mp hbare
      exact ⟨us, ws, first, rest, rfl, (helements _ _).mpr ⟨hf, hfirst⟩,
        (helements.behind.many _ _).mpr ⟨hm, bare_flatten.mp hrest⟩, rfl⟩

theorem filters_next {levels : Nat} :
    Filters (DerivesNext false levels) (DerivesNext true levels) Sequence.IsBare := by
  intro vs s
  constructor
  · intro h
    cases h with
    | semicolon hk hs =>
      obtain ⟨hs, hbare⟩ := (filters_sequence _ _).mp hs
      exact ⟨.semicolon hk hs, hbare⟩
    | line hb hs =>
      obtain ⟨hs, hbare⟩ := (filters_sequence _ _).mp hs
      exact ⟨.line hb hs, hbare⟩
  · intro h
    obtain ⟨h, hbare⟩ := h
    cases h with
    | semicolon hk hs => exact .semicolon hk ((filters_sequence _ _).mpr ⟨hs, hbare⟩)
    | line hb hs => exact .line hb ((filters_sequence _ _).mpr ⟨hs, hbare⟩)

theorem filters_derives {levels : Nat} :
    Filters (Derives false levels) (Derives true levels) fun ss => ∀ s ∈ ss, s.IsBare := by
  intro vs ss
  constructor
  · intro h
    obtain ⟨hs, hm, hz⟩ := h
    obtain ⟨hs, hfirst⟩ := (filters_sequence _ _).mp hs
    obtain ⟨hm, hrest⟩ := (filters_next.many _ _).mp hm
    exact ⟨.mk hs hm hz, List.forall_mem_cons.mpr ⟨hfirst, hrest⟩⟩
  · intro h
    obtain ⟨⟨hs, hm, hz⟩, hbare⟩ := h
    obtain ⟨hfirst, hrest⟩ := List.forall_mem_cons.mp hbare
    exact .mk ((filters_sequence _ _).mpr ⟨hs, hfirst⟩) ((filters_next.many _ _).mpr ⟨hm, hrest⟩) hz

/-! ## Texts -/

variable {options : Options} {text : String} {t : Task}

theorem parseUnchecked_false {name : Option String} : parseUnchecked name false text = .ok t ↔
    parseUnchecked name true text = .ok t ∧ t.IsBare := by
  cases hts : tokenize text with
  | error e => simp [parseUnchecked, hts, bind, Except.bind]
  | ok ts =>
    simp only [parseUnchecked_iff_derives hts, filters_derives _ _, isBare_iff, and_assoc]

/-- Whether a task is checked as a whole or not, without arguments the same tasks are read as with
them, but for those that have any. -/
theorem parseWith_without_arguments : parseWith { options with appMode := false } text = .ok t ↔
    parseWith { options with appMode := true } text = .ok t ∧ t.IsBare := by
  simp only [parseWith_eq_ok, parseUnchecked_false]
  exact and_right_comm

/-- The second task has an argument, at an app that a transition leads to. -/
theorem parseWith_without_arguments_target :
    (∃ t, parseWith { appMode := false } "a 0->b && <c || d>" = .ok t ∧
      parseWith { appMode := true } "a 0->b && <c || d>" = .ok t ∧ t.IsBare) ∧
    ∃ t f, parseWith { appMode := true } "a 0->b --k=1" = .ok t ∧ ¬t.IsBare ∧
      parseWith { appMode := false } "a 0->b --k=1" = .error f ∧
      f.message = .taskArgumentsNotAllowedUnlessInAppMode ∧ f.offset = 7 := by
  constructor
  · have hread : (parseWith { appMode := false } "a 0->b && <c || d>").toOption.isSome = true := by
      decide +kernel
    obtain ⟨t, ht⟩ := Option.isSome_iff_exists.mp hread
    have ht := toOption_eq_some.mp ht
    exact ⟨t, ht, (@parseWith_without_arguments {} _ t).mp ht⟩
  · have hread : (parseWith { appMode := true } "a 0->b --k=1").toOption.isSome = true := by
      decide +kernel
    obtain ⟨t, ht⟩ := Option.isSome_iff_exists.mp hread
    obtain ⟨f, hf, hfault⟩ : ∃ f, faultOf (parseWith { appMode := false } "a 0->b --k=1") = some f ∧
        f.message = .taskArgumentsNotAllowedUnlessInAppMode ∧ f.offset = 7 := by decide +kernel
    have ht := toOption_eq_some.mp ht
    have hf := faultOf_eq_some.mp hf
    refine ⟨t, f, ht, fun hbare => ?_, hf, hfault⟩
    have hread := (@parseWith_without_arguments {} _ t).mpr ⟨ht, hbare⟩
    exact absurd (hread.symm.trans hf) (by simp)

end Pipework.Task
