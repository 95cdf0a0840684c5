import Pipework.Proofs.Graph.Resolving
import Pipework.Proofs.Graph.ShownFlow

/-! An app that a graph shows is read from its node as it was written, if its transitions stand in the
order in which they are drawn: those to apps before those to labels. -/

namespace Pipework.Task

/-- The app has no reserved name, nor one of a marker if it is labelled; markers stand alone, and no target
app comes after a label. -/
structure App.IsReadable (a : App) : Prop where
  notEnd : a.name ≠ Graph.endName
  notSync : a.name ≠ Graph.syncName
  notMarker : a.label.isSome → isMarker a.name = false
  markers : ∀ t ∈ a.transitions, ∀ b ∈ t.target.app?, isMarker b.name = true →
    b.label = none ∧ b.arguments = []
  sorted : a.transitions.Pairwise fun t u => u.target.app?.isSome → t.target.app?.isSome

theorem App.isReadable_iff {a : App} : a.IsReadable ↔ a.name ≠ Graph.endName ∧ a.name ≠ Graph.syncName ∧
    (a.label.isSome → isMarker a.name = false) ∧ (∀ t ∈ a.transitions, ∀ b ∈ t.target.app?, isMarker b.name = true →
      b.label = none ∧ b.arguments = []) ∧
    a.transitions.Pairwise fun t u => u.target.app?.isSome → t.target.app?.isSome :=
  ⟨fun h => ⟨h.notEnd, h.notSync, h.notMarker, h.markers, h.sorted⟩,
    fun ⟨h₁, h₂, h₃, h₄, h₅⟩ => ⟨h₁, h₂, h₃, h₄, h₅⟩⟩

instance (a : App) : Decidable a.IsReadable := decidable_of_iff' _ App.isReadable_iff

end Pipework.Task

namespace Pipework.Graph

open Pipework.Task Drawing

variable {heads : List Nat} {log : List Taken} {D : Drawing}

/-! ## Transitions -/

/-- A transition as it is found in the links. -/
def linkTransition (g : Graph) (l : Link) : Option (Condition × Node) := do
  return (← l.condition, ← g.node? l.target)

theorem transitions_eq (g : Graph) (id : Nat) :
    g.transitions id = (g.conditionals id).filterMap g.linkTransition := by
  rw [transitions, conditionals, List.filterMap_filter, List.filterMap_filter]
  refine List.filterMap_congr fun l _ => ?_
  obtain ⟨source, target, condition⟩ := l
  cases condition <;> simp [Link.isTransition, linkTransition]

/-- The node that a transition leads to is read as its target. -/
structure ReadAs (g : Graph) (entry : String → Option Nat) (t : Transition) (p : Condition × Node) :
    Prop where
  condition : p.1 = t.condition
  target : g.targetOf p.2 = t.target.withoutPositions
  head : g.headOf p.2 = t.target.label?.bind entry

/-- The link is read as the transition. -/
def Readable (g : Graph) (entry : String → Option Nat) (t : Transition) (l : Link) : Prop :=
  ∃ p, g.linkTransition l = some p ∧ ReadAs g entry t p

theorem forall₂_readAs {g : Graph} {entry : String → Option Nat} {ts : List Transition}
    {ls : List Link} (h : List.Forall₂ (Readable g entry) ts ls) :
    List.Forall₂ (ReadAs g entry) ts (ls.filterMap g.linkTransition) := by
  induction h with
  | nil => exact .nil
  | cons h _ ih =>
    obtain ⟨p, hp, h⟩ := h
    rw [List.filterMap_cons_some hp]
    exact .cons h ih

/-- A node of a target app is not led to, and neither is it the only one that leads on. -/
theorem Drawing.Sound.headsSequence_target (h : D.Sound heads) {p : Node × Nat} (hp : p ∈ D.targets) :
    D.graph.predecessors p.2 = [] ∧ D.graph.headsSequence p.2 = false := by
  obtain ⟨-, -, hfree⟩ := h.targets p hp
  have hnone : D.graph.predecessors p.2 = [] :=
    List.eq_nil_iff_forall_not_mem.mpr fun a ha => hfree a (mem_predecessors.mp ha)
  refine ⟨hnone, ?_⟩
  rw [headsSequence, hnone, List.isEmpty_nil, Bool.true_and, List.any_eq_false]
  intro next hnext
  obtain ⟨c, hc, hc'⟩ := h.led p.2 next hnext
  rw [List.all_eq_true]
  intro hall
  have hcp : c = p.2 := by simpa using hall c (mem_predecessors.mpr hc)
  exact hc' (hcp ▸ List.mem_map_of_mem hp)

theorem toApp_targetKey (id : Nat) (a : App) :
    Node.toApp { targetKey a with id } (transitionsWithoutPositions a.transitions) =
      a.withoutPositions := by
  obtain ⟨label, name, arguments, transitions, start, stop⟩ := a
  cases label <;>
    simp [Node.toApp, Node.toLabel, targetKey, App.withoutPositions, Argument.properties,
      Label.withoutPosition, Function.comp_def, Argument.withoutPosition]

/-- A target app or a marker is read as it is written. -/
theorem TargetLink.readable (h : D.Sound heads) {t : Transition} {l : Link} (hl : TargetLink D t l)
    (hproper : ∀ a, t.target = .app a → a.transitions = [])
    (hmarker : ∀ a ∈ t.target.app?, isMarker a.name = true → a.label = none ∧ a.arguments = [])
    (entry : String → Option Nat) : Readable D.graph entry t l := by
  obtain ⟨hc, a, ha, ⟨hm, n, hn, hid⟩ | ⟨hm, hl⟩⟩ := hl
  · obtain ⟨hnode, hname⟩ := named?_getElem? h hn
    rw [hid] at hnode
    have hm' : n.isMarker = true := by rwa [Node.isMarker, hname]
    obtain ⟨hlabel, harguments⟩ := hmarker a (by rw [ha]; rfl) hm
    refine ⟨(t.condition, n), ?_, rfl, ?_, ?_⟩
    · simp [linkTransition, hc, node?_eq_getElem? h.ids, hnode]
    · rw [targetOf, if_pos hm', ha]
      have ht := hproper a ha
      obtain ⟨label, name, arguments, transitions, start, stop⟩ := a
      subst hlabel harguments ht
      simp [Node.toApp, Node.toLabel, Target.withoutPositions, App.withoutPositions, hname,
        transitionsWithoutPositions]
    · simp [headOf, hm', ha, Target.label?]
  · obtain ⟨ps, qs, hps, -⟩ := List.lookup_eq_some_iff.mp hl
    have hmem : (targetKey a, l.target) ∈ D.targets := by simp [hps]
    obtain ⟨hnode, -, -⟩ := h.targets _ hmem
    obtain ⟨hnone, hhead⟩ := h.headsSequence_target hmem
    have hm' : Node.isMarker { targetKey a with id := l.target } = false := hm
    have hjump : D.graph.isJumpTarget { targetKey a with id := l.target } = false := by
      simp [isJumpTarget, hnone, hhead]
    refine ⟨(t.condition, { targetKey a with id := l.target }), ?_, rfl, ?_, ?_⟩
    · simp [linkTransition, hc, node?_eq_getElem? h.ids, hnode]
    · have happ := toApp_targetKey l.target a
      rw [hproper a ha] at happ
      rw [targetOf, if_neg (by simp [hm']), ha, Target.withoutPositions, ← happ]
      split
      · rw [if_neg (by simp [hjump])]
        rfl
      · rfl
    · simp [headOf, hhead, ha, Target.label?]

/-- A jump to the label can be told from a target app: its node is led to, or heads a sequence. -/
structure Entered (D : Drawing) (l : String) : Prop where
  marker : ∀ id n, D.labels.lookup l = some id → D.graph.node? id = some n → n.isMarker = false
  head : ∀ id, D.labels.lookup l = some id → (∀ a, ¬ D.graph.Leads a id) →
    D.graph.headsSequence id = true

theorem Entered.readable (h : D.Sound heads) {t : Transition} {name : String}
    (ht : t.target = .label name) (he : Entered D name) {id : Nat} (hid : D.labels.lookup name = some id)
    {source : Nat} : Readable D.graph (entryAt D) t ⟨source, id, some t.condition⟩ := by
  obtain ⟨ps, qs, hps, -⟩ := List.lookup_eq_some_iff.mp hid
  obtain ⟨⟨n, hn, hlabel⟩, -⟩ := h.labels (name, id) (by simp [hps])
  have hnode : D.graph.node? id = some n := by rw [node?_eq_getElem? h.ids, hn]
  have hnid : n.id = id := (node?_eq_some hnode).2
  have hm := he.marker id n hid hnode
  have hhead : D.graph.headsSequence id = (D.graph.predecessors id).isEmpty := by
    cases hpre : D.graph.predecessors id with
    | cons a as => simp [headsSequence, hpre]
    | nil => exact he.head id hid fun a ha => by simpa [hpre] using mem_predecessors.mpr ha
  refine ⟨(t.condition, n), by simp [linkTransition, hnode], rfl, ?_, ?_⟩
  · have hjump : D.graph.isJumpTarget n = true := by
      rw [isJumpTarget, hnid, hhead]
      cases (D.graph.predecessors id).isEmpty <;> rfl
    simp [targetOf, hm, hlabel, hjump, ht, Target.withoutPositions]
  · rw [headOf, hm, hlabel, hnid, hhead, ht, Target.label?, Option.bind_some, entryAt, hid]
    cases hpre : (D.graph.predecessors id).isEmpty <;> simp [Option.filter, hpre]

/-! ## Apps -/

/-- If all labels are found, each jump has its link. -/
theorem Resolved.forall₂ {P : Transition → Link → Prop} {labels : List (String × Nat)} {source : Nat}
    {ts : List Transition} {ls : List Link} (h : Resolved labels log ls)
    (hfound : ∀ k ∈ log, k.found = true) (hjs : List.Forall₂
      (fun t j => ∃ l, t.target = .label l ∧ j = ⟨source, t.condition, l⟩) ts (log.map Taken.jump))
    (hP : ∀ t ∈ ts, ∀ name id, t.target = .label name → labels.lookup name = some id →
      P t ⟨source, id, some t.condition⟩) : List.Forall₂ P ts ls := by
  induction h generalizing ts with
  | nil =>
    cases hjs
    exact .nil
  | link hid _ ih =>
    cases hjs with
    | cons ht hts =>
      obtain ⟨name, ht, rfl⟩ := ht
      obtain ⟨hP, hPs⟩ := List.forall_mem_cons.mp hP
      exact .cons (hP name _ ht hid) (ih (List.forall_mem_cons.mp hfound).2 hts hPs)
  | miss => exact absurd ((List.forall_mem_cons.mp hfound).1) nofun

theorem eq_append_of_sorted {ts : List Transition}
    (h : ts.Pairwise fun t u => u.target.app?.isSome → t.target.app?.isSome) :
    ts = appTransitions ts ++ labelTransitions ts := by
  induction h with
  | nil => rfl
  | @cons t ts ht _ ih =>
    cases hl : t.target with
    | app a =>
      rw [appTransitions, labelTransitions, List.filter_cons_of_pos (by simp [hl, Target.app?]),
        List.filter_cons_of_neg (by simp [hl, Target.label?]), List.cons_append]
      exact congrArg _ ih
    | label name =>
      have hnone : appTransitions ts = [] := by
        refine List.filter_eq_nil_iff.mpr fun u hu happ => ?_
        have := ht u hu happ
        simp [hl, Target.app?] at this
      rw [hnone, List.nil_append] at ih
      rw [appTransitions, labelTransitions, List.filter_cons_of_neg (by simp [hl, Target.app?]),
        List.filter_cons_of_pos (by simp [hl, Target.label?]), ← appTransitions, hnone,
        List.nil_append]
      exact congrArg _ ih

theorem map_readAs {g : Graph} {entry : String → Option Nat} {ts : List Transition}
    {ps : List (Condition × Node)} (h : List.Forall₂ (ReadAs g entry) ts ps) :
    ps.map (fun p => (⟨p.1, g.targetOf p.2, 0, 0⟩ : Transition)) = transitionsWithoutPositions ts ∧
      ps.filterMap (fun p => g.headOf p.2) =
        (ts.filterMap fun t => t.target.label?).filterMap entry := by
  induction h with
  | nil => exact ⟨rfl, rfl⟩
  | @cons t p ts ps h _ ih =>
    refine ⟨?_, ?_⟩
    · rw [List.map_cons, ih.1, h.condition, h.target, transitionsWithoutPositions]
      cases t
      rfl
    · rw [List.filterMap_cons, ih.2, h.head, List.filterMap_filterMap, List.filterMap_filterMap,
        List.filterMap_cons]

/-- An app that carries its transitions is read as it is written. -/
theorem Carries.readsApp (h : D.Sound heads) {a : App} {id : Nat}
    (hc : Carries log D (.app a) id) (hfound : ∀ k ∈ log, k.found = true) (ha : a.IsReadable)
    (hproper : ∀ t ∈ a.transitions, ∀ b, t.target = .app b → b.transitions = [])
    (hentered : ∀ t ∈ a.transitions, ∀ name, t.target = .label name → Entered D name) :
    ReadsApp D.graph (entryAt D) a id := by
  obtain ⟨ls, ms, hlinks, hls, hjumps, hms⟩ := hc.links a rfl
  have hread : List.Forall₂ (Readable D.graph (entryAt D)) a.transitions (ls ++ ms) := by
    rw [eq_append_of_sorted ha.sorted]
    refine List.rel_append ?_ (hms.forall₂ (fun k hk => hfound k (List.mem_of_mem_filter hk))
      (hjumps ▸ forall₂_jumpsOf id _) fun t ht name x hname hx =>
        (hentered t (List.mem_of_mem_filter ht) name hname).readable h hname hx)
    refine List.forall₂_iff_zip.mpr ⟨hls.length_eq, fun hmem => ?_⟩
    have ht := List.mem_of_mem_filter (List.of_mem_zip hmem).1
    exact (List.forall₂_zip hls hmem).readable h (hproper _ ht) (ha.markers _ ht) _
  obtain ⟨htransitions, hheads⟩ := map_readAs (forall₂_readAs hread)
  rw [← hlinks, ← transitions_eq] at htransitions hheads
  refine ⟨ha.notEnd, ha.notSync, ?_, hheads⟩
  rw [appOf, htransitions, toApp_targetKey]

end Pipework.Graph
