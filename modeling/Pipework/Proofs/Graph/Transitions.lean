import Pipework.Proofs.Graph.Resolving

/-! The transitions of an app are the links with a condition from its node: each is there once and ends
where it should, but for those whose labels are not found when their jumps are taken. -/

namespace Pipework.Graph

open Token Pipework.Task Drawing

variable {D : Drawing} {t : Task} {text : String} {first : Sequence} {drawn : List Sequence}

/-! ## Links of an app -/

/-- Where a transition ends: at the node of the app or split that has the label, at the marker, or at the
node that is shared by all transitions to equal target apps. -/
inductive EndsAt (D : Drawing) (drawn : List Sequence) : Target → Nat → Prop where
  | label {l : String} {s : Sequence} {n : Task.Node} {id : Nat} (hs : s ∈ drawn)
      (hn : n ∈ nodesOf s.elements) (hl : n.label? = some l)
      (hnode : D.graph.node? id = some (flowNode id n)) (hown : id ∉ D.targetIds) :
      EndsAt D drawn (.label l) id
  | marker {a : App} {n : Node} (ha : isMarker a.name = true) (hn : D.graph.named? a.name = some n) :
      EndsAt D drawn (.app a) n.id
  | app {a : App} {id : Nat} (ha : isMarker a.name = false)
      (hid : D.targets.lookup (targetKey a) = some id)
      (hnode : D.graph.node? id = some { targetKey a with id }) : EndsAt D drawn (.app a) id

/-- The link is drawn for the transition. -/
structure LinkOf (D : Drawing) (drawn : List Sequence) (t : Transition) (l : Link) : Prop where
  condition : l.condition = some t.condition
  target : EndsAt D drawn t.target l.target

/-- The jump of a transition to a label was taken from the queue. -/
def TakenFor (source : Nat) (t : Transition) (k : Taken) : Prop :=
  ∃ l, t.target = .label l ∧ k.jump = ⟨source, t.condition, l⟩

/-- The links are those of some transitions to apps and of some to labels, both in their order. Each of
the latter had its own jump taken, and has no link only if the label was not found then. -/
inductive Follows (R : Transition → Link → Prop) (source : Nat) :
    List Transition → List Transition → List Taken → List Link → Prop where
  | nil : Follows R source [] [] [] []
  | app {t : Transition} {l : Link} {apps labels : List Transition} {log : List Taken} {ls : List Link}
      (hl : R t l) (h : Follows R source apps labels log ls) :
      Follows R source (t :: apps) labels log (l :: ls)
  | label {t : Transition} {k : Taken} {l : Link} {apps labels : List Transition} {log : List Taken}
      {ls : List Link} (hk : TakenFor source t k) (hl : R t l) (h : Follows R source apps labels log ls) :
      Follows R source apps (t :: labels) (k :: log) (l :: ls)
  | missing {t : Transition} {k : Taken} {apps labels : List Transition} {log : List Taken}
      {ls : List Link} (hk : TakenFor source t k) (hf : k.found = false)
      (h : Follows R source apps labels log ls) : Follows R source apps (t :: labels) (k :: log) ls

/-- The links with a condition from the app's own node are its transitions. -/
structure Keeps (D : Drawing) (drawn : List Sequence) (log : List Taken) (a : App) (id : Nat) : Prop where
  own : id ∉ D.targetIds
  links : Follows (LinkOf D drawn) id (appTransitions a.transitions) (labelTransitions a.transitions)
    (takenFrom log id) (D.graph.conditionals id)

variable {heads : List Nat} {log : List Taken} {misses : List String} {order : List Sequence}
  {last hi : Nat} {ps : List Placement}

theorem TargetLink.linkOf (h : D.Sound heads) {t : Transition} {l : Link} (hl : TargetLink D t l) :
    LinkOf D drawn t l := by
  obtain ⟨hc, a, ha, ⟨hm, n, hn, hid⟩ | ⟨hm, hl⟩⟩ := hl
  · refine ⟨hc, ?_⟩
    rw [ha, ← hid]
    exact .marker hm hn
  · obtain ⟨ps, qs, hps, -⟩ := List.lookup_eq_some_iff.mp hl
    obtain ⟨hnode, -, -⟩ := h.targets (targetKey a, l.target) (by simp [hps])
    refine ⟨hc, ?_⟩
    rw [ha]
    exact .app hm hl (by rw [node?_eq_getElem? h.ids, hnode])

/-- The links of the jumps follow the transitions to labels. -/
theorem Resolved.follows {R : Transition → Link → Prop} {labels : List (String × Nat)} {source : Nat}
    {ts : List Transition} {ls : List Link} (h : Resolved labels log ls) (hjs : List.Forall₂
      (fun t j => ∃ l, t.target = .label l ∧ j = ⟨source, t.condition, l⟩) ts (log.map Taken.jump))
    (hR : ∀ t l id, t.target = .label l → labels.lookup l = some id → R t ⟨source, id, some t.condition⟩) :
    Follows R source [] ts log ls := by
  induction h generalizing ts with
  | nil =>
    cases hjs
    exact .nil
  | link hid _ ih =>
    cases hjs with
    | cons ht hts =>
      obtain ⟨l, ht, rfl⟩ := ht
      exact .label ⟨l, ht, rfl⟩ (hR _ l _ ht hid) (ih hts)
  | miss _ ih =>
    cases hjs with
    | cons ht hts => exact .missing ht rfl (ih hts)

theorem Follows.append {R : Transition → Link → Prop} {source : Nat} {apps labels : List Transition}
    {ls ms : List Link} (h : List.Forall₂ R apps ls) (h' : Follows R source [] labels log ms) :
    Follows R source apps labels log (ls ++ ms) := by
  induction h with
  | nil => exact h'
  | cons hl _ ih => exact .app hl ih

theorem DrawnTask.keeps (h : DrawnTask log first order misses last hi ps D) {a : App} {id : Nat}
    (hc : Carries log D (.app a) id) : Keeps D (first :: order) log a id := by
  obtain ⟨ls, ms, hlinks, hls, hjumps, hms⟩ := hc.links a rfl
  refine ⟨hc.own, ?_⟩
  rw [hlinks]
  refine .append (hls.imp fun _ _ hl => hl.linkOf h.sound) (hms.follows
    (hjumps ▸ forall₂_jumpsOf id _) fun t l id ht hid => ?_)
  obtain ⟨s, hs, n, hn, hlabel, hnode, hown⟩ := h.labelled hid
  refine ⟨rfl, ?_⟩
  rw [ht]
  exact .label hs hn hlabel hnode hown

end Pipework.Graph
