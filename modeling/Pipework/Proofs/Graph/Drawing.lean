import Pipework.Proofs.Graph.Connected
import Pipework.Proofs.Graph.Shows

/-! What is drawn of a flow, and that every graph that comes of the drawing shows the flow. -/

namespace Pipework.Graph

open Pipework.Task Drawing

variable {heads : List Nat} {log : List Taken} {d d' D : Drawing}

/-! ## Transitions -/

def appTransitions (ts : List Transition) : List Transition :=
  ts.filter fun t => t.target.app?.isSome

def labelTransitions (ts : List Transition) : List Transition :=
  ts.filter fun t => t.target.label?.isSome

/-- The jumps of transitions from a node. -/
def jumpsOf (source : Nat) (ts : List Transition) : List Jump :=
  ts.filterMap fun t => t.target.label?.map fun l => ⟨source, t.condition, l⟩

/-- The jumps are those of the transitions to labels. -/
theorem forall₂_jumpsOf (source : Nat) (ts : List Transition) :
    List.Forall₂ (fun t j => ∃ l, t.target = .label l ∧ j = ⟨source, t.condition, l⟩)
      (labelTransitions ts) (jumpsOf source ts) := by
  induction ts with
  | nil => exact .nil
  | cons t ts ih =>
    unfold labelTransitions jumpsOf at ih ⊢
    cases ht : t.target with
    | app a =>
      rw [List.filter_cons_of_neg (by simp [ht, Target.label?]),
        List.filterMap_cons_none (by simp [ht, Target.label?])]
      exact ih
    | label l =>
      rw [List.filter_cons_of_pos (by simp [ht, Target.label?])]
      simp only [List.filterMap_cons, ht, Target.label?, Option.map_some]
      exact .cons ⟨l, ht, rfl⟩ ih

/-- The link is drawn for a transition to an app. -/
structure TargetLink (D : Drawing) (t : Transition) (l : Link) : Prop where
  condition : l.condition = some t.condition
  target : ∃ a, t.target = .app a ∧
    ((isMarker a.name = true ∧ ∃ n, D.graph.named? a.name = some n ∧ n.id = l.target) ∨
      (isMarker a.name = false ∧ D.targets.lookup (targetKey a) = some l.target))

theorem named?_mono {g h : Graph} (hp : g.nodes <+: h.nodes) {name : String} {n : Node}
    (hn : g.named? name = some n) : h.named? name = some n := by
  obtain ⟨ns, hns⟩ := hp
  unfold named? at hn ⊢
  rw [← hns, List.find?_append, hn]
  rfl

theorem TargetLink.of_later {keep : Nat → Prop} {onward : Nat → List Nat} {t : Transition} {l : Link}
    (h : TargetLink d t l) (hl : d.Later log keep onward D) : TargetLink D t l := by
  obtain ⟨hc, a, ha, ⟨hm, n, hn, hid⟩ | ⟨hm, h⟩⟩ := h
  · exact ⟨hc, a, ha, .inl ⟨hm, n, named?_mono hl.nodes hn, hid⟩⟩
  · exact ⟨hc, a, ha, .inr ⟨hm, lookup_mono hl.targets h⟩⟩

/-- Transitions from a node are drawn: targets are new or known nodes, and jumps wait. -/
structure DrawnTransitions (heads : List Nat) (source : Nat)
    (ts : List Transition) (d : Drawing) (exits : List Nat) (d' : Drawing) : Prop where
  sound : d'.Sound heads
  later : d.Later [] (· < source) (fun _ => []) d'
  successors : ∀ id, d'.graph.successors id = d.graph.successors id
  labels : d'.labels = d.labels
  endNode : d'.endNode = d.endNode
  connected : ∀ roots loose, d.endNode ≠ some source → d.Connected roots loose →
    d'.Connected roots (exits ++ loose)
  exits : ∀ e ∈ exits, d.size ≤ e ∧ e < d'.size
  jumps : d'.jumps = d.jumps ++ jumpsOf source ts
  links : ∃ ls, d'.graph.conditionals source = d.graph.conditionals source ++ ls ∧
    List.Forall₂ (TargetLink d') (appTransitions ts) ls

theorem DrawnTransitions.nil {source : Nat} (h : d.Sound heads) :
    DrawnTransitions heads source [] d [] d :=
  ⟨h, .refl d, fun _ => rfl, rfl, rfl, fun _ _ _ h => h, by simp, (List.append_nil _).symm,
    [], (List.append_nil _).symm, .nil⟩

theorem DrawnTransitions.append {source : Nat} {ts us : List Transition} {xs ys : List Nat}
    (hs : source < d.size) (h : DrawnTransitions heads source ts d xs d')
    (h' : DrawnTransitions heads source us d' ys D) :
    DrawnTransitions heads source (ts ++ us) d (xs ++ ys) D where
  sound := h'.sound
  later := h.later.step h'.later (Nat.le_of_lt hs) (Nat.le_refl _) fun _ _ => rfl
  successors id := (h'.successors id).trans (h.successors id)
  labels := h'.labels.trans h.labels
  endNode := h'.endNode.trans h.endNode
  exits e he := by
    have hd := h.later.size_le
    have hd' := h'.later.size_le
    obtain he | he := List.mem_append.mp he
    · exact ⟨(h.exits e he).1, Nat.lt_of_lt_of_le (h.exits e he).2 hd'⟩
    · exact ⟨Nat.le_trans hd (h'.exits e he).1, (h'.exits e he).2⟩
  jumps := by rw [h'.jumps, h.jumps, jumpsOf, jumpsOf, jumpsOf, List.filterMap_append, List.append_assoc]
  connected roots loose hne hc := by
    have hc := h'.connected roots _ (h.endNode ▸ hne) (h.connected roots loose hne hc)
    exact hc.mono fun o ho => by
      simp only [List.mem_append] at ho ⊢
      tauto
  links := by
    obtain ⟨ls, hls, hf⟩ := h.links
    obtain ⟨ms, hms, hf'⟩ := h'.links
    refine ⟨ls ++ ms, by rw [hms, hls, List.append_assoc], ?_⟩
    rw [appTransitions, List.filter_append]
    exact List.rel_append (hf.imp fun _ _ hl => hl.of_later h'.later) hf'

theorem conditionals_withTransition (source id : Nat) (c : Condition) :
    (d.withLinks [⟨source, id, some c⟩]).graph.conditionals source =
      d.graph.conditionals source ++ [⟨source, id, some c⟩] := by
  simp [conditionals, withLinks, Link.isTransition]

theorem successors_withTransition (source target : Nat) (c : Condition) (id : Nat) :
    (d.withLinks [⟨source, target, some c⟩]).graph.successors id = d.graph.successors id := by
  simp [successors, withLinks, Link.isTransition]

/-- A transition to a target app whose node is there, possibly as a new one. -/
theorem DrawnTransitions.app {source target : Nat} {t : Transition} {a : App} {e : Drawing}
    {exits : List Nat} (ht : t.target = .app a) (hs : source < d.size) (he : e.Sound heads)
    (hl : d.Later [] (· < source) (fun _ => []) e) (hlinks : e.graph.links = d.graph.links)
    (hlabels : e.labels = d.labels) (hend : e.endNode = d.endNode) (hjumps : e.jumps = d.jumps)
    (hexits : ∀ x ∈ exits, d.size ≤ x ∧ x < e.size)
    (hconnected : ∀ roots loose, d.endNode ≠ some source → d.Connected roots loose →
      (e.withLinks [⟨source, target, some t.condition⟩]).Connected roots (exits ++ loose))
    (htarget : (isMarker a.name = true ∧ ∃ n, e.graph.named? a.name = some n ∧ n.id = target) ∨
      (isMarker a.name = false ∧ e.targets.lookup (targetKey a) = some target)) :
    DrawnTransitions heads source [t] d exits
      (e.withLinks [⟨source, target, some t.condition⟩]) where
  sound := he.withTransition (Nat.lt_of_lt_of_le hs hl.size_le) _ _
  later := hl.step (.withTransition e (by exact Nat.lt_irrefl source) _ _) (Nat.le_of_lt hs) (Nat.le_refl _)
    fun _ _ => rfl
  successors id := by
    rw [successors_withTransition]
    simp only [Graph.successors, hlinks]
  labels := hlabels
  endNode := hend
  exits := hexits
  jumps := by simp [jumpsOf, ht, Target.label?, withLinks, hjumps]
  connected := hconnected
  links := by
    refine ⟨[⟨source, target, some t.condition⟩], ?_, ?_⟩
    · rw [conditionals_withTransition, conditionals, hlinks]
      rfl
    · simp only [appTransitions, List.filter_cons, ht, Target.app?, Option.isSome_some, if_true,
        List.filter_nil]
      exact .cons ⟨rfl, a, ht, htarget⟩ .nil

theorem named?_getElem? (h : d.Sound heads) {name : String} {n : Node}
    (hn : d.graph.named? name = some n) : d.graph.nodes[n.id]? = some n ∧ n.name = name := by
  have hname := List.find?_some hn
  obtain ⟨i, hi, rfl⟩ := List.mem_iff_getElem.mp (List.mem_of_find?_eq_some hn)
  have hi := List.getElem?_eq_getElem hi
  rw [h.ids i _ hi]
  exact ⟨hi, by simpa using hname⟩

theorem named?_withNode {name : String} (hnone : d.graph.named? name = none) :
    (d.withNode name none []).graph.named? name = some ⟨d.size, name, none, []⟩ := by
  unfold named? at hnone
  rw [named?, Drawing.withNode, List.find?_append, hnone]
  simp

/-- A transition to a label waits as a jump. -/
theorem DrawnTransitions.jump {source : Nat} {t : Transition} {l : String} (ht : t.target = .label l)
    (h : d.Sound heads) (hs : source < d.size) :
    DrawnTransitions heads source [t] d [] (d.withJump ⟨source, t.condition, l⟩) where
  sound := h.withJump hs
  later := .withJump d (Nat.lt_irrefl _)
  successors _ := rfl
  labels := rfl
  endNode := rfl
  connected _ _ hne hc := hc.withJump hne
  exits := by simp
  jumps := by simp [jumpsOf, ht, Target.label?, withJump]
  links := ⟨[], (List.append_nil _).symm, by simp [appTransitions, ht, Target.app?]⟩

/-- A transition to a marker leads to the node that has its name. -/
theorem DrawnTransitions.marker {source id : Nat} {t : Transition} {a : App} {e : Drawing}
    (ht : t.target = .app a) (hm : isMarker a.name = true) (h : d.Sound heads) (hs : source < d.size)
    (hid : Runs (nodeNamed a.name) d id e) :
    DrawnTransitions heads source [t] d []
      (e.withLinks [⟨source, id, some t.condition⟩]) := by
  obtain ⟨n, hnamed, rfl, rfl⟩ | ⟨hnone, rfl, rfl⟩ := runs_nodeNamed.mp hid
  · have hn := named?_getElem? h hnamed
    refine .app ht hs h (.refl _) rfl rfl rfl rfl (by simp) (fun _ _ hne hc =>
      hc.withTransition h hs hne _ ⟨Nat.pos_of_ne_zero fun hzero => ?_, lt_size_of_getElem? hn.1⟩)
      (.inl ⟨hm, _, hnamed, rfl⟩)
    -- the start is no marker
    rw [hzero, hc.start] at hn
    rw [← hn.2, ← Option.some.inj hn.1] at hm
    exact absurd hm (by decide)
  · exact .app ht hs (h.withNode _ _ _) (.withNode ..) rfl rfl rfl rfl (by simp)
      (fun _ _ hne hc => hc.withMarker h hs hne _ hm)
      (.inl ⟨hm, _, named?_withNode hnone, rfl⟩)

/-- A transition to another app leads to the node of that target, which is an end if it is new. -/
theorem DrawnTransitions.target {source id : Nat} {isNew : Bool} {t : Transition} {a : App}
    {e : Drawing} (ht : t.target = .app a) (hm : isMarker a.name = false) (h : d.Sound heads)
    (hs : source < d.size) (hid : Runs (targetNode a) d (id, isNew) e) :
    DrawnTransitions heads source [t] d (if isNew then [id] else [])
      (e.withLinks [⟨source, id, some t.condition⟩]) := by
  obtain ⟨x, hx, hr, rfl⟩ | ⟨hnone, hr, rfl⟩ := runs_targetNode.mp hid
  · obtain ⟨rfl, rfl⟩ := Prod.mk.inj hr
    obtain ⟨ps, qs, hps, -⟩ := List.lookup_eq_some_iff.mp hx
    have hmem : (targetKey a, id) ∈ e.targets := by simp [hps]
    exact .app ht hs h (.refl _) rfl rfl rfl rfl (by simp) (fun _ _ hne hc =>
      hc.withTransition h hs hne _ ⟨hc.targets _ hmem, lt_size_of_getElem? (h.targets _ hmem).1⟩)
      (.inr ⟨hm, hx⟩)
  · obtain ⟨rfl, rfl⟩ := Prod.mk.inj hr
    refine .app ht hs (h.withTarget hm) (.withTarget ..) rfl rfl rfl rfl (fun x hx => ?_)
      (fun _ _ hne hc => hc.withTarget h hs hne _ _) (.inr ⟨hm, ?_⟩)
    · obtain rfl := List.mem_singleton.mp hx
      rw [size_withTarget]
      exact ⟨Nat.le_refl _, Nat.lt_succ_self _⟩
    · rw [withTarget, List.lookup_append, hnone]
      simp

theorem drawnTransitions_single {source : Nat} {t : Transition} {exits : List Nat}
    (h : d.Sound heads) (hs : source < d.size) (hr : Runs (drawTransition source t) d exits d') :
    DrawnTransitions heads source [t] d exits d' := by
  unfold drawTransition at hr
  split at hr
  · next l ht =>
    simp only [runs_bind, runs_modify, runs_pure] at hr
    obtain ⟨-, -, rfl, rfl, rfl⟩ := hr
    exact .jump ht h hs
  · next a ht =>
    split at hr
    · next hm =>
      simp only [runs_bind, runs_addLink, runs_pure] at hr
      obtain ⟨id, e, hid, -, -, rfl, rfl, rfl⟩ := hr
      exact .marker ht hm h hs hid
    · next hm =>
      simp only [runs_bind, runs_addLink, runs_pure] at hr
      obtain ⟨⟨id, isNew⟩, e, hid, -, e', rfl, rfl, rfl⟩ := hr
      exact .target ht (by simpa using hm) h hs hid

theorem drawnTransitions {source : Nat} {ts : List Transition}
    {xs : List (List Nat)} (h : d.Sound heads) (hs : source < d.size)
    (hr : Runs (ts.mapM (drawTransition source)) d xs d') :
    DrawnTransitions heads source ts d xs.flatten d' := by
  induction ts generalizing d xs with
  | nil =>
    obtain ⟨rfl, rfl⟩ := runs_mapM_nil.mp hr
    exact .nil h
  | cons t ts ih =>
    obtain ⟨exits, ys, e, ht, hts, rfl⟩ := runs_mapM_cons.mp hr
    have ht := drawnTransitions_single h hs ht
    exact ht.append hs (ih ht.sound (Nat.lt_of_lt_of_le hs ht.later.size_le) hts)

/-! ## What is drawn of a flow -/

/-- The node is the app's or split's own: its label is known by it, and the links with a condition from
it are the transitions of the app, those to apps and those that came of jumps. -/
structure Carries (log : List Taken) (D : Drawing) (n : Task.Node) (id : Nat) : Prop where
  own : id ∉ D.targetIds
  label : ∀ l, n.label? = some l → D.labels.lookup l = some id
  links : ∀ a, n = .app a → ∃ ls ms, D.graph.conditionals id = ls ++ ms ∧
    List.Forall₂ (TargetLink D) (appTransitions a.transitions) ls ∧
      (takenFrom log id).map Taken.jump = jumpsOf id a.transitions ∧
        Resolved D.labels (takenFrom log id) ms

/-- The labels are new to the drawing, and there is one element for each. -/
structure Drawing.New (d : Drawing) (labels : List String) : Prop where
  nodup : labels.Nodup
  unknown : ∀ l ∈ labels, d.labels.lookup l = none

theorem Drawing.New.left {ls ms : List String} (h : d.New (ls ++ ms)) : d.New ls :=
  ⟨h.nodup.of_append_left, fun l hl => h.unknown l (List.mem_append_left _ hl)⟩

theorem Drawing.New.right {ls ms : List String} (h : d.New (ls ++ ms))
    (hl : ∀ l, (d'.labels.lookup l).isSome → (d.labels.lookup l).isSome ∨ l ∈ ls) : d'.New ms := by
  refine ⟨h.nodup.of_append_right, fun l hm => ?_⟩
  rw [← Option.not_isSome_iff_eq_none]
  intro hsome
  rcases hl l hsome with hd | hmem
  · rw [h.unknown l (List.mem_append_right _ hm)] at hd
    cases hd
  · exact List.disjoint_of_nodup_append h.nodup hmem hm

/-- Later steps only add plain links from the nodes from `lo` on, and all jumps are resolved. -/
structure Completes (log : List Taken) (lo : Nat) (d D : Drawing) (onward : Nat → List Nat) :
    Prop where
  later : d.Later log (fun id => lo ≤ id ∧ id < d.size) onward D
  sound : ∃ heads, D.Sound heads
  jumps : D.jumps = []

theorem Completes.node? {lo : Nat} {onward : Nat → List Nat} (h : Completes log lo d D onward)
    {id : Nat} {n : Node} (hn : d.graph.nodes[id]? = some n) : D.graph.node? id = some n := by
  obtain ⟨heads, hs⟩ := h.sound
  rw [node?_eq_getElem? hs.ids, getElem?_mono h.later.nodes hn]

theorem Completes.of_later {lo : Nat} {onward onward' : Nat → List Nat}
    (h : Completes log lo d' D onward') (hl : d.Later [] (· < d.size) onward d') :
    Completes log lo d D fun id => onward id ++ onward' id :=
  ⟨(hl.mono (fun _ h => h.2) fun _ _ => rfl).trans
    (h.later.mono (fun _ h => ⟨h.1, Nat.lt_of_lt_of_le h.2 hl.size_le⟩) fun _ _ => rfl) fun _ h => h.2,
    h.sound, h.jumps⟩

theorem Completes.mono {lo lo' : Nat} {onward : Nat → List Nat}
    (h : Completes log lo d D onward) (hle : lo ≤ lo') : Completes log lo' d D onward :=
  ⟨h.later.mono (fun _ h => ⟨Nat.le_trans hle h.1, h.2⟩) fun _ _ => rfl, h.sound, h.jumps⟩

/-- The elements are drawn after `ends`. `out` are the ends of the last element, `exits` those of
transitions. -/
structure Drawn (heads : List Nat) (es : List Element) (ends : List Nat)
    (d : Drawing) (out exits : List Nat) (d' : Drawing) : Prop where
  later : d.Later [] (· < d.size) (fun id => List.replicate (ends.count id) d.size) d'
  size : d.size < d'.size
  sound : d'.Sound heads
  endNode : d'.endNode = d.endNode
  mem : ∀ e ∈ out ++ exits, d.size ≤ e ∧ e < d'.size
  free : ∃ e ∈ out, e ∉ d'.targetIds
  inside : ∀ a b, d.size ≤ a → d'.graph.Leads a b → a < b
  entry : ∀ a, d'.graph.Leads a d.size → a ∈ ends
  labels : ∀ l, (d'.labels.lookup l).isSome ↔
    (d.labels.lookup l).isSome ∨ l ∈ (nodesOf es).filterMap Node.label?
  named : ∀ l, es.head?.bind (fun e => e.label.map Label.name) = some l →
    d.labels.lookup l = none → d'.labels.lookup l = some d.size
  jumps : ∃ js, d'.jumps = d.jumps ++ js ∧ js.map Jump.label = (nodesOf es).filterMap Node.jump?
  connected : ∀ roots rest, ends ≠ [] ∨ d.size ∈ roots → d.Connected roots (ends ++ rest) →
    d'.Connected roots (out ++ exits ++ rest)
  single : ∀ a, es = [.app a] → out = [d.size]
  head : (∀ a, es ≠ [.app a]) →
    ∃ b < d'.size, d'.graph.Leads d.size b ∧ ∀ a, d'.graph.Leads a b → a = d.size
  shows : d.New ((nodesOf es).filterMap Node.label?) → ∀ log D onward next,
    Completes log d.size d' D onward →
      (∀ id, d.size ≤ id → id < d'.size → id ∉ exits →
        onward id = List.replicate (out.count id) next) →
          ShowsElements D.graph (Carries log D) es d.size d'.size next

theorem filterMap_label?_transitions (ts : List Transition) :
    (ts.map Node.transition).filterMap Node.label? = [] := by
  simp [List.filterMap_map, Function.comp_def, Node.label?]

theorem filterMap_jump?_transitions (source : Nat) (ts : List Transition) :
    (ts.map Node.transition).filterMap Node.jump? = (jumpsOf source ts).map Jump.label := by
  simp [jumpsOf, List.filterMap_map, List.map_filterMap, Function.comp_def, Node.jump?]

theorem filter_jumpsOf (source : Nat) (ts : List Transition) :
    (jumpsOf source ts).filter (fun j => j.source == source) = jumpsOf source ts := by
  refine List.filter_eq_self.mpr fun j hj => ?_
  obtain ⟨t, -, hj⟩ := List.mem_filterMap.mp hj
  obtain ⟨l, -, rfl⟩ := Option.map_eq_some_iff.mp hj
  simp

theorem runs_drawApp {ends : List Nat} {a : App} {r : Nat × List Nat} :
    Runs (drawApp ends a) d r d' ↔ ∃ xs, Runs (a.transitions.mapM (drawTransition d.size))
      (d.place ends a.name (a.label.map Label.name) (Argument.properties a.arguments)) xs d' ∧
        r = (d.size, xs.flatten) := by
  simp only [drawApp, runs_bind, runs_addNode, runs_registerLabel, runs_join, runs_pure]
  constructor
  · rintro ⟨_, _, ⟨rfl, rfl⟩, _, _, rfl, _, _, rfl, xs, _, hxs, rfl, rfl⟩
    exact ⟨xs, hxs, rfl⟩
  · rintro ⟨xs, hxs, rfl⟩
    exact ⟨_, _, ⟨rfl, rfl⟩, (), _, rfl, (), _, rfl, xs, _, hxs, rfl, rfl⟩

theorem not_mem_targetIds_of_later {keep : Nat → Prop} {onward : Nat → List Nat} {id : Nat}
    (hl : d.Later log keep onward d') (hid : id < d.size) (hfree : id ∉ d.targetIds) :
    id ∉ d'.targetIds := fun hmem => by
  obtain ⟨p, hp, rfl⟩ := List.mem_map.mp hmem
  obtain hp | hp := hl.fresh p hp
  · exact hfree (List.mem_map_of_mem hp)
  · omega

theorem Drawing.Sound.endNode_ne (h : d.Sound heads) {id : Nat} (hid : d.size ≤ id) :
    d.endNode ≠ some id := fun he => by
  have := (h.last id he).1
  omega

/-- A node of a flow, with the plain links from the ends before it and no others. -/
structure Placed (heads : List Nat) (ends : List Nat) (n : Node)
    (d p : Drawing) : Prop where
  later : d.Later [] (· < d.size) (fun id => List.replicate (ends.count id) d.size) p
  sound : p.Sound heads
  size : p.size = d.size + 1
  node : p.graph.nodes[d.size]? = some n
  leads : ∀ a b, p.graph.Leads a b ↔ d.graph.Leads a b ∨ (a ∈ ends ∧ b = d.size)
  successors : ∀ id, d.size ≤ id → p.graph.successors id = []
  conditionals : p.graph.conditionals d.size = []
  jumpsFrom : p.jumpsFrom d.size = []
  labels : p.labels = registered d.labels n.label d.size
  targetIds : p.targetIds = d.targetIds
  jumps : p.jumps = d.jumps
  endNode : p.endNode = d.endNode
  connected : ∀ roots rest, ends ≠ [] ∨ d.size ∈ roots → d.Connected roots (ends ++ rest) →
    p.Connected roots (d.size :: rest)

theorem placed (h : d.Sound heads) {ends : List Nat}
    (ha : d.Admits heads ends) (name : String) (label : Option String)
    (properties : List (String × String)) :
    Placed heads ends ⟨d.size, name, label, properties⟩ d
      (d.place ends name label properties) where
  later := .place d ends name label properties
  sound := h.place ha name label properties
  size := size_place ..
  node := List.getElem?_concat_length ..
  leads _ _ := leads_place
  successors id hid := by
    refine List.eq_nil_iff_forall_not_mem.mpr fun b hb => ?_
    obtain hb | ⟨hb, -⟩ := leads_place.mp hb
    · have := (h.leads_lt hb).1
      omega
    · have := (ha.below id hb).1
      omega
  conditionals := by
    refine List.filter_eq_nil_iff.mpr fun l hl hc => ?_
    simp only [Bool.and_eq_true, beq_iff_eq] at hc
    obtain hl | hl := List.mem_append.mp hl
    · have := h.sources l hl
      omega
    · obtain ⟨e, -, rfl⟩ := List.mem_map.mp hl
      cases hc.2
  jumpsFrom := h.jumpsFrom_fresh (Nat.le_refl _)
  labels := rfl
  targetIds := rfl
  jumps := rfl
  endNode := rfl
  connected _ _ hr hc := hc.place h ha hr name label properties

section

variable {ends : List Nat} {n : Node} {p : Drawing}

theorem Placed.own (hp : Placed heads ends n d p) (h : d.Sound heads) {keep : Nat → Prop}
    {onward : Nat → List Nat} (hl : p.Later log keep onward D) : d.size ∉ D.targetIds := by
  refine not_mem_targetIds_of_later hl (by rw [hp.size]; omega) fun hmem => ?_
  have := h.lt_of_mem_targetIds (hp.targetIds ▸ hmem)
  omega

theorem Placed.label (hp : Placed heads ends n d p) {l : String} (hl : n.label = some l)
    (hnone : d.labels.lookup l = none) : p.labels.lookup l = some d.size := by
  rw [hp.labels]
  exact lookup_registered_self hl hnone

theorem Placed.known (hp : Placed heads ends n d p) {l : String} :
    (p.labels.lookup l).isSome ↔ (d.labels.lookup l).isSome ∨ n.label = some l := by
  rw [hp.labels, lookup_registered]

theorem Placed.entry (hp : Placed heads ends n d p) (h : d.Sound heads) {a : Nat}
    (hl : p.graph.Leads a d.size) : a ∈ ends := by
  obtain hl | ⟨hl, -⟩ := (hp.leads ..).mp hl
  · have := (h.leads_lt hl).2
    omega
  · exact hl

end

/-- The transitions of a placed app are the links from its node, once the jumps are resolved. -/
theorem DrawnTransitions.carries {ends exits : List Nat} {a : App} {p : Drawing} {onward : Nat → List Nat}
    {properties : List (String × String)} (h : d.Sound heads)
    (hp : Placed heads ends ⟨d.size, a.name, a.label.map Label.name, properties⟩ d p)
    (ht : DrawnTransitions heads d.size a.transitions p exits d')
    (hnew : d.New ((nodesOf [.app a]).filterMap Node.label?))
    (hD : Completes log d.size d' D onward) : Carries log D (.app a) d.size := by
  have hsize := hp.size
  have hle := ht.later.size_le
  obtain ⟨ls, hls, hf⟩ := ht.links
  have hkeep : d.size ≤ d.size ∧ d.size < d'.size := ⟨Nat.le_refl _, by omega⟩
  have hjs := hD.later.jumps d.size hkeep
  obtain ⟨ms, hms, hres⟩ := hD.later.conditionals d.size hkeep
  refine ⟨not_mem_targetIds_of_later hD.later (by omega) (hp.own h ht.later), fun l hl => ?_, fun b hb => ?_⟩
  · refine lookup_mono hD.later.labels ?_
    rw [ht.labels]
    exact hp.label hl (hnew.unknown l (by simp [show Node.label? (.app a) = some l from hl]))
  · obtain rfl := Node.app.inj hb
    have hfrom : d'.jumpsFrom d.size = jumpsOf d.size a.transitions := by
      rw [jumpsFrom, ht.jumps, List.filter_append, filter_jumpsOf]
      exact congrArg (· ++ _) hp.jumpsFrom
    refine ⟨ls, ms, ?_, hf.imp fun _ _ hl => hl.of_later hD.later, ?_, hres⟩
    · rw [hms, hls, hp.conditionals, List.nil_append]
    · rw [← hfrom, hjs, jumpsFrom, hD.jumps, List.filter_nil, List.append_nil]

/-- With its transitions drawn, a placed app is drawn as a flow of its own. -/
theorem DrawnTransitions.drawn {ends exits : List Nat} {a : App} {p : Drawing} (h : d.Sound heads)
    (hp : Placed heads ends
      ⟨d.size, a.name, a.label.map Label.name, Argument.properties a.arguments⟩ d p)
    (ht : DrawnTransitions heads d.size a.transitions p exits d') :
    Drawn heads [.app a] ends d [d.size] exits d' := by
  have hsize := hp.size
  have hle := ht.later.size_le
  have hsucc : ∀ {id}, d.size ≤ id → d'.graph.successors id = [] := fun hid => by
    rw [ht.successors, hp.successors _ hid]
  exact
    { later := hp.later.step ht.later (Nat.le_refl _) (Nat.le_refl _) fun _ _ => List.append_nil _
      size := by omega
      sound := ht.sound
      endNode := ht.endNode.trans hp.endNode
      mem := fun e he => by
        obtain he | he := List.mem_append.mp he
        · obtain rfl := List.mem_singleton.mp he
          omega
        · have := ht.exits e he
          omega
      free := ⟨d.size, by simp, hp.own h ht.later⟩
      inside := fun x y hx hl => by
        rw [Leads, hsucc hx] at hl
        cases hl
      entry := fun x hl => by
        rw [Leads, ht.successors] at hl
        exact hp.entry h hl
      labels := fun l => by
        rw [ht.labels, hp.known, nodesOf_app, nodesOf_nil, List.append_nil, List.filterMap_cons,
          filterMap_label?_transitions]
        refine or_congr_right ?_
        simp only [Node.label?]
        cases a.label <;> simp [eq_comm]
      named := fun l hl hnone => by
        rw [ht.labels]
        exact hp.label hl hnone
      jumps := by
        refine ⟨jumpsOf d.size a.transitions, by rw [ht.jumps, hp.jumps], ?_⟩
        rw [nodesOf_app, nodesOf_nil, List.append_nil, List.filterMap_cons,
          filterMap_jump?_transitions d.size]
        rfl
      connected := fun roots rest hr hc => by
        have hne : p.endNode ≠ some d.size := hp.endNode ▸ h.endNode_ne (Nat.le_refl _)
        exact (ht.connected roots _ hne (hp.connected roots rest hr hc)).mono fun o ho => by
          simp only [List.mem_append, List.mem_cons] at ho ⊢
          tauto
      single := fun _ _ => rfl
      head := fun hne => absurd rfl (hne a)
      shows := fun hnew log D onward next hD ho => by
        have hlo : d.size ∉ exits := fun hmem => by
          have := ht.exits _ hmem
          omega
        refine ⟨d'.size, ⟨by omega, hD.node? (getElem?_mono ht.later.nodes hp.node),
          ht.carries h hp hnew hD, ?_⟩, rfl⟩
        rw [hD.later.successors _ (by omega), hsucc (Nat.le_refl _),
          ho _ (Nat.le_refl _) (by omega) hlo]
        simp }

theorem drawn_app {ends exits : List Nat} {a : App} {id : Nat} (h : d.Sound heads)
    (ha : d.Admits heads ends) (hr : Runs (drawApp ends a) d (id, exits) d') :
    id = d.size ∧ Drawn heads [.app a] ends d [d.size] exits d' := by
  obtain ⟨xs, hxs, hid⟩ := runs_drawApp.mp hr
  obtain ⟨rfl, rfl⟩ := Prod.mk.inj hid
  have hp := placed h ha a.name (a.label.map Label.name) (Argument.properties a.arguments)
  have ht := drawnTransitions hp.sound (by rw [hp.size]; exact Nat.lt_succ_self _) hxs
  exact ⟨rfl, ht.drawn h hp⟩

/-! ## One element after the other -/

section

variable {es : List Element} {ends out exits : List Nat}

theorem Drawn.admits (hd : d.Sound heads) (h : Drawn heads es ends d out exits d') :
    d'.Admits heads out where
  below e he := by
    obtain ⟨hle, hlt⟩ := h.mem e (List.mem_append_left _ he)
    exact ⟨hlt, h.endNode ▸ hd.endNode_ne hle⟩
  free := .inr h.free

theorem Drawn.count_out (h : Drawn heads es ends d out exits d') {id : Nat}
    (hid : id < d.size ∨ d'.size ≤ id) : out.count id = 0 := by
  refine List.count_eq_zero.mpr fun hmem => ?_
  have := h.mem id (List.mem_append_left _ hmem)
  omega

/-- The links that lead to a node of the flow are all drawn with it. -/
theorem Drawn.arrivals (hd : d.Sound heads) (h : Drawn heads es ends d out exits d')
    {onward : Nat → List Nat} (hl : d'.Later log (· < d'.size) onward D) {a b : Nat}
    (hb : d.size ≤ b) (hb' : b < d'.size) (hab : D.graph.Leads a b) : d'.graph.Leads a b :=
  hl.arrivals a b hb' (h.endNode ▸ hd.endNode_ne hb) hab

theorem Drawing.Later.leads {keep : Nat → Prop} {onward : Nat → List Nat}
    (hl : d.Later log keep onward D) {a b : Nat} (ha : keep a) (h : d.graph.Leads a b) :
    D.graph.Leads a b := by
  rw [Leads, hl.successors a ha]
  exact List.mem_append_left _ h

/-- Behind its first element, a flow has one node that only the first node leads to. -/
theorem Drawn.head_cons {e : Element} {out' exits' : List Nat} (hd : d.Sound heads)
    (h : Drawn heads [e] ends d out exits d')
    (h' : Drawn heads es out d' out' exits' D) :
    ∃ b < D.size, D.graph.Leads d.size b ∧ ∀ a, D.graph.Leads a b → a = d.size := by
  cases e with
  | app a =>
    obtain rfl := h.single a rfl
    refine ⟨d'.size, h'.size, ?_, fun a ha => List.mem_singleton.mp (h'.entry a ha)⟩
    rw [Leads, h'.later.successors _ h.size]
    simp
  | split s =>
    obtain ⟨b, hb, hlead, honly⟩ := h.head fun a ha => by cases ha
    have hlt := h.inside _ _ (Nat.le_refl _) hlead
    exact ⟨b, Nat.lt_trans hb h'.size, h'.later.leads h.size hlead, fun a ha =>
      honly a (h.arrivals hd h'.later (Nat.le_of_lt hlt) hb ha)⟩

theorem Drawn.shows_cons {e : Element} {out' exits' : List Nat} {E : Drawing} {onward : Nat → List Nat}
    {next : Nat} (h : Drawn heads [e] ends d out exits d')
    (h' : Drawn heads es out d' out' exits' D) (hne : es ≠ [])
    (hnew : d.New ((nodesOf (e :: es)).filterMap Node.label?)) (hE : Completes log d.size D E onward)
    (ho : ∀ id, d.size ≤ id → id < D.size → id ∉ exits ++ exits' →
      onward id = List.replicate (out'.count id) next) :
    ShowsElements E.graph (Carries log E) (e :: es) d.size D.size next := by
  have hsize := h.size
  have hsize' := h'.size
  rw [nodesOf_cons e es, List.filterMap_append] at hnew
  -- the ends of the first element lead on to the others, and to nothing that is drawn after them
  have hfirst := h.shows hnew.left log E _ d'.size (hE.of_later h'.later) fun id hid hid' hx => by
    rw [ho id hid (by omega) fun hmem => ?_, h'.count_out (.inl hid'), List.replicate_zero,
      List.append_nil]
    obtain hmem | hmem := List.mem_append.mp hmem
    · exact hx hmem
    · have := h'.mem id (List.mem_append_right _ hmem)
      omega
  have hrest := h'.shows (hnew.right fun l => (h.labels l).mp) log E onward next
    (hE.mono (Nat.le_of_lt hsize)) fun id hid hid' hx => by
      refine ho id (by omega) hid' fun hmem => ?_
      obtain hmem | hmem := List.mem_append.mp hmem
      · have := h.mem id (List.mem_append_right _ hmem)
        omega
      · exact hx hmem
  obtain ⟨mid, he, rfl⟩ := hfirst
  refine ⟨d'.size, ?_, hrest⟩
  rw [List.isEmpty_eq_false_iff.mpr hne, if_neg (by simp)]
  exact he

theorem Drawn.cons {e : Element} {out' exits' : List Nat} (hd : d.Sound heads)
    (h : Drawn heads [e] ends d out exits d')
    (h' : Drawn heads es out d' out' exits' D) (hne : es ≠ []) :
    Drawn heads (e :: es) ends d out' (exits ++ exits') D where
  later := by
    refine h.later.step h'.later (Nat.le_refl _) (Nat.le_of_lt h.size) fun id hid => ?_
    rw [h.count_out (.inl hid), List.replicate_zero, List.append_nil]
  size := Nat.lt_trans h.size h'.size
  sound := h'.sound
  endNode := h'.endNode.trans h.endNode
  mem x hx := by
    have := h.size
    have := h'.size
    simp only [List.mem_append] at hx
    obtain hx | hx | hx := hx
    · have := h'.mem x (List.mem_append_left _ hx)
      omega
    · have := h.mem x (List.mem_append_right _ hx)
      omega
    · have := h'.mem x (List.mem_append_right _ hx)
      omega
  free := h'.free
  inside a b ha hl := by
    obtain ha' | ha' := Nat.lt_or_ge a d'.size
    · rw [Leads, h'.later.successors a ha'] at hl
      obtain hl | hl := List.mem_append.mp hl
      · exact h.inside a b ha hl
      · rwa [List.eq_of_mem_replicate hl]
    · exact h'.inside a b ha' hl
  entry a hl := h.entry a (h.arrivals hd h'.later (Nat.le_refl _) h.size hl)
  labels l := by
    rw [h'.labels, h.labels, nodesOf_cons e es, List.filterMap_append, List.mem_append, or_assoc]
  named l hl hnone := lookup_mono h'.later.labels (h.named l hl hnone)
  jumps := by
    obtain ⟨js, hjs, hl⟩ := h.jumps
    obtain ⟨ks, hks, hl'⟩ := h'.jumps
    exact ⟨js ++ ks, by rw [hks, hjs, List.append_assoc], by
      rw [List.map_append, hl, hl', nodesOf_cons e es, List.filterMap_append]⟩
  connected roots rest hr hc := by
    obtain ⟨o, ho, -⟩ := h.free
    have hc := h'.connected roots (exits ++ rest) (.inl (List.ne_nil_of_mem ho))
      (List.append_assoc .. ▸ h.connected roots rest hr hc)
    exact hc.mono fun o ho => by
      simp only [List.mem_append] at ho ⊢
      tauto
  single a ha := absurd (List.cons.inj ha).2 hne
  head _ := h.head_cons hd h'
  shows hnew _ E onward next hE ho := h.shows_cons h' hne hnew hE ho

/-! ## One branch beside the other -/

/-- The branches are drawn from a fork, each from its own entry. -/
structure DrawnBranches (heads : List Nat) (bs : List Sequence) (fork : Nat)
    (d : Drawing) (entries out : List Nat) (d' : Drawing) : Prop where
  later : d.Later [] (· < d.size) (fun id => if id = fork then entries else []) d'
  sound : d'.Sound heads
  endNode : d'.endNode = d.endNode
  mem : ∀ e ∈ entries ++ out, d.size ≤ e ∧ e < d'.size
  inside : ∀ a b, d.size ≤ a → d'.graph.Leads a b → a < b
  labels : ∀ l, (d'.labels.lookup l).isSome ↔
    (d.labels.lookup l).isSome ∨ l ∈ (nodesOfBranches bs).filterMap Node.label?
  jumps : ∃ js, d'.jumps = d.jumps ++ js ∧
    js.map Jump.label = (nodesOfBranches bs).filterMap Node.jump?
  connected : ∀ roots rest, d.Connected roots rest → d'.Connected roots (out ++ rest)
  linked : bs ≠ [] → ∀ roots rest, d.Connected roots (fork :: rest) → d'.Connected roots (out ++ rest)
  /-- The first entry is led to by the fork alone. -/
  first : bs ≠ [] → (∃ e ∈ out, e ∉ d'.targetIds) ∧ d.size < d'.size ∧ d.size ∈ entries ∧
    ∀ a, d'.graph.Leads a d.size → a = fork
  shows : d.New ((nodesOfBranches bs).filterMap Node.label?) → ∀ log D onward next,
    Completes log d.size d' D onward →
      (∀ id, d.size ≤ id → id < d'.size → onward id = List.replicate (out.count id) next) →
        ShowsBranches D.graph (Carries log D) bs entries d.size d'.size next

theorem DrawnBranches.nil {fork : Nat} (hd : d.Sound heads) :
    DrawnBranches heads [] fork d [] [] d where
  later := (Later.refl d).mono (fun _ h => h) fun _ _ => by split <;> rfl
  sound := hd
  endNode := rfl
  mem := by simp
  inside a b ha hl := by
    have := (hd.leads_lt hl).1
    omega
  labels l := by simp
  jumps := ⟨[], (List.append_nil _).symm, rfl⟩
  connected _ _ h := h
  linked := absurd rfl
  first := absurd rfl
  shows _ _ _ _ _ _ _ := ⟨rfl, rfl⟩

/-- What is shown of a sequence once all of its ends are linked to one node. -/
theorem Drawn.encloses (h : Drawn heads es ends d out exits d') {onward : Nat → List Nat}
    {next : Nat} (hl : d'.Later log (fun id => d.size ≤ id ∧ id < d'.size) onward D)
    (ho : ∀ id, d.size ≤ id → id < d'.size →
      onward id = List.replicate ((out ++ exits).count id) next) :
    Encloses D.graph d.size d'.size next := by
  intro a b ha ha' hab
  rw [Leads, hl.successors a ⟨ha, ha'⟩, ho a ha ha'] at hab
  obtain hab | hab := List.mem_append.mp hab
  · exact .inr ⟨Nat.le_trans ha (Nat.le_of_lt (h.inside a b ha hab)), (h.sound.leads_lt hab).2⟩
  · exact .inl (List.eq_of_mem_replicate hab)

theorem Drawn.shows_all (h : Drawn heads es ends d out exits d')
    (hnew : d.New ((nodesOf es).filterMap Node.label?)) {onward : Nat → List Nat} {next : Nat}
    (hD : Completes log d.size d' D onward)
    (ho : ∀ id, d.size ≤ id → id < d'.size →
      onward id = List.replicate ((out ++ exits).count id) next) :
    ShowsElements D.graph (Carries log D) es d.size d'.size next :=
  h.shows hnew log D onward next hD fun id hid hid' hx => by
    rw [ho id hid hid', List.count_append, List.count_eq_zero.mpr hx, Nat.add_zero]

theorem Drawn.linked_cons {bs : List Sequence} {fork : Nat} {entries out' : List Nat}
    (h : Drawn heads es [fork] d out exits d')
    (h' : DrawnBranches heads bs fork d' entries out' D) {roots rest : List Nat}
    (hc : d.Connected roots (fork :: rest)) : D.Connected roots ((out ++ exits) ++ out' ++ rest) := by
  have hc := h'.connected roots _ (h.connected roots rest (.inl (by simp)) hc)
  exact hc.mono fun o ho => by
    simp only [List.mem_append] at ho ⊢
    tauto

theorem DrawnBranches.shows_cons {bs : List Sequence} {fork start stop : Nat} {entries out' : List Nat}
    {E : Drawing} {onward : Nat → List Nat} {next : Nat} (hfork : fork < d.size)
    (h : Drawn heads es [fork] d out exits d')
    (h' : DrawnBranches heads bs fork d' entries out' D) (hne : es ≠ [])
    (hnew : d.New ((nodesOfBranches (⟨es, start, stop⟩ :: bs)).filterMap Node.label?))
    (hE : Completes log d.size D E onward)
    (ho : ∀ id, d.size ≤ id → id < D.size →
      onward id = List.replicate ((out ++ exits ++ out').count id) next) :
    ShowsBranches E.graph (Carries log E) (⟨es, start, stop⟩ :: bs) (d.size :: entries) d.size D.size
      next := by
  have hsize := h.size
  have hsize' := h'.later.size_le
  rw [nodesOfBranches_cons, nodes_sequence, List.filterMap_append, List.filterMap_cons_none rfl] at hnew
  have hout : ∀ id, id < d'.size → out'.count id = 0 := fun id hid =>
    List.count_eq_zero.mpr fun hmem => by
      have := h'.mem id (List.mem_append_right _ hmem)
      omega
  have hout' : ∀ id, d'.size ≤ id → (out ++ exits).count id = 0 := fun id hid =>
    List.count_eq_zero.mpr fun hmem => by
      have := h.mem id hmem
      omega
  have ho' : ∀ id, d.size ≤ id → id < d'.size → (if id = fork then entries else []) ++ onward id =
      List.replicate ((out ++ exits).count id) next := by
    intro id hid hid'
    rw [if_neg (by omega), List.nil_append, ho id hid (by omega), List.count_append, hout id hid',
      Nat.add_zero]
  have hE' := hE.of_later h'.later
  have hrest := h'.shows (hnew.right fun l => (h.labels l).mp) log E onward next
    (hE.mono (Nat.le_of_lt hsize)) fun id hid hid' => by
      rw [ho id (by omega) hid', List.count_append, hout' id hid, Nat.zero_add]
  exact ⟨d'.size, entries, rfl, h.encloses hE'.later ho', ⟨hne, h.shows_all hnew.left hE' ho'⟩, hrest⟩

theorem DrawnBranches.cons {bs : List Sequence} {fork start stop : Nat} {entries out' : List Nat}
    (hd : d.Sound heads) (hfork : fork < d.size)
    (h : Drawn heads es [fork] d out exits d')
    (h' : DrawnBranches heads bs fork d' entries out' D) (hne : es ≠ []) :
    DrawnBranches heads (⟨es, start, stop⟩ :: bs) fork d (d.size :: entries)
      ((out ++ exits) ++ out') D where
  later := by
    refine h.later.step h'.later (Nat.le_refl _) (Nat.le_of_lt h.size) fun id _ => ?_
    by_cases hid : id = fork
    · simp [hid]
    · simp [hid, List.count_eq_zero.mpr fun hmem => hid (List.mem_singleton.mp hmem)]
  sound := h'.sound
  endNode := h'.endNode.trans h.endNode
  mem x hx := by
    have := h.size
    have := h'.later.size_le
    simp only [List.cons_append, List.mem_cons, List.mem_append] at hx
    obtain rfl | hx | hx | hx := hx
    · omega
    · have := h'.mem x (List.mem_append_left _ hx)
      omega
    · have := h.mem x (List.mem_append.mpr hx)
      omega
    · have := h'.mem x (List.mem_append_right _ hx)
      omega
  inside a b ha hl := by
    obtain ha' | ha' := Nat.lt_or_ge a d'.size
    · rw [Leads, h'.later.successors a ha', if_neg (by omega), List.append_nil] at hl
      exact h.inside a b ha hl
    · exact h'.inside a b ha' hl
  labels l := by
    rw [h'.labels, h.labels, nodesOfBranches_cons, nodes_sequence, List.filterMap_append,
      List.filterMap_cons_none rfl, List.mem_append, or_assoc]
  jumps := by
    obtain ⟨js, hjs, hl⟩ := h.jumps
    obtain ⟨ks, hks, hl'⟩ := h'.jumps
    exact ⟨js ++ ks, by rw [hks, hjs, List.append_assoc], by
      rw [List.map_append, hl, hl', nodesOfBranches_cons, nodes_sequence, List.filterMap_append,
        List.filterMap_cons_none rfl]⟩
  connected roots rest hc := h.linked_cons h' (hc.mono fun _ => List.mem_cons_of_mem _)
  linked _ roots rest hc := h.linked_cons h' hc
  first _ := by
    obtain ⟨e, he, hfree⟩ := h.free
    refine ⟨⟨e, by simp [he], not_mem_targetIds_of_later h'.later ?_ hfree⟩,
      Nat.lt_of_lt_of_le h.size h'.later.size_le, List.mem_cons_self, fun a ha =>
        List.mem_singleton.mp (h.entry a (h.arrivals hd h'.later (Nat.le_refl _) h.size ha))⟩
    exact (h.mem e (List.mem_append_left _ he)).2
  shows hnew _ E onward next hE ho := DrawnBranches.shows_cons hfork h h' hne hnew hE ho

theorem Placed.new {p : Drawing} {s : Split} {ms : List Task.Node}
    (hp : Placed heads ends ⟨d.size, syncName, s.label.map Label.name, []⟩ d p)
    (hnew : d.New ((.split s :: ms).filterMap Node.label?)) : p.New (ms.filterMap Node.label?) := by
  have hcons : (.split s :: ms).filterMap Node.label? =
      (s.label.map Label.name).toList ++ ms.filterMap Node.label? := by
    obtain ⟨label, -, -, -⟩ := s
    cases label <;> rfl
  rw [hcons] at hnew
  refine hnew.right fun l => ?_
  rw [hp.known]
  exact Or.imp_right fun h => by simpa [eq_comm] using h

/-- The branches are all that the node of a split leads to. -/
theorem DrawnBranches.fork {bs : List Sequence} {n : Node} {p : Drawing} {entries : List Nat}
    (hp : Placed heads ends n d p)
    (h : DrawnBranches heads bs d.size p entries out d') :
    d'.graph.successors d.size = entries := by
  rw [h.later.successors _ (by rw [hp.size]; omega), hp.successors _ (Nat.le_refl _), if_pos rfl,
    List.nil_append]

theorem DrawnBranches.shows_split {bs : List Sequence} {p : Drawing} {entries : List Nat}
    {label : Option Label} {start stop : Nat} {onward : Nat → List Nat} {next : Nat} (hd : d.Sound heads)
    (hp : Placed heads ends ⟨d.size, syncName, label.map Label.name, []⟩ d p)
    (h : DrawnBranches heads bs d.size p entries out d')
    (hnew : d.New ((nodesOf [.split ⟨label, bs, start, stop⟩]).filterMap Node.label?))
    (hD : Completes log d.size d' D onward)
    (ho : ∀ id, d.size ≤ id → id < d'.size → onward id = List.replicate (out.count id) next) :
    ShowsElements D.graph (Carries log D) [.split ⟨label, bs, start, stop⟩] d.size d'.size next := by
  have hsize := hp.size
  have hle := h.later.size_le
  rw [nodesOf_split, nodesOf_nil, List.append_nil] at hnew
  have hout : out.count d.size = 0 := List.count_eq_zero.mpr fun hm => by
    have := h.mem _ (List.mem_append_right _ hm)
    omega
  have hentries : D.graph.successors d.size = entries := by
    rw [hD.later.successors _ (by omega), h.fork hp, ho _ (Nat.le_refl _) (by omega), hout,
      List.replicate_zero, List.append_nil]
  have hs := h.shows (hp.new hnew) log D onward next (hD.mono (by omega)) fun id hid hid' =>
    ho id (by omega) hid'
  refine ⟨d'.size, ⟨hD.node? (getElem?_mono h.later.nodes hp.node), ⟨?_, fun l hl => ?_, fun a ha => ?_⟩,
    ?_⟩, rfl⟩
  · exact not_mem_targetIds_of_later hD.later (by omega) (hp.own hd h.later)
  · exact lookup_mono (h.later.labels.trans hD.later.labels)
      (hp.label hl (hnew.unknown l (by simp [show Node.label? (.split _) = some l from hl])))
  · cases ha
  · rwa [hentries, ← hsize]

theorem DrawnBranches.split {bs : List Sequence} {p : Drawing} {entries : List Nat}
    {label : Option Label} {start stop : Nat} (hd : d.Sound heads)
    (hp : Placed heads ends ⟨d.size, syncName, label.map Label.name, []⟩ d p)
    (h : DrawnBranches heads bs d.size p entries out d') (hne : bs ≠ []) :
    Drawn heads [.split ⟨label, bs, start, stop⟩] ends d out [] d' := by
  have hsize := hp.size
  have hle := h.later.size_le
  obtain ⟨hfree, hlt, hmem, honly⟩ := h.first hne
  exact
    { later := hp.later.step h.later (Nat.le_refl _) (by omega) fun id hid => by
        rw [if_neg (by omega), List.append_nil]
      size := by omega
      sound := h.sound
      endNode := h.endNode.trans hp.endNode
      mem := fun e he => by
        have := h.mem e (List.mem_append_right _ (by simpa using he))
        omega
      free := hfree
      inside := fun x y hx hl => by
        obtain rfl | hx := Nat.eq_or_lt_of_le hx
        · rw [Leads, h.fork hp] at hl
          have := h.mem y (List.mem_append_left _ hl)
          omega
        · exact h.inside x y (by omega) hl
      entry := fun x hl => hp.entry hd
        (h.later.arrivals x d.size (by omega) (hp.endNode ▸ hd.endNode_ne (Nat.le_refl _)) hl)
      labels := fun l => by
        rw [h.labels, hp.known, nodesOf_split, nodesOf_nil, List.append_nil, List.filterMap_cons,
          or_assoc]
        refine or_congr_right ?_
        simp only [Node.label?]
        cases label <;> simp [eq_comm]
      named := fun l hl hnone => lookup_mono h.later.labels (hp.label hl hnone)
      jumps := by
        obtain ⟨js, hjs, hl⟩ := h.jumps
        refine ⟨js, by rw [hjs, hp.jumps], ?_⟩
        rw [hl, nodesOf_split, nodesOf_nil, List.append_nil, List.filterMap_cons_none rfl]
      connected := fun roots rest hr hc => by
        rw [List.append_nil]
        exact h.linked hne roots rest (hp.connected roots rest hr hc)
      single := by simp
      head := fun _ => ⟨p.size, hlt, by rw [Leads, h.fork hp]; exact hmem, honly⟩
      shows := fun hnew _ D onward next hD ho => h.shows_split hd hp hnew hD fun id hid hid' =>
        ho id hid hid' List.not_mem_nil }

end

/-! ## Flows -/

theorem runs_drawSplit {ends xs : List Nat} {label : Option Label} {bs : List Sequence}
    {start stop : Nat} : Runs (drawSplit ends ⟨label, bs, start, stop⟩) d xs d' ↔
      Runs (drawBranches d.size bs) (d.place ends syncName (label.map Label.name) []) xs d' := by
  simp only [drawSplit, runs_bind, runs_addNode, runs_registerLabel, runs_join]
  constructor
  · rintro ⟨_, _, ⟨rfl, rfl⟩, _, _, rfl, _, _, rfl, h⟩
    exact h
  · exact fun h => ⟨_, _, ⟨rfl, rfl⟩, (), _, rfl, (), _, rfl, h⟩

mutual

theorem drawn_sequence : (s : Sequence) → {d d' : Drawing} → {ends xs : List Nat} →
    d.Sound heads → d.Admits heads ends → s.IsProper → Runs (drawSequence ends s) d xs d' →
        ∃ out exits, xs = out ++ exits ∧ Drawn heads s.elements ends d out exits d'
  | ⟨es, _, _⟩, _, _, _, _, hd, ha, ⟨hne, hes⟩, hr => by
    simp only [drawSequence, runs_bind, runs_pure] at hr
    obtain ⟨⟨out, exits⟩, _, hr, rfl, rfl⟩ := hr
    exact ⟨out, exits, rfl, drawn_elements es hd ha hne hes hr⟩

theorem drawn_elements : (es : List Element) → {d d' : Drawing} → {ends out exits : List Nat} →
    d.Sound heads → d.Admits heads ends → es ≠ [] → (∀ n ∈ nodesOf es, n.IsProper) →
      Runs (drawElements ends es) d (out, exits) d' → Drawn heads es ends d out exits d'
  | [], _, _, _, _, _, _, _, hne, _, _ => absurd rfl hne
  | e :: es, _, _, _, _, _, hd, ha, _, hes, hr => by
    rw [nodesOf_cons] at hes
    simp only [drawElements, runs_bind, runs_pure] at hr
    obtain ⟨⟨out, exits⟩, _, he, ⟨out', exits'⟩, _, hr, hx, rfl⟩ := hr
    obtain ⟨rfl, rfl⟩ := Prod.mk.inj hx
    have he := drawn_element e hd ha (fun n hn => hes n (List.mem_append_left _ hn)) he
    match es with
    | [] =>
      obtain ⟨hx, rfl⟩ := runs_pure.mp hr
      obtain ⟨rfl, rfl⟩ := Prod.mk.inj hx
      rwa [List.append_nil]
    | f :: es =>
      exact he.cons hd (drawn_elements (f :: es) he.sound (he.admits hd) (by simp)
        (fun n hn => hes n (List.mem_append_right _ hn)) hr) (by simp)

theorem drawn_element : (e : Element) → {d d' : Drawing} → {ends out exits : List Nat} →
    d.Sound heads → d.Admits heads ends → (∀ n ∈ nodesOf [e], n.IsProper) →
      Runs (drawElement ends e) d (out, exits) d' → Drawn heads [e] ends d out exits d'
  | .app a, _, _, _, _, _, hd, ha, _, hr => by
    simp only [drawElement, runs_bind, runs_pure] at hr
    obtain ⟨⟨id, exits⟩, _, hr, hx, rfl⟩ := hr
    obtain ⟨rfl, rfl⟩ := Prod.mk.inj hx
    obtain ⟨rfl, h⟩ := drawn_app hd ha hr
    exact h
  | .split s, _, _, _, _, _, hd, ha, hes, hr => by
    simp only [drawElement, runs_bind, runs_pure] at hr
    obtain ⟨xs, _, hr, hx, rfl⟩ := hr
    obtain ⟨rfl, rfl⟩ := Prod.mk.inj hx
    exact drawn_split s hd ha hes hr

theorem drawn_split : (s : Split) → {d d' : Drawing} → {ends xs : List Nat} →
    d.Sound heads → d.Admits heads ends → (∀ n ∈ nodesOf [.split s], n.IsProper) →
      Runs (drawSplit ends s) d xs d' → Drawn heads [.split s] ends d xs [] d'
  | ⟨label, bs, start, stop⟩, _, _, _, _, hd, ha, hes, hr => by
    rw [nodesOf_split, nodesOf_nil, List.append_nil] at hes
    obtain ⟨hne, hbs⟩ := List.forall_mem_cons.mp hes
    have hp := placed hd ha syncName (label.map Label.name) []
    obtain ⟨entries, h⟩ := drawn_branches bs hp.sound (by rw [hp.size]; omega)
      ⟨by rw [hp.endNode]; exact hd.endNode_ne (Nat.le_refl _), fun hmem => by
        rw [hp.targetIds] at hmem
        exact absurd (hd.lt_of_mem_targetIds hmem) (by omega)⟩ hbs (runs_drawSplit.mp hr)
    exact h.split hd hp hne

theorem drawn_branches : (bs : List Sequence) → {d d' : Drawing} → {fork : Nat} → {xs : List Nat} →
    d.Sound heads → fork < d.size → d.endNode ≠ some fork ∧ fork ∉ d.targetIds →
      (∀ n ∈ nodesOfBranches bs, n.IsProper) → Runs (drawBranches fork bs) d xs d' →
        ∃ entries, DrawnBranches heads bs fork d entries xs d'
  | [], _, _, _, _, hd, _, _, _, hr => by
    obtain ⟨rfl, rfl⟩ := runs_pure.mp hr
    exact ⟨[], .nil hd⟩
  | ⟨es, start, stop⟩ :: bs, _, _, fork, _, hd, hlt, hfork, hbs, hr => by
    rw [nodesOfBranches_cons, nodes_sequence] at hbs
    obtain ⟨hne, hes⟩ := List.forall_mem_cons.mp fun n hn => hbs n (List.mem_append_left _ hn)
    simp only [drawBranches, runs_bind, runs_pure] at hr
    obtain ⟨_, _, hr, ys, _, hr', rfl, rfl⟩ := hr
    obtain ⟨out, exits, rfl, h⟩ := drawn_sequence ⟨es, start, stop⟩ hd
      ⟨by simpa using ⟨hlt, hfork.1⟩, .inr ⟨fork, by simp, hfork.2⟩⟩ ⟨hne, hes⟩ hr
    obtain ⟨entries, h'⟩ := drawn_branches bs h.sound (Nat.lt_trans hlt h.size)
      ⟨by rw [h.endNode]; exact hfork.1, not_mem_targetIds_of_later h.later hlt hfork.2⟩
      (fun n hn => hbs n (List.mem_append_right _ hn)) hr'
    exact ⟨_, .cons hd hlt h h' hne⟩

end

end Pipework.Graph
