import Pipework.Proofs.Graph.Resolving

/-! Which nodes a graph has while it is drawn, each counted as often as it is there: one for every
app and split of the flows drawn so far, and one for all transitions to equal apps or to a marker. -/

namespace Pipework.Graph

open Pipework.Task Drawing

/-! ## What there is to draw -/

/-- A node but for its place in the graph. -/
def Node.content (n : Node) : Node := { n with id := 0 }

/-- A node that has a name only. -/
def bare (name : String) : Node := ⟨0, name, none, []⟩

/-- What an app or a split of a flow is drawn as. -/
def flowContent? : Task.Node → Option Node
  | .app a => some (targetKey a)
  | .split s => some ⟨0, syncName, s.label.map Label.name, []⟩
  | _ => none

/-- The app that a transition leads to. -/
def targetApp? : Task.Node → Option App
  | .transition t => t.target.app?
  | _ => none

def targetApps (ns : List Task.Node) : List App := ns.filterMap targetApp?

/-- What the target apps are known by, the markers left out. -/
def targetKeys (ns : List Task.Node) : List Node :=
  ((targetApps ns).filter fun a => !isMarker a.name).map targetKey

def markerNames (ns : List Task.Node) : List String :=
  ((targetApps ns).filter fun a => isMarker a.name).map App.name

/-- The nodes that come of a walk, once the start and perhaps the end are there. -/
def stock (ended : Bool) (ns : List Task.Node) : List Node :=
  bare startName :: ((if ended then [bare endName] else []) ++ (ns.filterMap flowContent? ++
    ((targetKeys ns).dedup ++ (markerNames ns).dedup.map bare)))

section

variable {ns : List Task.Node} {n : Task.Node} {t : Transition} {a : App} {ended : Bool}

theorem filterMap_concat {α β : Type} (f : α → Option β) (as : List α) (a : α) :
    (as ++ [a]).filterMap f = as.filterMap f ++ (f a).toList := by
  rw [List.filterMap_append]
  cases h : f a <;> simp [h]

theorem perm_dedup_concat {α : Type} [DecidableEq α] (as : List α) (a : α) :
    (as ++ [a]).dedup.Perm (as.dedup ++ if a ∈ as then [] else [a]) := by
  have hswap : (as ++ [a]).dedup.Perm (a :: as).dedup := List.perm_append_comm.dedup
  split
  · next h => rwa [List.dedup_cons_of_mem h, ← List.append_nil as.dedup] at hswap
  · next h =>
    rw [List.dedup_cons_of_notMem h] at hswap
    exact hswap.trans (List.perm_append_singleton ..).symm

/-- An app or split takes a node, and nothing else of a walk but a transition can. -/
theorem stock_flow (ht : targetApp? n = none) :
    (stock ended ns ++ (flowContent? n).toList).Perm (stock ended (ns ++ [n])) := by
  have happs : targetApps (ns ++ [n]) = targetApps ns := by
    rw [targetApps, filterMap_concat, ht, Option.toList_none, List.append_nil, targetApps]
  refine List.perm_iff_count.mpr fun x => ?_
  simp only [stock, targetKeys, markerNames, happs, filterMap_concat, List.count_append,
    List.count_cons]
  omega

theorem targetKeys_concat (ht : t.target = .app a) (hm : isMarker a.name = false) :
    targetKeys (ns ++ [.transition t]) = targetKeys ns ++ [targetKey a] ∧
      markerNames (ns ++ [.transition t]) = markerNames ns := by
  simp [targetKeys, markerNames, targetApps, targetApp?, ht, Target.app?, hm]

theorem markerNames_concat (ht : t.target = .app a) (hm : isMarker a.name = true) :
    targetKeys (ns ++ [.transition t]) = targetKeys ns ∧
      markerNames (ns ++ [.transition t]) = markerNames ns ++ [a.name] := by
  simp [targetKeys, markerNames, targetApps, targetApp?, ht, Target.app?, hm]

/-- A transition takes a node for each key and each name of a marker that it is the first to lead to. -/
theorem stock_transition {keys : List Node} {names : List String}
    (hkeys : (targetKeys (ns ++ [.transition t])).dedup.Perm ((targetKeys ns).dedup ++ keys))
    (hnames : (markerNames (ns ++ [.transition t])).dedup.Perm ((markerNames ns).dedup ++ names)) :
    (stock ended ns ++ (keys ++ names.map bare)).Perm (stock ended (ns ++ [.transition t])) := by
  refine List.perm_iff_count.mpr fun x => ?_
  have hkeys := hkeys.count_eq x
  have hnames := (hnames.map bare).count_eq x
  rw [List.count_append] at hkeys
  rw [List.map_append, List.count_append] at hnames
  simp only [stock, filterMap_concat, flowContent?, Option.toList_none, List.append_nil,
    List.count_append, List.count_cons, hkeys, hnames]
  omega

/-- A target app takes a node if no transition before leads to an equal one. -/
theorem stock_target (ht : t.target = .app a) (hm : isMarker a.name = false) :
    (stock ended ns ++ if targetKey a ∈ targetKeys ns then [] else [targetKey a]).Perm
      (stock ended (ns ++ [.transition t])) := by
  obtain ⟨hkeys, hnames⟩ := @targetKeys_concat ns t a ht hm
  simpa using @stock_transition ns t ended _ [] (hkeys ▸ perm_dedup_concat (targetKeys ns) _)
    (by rw [hnames, List.append_nil])

/-- A marker takes a node if no transition before leads to it. -/
theorem stock_marker (ht : t.target = .app a) (hm : isMarker a.name = true) :
    (stock ended ns ++ (if a.name ∈ markerNames ns then [] else [a.name]).map bare).Perm
      (stock ended (ns ++ [.transition t])) := by
  obtain ⟨hkeys, hnames⟩ := @markerNames_concat ns t a ht hm
  exact @stock_transition ns t ended [] _ (by rw [hkeys, List.append_nil])
    (hnames ▸ perm_dedup_concat (markerNames ns) _)

theorem stock_ended : (stock false ns ++ [bare endName]).Perm (stock true ns) := by
  refine List.perm_iff_count.mpr fun x => ?_
  simp only [stock, if_true, Bool.false_eq_true, if_false, List.count_append, List.count_cons,
    List.count_nil]
  omega

/-- The nodes of markers are those that transitions lead to, if no app of a flow has a marker's name. -/
theorem mem_markerNames {m : String} (hm : isMarker m = true)
    (happs : ∀ a, .app a ∈ ns → isMarker a.name = false) :
    m ∈ markerNames ns ↔ ∃ c ∈ stock ended ns, c.name = m := by
  have hstock : ∀ c, c ∈ stock ended ns ↔ c = bare startName ∨ (ended = true ∧ c = bare endName) ∨
      (∃ n ∈ ns, flowContent? n = some c) ∨ c ∈ targetKeys ns ∨
        ∃ m ∈ markerNames ns, bare m = c := fun c => by
    simp [stock]
  constructor
  · exact fun h => ⟨bare m, (hstock _).mpr (.inr (.inr (.inr (.inr ⟨m, h, rfl⟩)))), rfl⟩
  · rintro ⟨c, hc, rfl⟩
    obtain rfl | ⟨-, rfl⟩ | ⟨n, hn, hc⟩ | hc | ⟨m, hmem, rfl⟩ := (hstock c).mp hc
    · exact absurd hm (by decide)
    · exact absurd hm (by decide)
    · cases n with
      | app a =>
        obtain rfl := Option.some.inj hc
        rw [show (targetKey a).name = a.name from rfl, happs a hn] at hm
        cases hm
      | split s =>
        obtain rfl := Option.some.inj hc
        exact absurd (show isMarker syncName = true from hm) (by decide)
      | task | sequence | transition => cases hc
    · obtain ⟨a, ha, rfl⟩ := List.mem_map.mp hc
      have hno := (List.mem_filter.mp ha).2
      rw [show a.name = (targetKey a).name from rfl, hm] at hno
      cases hno
    · exact hmem

end

/-! ## Steps -/

/-- The nodes of a drawing are what comes of a walk through the flows drawn so far. -/
structure Drawing.Stocks (d : Drawing) (ns : List Task.Node) : Prop where
  nodes : (d.graph.nodes.map Node.content).Perm (stock d.endNode.isSome ns)
  targets : ∀ k, (d.targets.lookup k).isSome ↔ k ∈ targetKeys ns
  /-- No app of a flow can be taken for a marker. -/
  apps : ∀ a, .app a ∈ ns → isMarker a.name = false

section

variable {d d' : Drawing} {ns : List Task.Node} {n : Task.Node} {t : Transition}

/-- Links, labels and jumps make no difference. -/
theorem Drawing.Stocks.transfer (h : d.Stocks ns) (hnodes : d'.graph.nodes = d.graph.nodes)
    (htargets : d'.targets = d.targets) (hend : d'.endNode = d.endNode) : d'.Stocks ns :=
  ⟨hnodes ▸ hend ▸ h.nodes, htargets ▸ h.targets, h.apps⟩

theorem Drawing.Stocks.named? (h : d.Stocks ns) {m : String} (hm : isMarker m = true) :
    (d.graph.named? m).isSome ↔ m ∈ markerNames ns := by
  rw [@mem_markerNames ns d.endNode.isSome m hm h.apps, Graph.named?, List.find?_isSome]
  simp only [← h.nodes.mem_iff, List.mem_map, exists_exists_and_eq_and, beq_iff_eq]
  rfl

/-- Whatever is no transition to an app adds the node that it is drawn as. -/
theorem Drawing.Stocks.add (h : d.Stocks ns) (ht : targetApp? n = none)
    (hm : ∀ a, n = .app a → isMarker a.name = false)
    (hnodes : d'.graph.nodes.map Node.content = d.graph.nodes.map Node.content ++
      (flowContent? n).toList)
    (htargets : d'.targets = d.targets) (hend : d'.endNode = d.endNode) : d'.Stocks (ns ++ [n]) where
  nodes := by
    rw [hnodes, hend]
    exact (h.nodes.append_right _).trans (stock_flow ht)
  targets k := by
    rw [htargets, h.targets, targetKeys, targetKeys, targetApps, targetApps, filterMap_concat, ht,
      Option.toList_none, List.append_nil]
  apps a ha := by
    rcases List.mem_append.mp ha with ha | ha
    · exact h.apps a ha
    · exact hm a (List.mem_singleton.mp ha).symm

/-- A transition adds no app to the flows. -/
theorem Drawing.Stocks.no_marker (h : d.Stocks ns) (a : App) (ha : .app a ∈ ns ++ [.transition t]) :
    isMarker a.name = false :=
  h.apps a (by simpa using ha)

theorem Drawing.Stocks.marker (h : d.Stocks ns) {a : App} {id : Nat} (ht : t.target = .app a)
    (hm : isMarker a.name = true) (hr : Runs (nodeNamed a.name) d id d') :
    d'.Stocks (ns ++ [.transition t]) := by
  have hnames := h.named? hm
  obtain ⟨hkeys, -⟩ := @markerNames_concat ns t a ht hm
  have hstock := @stock_marker ns t a d.endNode.isSome ht hm
  obtain ⟨n, hnamed, -, rfl⟩ | ⟨hnone, -, rfl⟩ := runs_nodeNamed.mp hr
  · rw [if_pos (hnames.mp (by rw [hnamed]; rfl)), List.map_nil, List.append_nil] at hstock
    exact ⟨h.nodes.trans hstock, hkeys ▸ h.targets, h.no_marker⟩
  · rw [if_neg (fun hmem => by simpa [hnone] using hnames.mpr hmem)] at hstock
    refine ⟨?_, hkeys ▸ h.targets, h.no_marker⟩
    rw [Drawing.withNode, List.map_append]
    exact (h.nodes.append_right _).trans hstock

theorem Drawing.Stocks.target (h : d.Stocks ns) {a : App} {r : Nat × Bool} (ht : t.target = .app a)
    (hm : isMarker a.name = false) (hr : Runs (targetNode a) d r d') :
    d'.Stocks (ns ++ [.transition t]) := by
  obtain ⟨hkeys, -⟩ := @targetKeys_concat ns t a ht hm
  have hstock := @stock_target ns t a d.endNode.isSome ht hm
  obtain ⟨x, hx, -, rfl⟩ | ⟨hnone, -, rfl⟩ := runs_targetNode.mp hr
  · have hmem : targetKey a ∈ targetKeys ns := (h.targets _).mp (by rw [hx]; rfl)
    rw [if_pos hmem, List.append_nil] at hstock
    refine ⟨h.nodes.trans hstock, fun k => ?_, h.no_marker⟩
    rw [hkeys, List.mem_append, List.mem_singleton]
    exact (h.targets k).trans ⟨.inl, fun hk => hk.elim id fun hk => hk ▸ hmem⟩
  · rw [if_neg (fun hmem => by simpa [hnone] using (h.targets _).mpr hmem)] at hstock
    refine ⟨?_, fun k => ?_, h.no_marker⟩
    · rw [Drawing.withTarget, Drawing.withNode, List.map_append]
      exact (h.nodes.append_right _).trans hstock
    · rw [hkeys, List.mem_append, List.mem_singleton, ← h.targets, Drawing.withTarget,
        List.lookup_append]
      by_cases hk : k = targetKey a
      · simp [hk]
      · simp [hk, List.lookup_cons, beq_false_of_ne hk]

theorem Drawing.Stocks.transition (h : d.Stocks ns) {source : Nat} {exits : List Nat}
    (hr : Runs (drawTransition source t) d exits d') : d'.Stocks (ns ++ [.transition t]) := by
  unfold drawTransition at hr
  split at hr
  · next l ht =>
    simp only [runs_bind, runs_modify, runs_pure] at hr
    obtain ⟨-, -, rfl, -, rfl⟩ := hr
    exact h.add (by rw [targetApp?, ht]; rfl) (by simp) (List.append_nil _).symm rfl rfl
  · next a ht =>
    split at hr
    · next hm =>
      simp only [runs_bind, runs_addLink, runs_pure] at hr
      obtain ⟨id, e, hid, -, -, rfl, -, rfl⟩ := hr
      exact (h.marker ht hm hid).transfer rfl rfl rfl
    · next hm =>
      simp only [runs_bind, runs_addLink, runs_pure] at hr
      obtain ⟨⟨_, isNew⟩, e, hid, -, -, rfl, -, rfl⟩ := hr
      exact (h.target ht (by simpa using hm) hid).transfer rfl rfl rfl

theorem Drawing.Stocks.transitions {ts : List Transition} (h : d.Stocks ns) {source : Nat}
    {exits : List (List Nat)} (hr : Runs (ts.mapM (drawTransition source)) d exits d') :
    d'.Stocks (ns ++ ts.map Node.transition) := by
  induction ts generalizing d ns exits with
  | nil =>
    obtain ⟨-, rfl⟩ := runs_mapM_nil.mp hr
    rwa [List.map_nil, List.append_nil]
  | cons t ts ih =>
    obtain ⟨_, _, e, ht, hts, -⟩ := runs_mapM_cons.mp hr
    rw [List.map_cons, List.append_cons]
    exact ih (h.transition ht) hts

/-- An app or split takes its place in a flow. -/
theorem Drawing.Stocks.place (h : d.Stocks ns) (ends : List Nat) {name : String}
    {label : Option String} {properties : List (String × String)}
    (hc : flowContent? n = some ⟨0, name, label, properties⟩) (ht : targetApp? n = none)
    (hm : ∀ a, n = .app a → isMarker a.name = false) :
    (d.place ends name label properties).Stocks (ns ++ [n]) := by
  refine h.add ht hm ?_ rfl rfl
  rw [hc, Drawing.place, Drawing.withLinks, Drawing.withLabel, Drawing.withNode, List.map_append]
  rfl

theorem Drawing.Stocks.app (h : d.Stocks ns) {ends : List Nat} {a : App} {r : Nat × List Nat}
    (hm : isMarker a.name = false) (hr : Runs (drawApp ends a) d r d') :
    d'.Stocks (ns ++ nodesOf [.app a]) := by
  obtain ⟨_, hts, -⟩ := runs_drawApp.mp hr
  have hplace := h.place (n := .app a) ends rfl rfl (by rintro _ ⟨⟩; exact hm)
  rw [nodesOf_app, nodesOf_nil, List.append_nil, List.append_cons]
  exact hplace.transitions hts

/-! ## Flows -/

mutual

theorem stocks_sequence : (s : Sequence) → {d d' : Drawing} → {ns : List Task.Node} →
    {ends xs : List Nat} → d.Stocks ns → (∀ a, .app a ∈ nodesOf s.elements → isMarker a.name = false) →
      Runs (drawSequence ends s) d xs d' → d'.Stocks (ns ++ nodesOf s.elements)
  | ⟨es, _, _⟩, _, _, _, _, _, h, hm, hr => by
    simp only [drawSequence, runs_bind, runs_pure] at hr
    obtain ⟨_, _, hr, -, rfl⟩ := hr
    exact stocks_elements es h hm hr

theorem stocks_elements : (es : List Element) → {d d' : Drawing} → {ns : List Task.Node} →
    {ends : List Nat} → {r : List Nat × List Nat} → d.Stocks ns →
      (∀ a, .app a ∈ nodesOf es → isMarker a.name = false) →
        Runs (drawElements ends es) d r d' → d'.Stocks (ns ++ nodesOf es)
  | [], _, _, _, _, _, h, _, hr => by
    obtain ⟨-, rfl⟩ := runs_pure.mp hr
    rwa [nodesOf_nil, List.append_nil]
  | e :: es, _, _, _, _, _, h, hm, hr => by
    rw [nodesOf_cons] at hm
    simp only [drawElements, runs_bind, runs_pure] at hr
    obtain ⟨_, _, he, _, _, hr, -, rfl⟩ := hr
    have he := stocks_element e h (fun a ha => hm a (List.mem_append_left _ ha)) he
    rw [nodesOf_cons, ← List.append_assoc]
    exact stocks_elements es he (fun a ha => hm a (List.mem_append_right _ ha)) hr

theorem stocks_element : (e : Element) → {d d' : Drawing} → {ns : List Task.Node} →
    {ends : List Nat} → {r : List Nat × List Nat} → d.Stocks ns →
      (∀ a, .app a ∈ nodesOf [e] → isMarker a.name = false) →
        Runs (drawElement ends e) d r d' → d'.Stocks (ns ++ nodesOf [e])
  | .app a, _, _, _, _, _, h, hm, hr => by
    simp only [drawElement, runs_bind, runs_pure] at hr
    obtain ⟨_, _, hr, -, rfl⟩ := hr
    exact h.app (hm a (by simp)) hr
  | .split s, _, _, _, _, _, h, hm, hr => by
    simp only [drawElement, runs_bind, runs_pure] at hr
    obtain ⟨_, _, hr, -, rfl⟩ := hr
    exact stocks_split s h hm hr

theorem stocks_split : (s : Split) → {d d' : Drawing} → {ns : List Task.Node} →
    {ends xs : List Nat} → d.Stocks ns → (∀ a, .app a ∈ nodesOf [.split s] → isMarker a.name = false) →
      Runs (drawSplit ends s) d xs d' → d'.Stocks (ns ++ nodesOf [.split s])
  | ⟨label, bs, start, stop⟩, _, _, _, ends, _, h, hm, hr => by
    rw [nodesOf_split, nodesOf_nil, List.append_nil] at hm ⊢
    have hplace := h.place (n := .split ⟨label, bs, start, stop⟩) ends rfl rfl (by simp)
    rw [List.append_cons]
    exact stocks_branches bs hplace (fun a ha => hm a (List.mem_cons_of_mem _ ha))
      (runs_drawSplit.mp hr)

theorem stocks_branches : (bs : List Sequence) → {d d' : Drawing} → {ns : List Task.Node} →
    {fork : Nat} → {xs : List Nat} → d.Stocks ns →
      (∀ a, .app a ∈ nodesOfBranches bs → isMarker a.name = false) →
        Runs (drawBranches fork bs) d xs d' → d'.Stocks (ns ++ nodesOfBranches bs)
  | [], _, _, _, _, _, h, _, hr => by
    obtain ⟨-, rfl⟩ := runs_pure.mp hr
    rwa [nodesOfBranches_nil, List.append_nil]
  | ⟨es, start, stop⟩ :: bs, _, _, _, _, _, h, hm, hr => by
    rw [nodesOfBranches_cons, nodes_sequence] at hm ⊢
    simp only [drawBranches, runs_bind, runs_pure] at hr
    obtain ⟨_, _, hr, _, _, hr', -, rfl⟩ := hr
    -- A branch itself is no node, only its elements are.
    have hbranch := h.add (n := .sequence ⟨es, start, stop⟩ none) rfl (by simp)
      (List.append_nil _).symm rfl rfl
    have hes := stocks_sequence ⟨es, start, stop⟩ hbranch
      (fun a ha => hm a (by simp [show _ ∈ nodesOf es from ha])) hr
    have hbs := stocks_branches bs hes (fun a ha => hm a (by simp [ha])) hr'
    simpa using hbs

end

theorem Drawing.Stocks.theEnd (h : d.Stocks ns) {last : Nat} (hr : Runs theEnd d last d') :
    d'.Stocks ns ∧ d'.endNode.isSome = true := by
  obtain ⟨hend, rfl⟩ | ⟨hnone, -, rfl⟩ := runs_theEnd.mp hr
  · exact ⟨h, by rw [hend]; rfl⟩
  · have hnodes := h.nodes
    rw [hnone] at hnodes
    refine ⟨⟨?_, h.targets, h.apps⟩, rfl⟩
    rw [Drawing.withNode, List.map_append]
    exact (hnodes.append_right _).trans stock_ended

theorem Drawing.Stocks.whole (h : d.Stocks ns) {s : Sequence} {ends : List Nat} {u : Unit}
    (hm : ∀ a, .app a ∈ nodesOf s.elements → isMarker a.name = false)
    (hr : Runs (drawWhole ends s) d u d') :
    d'.Stocks (ns ++ nodesOf s.elements) ∧ d'.endNode.isSome = true := by
  simp only [drawWhole, runs_bind, runs_join] at hr
  obtain ⟨xs, e, hr, last, f, hlast, rfl⟩ := hr
  obtain ⟨hf, hend⟩ := (stocks_sequence s h hm hr).theEnd hlast
  exact ⟨hf.transfer rfl rfl rfl, hend⟩

end

end Pipework.Graph
