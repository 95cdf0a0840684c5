import Pipework.Proofs.Graph.Ending
import Pipework.Proofs.Graph.Joins
import Pipework.Proofs.Graph.Writing
import Pipework.Proofs.Task.Validity

/-! Whatever a graph is, reading it back ends, and no node is lost or read twice: the flow from the
start reads all nodes that plain links lead to, and each node that is read is written once. -/

namespace Pipework.Graph

open Pipework.Task Relation

variable {g : Graph} {r r' r₁ : Reading} {id : Nat} {n : Node} {stop : Option Nat}
  {entries : List Nat} {meets : List Nat → Option Nat → Prop}

/-! ## What is read once -/

def appsOf (es : List Element) : List App := (nodesOf es).filterMap Node.app?

/-- The apps that are written of nodes that are read. -/
def written (g : Graph) (ns : List Node) : List App := (ns.filter fun n => !n.isSync).map g.appOf

theorem written_append (ns ms : List Node) : written g (ns ++ ms) = written g ns ++ written g ms := by
  simp [written]

@[simp] theorem appsOf_app (a : App) (es : List Element) : appsOf (.app a :: es) = a :: appsOf es := by
  simp [appsOf, List.filterMap_append, List.filterMap_map, Function.comp_def, Node.app?]

@[simp] theorem appsOf_split (label : Option Label) (bs : List Sequence) (start stop : Nat)
    (es : List Element) : appsOf (.split ⟨label, bs, start, stop⟩ :: es) =
      (bs.flatMap fun b => appsOf b.elements) ++ appsOf es := by
  have hbs : (nodesOfBranches bs).filterMap Node.app? = bs.flatMap fun b => appsOf b.elements := by
    induction bs with
    | nil => rfl
    | cons b bs ih =>
      cases b
      rw [nodesOfBranches_cons, nodes_sequence, List.filterMap_append, List.filterMap_cons_none rfl, ih]
      rfl
  rw [appsOf, nodesOf_split, List.filterMap_cons_none rfl, List.filterMap_append, hbs, appsOf]

/-- The nodes are read one after the other. -/
structure Visits (g : Graph) (r : Reading) (ns : List Node) (r' : Reading) : Prop where
  visited : r'.visited = (ns.map Node.id).reverse ++ r.visited
  nodes : ∀ n ∈ ns, n ∈ g.nodes ∧ n.name ≠ endName

theorem Visits.trans {ns ms : List Node} (h : Visits g r ns r₁) (h' : Visits g r₁ ms r') :
    Visits g r (ns ++ ms) r' where
  visited := by rw [h'.visited, h.visited, List.map_append, List.reverse_append, List.append_assoc]
  nodes := List.forall_mem_append.mpr ⟨h.nodes, h'.nodes⟩

theorem Fresh.visits {s : Reading} (h : Fresh g r stop id n) (hs : s.visited = id :: r.visited) :
    Visits g r [n] s := by
  obtain ⟨hmem, rfl⟩ := node?_eq_some h.node
  exact ⟨hs, by simpa using ⟨hmem, h.name⟩⟩

mutual

theorem ReadsFlow.visits : {r r' : Reading} → {entries : List Nat} → {stop : Option Nat} →
    {es : List Element} → ReadsFlow g meets r entries stop es r' →
      ∃ ns, Visits g r ns r' ∧ appsOf es = written g ns
  | _, _, _, _, _, .nil => ⟨[], ⟨rfl, by simp⟩, rfl⟩
  | _, _, _, _, _, .halt _ => ⟨[], ⟨rfl, by simp⟩, rfl⟩
  | r, _, _, _, _, .app (n := n) hn hs hf => by
    obtain ⟨ns, hv, ha⟩ := hf.visits
    refine ⟨n :: ns, (hn.visits ?_).trans hv, by simp [written, hs, ha]⟩
    rw [Reading.withApp, (node?_eq_some hn.node).2]
  | _, _, _, _, _, .pass (n := n) hn hs _ hf => by
    obtain ⟨ns, hv, ha⟩ := hf.visits
    exact ⟨n :: ns, (hn.visits rfl).trans hv, by simp [written, hs, ha]⟩
  | _, _, _, _, _, .fork (n := n) hn hs _ _ hb hf => by
    obtain ⟨ns, hv, ha⟩ := hb.visits
    obtain ⟨ms, hv', ha'⟩ := hf.visits
    refine ⟨n :: (ns ++ ms), (hn.visits rfl).trans (hv.trans hv'), ?_⟩
    rw [appsOf_split, ha, ha', ← written_append]
    simp [written, hs]
  | _, _, _, _, _, .split _ _ hb hf => by
    obtain ⟨ns, hv, ha⟩ := hb.visits
    obtain ⟨ms, hv', ha'⟩ := hf.visits
    exact ⟨ns ++ ms, hv.trans hv', by rw [appsOf_split, ha, ha', written_append]⟩

theorem ReadsBranches.visits : {r r' : Reading} → {entries : List Nat} → {join : Option Nat} →
    {bs : List Sequence} → ReadsBranches g meets r entries join bs r' →
      ∃ ns, Visits g r ns r' ∧ (bs.flatMap fun b => appsOf b.elements) = written g ns
  | _, _, _, _, _, .nil => ⟨[], ⟨rfl, by simp⟩, rfl⟩
  | _, _, _, _, _, .cons hf hb => by
    obtain ⟨ns, hv, ha⟩ := hf.visits
    obtain ⟨ms, hv', ha'⟩ := hb.visits
    exact ⟨ns ++ ms, hv.trans hv', by rw [List.flatMap_cons, ha, ha', written_append]⟩

end

theorem ReadsHeads.visits {index : Nat} {ss : List Sequence} (h : ReadsHeads g meets r index ss r') :
    ∃ ns, Visits g r ns r' ∧ (ss.flatMap fun s => appsOf s.elements) = written g ns := by
  induction h with
  | done => exact ⟨[], ⟨rfl, by simp⟩, rfl⟩
  | next _ hf _ ih =>
    obtain ⟨ns, hv, ha⟩ := hf.visits
    obtain ⟨ms, hv', ha'⟩ := ih
    exact ⟨ns ++ ms, hv.trans hv', by rw [List.flatMap_cons, ha, ha', written_append]⟩

theorem kept_nodup (g : Graph) : Kept g fun r => r.visited.Nodup where
  visit h hr := List.nodup_cons.mpr ⟨h.new, hr⟩
  app h hr := List.nodup_cons.mpr ⟨(node?_eq_some h.node).2 ▸ h.new, hr⟩

theorem ReadsHeads.keeps {P : Reading → Prop} (hP : Kept g P) {index : Nat} {ss : List Sequence}
    (h : ReadsHeads g meets r index ss r') : P r → P r' := by
  induction h with
  | done => exact fun h => h
  | next _ hf _ ih => exact fun h => ih (hf.keeps hP h)

/-! ## What is not lost -/

/-- There is a node, and a flow does not end at it. -/
def Passes (g : Graph) (id : Nat) : Prop := ∃ n, g.node? id = some n ∧ n.name ≠ endName

/-- The node has been read, or whoever reads up to `stop` goes on with it. -/
def Settled (g : Graph) (stop : Option Nat) (r : Reading) (id : Nat) : Prop :=
  g.Passes id → id ∈ r.visited ∨ stop = some id

/-- No link leads from the nodes read since `r` to one that is left out, nor is an entry. -/
structure Covers (g : Graph) (r : Reading) (entries : List Nat) (stop : Option Nat) (r' : Reading) :
    Prop where
  visited : ∀ x ∈ r.visited, x ∈ r'.visited
  entries : ∀ e ∈ entries, Settled g stop r' e
  onward : ∀ x ∈ r'.visited, x ∉ r.visited → ∀ b, g.Leads x b → Settled g stop r' b

theorem Covers.refl (h : ∀ e ∈ entries, Settled g stop r e) : Covers g r entries stop r :=
  ⟨fun _ hx => hx, h, fun _ hx hn => absurd hx hn⟩

/-- What was left to `join` is read when the flow goes on there. -/
theorem Covers.join {join : Option Nat} (h : Covers g r entries join r₁)
    (h' : Covers g r₁ join.toList stop r') : Covers g r entries stop r' := by
  have step : ∀ b, Settled g join r₁ b → Settled g stop r' b := fun b hb hp => by
    obtain hb | hb := hb hp
    · exact .inl (h'.visited b hb)
    · exact h'.entries b (by simp [hb]) hp
  refine ⟨fun x hx => h'.visited x (h.visited x hx), fun e he => step e (h.entries e he),
    fun x hx hn b hb => ?_⟩
  by_cases hx' : x ∈ r₁.visited
  · exact step b (h.onward x hx' hn b hb)
  · exact h'.onward x hx hx' b hb

theorem Covers.cons {entry : Nat} (h : Covers g r [entry] stop r₁) (h' : Covers g r₁ entries stop r') :
    Covers g r (entry :: entries) stop r' := by
  have step : ∀ b, Settled g stop r₁ b → Settled g stop r' b := fun b hb hp =>
    (hb hp).imp_left (h'.visited b)
  refine ⟨fun x hx => h'.visited x (h.visited x hx), List.forall_mem_cons.mpr
    ⟨step entry (h.entries entry (by simp)), h'.entries⟩, fun x hx hn b hb => ?_⟩
  by_cases hx' : x ∈ r₁.visited
  · exact step b (h.onward x hx' hn b hb)
  · exact h'.onward x hx hx' b hb

theorem Covers.visit {s : Reading} (hs : s.visited = id :: r.visited)
    (h : Covers g s (g.successors id) stop r') : Covers g r [id] stop r' := by
  have hid : id ∈ r'.visited := h.visited id (by simp [hs])
  refine ⟨fun x hx => h.visited x (by simp [hs, hx]), fun e he _ => ?_, fun x hx hn b hb => ?_⟩
  · obtain rfl := List.mem_singleton.mp he
    exact .inl hid
  · by_cases hxi : x = id
    · exact h.entries b (hxi ▸ hb)
    · exact h.onward x hx (by simp [hs, hxi, hn]) b hb

theorem Halts.settled (h : Halts g r stop id) : Settled g stop r id := fun ⟨n, hn, hname⟩ => by
  obtain hs | h := h
  · exact .inr hs.symm
  · exact .inl ((h n hn).resolve_left hname)

mutual

theorem ReadsFlow.covers : {r r' : Reading} → {entries : List Nat} → {stop : Option Nat} →
    {es : List Element} → ReadsFlow g meets r entries stop es r' → Covers g r entries stop r'
  | _, _, _, _, _, .nil => .refl (by simp)
  | _, _, _, _, _, .halt h => .refl (by simpa using h.settled)
  | _, _, _, _, _, .app hn _ hf =>
    hf.covers.visit (by rw [Reading.withApp, (node?_eq_some hn.node).2])
  | _, _, _, _, _, .pass _ _ _ hf => hf.covers.visit rfl
  | _, _, _, _, _, .fork _ _ _ _ hb hf => (hb.covers.join hf.covers).visit rfl
  | _, _, _, _, _, .split _ _ hb hf => hb.covers.join hf.covers

theorem ReadsBranches.covers : {r r' : Reading} → {entries : List Nat} → {join : Option Nat} →
    {bs : List Sequence} → ReadsBranches g meets r entries join bs r' → Covers g r entries join r'
  | _, _, _, _, _, .nil => .refl (by simp)
  | _, _, _, _, _, .cons hf hb => hf.covers.cons hb.covers

end

/-- Plain links lead to the node from one after the start, over nodes at which no flow ends. -/
def Reaches (g : Graph) (start : Node) (id : Nat) : Prop :=
  ∃ a ∈ g.successors start.id, ReflTransGen (fun a b => g.Passes a ∧ g.Leads a b) a id

theorem Covers.mem {start : Node} (h : Covers g {} (g.successors start.id) none r)
    (hr : g.Reaches start id) (hp : g.Passes id) : id ∈ r.visited := by
  obtain ⟨a, ha, hr⟩ := hr
  induction hr with
  | refl => exact (h.entries a ha hp).resolve_right (by simp)
  | tail _ hab ih => exact (h.onward _ (ih hab.1) (by simp) _ hab.2 hp).resolve_right (by simp)

/-! ## Reading a graph -/

/-- The flow from the start reads `ns` and the sequences after it `ms`, and the apps are written from
them in their order, each node but the forks giving one. -/
structure ReadOnce (g : Graph) (start : Node) (first : List Element) (rest : List Sequence)
    (r r' : Reading) (ns ms : List Node) : Prop where
  visited : r.visited = (ns.map Node.id).reverse
  visited' : r'.visited = ((ns ++ ms).map Node.id).reverse
  nodup : (ns ++ ms).Nodup
  nodes : ∀ n ∈ ns ++ ms, n ∈ g.nodes ∧ n.name ≠ endName
  covered : ∀ n ∈ g.nodes, n.name ≠ endName → g.Reaches start n.id → n ∈ ns
  first : appsOf first = written g ns
  rest : (rest.flatMap fun s => appsOf s.elements) = written g ms

theorem readOnce {start : Node} {first : List Element} {rest : List Sequence}
    (hd : (g.nodes.map Node.id).Nodup) (h : ReadsGraph g meets start first rest r r') :
    ∃ ns ms, ReadOnce g start first rest r r' ns ms := by
  obtain ⟨ns, hv, ha⟩ := h.flow.visits
  obtain ⟨ms, hv', ha'⟩ := h.heads.visits
  have hvisited : r.visited = (ns.map Node.id).reverse := by rw [hv.visited, List.append_nil]
  have hall := hv.trans hv'
  have hvisited' : r'.visited = ((ns ++ ms).map Node.id).reverse := by rw [hall.visited, List.append_nil]
  have hnodup : r'.visited.Nodup :=
    h.heads.keeps (kept_nodup g) (h.flow.keeps (kept_nodup g) List.nodup_nil)
  rw [hvisited', List.nodup_reverse] at hnodup
  refine ⟨ns, ms, hvisited, hvisited', hnodup.of_map, hall.nodes, fun n hn hname hr => ?_, ha, ha'⟩
  have hnode : g.node? n.id = some n := by
    cases hf : g.node? n.id with
    | none => simpa using List.find?_eq_none.mp hf n hn
    | some m =>
      obtain ⟨hm, hid⟩ := node?_eq_some hf
      rw [List.inj_on_of_nodup_map hd hm hn hid]
  have hmem := h.flow.covers.mem hr ⟨n, hnode, hname⟩
  rw [hvisited, List.mem_reverse] at hmem
  obtain ⟨m, hm, hid⟩ := List.mem_map.mp hmem
  rwa [← List.inj_on_of_nodup_map hd (hv.nodes m hm).1 hn hid]

/-- Reading ends, whichever of the nodes that can be the join is taken at a split. What is written is one
of the readings. In each of them, wherever flows are taken to meet, a node is read once at most. -/
structure ReadsOnce (g : Graph) (start : Node) : Prop where
  search : ∀ a b, b ∈ g.reachable a ↔ TransGen g.Leads a b
  ends : GraphEnds g (MayJoin g) start
  writes : ∃ first rest r r', ReadsGraph g (Joins g) start first rest r r' ∧
    g.render = "\n".intercalate ((⟨first, 0, 0⟩ :: rest).map Sequence.render)
  joins : ∀ entries join, entries ≠ [] → Joins g entries join → MayJoin g entries join
  once : ∀ meets first rest r r', ReadsGraph g meets start first rest r r' →
    ∃ ns ms, ReadOnce g start first rest r r' ns ms

theorem readsOnce {start : Node} (hs : g.named? startName = some start)
    (hd : (g.nodes.map Node.id).Nodup) : ReadsOnce g start where
  search a b := mem_reachable
  ends := graphEnds (fun _ hne => ⟨_, mayJoin_joinOf hne⟩) start
  writes := by
    obtain ⟨first, rest, r, r', h, hss⟩ := readsGraph hs
    exact ⟨first, rest, r, r', h, by rw [render_eq_readback, Task.render, hss]⟩
  joins := by
    rintro entries join hne rfl
    exact mayJoin_joinOf hne
  once meets first rest r r' h := readOnce hd h

/-- Two links from `a` to the fork, one back to it, and one to a node that is not there. -/
theorem readsOnce_cyclic : ∃ (g : Graph) (start : Node), g.named? startName = some start ∧
    (g.nodes.map Node.id).Nodup ∧ g.render = "a && < || > && <b || c && < || >>" ∧ ReadsOnce g start := by
  let g : Graph := ⟨[⟨7, "START", none, []⟩, ⟨1, "a", none, []⟩, ⟨2, "SYNC", none, []⟩,
    ⟨3, "b", none, []⟩, ⟨4, "c", none, []⟩, ⟨5, "END", none, []⟩],
    [⟨7, 1, none⟩, ⟨1, 2, none⟩, ⟨1, 2, none⟩, ⟨2, 3, none⟩, ⟨2, 4, none⟩, ⟨3, 1, none⟩, ⟨4, 9, none⟩,
      ⟨4, 5, none⟩]⟩
  exact ⟨g, ⟨7, "START", none, []⟩, by decide, by decide, by decide +kernel,
    readsOnce (by decide) (by decide)⟩

end Pipework.Graph
