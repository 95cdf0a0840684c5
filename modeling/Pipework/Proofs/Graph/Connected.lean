import Pipework.Proofs.Graph.Growth

/-! Every node of a drawing is reached from the start, and a flow from it comes to the end or to one of
the loose ends that are still to be linked. -/

namespace Pipework.Graph

open Pipework.Task Relation

/-- A link of any kind. -/
def Joined (g : Graph) (a b : Nat) : Prop := ∃ l ∈ g.links, l.source = a ∧ l.target = b

/-- `roots` are the nodes from which all others are reached. Markers end a flow. -/
structure Drawing.Connected (roots loose : List Nat) (d : Drawing) : Prop where
  start : d.graph.nodes[0]? = some ⟨0, startName, none, []⟩
  links : ∀ l ∈ d.graph.links, 0 < l.target ∧ l.target < d.size ∧ d.endNode ≠ some l.source
  jumps : ∀ j ∈ d.jumps, d.endNode ≠ some j.source
  labels : ∀ p ∈ d.labels, 0 < p.2
  targets : ∀ p ∈ d.targets, 0 < p.2
  ends : ∀ (i : Nat) (n : Node), d.graph.nodes[i]? = some n → n.isMarker = false →
    ∃ o, (o ∈ loose ∨ d.endNode = some o) ∧ ReflTransGen d.graph.Leads i o
  reached : ∀ i < d.size, ∃ r ∈ roots, ReflTransGen d.graph.Joined r i

namespace Drawing

variable {roots loose ends : List Nat} {heads : List Nat} {d e : Drawing}

theorem Connected.pos (h : d.Connected roots loose) : 0 < d.size := lt_size_of_getElem? h.start

theorem Connected.mono (h : d.Connected roots loose) {loose' : List Nat}
    (hl : ∀ o ∈ loose, o ∈ loose') : d.Connected roots loose' :=
  { h with
    ends := fun i n hn hm => by
      obtain ⟨o, ho, hp⟩ := h.ends i n hn hm
      exact ⟨o, ho.imp_left (hl o), hp⟩ }

theorem Connected.mono_roots (h : d.Connected roots loose) {roots' : List Nat}
    (hr : ∀ r ∈ roots, r ∈ roots') : d.Connected roots' loose :=
  { h with
    reached := fun i hi => by
      obtain ⟨r, hmem, hp⟩ := h.reached i hi
      exact ⟨r, hr r hmem, hp⟩ }

theorem leads_mono {g g' : Graph} (h : g.links <+: g'.links) {a b : Nat} (hl : g.Leads a b) :
    g'.Leads a b := by
  obtain ⟨l, hm, hs⟩ := leads_iff.mp hl
  exact leads_iff.mpr ⟨l, h.subset hm, hs⟩

theorem joined_mono {g g' : Graph} (h : g.links <+: g'.links) {a b : Nat} (hl : g.Joined a b) :
    g'.Joined a b := by
  obtain ⟨l, hm, hs⟩ := hl
  exact ⟨l, h.subset hm, hs⟩

/-- A step that adds the node `target` at most, and links to it from `ends`, which are then no longer
loose if the links are plain. -/
structure Step (roots loose loose' ends : List Nat) (target : Nat) (condition : Option Condition)
    (d e : Drawing) : Prop where
  nodes : d.graph.nodes <+: e.graph.nodes
  new : ∀ (i : Nat) (n : Node), e.graph.nodes[i]? = some n → d.graph.nodes[i]? = some n ∨
    (i = target ∧ (n.isMarker = true ∨ target ∈ loose' ∨ e.endNode = some target))
  links : e.graph.links = d.graph.links ++ ends.map fun a => ⟨a, target, condition⟩
  jumps : ∀ j ∈ e.jumps, j ∈ d.jumps := by exact fun _ h => h
  labels : ∀ p ∈ e.labels, p ∈ d.labels ∨ p.2 = target := by exact fun _ => .inl
  targets : ∀ p ∈ e.targets, p ∈ d.targets ∨ p.2 = target := by exact fun _ => .inl
  endNode : ∀ x, d.endNode = some x → e.endNode = some x := by exact fun _ h => h
  ended : ∀ x, e.endNode = some x → d.endNode = some x ∨ d.size ≤ x := by exact fun _ => .inl
  below : ∀ a ∈ ends, a < d.size ∧ d.endNode ≠ some a
  inside : 0 < target ∧ target < e.size
  reached : target < d.size ∨ ends ≠ [] ∨ target ∈ roots
  loose : ∀ o ∈ loose, o ∈ loose' ∨
    (o ∈ ends ∧ condition = none ∧ (target ∈ loose' ∨ e.endNode = some target))

section

variable {target : Nat} {condition : Option Condition} {loose' : List Nat}
  (s : Step roots loose loose' ends target condition d e)

include s

theorem Step.links_isPrefix : d.graph.links <+: e.graph.links :=
  s.links ▸ List.prefix_append ..

theorem Step.link {a : Nat} (ha : a ∈ ends) : ⟨a, target, condition⟩ ∈ e.graph.links := by
  rw [s.links]
  exact List.mem_append_right _ (List.mem_map_of_mem ha)

theorem Step.endNode_ne {a : Nat} (ha : a < d.size) (hne : d.endNode ≠ some a) :
    e.endNode ≠ some a := fun he =>
  (s.ended a he).elim hne fun hle => absurd ha (by omega)

/-- What came to a loose end comes to one still, or on to the end. -/
theorem Step.flows (h : d.Connected roots loose) {i : Nat} {n : Node} (hn : e.graph.nodes[i]? = some n)
    (hm : n.isMarker = false) :
    ∃ o, (o ∈ loose' ∨ e.endNode = some o) ∧ ReflTransGen e.graph.Leads i o := by
  obtain hn | ⟨rfl, hor⟩ := s.new i n hn
  · obtain ⟨o, ho, hp⟩ := h.ends i n hn hm
    have hp := hp.lift id fun _ _ => leads_mono s.links_isPrefix
    obtain ho | ho := ho
    · obtain ho | ⟨ho, hc, ht⟩ := s.loose o ho
      · exact ⟨o, .inl ho, hp⟩
      · exact ⟨target, ht, hp.tail (leads_iff.mpr
          ⟨⟨o, target, condition⟩, s.link ho, rfl, rfl, by simp [hc, Link.isTransition]⟩)⟩
    · exact ⟨o, .inr (s.endNode o ho), hp⟩
  · exact ⟨i, hor.resolve_left (by simp [hm]), .refl⟩

theorem Step.reaches (h : d.Connected roots loose) {i : Nat} (hi : i < e.size) :
    ∃ r ∈ roots, ReflTransGen e.graph.Joined r i := by
  have old : ∀ i < d.size, ∃ r ∈ roots, ReflTransGen e.graph.Joined r i := fun i hi => by
    obtain ⟨r, hr, hp⟩ := h.reached i hi
    exact ⟨r, hr, hp.lift id fun _ _ => joined_mono s.links_isPrefix⟩
  obtain hn | ⟨rfl, -⟩ := s.new i _ (List.getElem?_eq_getElem hi)
  · exact old i (lt_size_of_getElem? hn)
  · obtain hlt | hends | hroot := s.reached
    · exact old i hlt
    · obtain ⟨a, ha⟩ := List.exists_mem_of_ne_nil ends hends
      obtain ⟨r, hr, hp⟩ := old a (s.below a ha).1
      exact ⟨r, hr, hp.tail ⟨⟨a, i, condition⟩, s.link ha, rfl, rfl⟩⟩
    · exact ⟨i, hroot, .refl⟩

theorem Connected.step (h : d.Connected roots loose) (hd : d.Sound heads) : e.Connected roots loose' where
  start := getElem?_mono s.nodes h.start
  links l hl := by
    rw [s.links] at hl
    obtain hl | hl := List.mem_append.mp hl
    · obtain ⟨hpos, hlt, hs⟩ := h.links l hl
      exact ⟨hpos, Nat.lt_of_lt_of_le hlt s.nodes.length_le, s.endNode_ne (hd.sources l hl) hs⟩
    · obtain ⟨a, ha, rfl⟩ := List.mem_map.mp hl
      exact ⟨s.inside.1, s.inside.2, s.endNode_ne (s.below a ha).1 (s.below a ha).2⟩
  jumps j hj := s.endNode_ne (hd.jumps j (s.jumps j hj)) (h.jumps j (s.jumps j hj))
  labels p hp := by
    obtain hp | hp := s.labels p hp
    · exact h.labels p hp
    · exact hp ▸ s.inside.1
  targets p hp := by
    obtain hp | hp := s.targets p hp
    · exact h.targets p hp
    · exact hp ▸ s.inside.1
  ends _ _ hn hm := s.flows h hn hm
  reached _ hi := s.reaches h hi

end

/-! ## Steps -/

theorem Connected.place (hd : d.Sound heads) (ha : d.Admits heads ends)
    (hr : ends ≠ [] ∨ d.size ∈ roots) (h : d.Connected roots (ends ++ loose)) (name : String)
    (label : Option String) (properties : List (String × String)) :
    (d.place ends name label properties).Connected roots (d.size :: loose) := by
  have s : Step roots (ends ++ loose) (d.size :: loose) ends d.size none d
      (d.place ends name label properties) :=
    { nodes := List.prefix_append ..
      new := fun i n hn => (getElem?_concat hn).imp_right fun h => ⟨h.1, .inr (.inl List.mem_cons_self)⟩
      links := rfl
      labels := fun p hp => (mem_registered hp).imp_right And.right
      below := ha.below
      inside := ⟨h.pos, by simp⟩
      reached := .inr hr
      loose := fun o ho => (List.mem_append.mp ho).symm.imp (List.mem_cons_of_mem _) fun ho =>
        ⟨ho, rfl, .inl List.mem_cons_self⟩ }
  exact h.step s hd

section

variable {source : Nat} (hd : d.Sound heads) (h : d.Connected roots loose) (hs : source < d.size)
  (hne : d.endNode ≠ some source) (c : Condition)

include hd h hs hne

theorem Connected.withTransition {id : Nat} (hid : 0 < id ∧ id < d.size) :
    (d.withLinks [⟨source, id, some c⟩]).Connected roots loose := by
  have s : Step roots loose loose [source] id (some c) d (d.withLinks [⟨source, id, some c⟩]) :=
    { nodes := List.prefix_rfl
      new := fun _ _ => .inl
      links := rfl
      below := by simpa using ⟨hs, hne⟩
      inside := hid
      reached := .inl hid.2
      loose := fun _ => .inl }
  exact h.step s hd

theorem Connected.withMarker {name : String} (hm : isMarker name = true) :
    ((d.withNode name none []).withLinks [⟨source, d.size, some c⟩]).Connected roots loose := by
  have s : Step roots loose loose [source] d.size (some c) d
      ((d.withNode name none []).withLinks [⟨source, d.size, some c⟩]) :=
    { nodes := List.prefix_append ..
      new := fun i n hn => (getElem?_concat hn).imp_right fun h => ⟨h.1, .inl (by rw [h.2]; exact hm)⟩
      links := rfl
      below := by simpa using ⟨hs, hne⟩
      inside := ⟨h.pos, by simp⟩
      reached := .inr (.inl (by simp))
      loose := fun _ => .inl }
  exact h.step s hd

theorem Connected.withTarget (key : Node) :
    ((d.withTarget key).withLinks [⟨source, d.size, some c⟩]).Connected roots (d.size :: loose) := by
  have s : Step roots loose (d.size :: loose) [source] d.size (some c) d
      ((d.withTarget key).withLinks [⟨source, d.size, some c⟩]) :=
    { nodes := List.prefix_append ..
      new := fun i n hn => (getElem?_concat hn).imp_right fun h => ⟨h.1, .inr (.inl List.mem_cons_self)⟩
      links := rfl
      targets := fun p hp => (List.mem_append.mp hp).imp_right fun hp => by
        rw [List.mem_singleton.mp hp]
      below := by simpa using ⟨hs, hne⟩
      inside := ⟨h.pos, by simp⟩
      reached := .inr (.inl (by simp))
      loose := fun _ ho => .inl (List.mem_cons_of_mem _ ho) }
  exact h.step s hd

end

theorem Connected.withJump (h : d.Connected roots loose) {j : Jump} (hne : d.endNode ≠ some j.source) :
    (d.withJump j).Connected roots loose :=
  { h with
    jumps := fun k hk => by
      obtain hk | hk := List.mem_append.mp hk
      · exact h.jumps k hk
      · obtain rfl := List.mem_singleton.mp hk
        exact hne }

theorem Connected.withJumps (h : d.Connected roots loose) {j : Jump} {js : List Jump}
    (hj : d.jumps = j :: js) : (d.withJumps js).Connected roots loose :=
  { h with jumps := fun k hk => h.jumps k (hj ▸ List.mem_cons_of_mem _ hk) }

/-- A root to which a link leads from a node that is reached without it is no root any more. -/
theorem Connected.of_root {root source : Nat} (h : d.Connected [0, root] loose)
    (hs : ReflTransGen d.graph.Joined 0 source) (hl : d.graph.Joined source root) :
    d.Connected [0] loose :=
  { h with
    reached := fun i hi => by
      obtain ⟨r, hr, hp⟩ := h.reached i hi
      obtain rfl | rfl : r = 0 ∨ r = root := by simpa using hr
      · exact ⟨0, by simp, hp⟩
      · exact ⟨0, by simp, (hs.tail hl).trans hp⟩ }

theorem Connected.end_pos (hd : d.Sound heads) (h : d.Connected roots loose) {last : Nat}
    (he : d.endNode = some last) : 0 < last := by
  refine Nat.pos_of_ne_zero ?_
  rintro rfl
  obtain ⟨-, -, -, n, hn, hname⟩ := hd.last 0 he
  obtain rfl := Option.some.inj (h.start.symm.trans hn)
  exact absurd hname (by decide)

/-- All loose ends are linked to the end, which is there or is made. -/
theorem Connected.finish {last : Nat} {f : Drawing} (hd : d.Sound heads)
    (h : d.Connected roots ends) (hne : ends ≠ [])
    (hbelow : ∀ a ∈ ends, a < d.size ∧ d.endNode ≠ some a) (hr : Runs theEnd d last f) :
    (f.withLinks (ends.map fun a => ⟨a, last, none⟩)).Connected roots [] := by
  have s : Step roots ends [] ends last none d (f.withLinks (ends.map fun a => ⟨a, last, none⟩)) := by
    obtain ⟨he, rfl⟩ | ⟨hnone, rfl, rfl⟩ := runs_theEnd.mp hr
    · have hlt := (hd.last last he).1
      exact
        { nodes := List.prefix_rfl
          new := fun _ _ => .inl
          links := rfl
          below := hbelow
          inside := ⟨h.end_pos hd he, hlt⟩
          reached := .inl hlt
          loose := fun o ho => .inr ⟨ho, rfl, .inr he⟩ }
    · exact
        { nodes := List.prefix_append ..
          new := fun i n hn => (getElem?_concat hn).imp_right fun h => ⟨h.1, .inr (.inr rfl)⟩
          links := rfl
          endNode := fun x hx => by
            rw [hnone] at hx
            cases hx
          ended := fun x hx => .inr (Nat.le_of_eq (Option.some.inj hx))
          below := hbelow
          inside := ⟨h.pos, by simp [Drawing.size, Drawing.withLinks, Drawing.withNode]⟩
          reached := .inr (.inl hne)
          loose := fun o ho => .inr ⟨ho, rfl, .inr rfl⟩ }
  exact h.step s hd

end Drawing

end Pipework.Graph
