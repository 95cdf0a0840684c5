import Pipework.Proofs.Graph.Steps

/-! What holds of every drawing, and what later steps leave as it is. -/

namespace Pipework.Graph

open Pipework.Task

theorem getElem?_mono {α : Type} {as bs : List α} (h : as <+: bs) {i : Nat} {a : α}
    (ha : as[i]? = some a) : bs[i]? = some a := by
  obtain ⟨cs, rfl⟩ := h
  rw [List.getElem?_append_left (List.getElem?_eq_some_iff.mp ha).1, ha]

theorem getElem?_concat {α : Type} {as : List α} {i : Nat} {a b : α}
    (h : (as ++ [a])[i]? = some b) : as[i]? = some b ∨ (i = as.length ∧ b = a) := by
  obtain hi | hi := Nat.lt_or_ge i as.length
  · exact .inl (by rwa [List.getElem?_append_left hi] at h)
  · rw [List.getElem?_append_right hi] at h
    obtain ⟨h', hb⟩ := List.getElem?_eq_some_iff.mp h
    have hlen : i - as.length = 0 := by simpa using h'
    simp only [hlen, List.getElem_cons_zero] at hb
    exact .inr ⟨by omega, hb.symm⟩

/-! ## Soundness -/

/-- Nodes and links are as they should be. `heads` are the nodes at which sequences begin that no
plain link leads to. -/
structure Drawing.Sound (heads : List Nat) (d : Drawing) : Prop where
  ids : ∀ (i : Nat) (n : Node), d.graph.nodes[i]? = some n → n.id = i
  sources : ∀ l ∈ d.graph.links, l.source < d.size
  jumps : ∀ j ∈ d.jumps, j.source < d.size
  /-- Plain links lead on, but for those to the end. -/
  onward : ∀ a b, d.graph.Leads a b → b < d.size ∧ (a < b ∨ d.endNode = some b)
  last : ∀ e, d.endNode = some e →
    e < d.size ∧ e ∉ d.targetIds ∧ d.graph.successors e = [] ∧
      ∃ n, d.graph.nodes[e]? = some n ∧ n.name = endName
  targets : ∀ p ∈ d.targets, d.graph.nodes[p.2]? = some { p.1 with id := p.2 } ∧
    isMarker p.1.name = false ∧ ∀ a, ¬ d.graph.Leads a p.2
  /-- No node is led to by targets of transitions alone. -/
  led : ∀ a b, d.graph.Leads a b → ∃ c, d.graph.Leads c b ∧ c ∉ d.targetIds
  labels : ∀ p ∈ d.labels, (∃ n, d.graph.nodes[p.2]? = some n ∧ n.label = some p.1) ∧
    ((∃ a, d.graph.Leads a p.2) ∨ p.2 ∈ heads)

/-- The next element of a flow can be drawn after the given ends. -/
structure Drawing.Admits (heads : List Nat) (d : Drawing) (ends : List Nat) : Prop where
  below : ∀ e ∈ ends, e < d.size ∧ d.endNode ≠ some e
  free : (ends = [] ∧ d.size ∈ heads) ∨ ∃ e ∈ ends, e ∉ d.targetIds

namespace Drawing

variable {heads : List Nat} {d d' : Drawing}

theorem Sound.leads_lt (h : d.Sound heads) {a b : Nat} (hl : d.graph.Leads a b) :
    a < d.size ∧ b < d.size := by
  obtain ⟨l, hm, rfl, -⟩ := leads_iff.mp hl
  exact ⟨h.sources l hm, (h.onward _ _ hl).1⟩

theorem Sound.successors_fresh (h : d.Sound heads) {id : Nat} (hid : d.size ≤ id) :
    d.graph.successors id = [] := by
  refine List.eq_nil_iff_forall_not_mem.mpr fun b hb => ?_
  have := (h.leads_lt (a := id) (b := b) hb).1
  omega

theorem Sound.jumpsFrom_fresh (h : d.Sound heads) {id : Nat} (hid : d.size ≤ id) :
    d.jumpsFrom id = [] := by
  refine List.filter_eq_nil_iff.mpr fun j hj => ?_
  have := h.jumps j hj
  simp only [beq_iff_eq]
  omega

theorem lt_size_of_getElem? {i : Nat} {n : Node} (h : d.graph.nodes[i]? = some n) : i < d.size :=
  (List.getElem?_eq_some_iff.mp h).1

theorem Sound.lt_of_mem_targetIds (h : d.Sound heads) {id : Nat} (hid : id ∈ d.targetIds) :
    id < d.size := by
  obtain ⟨p, hp, rfl⟩ := List.mem_map.mp hid
  exact lt_size_of_getElem? (h.targets p hp).1

theorem Sound.place (h : d.Sound heads) {ends : List Nat} (ha : d.Admits heads ends) (name : String)
    (label : Option String) (properties : List (String × String)) :
    (d.place ends name label properties).Sound heads where
  ids i n hn := by
    obtain hn | ⟨rfl, rfl⟩ := getElem?_concat hn
    · exact h.ids i n hn
    · rfl
  sources l hl := by
    rw [size_place]
    obtain hl | hl := List.mem_append.mp hl
    · exact Nat.lt_succ_of_lt (h.sources l hl)
    · obtain ⟨e, he, rfl⟩ := List.mem_map.mp hl
      exact Nat.lt_succ_of_lt (ha.below e he).1
  jumps j hj := by
    rw [size_place]
    exact Nat.lt_succ_of_lt (h.jumps j hj)
  onward a b hl := by
    rw [size_place]
    obtain hl | ⟨he, rfl⟩ := leads_place.mp hl
    · exact ⟨Nat.lt_succ_of_lt (h.onward a b hl).1, (h.onward a b hl).2⟩
    · exact ⟨Nat.lt_succ_self _, .inl (ha.below a he).1⟩
  last e he := by
    obtain ⟨hlt, ht, hs, n, hn, hname⟩ := h.last e he
    rw [size_place]
    refine ⟨Nat.lt_succ_of_lt hlt, ht, List.eq_nil_iff_forall_not_mem.mpr fun b hb => ?_, n,
      getElem?_mono (List.prefix_append ..) hn, hname⟩
    obtain hb | ⟨hb, -⟩ := leads_place.mp hb
    · rw [Leads, hs] at hb
      cases hb
    · exact (ha.below e hb).2 he
  targets p hp := by
    obtain ⟨hn, hm, hl⟩ := h.targets p hp
    refine ⟨getElem?_mono (List.prefix_append ..) hn, hm, fun a hb => ?_⟩
    obtain hb | ⟨-, hb⟩ := leads_place.mp hb
    · exact hl a hb
    · exact absurd (lt_size_of_getElem? hn) (by omega)
  led a b hl := by
    obtain hl | ⟨hmem, rfl⟩ := leads_place.mp hl
    · obtain ⟨c, hc, hfree⟩ := h.led a b hl
      exact ⟨c, leads_place.mpr (.inl hc), hfree⟩
    · obtain ⟨rfl, -⟩ | ⟨e, he, hfree⟩ := ha.free
      · cases hmem
      · exact ⟨e, leads_place.mpr (.inr ⟨he, rfl⟩), hfree⟩
  labels p hp := by
    obtain hp | ⟨rfl, hid⟩ := mem_registered hp
    · obtain ⟨⟨n, hn, hlabel⟩, hl⟩ := h.labels p hp
      exact ⟨⟨n, getElem?_mono (List.prefix_append ..) hn, hlabel⟩,
        hl.imp_left (Exists.imp fun a ha => leads_place.mpr (.inl ha))⟩
    · rw [hid]
      refine ⟨⟨⟨d.size, name, some p.1, properties⟩, ?_, rfl⟩, ?_⟩
      · exact List.getElem?_concat_length ..
      · obtain ⟨-, hh⟩ | ⟨e, he, -⟩ := ha.free
        · exact .inr hh
        · exact .inl ⟨e, leads_place.mpr (.inr ⟨he, rfl⟩)⟩

/-- A step that adds no plain link. What it adds is as it should be. -/
structure Extends (d d' : Drawing) : Prop where
  nodes : d.graph.nodes <+: d'.graph.nodes := by exact List.prefix_rfl
  ids : ∀ (i : Nat) (n : Node), d'.graph.nodes[i]? = some n →
    d.graph.nodes[i]? = some n ∨ n.id = i := by exact fun _ _ => .inl
  links : ∀ l ∈ d.graph.links, l ∈ d'.graph.links := by exact fun _ => id
  conditional : ∀ l ∈ d'.graph.links, l ∈ d.graph.links ∨
    (l.isTransition = true ∧ l.source < d.size) := by exact fun _ => .inl
  jumps : ∀ j ∈ d'.jumps, j ∈ d.jumps ∨ j.source < d.size := by exact fun _ => .inl
  targets : ∀ p ∈ d'.targets, p ∈ d.targets ∨ (d.size ≤ p.2 ∧
    d'.graph.nodes[p.2]? = some { p.1 with id := p.2 } ∧
      isMarker p.1.name = false) := by exact fun _ => .inl
  labels : d'.labels = d.labels := by rfl
  endNode : d'.endNode = d.endNode := by rfl

section

variable (x : Extends d d')

include x

theorem Extends.leads_iff {a b : Nat} : d'.graph.Leads a b ↔ d.graph.Leads a b := by
  rw [Graph.leads_iff, Graph.leads_iff]
  constructor
  · rintro ⟨l, hl, rfl, rfl, hp⟩
    obtain hl | ⟨hl, -⟩ := x.conditional l hl
    · exact ⟨l, hl, rfl, rfl, hp⟩
    · rw [hp] at hl
      cases hl
  · rintro ⟨l, hl, h⟩
    exact ⟨l, x.links l hl, h⟩

theorem Extends.not_mem_targetIds {id : Nat} (hid : id < d.size) (hfree : id ∉ d.targetIds) :
    id ∉ d'.targetIds := fun hmem => by
  obtain ⟨p, hp, rfl⟩ := List.mem_map.mp hmem
  obtain hp | ⟨hp, -⟩ := x.targets p hp
  · exact hfree (List.mem_map_of_mem hp)
  · omega

theorem Sound.extend (h : d.Sound heads) : d'.Sound heads := by
  have hsize : d.size ≤ d'.size := x.nodes.length_le
  exact
    { ids := fun i n hn => (x.ids i n hn).elim (h.ids i n) id
      sources := fun l hl => by
        obtain hl | ⟨-, hl⟩ := x.conditional l hl
        · exact Nat.lt_of_lt_of_le (h.sources l hl) hsize
        · exact Nat.lt_of_lt_of_le hl hsize
      jumps := fun j hj => Nat.lt_of_lt_of_le ((x.jumps j hj).elim (h.jumps j) id) hsize
      onward := fun a b hl => by
        obtain ⟨hb, hor⟩ := h.onward a b (x.leads_iff.mp hl)
        exact ⟨Nat.lt_of_lt_of_le hb hsize, x.endNode ▸ hor⟩
      last := fun e he => by
        obtain ⟨hlt, ht, hs, n, hn, hname⟩ := h.last e (x.endNode ▸ he)
        refine ⟨Nat.lt_of_lt_of_le hlt hsize, x.not_mem_targetIds hlt ht,
          List.eq_nil_iff_forall_not_mem.mpr fun b hb => ?_, n, getElem?_mono x.nodes hn, hname⟩
        have hb : d.graph.Leads e b := x.leads_iff.mp hb
        rw [Leads, hs] at hb
        cases hb
      targets := fun p hp => by
        obtain hp | ⟨hp, hn, hm⟩ := x.targets p hp
        · obtain ⟨hn, hm, hl⟩ := h.targets p hp
          exact ⟨getElem?_mono x.nodes hn, hm, fun a ha => hl a (x.leads_iff.mp ha)⟩
        · exact ⟨hn, hm, fun a ha => absurd (h.leads_lt (x.leads_iff.mp ha)).2 (by omega)⟩
      led := fun a b hl => by
        obtain ⟨c, hc, hfree⟩ := h.led a b (x.leads_iff.mp hl)
        exact ⟨c, x.leads_iff.mpr hc, x.not_mem_targetIds (h.leads_lt hc).1 hfree⟩
      labels := fun p hp => by
        obtain ⟨⟨n, hn, hlabel⟩, hl⟩ := h.labels p (x.labels ▸ hp)
        exact ⟨⟨n, getElem?_mono x.nodes hn, hlabel⟩,
          hl.imp_left (Exists.imp fun a ha => x.leads_iff.mpr ha)⟩ }

end

theorem Sound.withNode (h : d.Sound heads) (name : String) (label : Option String)
    (properties : List (String × String)) : (d.withNode name label properties).Sound heads := by
  have x : Extends d (d.withNode name label properties) :=
    { nodes := List.prefix_append ..
      ids := fun i n hn => (getElem?_concat hn).imp_right fun h => by rw [h.2]; exact h.1.symm }
  exact h.extend x

theorem Sound.withTarget (h : d.Sound heads) {key : Node} (hm : isMarker key.name = false) :
    (d.withTarget key).Sound heads := by
  have x : Extends d (d.withTarget key) :=
    { nodes := List.prefix_append ..
      ids := fun i n hn => (getElem?_concat hn).imp_right fun h => by rw [h.2]; exact h.1.symm
      targets := fun p hp => (List.mem_append.mp hp).imp_right fun hp => by
        obtain rfl := List.mem_singleton.mp hp
        exact ⟨Nat.le_refl _, List.getElem?_concat_length .., hm⟩ }
  exact h.extend x

theorem Sound.withTransition (h : d.Sound heads) {source : Nat} (hs : source < d.size) (id : Nat)
    (c : Condition) : (d.withLinks [⟨source, id, some c⟩]).Sound heads := by
  have x : Extends d (d.withLinks [⟨source, id, some c⟩]) :=
    { links := fun _ => List.mem_append_left _
      conditional := fun l hl => (List.mem_append.mp hl).imp_right fun hl => by
        rw [List.mem_singleton.mp hl]
        exact ⟨rfl, hs⟩ }
  exact h.extend x

theorem Sound.withJump (h : d.Sound heads) {j : Jump} (hj : j.source < d.size) :
    (d.withJump j).Sound heads := by
  have x : Extends d (d.withJump j) :=
    { jumps := fun k hk => (List.mem_append.mp hk).imp_right fun hk => by
        rwa [List.mem_singleton.mp hk] }
  exact h.extend x

theorem Sound.withEnd (h : d.Sound heads) (hnone : d.endNode = none) :
    Sound heads { d.withNode endName none [] with endNode := some d.size } := by
  have h' := h.withNode endName none []
  exact
    { h' with
      onward := fun a b hl => by
        obtain ⟨hb, hor⟩ := h'.onward a b hl
        refine ⟨hb, .inl (hor.resolve_right fun he => ?_)⟩
        rw [show (d.withNode endName none []).endNode = d.endNode from rfl, hnone] at he
        cases he
      last := by
        rintro e ⟨⟩
        exact ⟨by simp [size, Drawing.withNode],
          fun hmem => absurd (h.lt_of_mem_targetIds hmem) (by omega),
          h.successors_fresh (Nat.le_refl _), _, List.getElem?_concat_length .., rfl⟩ }

theorem Sound.linkEnd (h : d.Sound heads) {e : Nat} (he : d.endNode = some e) {ends : List Nat}
    (hbelow : ∀ a ∈ ends, a < d.size ∧ a ≠ e) (hfree : ∃ a ∈ ends, a ∉ d.targetIds) :
    (d.withLinks (ends.map fun a => ⟨a, e, none⟩)).Sound heads := by
  obtain ⟨hlt, ht, hs, n, hn, hname⟩ := h.last e he
  exact
    { ids := h.ids
      sources := fun l hl => by
        obtain hl | hl := List.mem_append.mp hl
        · exact h.sources l hl
        · obtain ⟨x, hx, rfl⟩ := List.mem_map.mp hl
          exact (hbelow x hx).1
      jumps := h.jumps
      onward := fun a b hl => by
        obtain hl | ⟨-, rfl⟩ := leads_join.mp hl
        · exact h.onward a b hl
        · exact ⟨hlt, .inr he⟩
      last := fun f hf => by
        obtain rfl := Option.some.inj (he.symm.trans hf)
        refine ⟨hlt, ht, List.eq_nil_iff_forall_not_mem.mpr fun b hb => ?_, n, hn, hname⟩
        obtain hb | ⟨hb, -⟩ := leads_join.mp hb
        · rw [Leads, hs] at hb
          cases hb
        · exact (hbelow e hb).2 rfl
      targets := fun p hp => by
        obtain ⟨hn', hm, hl⟩ := h.targets p hp
        refine ⟨hn', hm, fun a ha => ?_⟩
        obtain ha | ⟨-, hpe⟩ := leads_join.mp ha
        · exact hl a ha
        · exact ht (hpe ▸ List.mem_map_of_mem hp)
      led := fun a b hl => by
        obtain hl | ⟨-, rfl⟩ := leads_join.mp hl
        · obtain ⟨c, hc, hfree⟩ := h.led a b hl
          exact ⟨c, leads_join.mpr (.inl hc), hfree⟩
        · obtain ⟨c, hc, hfree⟩ := hfree
          exact ⟨c, leads_join.mpr (.inr ⟨hc, rfl⟩), hfree⟩
      labels := fun p hp => by
        obtain ⟨hn, hl⟩ := h.labels p hp
        exact ⟨hn, hl.imp_left (Exists.imp fun a ha => leads_join.mpr (.inl ha))⟩ }

theorem Sound.mono (h : d.Sound heads) {heads' : List Nat} (hsub : ∀ x ∈ heads, x ∈ heads') :
    d.Sound heads' :=
  { h with labels := fun p hp => (h.labels p hp).imp_right fun hl => hl.imp_right (hsub _) }

end Drawing

/-! ## What stays -/

/-- A jump that is taken from the queue, and whether a node of its label was found then. -/
structure Taken where
  jump : Jump
  found : Bool

/-- What is taken of the jumps from a node. -/
def takenFrom (log : List Taken) (id : Nat) : List Taken := log.filter fun k => k.jump.source == id

theorem takenFrom_append (log log' : List Taken) (id : Nat) :
    takenFrom (log ++ log') id = takenFrom log id ++ takenFrom log' id := List.filter_append ..

/-- The links that come of jumps, in their order. -/
inductive Resolved (labels : List (String × Nat)) : List Taken → List Link → Prop where
  | nil : Resolved labels [] []
  | link {j : Jump} {log : List Taken} {ls : List Link} {id : Nat}
      (h : labels.lookup j.label = some id) (t : Resolved labels log ls) :
      Resolved labels (⟨j, true⟩ :: log) (⟨j.source, id, some j.condition⟩ :: ls)
  | miss {j : Jump} {log : List Taken} {ls : List Link} (t : Resolved labels log ls) :
      Resolved labels (⟨j, false⟩ :: log) ls

theorem Resolved.append {labels : List (String × Nat)} {log log' : List Taken} {ls ms : List Link}
    (h : Resolved labels log ls) (h' : Resolved labels log' ms) :
    Resolved labels (log ++ log') (ls ++ ms) := by
  induction h with
  | nil => exact h'
  | link hl _ ih => exact .link hl ih
  | miss _ ih => exact .miss ih

theorem Resolved.mono {labels labels' : List (String × Nat)} {log : List Taken} {ls : List Link}
    (h : Resolved labels log ls) (hp : labels <+: labels') : Resolved labels' log ls := by
  induction h with
  | nil => exact .nil
  | link hl _ ih => exact .link (lookup_mono hp hl) ih
  | miss _ ih => exact .miss ih

/-- `D` comes of `d` by steps that leave the nodes of `keep` as they are, but that plain links are
added from them as `onward` says, and links for the jumps that are taken meanwhile. -/
structure Drawing.Later (log : List Taken) (keep : Nat → Prop) (onward : Nat → List Nat)
    (d D : Drawing) : Prop where
  nodes : d.graph.nodes <+: D.graph.nodes
  links : d.graph.links <+: D.graph.links
  labels : d.labels <+: D.labels
  targets : d.targets <+: D.targets
  fresh : ∀ p ∈ D.targets, p ∈ d.targets ∨ d.size ≤ p.2
  successors : ∀ id, keep id → D.graph.successors id = d.graph.successors id ++ onward id
  arrivals : ∀ a b, keep b → d.endNode ≠ some b → D.graph.Leads a b → d.graph.Leads a b
  jumps : ∀ id, keep id → d.jumpsFrom id = (takenFrom log id).map Taken.jump ++ D.jumpsFrom id
  conditionals : ∀ id, keep id → ∃ ls,
    D.graph.conditionals id = d.graph.conditionals id ++ ls ∧ Resolved D.labels (takenFrom log id) ls
  endNode : ∀ e, d.endNode = some e → D.endNode = some e
  ended : ∀ e, D.endNode = some e → d.endNode = some e ∨ d.size ≤ e

namespace Drawing

variable {heads : List Nat} {log log' : List Taken} {keep : Nat → Prop}
  {onward onward' : Nat → List Nat}
  {d d' D : Drawing}

theorem Later.size_le (h : d.Later log keep onward D) : d.size ≤ D.size := h.nodes.length_le

theorem Later.refl (d : Drawing) : d.Later [] keep (fun _ => []) d where
  nodes := List.prefix_rfl
  links := List.prefix_rfl
  labels := List.prefix_rfl
  targets := List.prefix_rfl
  fresh _ := .inl
  successors _ _ := (List.append_nil _).symm
  arrivals _ _ _ _ := id
  jumps _ _ := rfl
  conditionals _ _ := ⟨[], (List.append_nil _).symm, .nil⟩
  endNode _ := id
  ended _ := .inl

theorem Later.trans (h : d.Later log keep onward d') (h' : d'.Later log' keep onward' D)
    (hb : ∀ id, keep id → id < d.size) :
    d.Later (log ++ log') keep (fun id => onward id ++ onward' id) D where
  nodes := h.nodes.trans h'.nodes
  links := h.links.trans h'.links
  labels := h.labels.trans h'.labels
  targets := h.targets.trans h'.targets
  fresh p hp := by
    obtain hp | hp := h'.fresh p hp
    · exact h.fresh p hp
    · exact .inr (Nat.le_trans h.size_le hp)
  successors id hid := by
    rw [h'.successors id hid, h.successors id hid, List.append_assoc]
  arrivals a b hid hne hl := by
    refine h.arrivals a b hid hne (h'.arrivals a b hid (fun he => ?_) hl)
    obtain he | he := h.ended b he
    · exact hne he
    · exact absurd (hb b hid) (by omega)
  jumps id hid := by
    rw [h.jumps id hid, h'.jumps id hid, takenFrom_append, List.map_append, List.append_assoc]
  conditionals id hid := by
    obtain ⟨ls, hl, hr⟩ := h.conditionals id hid
    obtain ⟨ms, hm, hs⟩ := h'.conditionals id hid
    refine ⟨ls ++ ms, by rw [hm, hl, List.append_assoc], ?_⟩
    rw [takenFrom_append]
    exact (hr.mono h'.labels).append hs
  endNode e he := h'.endNode e (h.endNode e he)
  ended e he := by
    obtain he | he := h'.ended e he
    · exact h.ended e he
    · exact .inr (Nat.le_trans h.size_le he)

theorem Later.mono (h : d.Later log keep onward D) {keep' : Nat → Prop}
    (hle : ∀ id, keep' id → keep id) (ho : ∀ id, keep' id → onward id = onward' id) :
    d.Later log keep' onward' D :=
  { h with
    successors := fun id hid => ho id hid ▸ h.successors id (hle id hid)
    arrivals := fun a b hb => h.arrivals a b (hle b hb)
    jumps := fun id hid => h.jumps id (hle id hid)
    conditionals := fun id hid => h.conditionals id (hle id hid) }

/-- Jumps from other nodes that were taken before do not count for the nodes to keep. -/
theorem Later.after (h : d.Later log keep onward D) {earlier : List Taken}
    (he : ∀ k ∈ earlier, ¬ keep k.jump.source) : d.Later (earlier ++ log) keep onward D := by
  have hfrom : ∀ id, keep id → takenFrom (earlier ++ log) id = takenFrom log id := fun id hid => by
    have hnone : takenFrom earlier id = [] := List.filter_eq_nil_iff.mpr fun k hk hs =>
      he k hk (beq_iff_eq.mp hs ▸ hid)
    rw [takenFrom_append, hnone, List.nil_append]
  exact { h with
    jumps := fun id hid => hfrom id hid ▸ h.jumps id hid
    conditionals := fun id hid => hfrom id hid ▸ h.conditionals id hid }

/-- One step after another, seen from the nodes below a bound. -/
theorem Later.step {n m : Nat} {onward'' : Nat → List Nat}
    (h : d.Later log (· < n) onward d') (h' : d'.Later log' (· < m) onward' D)
    (hn : n ≤ d.size) (hm : n ≤ m) (ho : ∀ id < n, onward id ++ onward' id = onward'' id) :
    d.Later (log ++ log') (· < n) onward'' D :=
  (h.trans (h'.mono (fun _ hid => Nat.lt_of_lt_of_le hid hm) fun _ _ => rfl) fun _ hid =>
    Nat.lt_of_lt_of_le hid hn).mono (fun _ hid => hid) ho

/-- A step that only adds, and for the nodes to keep nothing but plain links onward. -/
structure Appends (keep : Nat → Prop) (ls : List Link) (js : List Jump) (d D : Drawing) : Prop where
  nodes : d.graph.nodes <+: D.graph.nodes := by exact List.prefix_rfl
  links : D.graph.links = d.graph.links ++ ls := by exact (List.append_nil _).symm
  jumps : D.jumps = d.jumps ++ js := by exact (List.append_nil _).symm
  labels : d.labels <+: D.labels := by exact List.prefix_rfl
  targets : d.targets <+: D.targets := by exact List.prefix_rfl
  fresh : ∀ p ∈ D.targets, p ∈ d.targets ∨ d.size ≤ p.2 := by exact fun _ => .inl
  endNode : ∀ e, d.endNode = some e → D.endNode = some e := by exact fun _ h => h
  ended : ∀ e, D.endNode = some e → d.endNode = some e ∨ d.size ≤ e := by exact fun _ => .inl
  conditional : ∀ l ∈ ls, l.isTransition = true → ¬ keep l.source := by simp
  plain : ∀ l ∈ ls, l.isTransition = false →
    ¬ keep l.target ∨ d.endNode = some l.target := by simp
  waiting : ∀ j ∈ js, ¬ keep j.source := by simp

section

variable {ls : List Link} {js : List Jump} (h : Appends keep ls js d D)

include h

theorem Appends.conditionals_eq {id : Nat} (hid : keep id) :
    D.graph.conditionals id = d.graph.conditionals id := by
  have hls : ls.filter (fun l => l.source == id && l.isTransition) = [] := by
    refine List.filter_eq_nil_iff.mpr fun l hl hc => ?_
    simp only [Bool.and_eq_true, beq_iff_eq] at hc
    exact h.conditional l hl hc.2 (hc.1 ▸ hid)
  rw [Graph.conditionals, Graph.conditionals, h.links, List.filter_append, hls, List.append_nil]

theorem Appends.jumpsFrom_eq {id : Nat} (hid : keep id) : D.jumpsFrom id = d.jumpsFrom id := by
  have hjs : js.filter (fun j => j.source == id) = [] := by
    refine List.filter_eq_nil_iff.mpr fun j hj hs => ?_
    simp only [beq_iff_eq] at hs
    exact h.waiting j hj (hs ▸ hid)
  rw [jumpsFrom, jumpsFrom, h.jumps, List.filter_append, hjs, List.append_nil]

theorem Appends.later : d.Later [] keep (Graph.successors ⟨[], ls⟩) D where
  nodes := h.nodes
  links := h.links ▸ List.prefix_append ..
  labels := h.labels
  targets := h.targets
  fresh := h.fresh
  successors id _ := by simp [Graph.successors, h.links]
  arrivals a b hb hne hl := by
    obtain ⟨l, hm, rfl, rfl, hp⟩ := leads_iff.mp hl
    rw [h.links] at hm
    obtain hm | hm := List.mem_append.mp hm
    · exact leads_iff.mpr ⟨l, hm, rfl, rfl, hp⟩
    · obtain hk | he := h.plain l hm hp
      · exact absurd hb hk
      · exact absurd he hne
  jumps id hid := (h.jumpsFrom_eq hid).symm
  conditionals id hid := ⟨[], by rw [h.conditionals_eq hid, List.append_nil], .nil⟩
  endNode := h.endNode
  ended := h.ended

end

theorem successors_map (ends : List Nat) (id target : Nat) :
    Graph.successors ⟨[], ends.map fun e => ⟨e, target, none⟩⟩ id =
      List.replicate (ends.count id) target := by
  induction ends with
  | nil => rfl
  | cons e es ih =>
    simp only [Graph.successors, Link.isTransition, List.map_cons, List.filter_cons] at ih ⊢
    by_cases he : e = id <;> simp_all [List.replicate_succ]

theorem Later.place (d : Drawing) (ends : List Nat) (name : String) (label : Option String)
    (properties : List (String × String)) : d.Later [] (· < d.size)
      (fun id => List.replicate (ends.count id) d.size) (d.place ends name label properties) := by
  rw [← funext fun id => successors_map ends id d.size]
  have h : Appends (· < d.size) (ends.map fun e => ⟨e, d.size, none⟩) [] d
      (d.place ends name label properties) :=
    { nodes := List.prefix_append ..
      links := rfl
      labels := prefix_registered ..
      conditional := fun l hl hc => by
        obtain ⟨e, -, rfl⟩ := List.mem_map.mp hl
        cases hc
      plain := fun l hl _ => by
        obtain ⟨e, -, rfl⟩ := List.mem_map.mp hl
        exact .inl (Nat.lt_irrefl _) }
  exact h.later

theorem Later.withNode (d : Drawing) (name : String) (label : Option String)
    (properties : List (String × String)) :
    d.Later [] keep (fun _ => []) (d.withNode name label properties) := by
  have h : Appends keep [] [] d (d.withNode name label properties) :=
    { nodes := List.prefix_append .. }
  exact h.later

theorem Later.withTarget (d : Drawing) (key : Node) :
    d.Later [] keep (fun _ => []) (d.withTarget key) := by
  have h : Appends keep [] [] d (d.withTarget key) :=
    { nodes := List.prefix_append ..
      targets := List.prefix_append ..
      fresh := fun p hp => (List.mem_append.mp hp).imp_right fun hp => by
        rw [List.mem_singleton.mp hp] }
  exact h.later

theorem Later.withTransition (d : Drawing) {source : Nat} (hs : ¬ keep source) (id : Nat)
    (c : Condition) : d.Later [] keep (fun _ => []) (d.withLinks [⟨source, id, some c⟩]) := by
  have h : Appends keep [⟨source, id, some c⟩] [] d (d.withLinks [⟨source, id, some c⟩]) :=
    { links := rfl
      conditional := fun l hl _ => by
        obtain rfl := List.mem_singleton.mp hl
        exact hs
      plain := fun l hl hp => by
        obtain rfl := List.mem_singleton.mp hl
        cases hp }
  exact h.later.mono (fun _ h => h) fun id _ => by simp [Graph.successors, Link.isTransition]

theorem Later.withJump (d : Drawing) {j : Jump} (hj : ¬ keep j.source) :
    d.Later [] keep (fun _ => []) (d.withJump j) := by
  have h : Appends keep [] [j] d (d.withJump j) :=
    { jumps := rfl
      waiting := fun k hk => List.mem_singleton.mp hk ▸ hj }
  exact h.later

theorem Later.withEnd (d : Drawing) (hnone : d.endNode = none) :
    d.Later [] keep (fun _ => [])
      { d.withNode endName none [] with endNode := some d.size } := by
  have h : Appends keep [] [] d { d.withNode endName none [] with endNode := some d.size } :=
    { nodes := List.prefix_append ..
      endNode := fun e he => by
        rw [hnone] at he
        cases he
      ended := fun e he => .inr (Nat.le_of_eq (Option.some.inj he)) }
  exact h.later

theorem Later.linkEnd {e : Nat} (he : d.endNode = some e) (ends : List Nat) :
    d.Later [] keep (fun id => List.replicate (ends.count id) e)
      (d.withLinks (ends.map fun a => ⟨a, e, none⟩)) := by
  rw [← funext fun id => successors_map ends id e]
  have h : Appends keep (ends.map fun a => ⟨a, e, none⟩) [] d
      (d.withLinks (ends.map fun a => ⟨a, e, none⟩)) :=
    { links := rfl
      conditional := fun l hl hc => by
        obtain ⟨a, -, rfl⟩ := List.mem_map.mp hl
        cases hc
      plain := fun l hl _ => by
        obtain ⟨a, -, rfl⟩ := List.mem_map.mp hl
        exact .inr he }
  exact h.later

end Drawing

end Pipework.Graph
