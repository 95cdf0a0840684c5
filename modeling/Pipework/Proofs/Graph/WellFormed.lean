import Pipework.Proofs.Graph.Resolving

/-! Every graph that is drawn of a task that is read is well formed: the plain links lead from each node
to the end without a circle, and every node is reached from the start. -/

namespace Pipework.Graph

open Token Pipework.Task Relation Drawing

variable {d e D : Drawing} {heads : List Nat} {last : Nat}

/-- What holds of a graph whose end is the node `last`. -/
structure WellFormed (g : Graph) (last : Nat) : Prop where
  ids : ∀ (i : Nat) (n : Node), g.nodes[i]? = some n → n.id = i
  links : ∀ l ∈ g.links, l.source < g.nodes.length ∧ l.target < g.nodes.length
  start : g.nodes[0]? = some ⟨0, startName, none, []⟩ ∧ ∀ l ∈ g.links, l.target ≠ 0
  final : (∃ n, g.nodes[last]? = some n ∧ n.name = endName) ∧ ∀ l ∈ g.links, l.source ≠ last
  onward : ∀ l ∈ g.links, l.isTransition = false → l.source < l.target ∨ l.target = last
  acyclic : ∀ a, ¬ TransGen g.Leads a a
  ends : ∀ (i : Nat) (n : Node), g.nodes[i]? = some n → i ≠ last → n.isMarker = false →
    TransGen g.Leads i last
  reached : ∀ i < g.nodes.length, ReflTransGen g.Joined 0 i

/-- Plain links lead up, until they lead to the end. -/
theorem lt_of_transGen {g : Graph} (hup : ∀ a b, g.Leads a b → a < b ∨ b = last)
    (hlast : ∀ b, ¬ g.Leads last b) {a b : Nat} (h : TransGen g.Leads a b) : a < b ∨ b = last := by
  induction h with
  | single h => exact hup _ _ h
  | tail _ h ih =>
    obtain hb | hb := hup _ _ h
    · obtain ha | rfl := ih
      · exact .inl (Nat.lt_trans ha hb)
      · exact absurd h (hlast _)
    · exact .inr hb

theorem Drawing.Sound.leads_up (hd : d.Sound heads) (he : d.endNode = some last) (a b : Nat)
    (hl : d.graph.Leads a b) : a < b ∨ b = last :=
  (hd.onward a b hl).2.imp_right fun hb => Option.some.inj (hb.symm.trans he)

theorem Drawing.Sound.acyclic (hd : d.Sound heads) (he : d.endNode = some last) (a : Nat) :
    ¬ TransGen d.graph.Leads a a := by
  obtain ⟨-, -, hsucc, -⟩ := hd.last last he
  have hno : ∀ b, ¬ d.graph.Leads last b := fun b hb => by
    rw [Leads, hsucc] at hb
    cases hb
  intro ha
  rcases lt_of_transGen (hd.leads_up he) hno ha with hlt | rfl
  · exact Nat.lt_irrefl _ hlt
  · obtain ⟨b, hb, -⟩ := TransGen.head'_iff.mp ha
    exact hno b hb

theorem Drawing.Connected.wellFormed (hd : d.Sound heads) (h : d.Connected [0] [])
    (he : d.endNode = some last) : d.graph.WellFormed last := by
  obtain ⟨-, -, -, hlast⟩ := hd.last last he
  have hsource : ∀ l ∈ d.graph.links, l.source ≠ last := fun l hl hs =>
    (h.links l hl).2.2 (hs ▸ he)
  refine ⟨hd.ids, fun l hl => ⟨hd.sources l hl, (h.links l hl).2.1⟩,
    ⟨h.start, fun l hl => Nat.ne_of_gt (h.links l hl).1⟩, ⟨hlast, hsource⟩,
    fun l hl hp => hd.leads_up he _ _ (leads_iff.mpr ⟨l, hl, rfl, rfl, hp⟩), hd.acyclic he,
    fun i n hn hi hm => ?_, fun i hi => ?_⟩
  · obtain ⟨o, ho, hp⟩ := h.ends i n hn hm
    obtain rfl : o = last := Option.some.inj ((ho.resolve_left List.not_mem_nil).symm.trans he)
    exact (reflTransGen_iff_eq_or_transGen.mp hp).resolve_left fun h => hi h.symm
  · obtain ⟨r, hr, hp⟩ := h.reached i hi
    rwa [List.mem_singleton.mp hr] at hp

/-! ## Jumps -/

section

variable {secondary : List Sequence} {j : Jump} {js : List Jump}

/-- A sequence that is drawn for a jump is reached through it. -/
theorem connected_draw {s : Sequence} {hi : Nat} (hd : d.Sound heads) (h : d.Connected [0] [])
    (hj : d.jumps = j :: js)
    (hs : DrawnWhole (heads ++ [d.size]) s [] (d.withJumps js) hi last D) :
    (D.withLinks [⟨j.source, d.size, some j.condition⟩]).Connected [0] [] := by
  have hmem : j ∈ d.jumps := hj ▸ List.mem_cons_self
  have hsize : d.size < D.size := Nat.lt_of_lt_of_le hs.lt hs.le
  have h' : (d.withJumps js).Connected [0, d.size] [] :=
    (h.withJumps hj).mono_roots (by simp)
  have hc := hs.connected [0, d.size] (.inr (by simp [withJumps, Drawing.size])) h'
  have hne : D.endNode ≠ some j.source := fun he => by
    obtain he' | he' := hs.later.ended _ he
    · exact h.jumps j hmem he'
    · have := hd.jumps j hmem
      have : (d.withJumps js).size = d.size := rfl
      omega
  have hl := hc.withTransition hs.sound (Nat.lt_trans (hd.jumps j hmem) hsize) hne j.condition
    ⟨h.pos, hsize⟩
  obtain ⟨r, hr, hp⟩ := h.reached j.source (hd.jumps j hmem)
  rw [List.mem_singleton.mp hr] at hp
  refine hl.of_root (hp.lift id fun _ _ => joined_mono (hs.later.links.trans (List.prefix_append ..)))
    ⟨_, List.mem_append_right _ (List.mem_singleton.mpr rfl), rfl, rfl⟩

theorem connected_resolve (hproper : ∀ s ∈ secondary, s.IsProper) (hd : d.Sound heads)
    (h : d.Connected [0] []) (he : d.endNode = some last) (hj : d.jumps = j :: js)
    (hr : Runs (resolve secondary j) (d.withJumps js) () e) :
    ∃ heads', e.Sound heads' ∧ e.Connected [0] [] ∧ e.endNode = some last := by
  have hmem : j ∈ d.jumps := hj ▸ List.mem_cons_self
  have hd' := hd.withJumps hj
  have h' := h.withJumps hj
  cases hl : d.labels.lookup j.label with
  | some id =>
    obtain rfl := resolve_known hr hl
    obtain ⟨ps, qs, hps, -⟩ := List.lookup_eq_some_iff.mp hl
    have hlabel : (j.label, id) ∈ d.labels := by simp [hps]
    obtain ⟨⟨n, hn, -⟩, -⟩ := hd.labels _ hlabel
    exact ⟨heads, hd'.withTransition (hd.jumps j hmem) _ _,
      h'.withTransition hd' (hd.jumps j hmem) (h.jumps j hmem) _
        ⟨h.labels _ hlabel, lt_size_of_getElem? hn⟩, he⟩
  | none =>
    cases hs : secondary.find? fun s => s.label? == some j.label with
    | none =>
      obtain rfl := resolve_miss hr hl hs
      exact ⟨heads, hd', h', he⟩
    | some s =>
      obtain ⟨f, hf, heq⟩ := resolve_draw hr hl hs
      have hd'' : (d.withJumps js).Sound (heads ++ [d.size]) :=
        hd'.mono fun x hx => List.mem_append_left _ hx
      obtain ⟨hi, last', hw⟩ := drawnWhole hd''
        ⟨by simp, .inl ⟨rfl, List.mem_append_right _ (List.mem_singleton.mpr rfl)⟩⟩
        (hproper s (List.mem_of_find?_eq_some hs)) hf
      obtain rfl := Option.some.inj ((hw.later.endNode last he).symm.trans hw.endNode)
      have hlabel : s.label? = some j.label := by simpa using List.find?_some hs
      obtain rfl := heq d.size (hw.named _ hlabel hl)
      have hsize : d.size < f.size := Nat.lt_of_lt_of_le hw.lt hw.le
      exact ⟨_, hw.sound.withTransition (Nat.lt_trans (hd.jumps j hmem) hsize) _ _,
        connected_draw hd h hj hw, hw.endNode⟩

theorem connected_resolveWithin (hproper : ∀ s ∈ secondary, s.IsProper) {fuel : Nat} :
    ∀ {heads : List Nat} {d D : Drawing}, d.Sound heads → d.Connected [0] [] →
      d.endNode = some last → Runs (resolveWithin secondary fuel) d () D →
        ∃ heads', D.Sound heads' ∧ D.Connected [0] [] ∧ D.endNode = some last := by
  induction fuel with
  | zero =>
    intro heads d D hd h he hr
    obtain ⟨-, rfl⟩ := runs_pure.mp hr
    exact ⟨heads, hd, h, he⟩
  | succ fuel ih =>
    intro heads d D hd h he hr
    obtain ⟨-, rfl⟩ | ⟨j, js, e, hj, hr, hrest⟩ := runs_resolveWithin.mp hr
    · exact ⟨heads, hd, h, he⟩
    · obtain ⟨heads', hd', h', he'⟩ := connected_resolve hproper hd h he hj hr
      exact ih hd' h' he' hrest

end

/-! ## Tasks -/

theorem connected_start : (Drawing.withNode {} startName none []).Connected [0] [0] where
  start := rfl
  links := by simp [Drawing.withNode]
  jumps := by simp [Drawing.withNode]
  labels := by simp [Drawing.withNode]
  targets := by simp [Drawing.withNode]
  ends i n hn _ := by
    obtain rfl : i = 0 := Nat.lt_one_iff.mp (lt_size_of_getElem? hn)
    exact ⟨0, .inl (by simp), .refl⟩
  reached i hi := by
    obtain rfl : i = 0 := Nat.lt_one_iff.mp hi
    exact ⟨0, by simp, .refl⟩

/-- The graph of a task is well formed, in whatever way the task was read, and its end is the node that
was drawn for it. -/
theorem wellFormed_of_parse {options : Options} {text : String} {t : Task}
    (h : parseWith options text = .ok t) :
    ∃ last, ((drawTask t).run {}).2.endNode = some last ∧ (ofTask t).WellFormed last := by
  obtain ⟨hne, hproper⟩ := proper_of_parse h
  obtain ⟨first, secondary, ht⟩ := List.exists_cons_of_ne_nil hne
  obtain ⟨d, hw, hr⟩ := runs_drawTask ht
  rw [ht] at hproper
  obtain ⟨hfirst, hproper⟩ := List.forall_mem_cons.mp hproper
  obtain ⟨hi, last, hw, -⟩ := drawnFirst hfirst hw
  obtain ⟨heads, hd, hc, he⟩ := connected_resolveWithin hproper hw.sound
    (hw.connected [0] (.inl (by simp)) connected_start) hw.endNode hr
  exact ⟨last, he, hc.wellFormed hd he⟩

/-- A split with one branch, a target that two transitions share, a marker, and a sequence that is
drawn after the end. -/
theorem wellFormed_unchecked : ∃ t, parseWith { validate := false }
    "<a 0->t 1->:x> && b 2->t 3->$FAIL 4->:y\nx: <c || d 5->:x>" = .ok t ∧
      (ofTask t).named? endName = some ⟨6, endName, none, []⟩ ∧
        ∃ last, ((drawTask t).run {}).2.endNode = some last ∧ (ofTask t).WellFormed last := by
  obtain ⟨t, ht, hn⟩ : ∃ t, (parseWith { validate := false }
      "<a 0->t 1->:x> && b 2->t 3->$FAIL 4->:y\nx: <c || d 5->:x>").toOption = some t ∧
        (ofTask t).named? endName = some ⟨6, endName, none, []⟩ := by decide +kernel
  exact ⟨t, toOption_eq_some.mp ht, hn, wellFormed_of_parse (toOption_eq_some.mp ht)⟩

end Pipework.Graph
