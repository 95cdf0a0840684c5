import Pipework.Proofs.Graph.Inventory

/-! Sequences are drawn on demand: those that jumps lead to, be it in circles, and each of them once.
So there is an end to the drawing, and what the graph consists of can be told from the task. -/

namespace Pipework.Graph

open Token Pipework.Task Drawing

/-! ## Resolving without a bound -/

/-- Jumps are resolved, the first of the queue at a time, until there are none. -/
inductive Drains (secondary : List Sequence) : Drawing → Drawing → Prop
  | done {d : Drawing} (hj : d.jumps = []) : Drains secondary d d
  | next {d e D : Drawing} {j : Jump} {js : List Jump} (hj : d.jumps = j :: js)
      (hr : Runs (resolve secondary j) (d.withJumps js) () e) (h : Drains secondary e D) :
      Drains secondary d D

/-- The flows of sequences, as they are walked through. -/
def flowsOf (ss : List Sequence) : List Task.Node := ss.flatMap fun s => nodesOf s.elements

variable {secondary done order : List Sequence} {queue misses : List String} {d D : Drawing}

theorem flowsOf_concat (ss : List Sequence) (s : Sequence) :
    flowsOf (ss ++ [s]) = flowsOf ss ++ nodesOf s.elements := by
  rw [flowsOf, List.flatMap_append, List.flatMap_singleton, flowsOf]

/-- With as much fuel as there are jumps all of them are resolved, and what is drawn meanwhile are the
sequences `order`. -/
theorem Unrolls.drains (hproper : ∀ s ∈ secondary, s.IsProper)
    (hmarkers : ∀ s ∈ secondary, ∀ a, .app a ∈ nodesOf s.elements → isMarker a.name = false)
    {last : Nat} (h : Unrolls secondary done queue order misses) :
    ∀ {heads : List Nat} {d D : Drawing} {fuel : Nat},
      queue.length + (order.flatMap jumpsIn).length ≤ fuel → Pending heads last done queue d →
        d.Stocks (flowsOf done) → Runs (resolveWithin secondary fuel) d () D →
          Drains secondary d D ∧ D.Stocks (flowsOf (done ++ order)) ∧ D.endNode = some last := by
  induction h with
  | nil =>
    intro heads d D fuel _ hp hs hr
    obtain ⟨hjumps, rfl⟩ := hp.settled hr
    exact ⟨.done hjumps, by rwa [List.append_nil], hp.endNode⟩
  | known hl _ ih =>
    intro heads d D fuel hf hp hs hr
    obtain ⟨n, j, js, e, rfl, hj, rfl, hp', hresolve, hr⟩ := hp.take (by simp at hf; omega) hr
    obtain ⟨id, -, rfl, hp'⟩ := hp'.known (hp.source_lt hj) hl hresolve
    obtain ⟨hd, hD⟩ := ih (by simp at hf ⊢; omega) hp' (hs.transfer rfl rfl rfl) hr
    exact ⟨.next hj hresolve hd, hD⟩
  | @draw done order queue misses l s hl hfind _ ih =>
    intro heads d D fuel hf hp hs hr
    obtain ⟨n, j, js, e, rfl, hj, rfl, hp', hresolve, hr⟩ := hp.take (by simp at hf; omega) hr
    have hmem := List.mem_of_find?_eq_some hfind
    obtain ⟨e, hi, hdraw, -, rfl, hp'⟩ :=
      hp'.drawn (hp.source_lt hj) hl (hproper s hmem) hfind hresolve
    have hs' : (d.withJumps js).Stocks (flowsOf done) := hs.transfer rfl rfl rfl
    obtain ⟨he, -⟩ := hs'.whole (hmarkers s hmem) hdraw
    rw [← flowsOf_concat] at he
    obtain ⟨hd, hD⟩ := ih (by simp at hf ⊢; omega) hp' (he.transfer rfl rfl rfl) hr
    exact ⟨.next hj hresolve hd, by rwa [List.append_cons]⟩
  | miss hl hfind _ ih =>
    intro heads d D fuel hf hp hs hr
    obtain ⟨n, j, js, e, rfl, hj, rfl, hp', hresolve, hr⟩ := hp.take (by simp at hf; omega) hr
    obtain rfl := hp'.missing hl hfind hresolve
    obtain ⟨hd, hD⟩ := ih (by simp at hf ⊢; omega) hp' (hs.transfer rfl rfl rfl) hr
    exact ⟨.next hj hresolve hd, hD⟩

/-! ## The sequences that are drawn -/

/-- The first sequence is drawn, and with a sequence those that are named by a label it jumps to. -/
inductive IsDrawn (t : Task) : Sequence → Prop
  | first {s : Sequence} (hs : t.sequences.head? = some s) : IsDrawn t s
  | jump {r s : Sequence} {l : String} (hr : IsDrawn t r) (hl : l ∈ jumpsIn r)
      (hs : s ∈ t.sequences.tail) (hlabel : s.label? = some l) : IsDrawn t s

/-- What is drawn meanwhile is called by a jump of what was drawn before. -/
theorem Unrolls.isDrawn {t : Task} {first : Sequence} (ht : t.sequences = first :: secondary)
    (h : Unrolls secondary [first] (jumpsIn first) order misses) :
    ∀ {xs ys : List Sequence}, order = xs ++ ys → ∀ s ∈ first :: xs, IsDrawn t s := by
  intro xs
  induction xs using List.reverseRecOn with
  | nil =>
    rintro - - s hs
    obtain rfl := List.mem_singleton.mp hs
    exact .first (by rw [ht]; rfl)
  | append_singleton xs x ih =>
    intro ys ho s hs
    rw [List.append_assoc] at ho
    rw [← List.cons_append, List.mem_append, List.mem_singleton] at hs
    obtain hs | rfl := hs
    · exact ih ho s hs
    obtain ⟨l, hl, hlabel⟩ := h.called ho
    obtain ⟨-, horder⟩ := h.nodup
    rw [← List.flatMap_cons] at hl
    obtain ⟨r, hr, hl⟩ := List.mem_flatMap.mp hl
    exact .jump (ih ho r hr) hl (by rw [ht]; exact (horder s (by simp [ho])).1) hlabel

/-- No sequence that a drawn one calls is left out. -/
theorem Unrolls.mem_of_isDrawn {t : Task} {first : Sequence} (ht : t.sequences = first :: secondary)
    (hunique : (t.sequences.flatMap labelsIn).Nodup)
    (h : Unrolls secondary [first] (jumpsIn first) order misses) {s : Sequence}
    (hs : IsDrawn t s) : s ∈ first :: order := by
  induction hs with
  | first hs =>
    rw [ht] at hs
    exact Option.some.inj hs ▸ List.mem_cons_self
  | @jump r s l _ hl hs hlabel ih =>
    rw [ht] at hs
    have hqueue : l ∈ jumpsIn first ++ order.flatMap jumpsIn := by
      rw [← List.flatMap_cons]
      exact List.mem_flatMap.mpr ⟨r, ih, hl⟩
    obtain hcovered | hno := h.covered hqueue
    · obtain ⟨s', hs', hl'⟩ := List.mem_flatMap.mp hcovered
      obtain ⟨-, horder⟩ := h.nodup
      have hmem : s' ∈ t.sequences := by
        rw [ht]
        rcases List.mem_cons.mp hs' with rfl | hs'
        · exact List.mem_cons_self
        · exact List.mem_cons_of_mem _ (horder s' hs').1
      have hsame := eq_of_mem_labelsIn hunique hmem (ht ▸ List.mem_cons_of_mem _ hs) hl'
        (mem_labelsIn hlabel)
      exact hsame ▸ hs'
    · exact absurd hlabel (hno s hs)

theorem Unrolls.mem_iff {t : Task} {first : Sequence} (ht : t.sequences = first :: secondary)
    (hunique : (t.sequences.flatMap labelsIn).Nodup)
    (h : Unrolls secondary [first] (jumpsIn first) order misses) (s : Sequence) :
    s ∈ first :: order ↔ IsDrawn t s :=
  ⟨h.isDrawn ht (List.append_nil _).symm s, h.mem_of_isDrawn ht hunique⟩

/-! ## Tasks -/

/-- How a task is drawn, `drawn` being the sequences that are. -/
structure DrawnOnce (t : Task) (drawn : List Sequence) : Prop where
  /-- Once the first sequence is drawn, the jumps are resolved until none is left. -/
  ends : ∃ first secondary d, t.sequences = first :: secondary ∧
    Runs (drawWhole [0] first) (Drawing.withNode {} startName none []) () d ∧
      Drains secondary d ((drawTask t).run {}).2
  nodup : drawn.Nodup
  mem : ∀ s, s ∈ drawn ↔ IsDrawn t s
  /-- The start, the end, each app and split, each target app and each marker have one node. -/
  nodes : ((ofTask t).nodes.map Node.content).Perm (stock true (flowsOf drawn))

theorem drawnOnce_of_parse {text : String} {t : Task} (h : parse text = .ok t)
    (hm : ∀ a ∈ t.flowApps, isMarker a.name = false) : ∃ drawn, DrawnOnce t drawn := by
  obtain ⟨hne, hproper⟩ := proper_of_parse h
  have hunique := nodup_labelsIn (parse_eq_ok.mp h).2
  obtain ⟨first, secondary, ht⟩ := List.exists_cons_of_ne_nil hne
  obtain ⟨order, misses, hu⟩ := exists_unrolls secondary [first] (jumpsIn first)
  have hmarkers : ∀ s ∈ first :: secondary, ∀ a, .app a ∈ nodesOf s.elements →
      isMarker a.name = false := fun s hs a ha =>
    hm a (List.mem_filterMap.mpr ⟨.app a, mem_nodes ⟨s, ht ▸ hs, ha⟩, rfl⟩)
  obtain ⟨hfirst, hsecondary⟩ := List.forall_mem_cons.mp (ht ▸ hproper)
  obtain ⟨hmfirst, hmsecondary⟩ := List.forall_mem_cons.mp hmarkers
  obtain ⟨d, hw, hr⟩ := runs_drawTask ht
  obtain ⟨hi, last, -, hp⟩ := drawnFirst hfirst hw
  have hstart : (Drawing.withNode {} startName none []).Stocks [] :=
    ⟨.refl _, by simp [Drawing.withNode, targetKeys, targetApps], by simp⟩
  obtain ⟨hstock, -⟩ := hstart.whole hmfirst hw
  obtain ⟨hdrains, hstocks, hend⟩ := hu.drains hsecondary hmsecondary hu.length_le hp
    (by simpa [flowsOf] using hstock) hr
  obtain ⟨hnodup, horder⟩ := hu.nodup
  refine ⟨first :: order, ⟨first, secondary, d, ht, hw, hdrains⟩,
    List.nodup_cons.mpr ⟨fun hmem => (horder _ hmem).2 (List.mem_singleton.mpr rfl), hnodup⟩,
    hu.mem_iff ht hunique, ?_⟩
  have hnodes := hstocks.nodes
  rw [hend] at hnodes
  exact hnodes

/-- Two sequences that jump to each other, one that no jump leads to, a target app that three
transitions share and one with another argument, and markers. -/
theorem drawnOnce_circle : ∃ t, parse ("a 1->:x 0->t && <b 2->$END || c 3->t 4->$FAIL>\n" ++
    "x: d 5->:x 6->:y 7->$END\ny: e 8->:x 9->t 10->t --k=v\nz: f") = .ok t ∧
      (ofTask t).nodes.map Node.name =
        ["START", "a", "t", "SYNC", "b", "$END", "c", "$FAIL", "END", "d", "e", "t"] ∧
      (∀ a ∈ t.flowApps, isMarker a.name = false) ∧ ∃ drawn, DrawnOnce t drawn := by
  obtain ⟨t, ht, hnames, hm⟩ : ∃ t, (parse ("a 1->:x 0->t && <b 2->$END || c 3->t 4->$FAIL>\n" ++
      "x: d 5->:x 6->:y 7->$END\ny: e 8->:x 9->t 10->t --k=v\nz: f")).toOption = some t ∧
        (ofTask t).nodes.map Node.name =
          ["START", "a", "t", "SYNC", "b", "$END", "c", "$FAIL", "END", "d", "e", "t"] ∧
        ∀ a ∈ t.flowApps, isMarker a.name = false := by
    decide +kernel
  have ht := toOption_eq_some.mp ht
  exact ⟨t, ht, hnames, hm, drawnOnce_of_parse ht hm⟩

end Pipework.Graph
