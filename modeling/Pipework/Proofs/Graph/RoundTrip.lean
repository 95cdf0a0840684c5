import Pipework.Proofs.Graph.ShownApp
import Pipework.Proofs.Graph.WellFormed
import Pipework.Proofs.Graph.Writing

/-! Which tasks are read back from their graphs as they were drawn. -/

namespace Pipework.Task

open Pipework.Graph

/-- Splits have two branches or more, and apps are read as they are written. -/
structure Sequence.IsReadable (s : Sequence) : Prop where
  proper : s.IsProper
  wide : Wide (nodesOf s.elements)
  apps : ∀ a, .app a ∈ nodesOf s.elements → a.IsReadable

end Pipework.Task

namespace Pipework.Graph

open Token Pipework.Task Relation Drawing

variable {first s : Sequence} {secondary order : List Sequence} {misses : List String} {last hi : Nat}
  {ps : List Placement} {log : List Taken} {D : Drawing} {t : Task} {text : String}

/-! ## Flows -/

theorem DrawnTask.entered (h : DrawnTask log first order misses last hi ps D)
    (hread : ∀ s ∈ first :: order, s.IsReadable) (hsingle : ∀ s ∈ order, ∀ a, s.elements ≠ [.app a])
    (l : String) : Entered D l where
  marker id n hl hn := by
    obtain ⟨s, hs, m, hm, hlabel, hnode, -⟩ := h.labelled hl
    obtain rfl := Option.some.inj (hnode.symm.trans hn)
    cases m with
    | app a =>
      obtain ⟨label, ha, -⟩ := Option.map_eq_some_iff.mp hlabel
      exact ((hread s hs).apps a hm).notMarker (by simp [ha])
    | task | sequence | split | transition => exact (by decide : isMarker syncName = false)
  head id hl hfree := by
    obtain ⟨as, bs, has, -⟩ := List.lookup_eq_some_iff.mp hl
    rcases (h.sound.labels (l, id) (by simp [has])).2 with ⟨a, ha⟩ | hid
    · exact absurd ha (hfree a)
    · obtain ⟨p, hp, rfl⟩ := List.mem_map.mp hid
      refine (h.shown p hp).head (hsingle _ ?_)
      rw [← h.sequences]
      exact List.mem_map_of_mem hp

theorem reads_whole (hs : s.IsReadable) (hfound : ∀ k ∈ log, k.found = true)
    (hD : ∃ heads, D.Sound heads) (hend : D.endNode = some last)
    (hentered : ∀ l, Entered D l) {lo hi : Nat} {r : Reading}
    (h : ShowsSequence D.graph (Carries log D) s lo hi last) (hout : Outside lo hi last)
    (hr : ∀ x ∈ r.visited, Outside lo hi x) :
    ∃ r', r.After ((jumpsIn s).filterMap (entryAt D)) lo hi r' ∧
      ReadsFlow D.graph (Joins D.graph) r [lo] none (elementsWithoutPositions s.elements) r' := by
  obtain ⟨heads, hD⟩ := hD
  have h : ShowsSequence D.graph (ReadsNode D.graph (entryAt D)) s lo hi last := by
    refine h.imp fun n hn id hc a ha => ?_
    subst ha
    refine hc.readsApp hD hfound (hs.apps a hn) (hs.proper.2 _ hn) fun _ _ name _ => hentered name
  obtain ⟨r', hafter, hread⟩ := ShowsElements.reads (hD.acyclic hend) s.elements hs.proper.1 hs.wide
    h.elements hout hr
  refine ⟨r', hafter, ?_⟩
  have hhalt : Halts D.graph r' none last := .inr fun n hn => .inl (by
    obtain ⟨-, -, -, m, hm, hname⟩ := hD.last last hend
    rw [node?_eq_getElem? hD.ids, hm] at hn
    exact Option.some.inj hn ▸ hname)
  have hflow := hread none [] r' (by simp) (.halt hhalt)
  rwa [List.append_nil] at hflow

/-! ## Heads -/

theorem addHeads_isPrefix (hs xs : List Nat) : hs <+: addHeads hs xs := by
  induction xs generalizing hs with
  | nil => exact List.prefix_rfl
  | cons x xs ih =>
    by_cases hx : x ∈ hs
    · rw [addHeads_cons_of_mem hx]
      exact ih hs
    · rw [addHeads_cons_of_not_mem hx]
      exact (List.prefix_append ..).trans (ih _)

theorem getElem?_of_isPrefix {α : Type} {as bs : List α} (h : as <+: bs) (hb : bs.Nodup) {i : Nat} {a : α}
    (hi : bs[i]? = some a) (ha : a ∈ as) : as[i]? = some a := by
  obtain ⟨j, hj⟩ := List.mem_iff_getElem?.mp ha
  have hlt := (List.getElem?_eq_some_iff.mp hi).1
  obtain rfl : i = j := (List.getElem?_inj hlt hb).mp (hi.trans (getElem?_mono h hj).symm)
  exact hj

section

variable (h : DrawnTask log first order [] last hi ps D)
  (hu : Unrolls secondary [first] (jumpsIn first) order [])

include h hu

/-- When the sequences before it are read, the head of a sequence is the next one. -/
theorem DrawnTask.next_head {qs rs : List Placement} {p : Placement} (hps : ps = qs ++ p :: rs) :
    (addHeads [] ((jumpsIn first ++ (qs.map Placement.sequence).flatMap jumpsIn).filterMap
      (entryAt D)))[qs.length]? = some p.lo := by
  have hp : p ∈ ps := by simp [hps]
  have horder : order = qs.map Placement.sequence ++ p.sequence :: rs.map Placement.sequence := by
    rw [← h.sequences, hps, List.map_append, List.map_cons]
  have hall := h.announced rfl
  rw [horder, List.flatMap_append, ← List.append_assoc, List.filterMap_append, addHeads_append] at hall
  have hprefix := addHeads_isPrefix (addHeads [] ((jumpsIn first ++
    (qs.map Placement.sequence).flatMap jumpsIn).filterMap (entryAt D)))
      (((p.sequence :: rs.map Placement.sequence).flatMap jumpsIn).filterMap (entryAt D))
  have hnodup : (ps.map Placement.lo).Nodup := by
    rw [← h.announced rfl]
    exact nodup_addHeads List.nodup_nil _
  rw [hall] at hprefix
  refine getElem?_of_isPrefix hprefix hnodup (by simp [hps]) (mem_addHeads.mpr (.inr ?_))
  obtain ⟨l, hl, hlabel⟩ := hu.called horder
  have hshown := h.shown p hp
  exact List.mem_filterMap.mpr ⟨l, hl, entryAt_eq_some.mpr ⟨hshown.named l hlabel, hshown.entry⟩⟩

/-- The sequences of the heads are read in the order in which they were drawn. -/
theorem DrawnTask.reads_heads (hread : ∀ s ∈ order, s.IsReadable) (hentered : ∀ l, Entered D l)
    {qs rs : List Placement} (hps : ps = qs ++ rs) {r : Reading}
    (hheads : r.heads = addHeads []
      ((jumpsIn first ++ (qs.map Placement.sequence).flatMap jumpsIn).filterMap (entryAt D)))
    (hr : ∀ p ∈ rs, ∀ x ∈ r.visited, Outside p.lo p.hi x) :
    ∃ r', ReadsHeads D.graph (Joins D.graph) r qs.length
      ((rs.map Placement.sequence).map Sequence.withoutPositions) r' := by
  induction rs generalizing qs r with
  | nil =>
    rw [List.append_nil] at hps
    subst hps
    refine ⟨r, .done ?_⟩
    rw [hheads, h.sequences, h.announced rfl]
    simp
  | cons p rs ih =>
    have hp : p ∈ ps := by simp [hps]
    have hshown := h.shown p hp
    have hs : p.sequence ∈ order := by
      rw [← h.sequences]
      exact List.mem_map_of_mem hp
    obtain ⟨r₁, hafter, hflow⟩ := reads_whole (hread _ hs) (h.found rfl) ⟨_, h.sound⟩ h.endNode hentered hshown.shows
      hshown.outside (hr p List.mem_cons_self)
    have hapart : ∀ q ∈ rs, p.hi ≤ q.lo := by
      have := h.apart
      rw [hps] at this
      exact fun q => List.rel_of_pairwise_cons (List.pairwise_append.mp this).2.1
    have hnext : r.heads[qs.length]? = some p.lo := by rw [hheads, h.next_head hu hps]
    obtain ⟨r', hrest⟩ := @ih (qs ++ [p]) (by simp [hps]) r₁ (by
        rw [hafter.heads, hheads, ← addHeads_append, ← List.filterMap_append]
        simp) fun q hq x hx => by
      rcases hafter.visited x hx with hx | hx
      · exact hr q (List.mem_cons_of_mem _ hq) x hx
      · exact .inl (Nat.lt_of_lt_of_le hx.2 (hapart q hq))
    rw [List.length_append, List.length_singleton] at hrest
    refine ⟨r', ?_⟩
    have hsequence : p.sequence.withoutPositions = ⟨elementsWithoutPositions p.sequence.elements, 0, 0⟩ := by
      cases p.sequence
      rfl
    rw [List.map_cons, List.map_cons, hsequence]
    exact .next hnext hflow hrest

end

/-! ## Tasks -/

/-- The sequences that are drawn are read back from the graph in the order in which they were drawn. -/
theorem readback_of_unrolls (ht : t.sequences = first :: secondary)
    (hproper : ∀ s ∈ t.sequences, s.IsProper) (hunique : (t.sequences.flatMap labelsIn).Nodup)
    (hu : Unrolls secondary [first] (jumpsIn first) order [])
    (hread : ∀ s ∈ first :: order, s.IsReadable) (hsingle : ∀ s ∈ order, ∀ a, s.elements ≠ [.app a]) :
    (ofTask t).readback.sequences = (first :: order).map Sequence.withoutPositions := by
  obtain ⟨-, D, log, last, hi, ps, hD, -, -, h⟩ := drawnTask ht hproper hunique hu
  obtain ⟨hfirst, horder⟩ := List.forall_mem_cons.mp hread
  have hentered := h.entered hread hsingle
  obtain ⟨r, hafter, hflow⟩ := @reads_whole first last log D hfirst (h.found rfl) ⟨_, h.sound⟩ h.endNode hentered 1 hi {}
    h.main h.outside (by simp)
  obtain ⟨r', hheads⟩ := h.reads_heads hu horder hentered
    (show ps = [] ++ ps from rfl) (by simpa using hafter.heads)
    fun p hp x hx => by
      rcases hafter.visited x hx with hx | hx
      · cases hx
      · exact .inl (Nat.lt_of_lt_of_le hx.2 (h.bounds p hp))
  obtain ⟨start, hstart, hsucc⟩ := h.start
  obtain ⟨es, rest, r₁, r₂, ⟨hflow', hheads'⟩, hback⟩ := readsGraph hstart
  rw [hsucc] at hflow'
  have hjoins : ∀ {entries i j}, Joins D.graph entries i → Joins D.graph entries j → i = j :=
    fun hi hj => hi.symm.trans hj
  obtain ⟨rfl, rfl⟩ := @ReadsFlow.unique D.graph (Joins D.graph) hjoins _ _ _ _ _ _ _ hflow hflow'
  obtain ⟨rfl, -⟩ := @ReadsHeads.unique D.graph (Joins D.graph) hjoins _ _ _ _ _ _ hheads hheads'
  rw [ofTask, ← hD, hback, h.sequences]
  cases first
  rfl

theorem isReadable_of_parse (h : parse text = .ok t) (hr : ∀ a ∈ t.flowApps, a.IsReadable)
    (hs : s ∈ t.sequences) : s.IsReadable where
  proper := (proper_of_parse h).2 s hs
  wide _ hp := two_le_branches (parse_eq_ok.mp h).2 (mem_nodes ⟨s, hs, hp⟩)
  apps a ha := hr a (List.mem_filterMap.mpr ⟨.app a, mem_nodes ⟨s, hs, ha⟩, rfl⟩)

theorem render_of_unrolls (h : parse text = .ok t) (hr : ∀ a ∈ t.flowApps, a.IsReadable)
    (ht : t.sequences = first :: secondary)
    (hu : Unrolls secondary [first] (jumpsIn first) secondary [])
    (hsingle : ∀ s ∈ secondary, ∀ a, s.elements ≠ [.app a]) : (ofTask t).render = t.render := by
  rw [render_eq_readback]
  refine render_eq_of_sequences ?_
  rw [readback_of_unrolls ht (proper_of_parse h).2 (nodup_labelsIn (parse_eq_ok.mp h).2) hu
    (fun s hs => isReadable_of_parse h hr (ht ▸ hs)) hsingle, ht]

/-- A task of one sequence is printed alike from its graph. -/
theorem render_ofTask (h : parse text = .ok t) (hs : t.sequences = [s])
    (hr : ∀ a ∈ t.flowApps, a.IsReadable) : (ofTask t).render = t.render := by
  refine render_of_unrolls h hr hs (Unrolls.of_known fun l hl => ?_) (by simp)
  have hjump : l ∈ t.nodes.filterMap Node.jump? := by
    rw [filterMap_nodes Node.jump? (fun _ => rfl) fun _ _ => rfl, hs, List.flatMap_singleton]
    exact hl
  have hlabel := mem_labels_of_mem_jumps (parse_eq_ok.mp h).2 hjump
  rw [filterMap_nodes Node.label? (fun _ => rfl) fun _ _ => rfl, hs] at hlabel
  exact hlabel

theorem render_ofTask_nested : ∃ t s,
    parse "<x: a 0->t 1->$END 2->:y || <b --k='v w' || c> && d 1->l: t> && y: <e 0->:x || f>" = .ok t ∧
      t.sequences = [s] ∧ (∀ a ∈ t.flowApps, a.IsReadable) ∧ (ofTask t).render = t.render := by
  obtain ⟨t, ht, hr, hlen⟩ : ∃ t,
      (parse "<x: a 0->t 1->$END 2->:y || <b --k='v w' || c> && d 1->l: t> && y: <e 0->:x || f>").toOption =
        some t ∧ (∀ a ∈ t.flowApps, a.IsReadable) ∧ t.sequences.length = 1 := by decide +kernel
  obtain ⟨s, hs⟩ := List.length_eq_one_iff.mp hlen
  exact ⟨t, s, toOption_eq_some.mp ht, hs, hr, render_ofTask (toOption_eq_some.mp ht) hs hr⟩

/-- A task is read back from its graph if its sequences stand in the order in which jumps lead to them and
each of them has more than one app. -/
theorem reparses_ofTask (h : parse text = .ok t) (hr : ∀ a ∈ t.flowApps, a.IsReadable)
    (ht : t.sequences = first :: secondary)
    (hu : Unrolls secondary [first] (jumpsIn first) secondary [])
    (hsingle : ∀ s ∈ secondary, ∀ a, s.elements ≠ [.app a]) (hc : t.closes = true) :
    ∃ m, parse (ofTask t).render = .ok m ∧ m.sameShape t = true := by
  obtain ⟨hp, hv⟩ := parse_eq_ok.mp h
  obtain ⟨-, -, -, -, -, -, -, hname, -⟩ := spells_of_parseUnchecked hp
  obtain ⟨m, hm, hs⟩ := parse_of_closes hname hv (isWritable_of_parseUnchecked hp) hc
  rw [render_of_unrolls h hr ht hu hsingle]
  exact ⟨m, hm, by simpa [sameShape] using hs⟩

/-- A sequence that leads to itself. -/
theorem reparses_ofTask_loop : ∃ t first s,
    parse "a 0->:fix && b\nfix: c 1->x 2->:fix && d" = .ok t ∧ t.sequences = [first, s] ∧
      Unrolls [s] [first] (jumpsIn first) [s] [] ∧
        ∃ m, parse (ofTask t).render = .ok m ∧ m.sameShape t = true := by
  obtain ⟨t, ht, hr, hc, hlen, first, hfirst, s, hs, hjumps, hlabels, hlabel, hback, hlong⟩ : ∃ t,
      (parse "a 0->:fix && b\nfix: c 1->x 2->:fix && d").toOption = some t ∧
        (∀ a ∈ t.flowApps, a.IsReadable) ∧ t.closes = true ∧ t.sequences.length = 2 ∧
          ∃ first, t.sequences[0]? = some first ∧ ∃ s, t.sequences[1]? = some s ∧
            jumpsIn first = ["fix"] ∧ labelsIn first = [] ∧ s.label? = some "fix" ∧
              jumpsIn s = ["fix"] ∧ s.elements.length = 2 := by decide +kernel
  have hsequences : t.sequences = [first, s] := by
    obtain ⟨r, q, hrq⟩ := List.length_eq_two.mp hlen
    rw [hrq] at hfirst hs
    rw [hrq, Option.some.inj hfirst, Option.some.inj hs]
  have hu : Unrolls [s] [first] (jumpsIn first) [s] [] := by
    rw [hjumps]
    refine .draw (by simp [hlabels]) (by simp [hlabel]) (.of_known fun l hl => ?_)
    rw [hback] at hl
    obtain rfl := List.mem_singleton.mp hl
    simpa using .inr (mem_labelsIn hlabel)
  have ht := toOption_eq_some.mp ht
  refine ⟨t, first, s, ht, hsequences, hu, reparses_ofTask ht hr hsequences hu ?_ hc⟩
  rintro r hr a ha
  obtain rfl := List.mem_singleton.mp hr
  rw [ha] at hlong
  cases hlong

/-- The transition to the target app comes first when the graph is read back. -/
theorem not_sameShape_reordered : ∃ t, parse "a 0->:t 1->x && t: b" = .ok t ∧ t.sequences.length = 1 ∧
    (ofTask t).render = "a 1->x 0->:t && t: b" ∧
      ¬ ∃ m, parse (ofTask t).render = .ok m ∧ m.sameShape t = true := by
  obtain ⟨t, ht, hlen, hr, m, hm, hs⟩ : ∃ t, (parse "a 0->:t 1->x && t: b").toOption = some t ∧
      t.sequences.length = 1 ∧ (ofTask t).render = "a 1->x 0->:t && t: b" ∧
        ∃ m, (parse "a 1->x 0->:t && t: b").toOption = some m ∧ m.sameShape t = false := by
    decide +kernel
  refine ⟨t, toOption_eq_some.mp ht, hlen, hr, ?_⟩
  rintro ⟨m', hm', hs'⟩
  rw [hr, ← toOption_eq_some, hm] at hm'
  obtain rfl := Option.some.inj hm'
  rw [hs] at hs'
  cases hs'

end Pipework.Graph
