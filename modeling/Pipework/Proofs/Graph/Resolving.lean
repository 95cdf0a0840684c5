import Pipework.Proofs.Graph.Drawing
import Pipework.Proofs.Graph.Reading
import Pipework.Proofs.Graph.Unrolling

/-! What is drawn of a task: its first sequence, and each sequence that a jump leads to when the jump
is resolved. -/

namespace Pipework.Graph

open Pipework.Task Drawing

variable {heads : List Nat} {taken log : List Taken} {d d' D : Drawing}

/-! ## Sequences of the task -/

/-- A sequence is drawn in the nodes from `d.size` up to `hi`, and its ends are linked to the end. -/
structure DrawnWhole (heads : List Nat) (s : Sequence) (ends : List Nat)
    (d : Drawing) (hi last : Nat) (d' : Drawing) : Prop where
  later : d.Later [] (· < d.size) (fun id => List.replicate (ends.count id) d.size) d'
  sound : d'.Sound heads
  lt : d.size < hi
  le : hi ≤ d'.size
  endNode : d'.endNode = some last
  outside : last < d.size ∨ hi ≤ last
  entry : ∀ a, d'.graph.Leads a d.size → a ∈ ends
  labels : ∀ l, (d'.labels.lookup l).isSome ↔ (d.labels.lookup l).isSome ∨ l ∈ labelsIn s
  named : ∀ l, s.label? = some l → d.labels.lookup l = none → d'.labels.lookup l = some d.size
  jumps : ∃ js, d'.jumps = d.jumps ++ js ∧ js.map Jump.label = jumpsIn s
  connected : ∀ roots, ends ≠ [] ∨ d.size ∈ roots → d.Connected roots ends → d'.Connected roots []
  head : (∀ a, s.elements ≠ [.app a]) → ∃ b, d.size < b ∧ b < hi ∧ d'.graph.Leads d.size b ∧
    ∀ a, d'.graph.Leads a b → a = d.size
  shows : d.New (labelsIn s) → ∀ log D, Completes log d.size d' D (fun _ => []) →
    ShowsSequence D.graph (Carries log D) s d.size hi last

/-- The end is there, or is made as a node of its own. -/
theorem ended {last : Nat} (hd : d.Sound heads) (hr : Runs theEnd d last d') :
    d'.Sound heads ∧ d'.endNode = some last ∧ d'.targetIds = d.targetIds ∧ d'.labels = d.labels ∧
      d'.jumps = d.jumps ∧ d.Later [] (· < d.size) (fun _ => []) d' ∧
        (d.endNode = some last ∨ d.size ≤ last) := by
  obtain ⟨he, rfl⟩ | ⟨hnone, rfl, rfl⟩ := runs_theEnd.mp hr
  · exact ⟨hd, he, rfl, rfl, rfl, .refl _, .inl he⟩
  · exact ⟨hd.withEnd hnone, rfl, rfl, rfl, rfl, .withEnd d hnone, .inr (Nat.le_refl _)⟩

theorem drawnWhole {s : Sequence} {ends : List Nat} {u : Unit} (hd : d.Sound heads)
    (ha : d.Admits heads ends) (hs : s.IsProper)
    (hr : Runs (drawWhole ends s) d u d') : ∃ hi last, DrawnWhole heads s ends d hi last d' := by
  simp only [drawWhole, runs_bind, runs_join] at hr
  obtain ⟨xs, e, hr, last, f, hlast, rfl⟩ := hr
  obtain ⟨out, exits, rfl, h⟩ := drawn_sequence s hd ha hs hr
  obtain ⟨hf, hend, htargets, hlabels, hjumps, hl, hlast'⟩ := ended h.sound hlast
  have hsize := h.size
  have hle := hl.size_le
  have hout : last < d.size ∨ e.size ≤ last := by
    obtain he | he := hlast'
    · rw [h.endNode] at he
      exact .inl (hd.last last he).1
    · exact .inr he
  have hlink := hl.trans (.linkEnd hend (out ++ exits)) fun _ h => h
  have hdrawn : DrawnWhole heads s ends d e.size last
      (f.withLinks ((out ++ exits).map fun a => ⟨a, last, none⟩)) :=
    { later := h.later.step hlink (Nat.le_refl _) (Nat.le_of_lt hsize) fun id hid => by
        have : (out ++ exits).count id = 0 := List.count_eq_zero.mpr fun hmem => by
          have := h.mem id hmem
          omega
        simp [this]
      sound := by
        obtain ⟨a, ha', hfree⟩ := h.free
        refine hf.linkEnd hend (fun a ha' => ?_) ⟨a, List.mem_append_left _ ha', htargets ▸ hfree⟩
        have := h.mem a ha'
        omega
      lt := hsize
      le := hlink.size_le
      endNode := hend
      outside := hout
      entry := fun a hl => h.entry a (h.arrivals hd hlink (Nat.le_refl _) hsize hl)
      labels := fun l => by
        rw [labels_withLinks, hlabels, h.labels]
        rfl
      named := fun l hl hnone => by
        rw [labels_withLinks, hlabels]
        exact h.named l hl hnone
      jumps := by
        rw [jumps_withLinks, hjumps]
        exact h.jumps
      connected := fun roots hr hc => by
        obtain ⟨o, ho, -⟩ := h.free
        have hc := h.connected roots [] hr (by simpa using hc)
        rw [List.append_nil] at hc
        exact hc.finish h.sound (List.ne_nil_of_mem (List.mem_append_left _ ho)) (fun a ha' =>
          ⟨(h.mem a ha').2, h.endNode ▸ hd.endNode_ne (h.mem a ha').1⟩) hlast
      head := fun hne => by
        obtain ⟨b, hb, hlead, honly⟩ := h.head hne
        have hlt := h.inside _ _ (Nat.le_refl _) hlead
        exact ⟨b, hlt, hb, hlink.leads hsize hlead, fun a ha' =>
          honly a (h.arrivals hd hlink (Nat.le_of_lt hlt) hb ha')⟩
      shows := fun hnew log D hD => by
        obtain ⟨es, start, stop⟩ := s
        refine ⟨hs.1, h.shows_all hnew (hD.of_later hlink) fun id _ _ => ?_⟩
        simp }
  exact ⟨e.size, last, hdrawn⟩

/-! ## Jumps -/

theorem takenFrom_self (j : Jump) (found : Bool) : takenFrom [⟨j, found⟩] j.source = [⟨j, found⟩] := by
  simp [takenFrom]

theorem takenFrom_of_ne {j : Jump} {id : Nat} (h : j.source ≠ id) (found : Bool) :
    takenFrom [⟨j, found⟩] id = [] := by
  simp [takenFrom, h]

theorem jumpsFrom_cons {j : Jump} {js : List Jump} (hj : d.jumps = j :: js) (found : Bool) (id : Nat) :
    d.jumpsFrom id = (takenFrom [⟨j, found⟩] id).map Taken.jump ++ (d.withJumps js).jumpsFrom id := by
  by_cases h : j.source = id
  · subst h
    rw [takenFrom_self, jumpsFrom, hj, List.filter_cons_of_pos (by simp)]
    rfl
  · rw [takenFrom_of_ne h, jumpsFrom, hj, List.filter_cons_of_neg (by simpa using h)]
    rfl

/-- A jump becomes a link to the node of its label, which may have to be drawn first. -/
theorem Drawing.Later.resolved {j : Jump} {js : List Jump} {id : Nat} {e : Drawing}
    (hj : d.jumps = j :: js) (h : (d.withJumps js).Later [] (· < d.size) (fun _ => []) e)
    (hid : e.labels.lookup j.label = some id) :
    d.Later [⟨j, true⟩] (· < d.size) (fun _ => []) (e.withLinks [⟨j.source, id, some j.condition⟩]) where
  nodes := h.nodes
  links := h.links.trans (List.prefix_append ..)
  labels := h.labels
  targets := h.targets
  fresh := h.fresh
  successors i hi := by
    rw [successors_withTransition]
    exact h.successors i hi
  arrivals a b hb hne hl := by
    refine h.arrivals a b hb hne ?_
    rwa [Leads, successors_withTransition] at hl
  jumps i hi := by
    rw [jumpsFrom_cons hj true, h.jumps i hi]
    rfl
  conditionals i hi := by
    obtain ⟨_, hcond, hnone⟩ := h.conditionals i hi
    cases hnone
    rw [List.append_nil] at hcond
    by_cases hsource : j.source = i
    · subst hsource
      refine ⟨[⟨j.source, id, some j.condition⟩], ?_, ?_⟩
      · rw [conditionals_withTransition, hcond]
        rfl
      · rw [takenFrom_self]
        exact .link hid .nil
    · refine ⟨[], ?_, ?_⟩
      · rw [List.append_nil, ← show _ = d.graph.conditionals i from hcond]
        simp [Graph.conditionals, withLinks, hsource]
      · rw [takenFrom_of_ne hsource]
        exact .nil
  endNode := h.endNode
  ended := h.ended

theorem Drawing.Later.missing {j : Jump} {js : List Jump} (hj : d.jumps = j :: js) :
    d.Later [⟨j, false⟩] (· < d.size) (fun _ => []) (d.withJumps js) :=
  { @Drawing.Later.refl (· < d.size) d with
    jumps := fun i _ => jumpsFrom_cons hj false i
    conditionals := fun i _ => by
      refine ⟨[], (List.append_nil _).symm, ?_⟩
      by_cases hsource : j.source = i
      · subst hsource
        rw [takenFrom_self]
        exact .miss .nil
      · rw [takenFrom_of_ne hsource]
        exact .nil }

theorem Drawing.Sound.withJumps (h : d.Sound heads) {j : Jump} {js : List Jump}
    (hj : d.jumps = j :: js) : (d.withJumps js).Sound heads :=
  { h with jumps := fun k hk => h.jumps k (hj ▸ List.mem_cons_of_mem _ hk) }

section

variable {secondary : List Sequence} {j : Jump} {u : Unit}

theorem resolve_known {id : Nat} (hr : Runs (resolve secondary j) d u d')
    (hl : d.labels.lookup j.label = some id) :
    d' = d.withLinks [⟨j.source, id, some j.condition⟩] := by
  simpa [resolve, hl] using hr

theorem resolve_draw {s : Sequence} (hr : Runs (resolve secondary j) d u d')
    (hl : d.labels.lookup j.label = none)
    (hs : secondary.find? (fun s => s.label? == some j.label) = some s) :
    ∃ e, Runs (drawWhole [] s) d () e ∧ ∀ id, e.labels.lookup j.label = some id →
      d' = e.withLinks [⟨j.source, id, some j.condition⟩] := by
  simp only [resolve, runs_bind, runs_get, existsAndEq, true_and, hl, Option.isNone_none, if_true,
    hs] at hr
  obtain ⟨_, e, he, hr⟩ := hr
  refine ⟨e, he, fun id hid => ?_⟩
  simpa [hid] using hr

theorem resolve_miss (hr : Runs (resolve secondary j) d u d') (hl : d.labels.lookup j.label = none)
    (hs : secondary.find? (fun s => s.label? == some j.label) = none) : d' = d := by
  simpa [resolve, hl, hs] using hr

end

theorem runs_resolveWithin {secondary : List Sequence} {fuel : Nat} {u : Unit} :
    Runs (resolveWithin secondary (fuel + 1)) d u D ↔ (d.jumps = [] ∧ D = d) ∨
      ∃ j js e, d.jumps = j :: js ∧ Runs (resolve secondary j) (d.withJumps js) () e ∧
        Runs (resolveWithin secondary fuel) e () D := by
  rw [resolveWithin]
  simp only [runs_bind, runs_get, existsAndEq, true_and]
  cases d.jumps with
  | nil => simp
  | cons j js =>
    simp only [runs_bind, runs_modify]
    constructor
    · rintro ⟨_, _, rfl, _, e, h⟩
      exact .inr ⟨j, js, e, rfl, h⟩
    · rintro (⟨h, -⟩ | ⟨_, _, e, h, hr⟩)
      · cases h
      · cases h
        exact ⟨(), _, rfl, (), e, hr⟩

/-- The jumps are taken from the queue, the first at a time, when the sequences `done` are drawn. The
label of a jump is found if it is in one of these, or if it names a sequence, which is drawn then; `order`
are the sequences that are. -/
inductive Takes (secondary : List Sequence) :
    List Sequence → Drawing → List Taken → List Sequence → Drawing → Prop where
  | done {done : List Sequence} {d : Drawing} (hj : d.jumps = []) : Takes secondary done d [] [] d
  | known {done order : List Sequence} {log : List Taken} {d e D : Drawing} {j : Jump} {js : List Jump}
      (hj : d.jumps = j :: js) (hl : j.label ∈ done.flatMap labelsIn)
      (hr : Runs (resolve secondary j) (d.withJumps js) () e) (h : Takes secondary done e log order D) :
      Takes secondary done d (⟨j, true⟩ :: log) order D
  | draw {done order : List Sequence} {log : List Taken} {d e D : Drawing} {j : Jump} {js : List Jump}
      {s : Sequence} (hj : d.jumps = j :: js) (hl : j.label ∉ done.flatMap labelsIn)
      (hs : secondary.find? (fun s => s.label? == some j.label) = some s)
      (hr : Runs (resolve secondary j) (d.withJumps js) () e)
      (h : Takes secondary (done ++ [s]) e log order D) :
      Takes secondary done d (⟨j, true⟩ :: log) (s :: order) D
  | miss {done order : List Sequence} {log : List Taken} {d e D : Drawing} {j : Jump} {js : List Jump}
      (hj : d.jumps = j :: js) (hl : j.label ∉ done.flatMap labelsIn)
      (hs : secondary.find? (fun s => s.label? == some j.label) = none)
      (hr : Runs (resolve secondary j) (d.withJumps js) () e) (h : Takes secondary done e log order D) :
      Takes secondary done d (⟨j, false⟩ :: log) order D

/-- What stands in a sequence that was drawn before or names one is found. -/
theorem Takes.found {secondary done order : List Sequence} (h : Takes secondary done d log order D) :
    ∀ k ∈ log, k.jump.label ∈ done.flatMap labelsIn ∨
      (∃ s ∈ secondary, s.label? = some k.jump.label) → k.found = true := by
  induction h with
  | done => simp
  | known _ _ _ _ ih => exact List.forall_mem_cons.mpr ⟨fun _ => rfl, ih⟩
  | draw _ _ _ _ _ ih =>
    exact List.forall_mem_cons.mpr ⟨fun _ => rfl, fun k hk hl => ih k hk (hl.imp_left mem_labels_append)⟩
  | miss _ hl hs _ _ ih =>
    refine List.forall_mem_cons.mpr ⟨?_, ih⟩
    rintro (hdone | ⟨s, hmem, hlabel⟩)
    · exact absurd hdone hl
    · exact absurd hlabel (by simpa using List.find?_eq_none.mp hs s hmem)

theorem taken_lt {taken : List Taken} {size : Nat} (h : ∀ k ∈ taken, k.jump.source < size) {j : Jump}
    (hj : j.source < size) (found : Bool) : ∀ k ∈ taken ++ [⟨j, found⟩], k.jump.source < size := by
  simpa [or_imp, forall_and] using ⟨h, hj⟩

/-! ## Sequences in the graph -/

/-- The node of a label, if no plain link leads to it. -/
def entryAt (D : Drawing) (l : String) : Option Nat :=
  (D.labels.lookup l).filter fun id => (D.graph.predecessors id).isEmpty

theorem entryAt_eq_some {l : String} {id : Nat} : entryAt D l = some id ↔
    D.labels.lookup l = some id ∧ ∀ a, ¬ D.graph.Leads a id := by
  simp only [entryAt, Option.filter_eq_some_iff, List.isEmpty_iff, List.eq_nil_iff_forall_not_mem,
    mem_predecessors]

/-- A sequence and its nodes. -/
structure Placement where
  sequence : Sequence
  lo : Nat
  hi : Nat

/-- The labels of the sequence are found by jumps from its place on. -/
def Finds (log : List Taken) (p : Placement) : Prop :=
  ∀ k ∈ log, p.lo ≤ k.jump.source → k.jump.label ∈ labelsIn p.sequence → k.found = true

/-- The graph shows a sequence in its place. No plain link leads to its first node. -/
structure Shown (log : List Taken) (last : Nat) (D : Drawing) (p : Placement) : Prop where
  shows : ShowsSequence D.graph (Carries log D) p.sequence p.lo p.hi last
  finds : Finds log p
  outside : last < p.lo ∨ p.hi ≤ last
  entry : ∀ a, ¬ D.graph.Leads a p.lo
  named : ∀ l, p.sequence.label? = some l → D.labels.lookup l = some p.lo
  head : (∀ a, p.sequence.elements ≠ [.app a]) → D.graph.headsSequence p.lo = true

theorem DrawnWhole.shown {s : Sequence} {hi last : Nat}
    (h : DrawnWhole heads s [] d hi last d')
    (hl : d'.Later log (fun id => d.size ≤ id ∧ id < d'.size) (fun _ => []) D)
    (hD : ∃ heads, D.Sound heads) (hjumps : D.jumps = []) (hnew : d.New (labelsIn s)) {l : String}
    (hlabel : s.label? = some l) (hnone : d.labels.lookup l = none)
    (hfinds : Finds log ⟨s, d.size, hi⟩) : Shown log last D ⟨s, d.size, hi⟩ := by
  have hlt := h.lt
  have hle := h.le
  have hlast : ∀ {b}, d.size ≤ b → b < hi → d'.endNode ≠ some b := fun hb hb' he => by
    have := Option.some.inj (h.endNode.symm.trans he)
    have := h.outside
    omega
  have hentry : ∀ a, ¬ D.graph.Leads a d.size := fun a ha =>
    List.not_mem_nil (h.entry a (hl.arrivals a _ ⟨Nat.le_refl _, by omega⟩ (hlast (Nat.le_refl _) hlt) ha))
  refine ⟨h.shows hnew log D ⟨hl, hD, hjumps⟩, hfinds, h.outside, hentry, fun l' hl' => ?_, fun hne => ?_⟩
  · obtain rfl := Option.some.inj (hlabel.symm.trans hl')
    exact lookup_mono hl.labels (h.named l hlabel hnone)
  · obtain ⟨b, hb, hb', hlead, honly⟩ := h.head hne
    simp only [headsSequence, Bool.and_eq_true, List.isEmpty_iff, List.any_eq_true, List.all_eq_true,
      beq_iff_eq, List.eq_nil_iff_forall_not_mem, mem_predecessors]
    exact ⟨hentry, b, hl.leads ⟨Nat.le_refl _, by omega⟩ hlead, fun a ha =>
      honly a (hl.arrivals a b ⟨by omega, by omega⟩ (hlast (Nat.le_of_lt hb) hb') ha)⟩

/-- What has been drawn when all jumps are resolved. Those of `taken` were resolved before. -/
structure Unrolled (taken log : List Taken) (heads : List Nat) (last : Nat) (queue : List String)
    (order : List Sequence) (misses : List String) (d : Drawing) (ps : List Placement)
    (D : Drawing) : Prop where
  later : d.Later log (· < d.size) (fun _ => []) D
  sound : D.Sound (heads ++ ps.map Placement.lo)
  jumps : D.jumps = []
  labels : ∀ l, (D.labels.lookup l).isSome ↔
    (d.labels.lookup l).isSome ∨ l ∈ order.flatMap labelsIn
  sequences : ps.map Placement.sequence = order
  found : misses = [] → ∀ k ∈ log, k.found = true
  shown : ∀ p ∈ ps, Shown (taken ++ log) last D p
  bounds : ∀ p ∈ ps, d.size ≤ p.lo
  apart : ps.Pairwise fun p q => p.hi ≤ q.lo
  announced : misses = [] → addHeads heads ((queue ++ order.flatMap jumpsIn).filterMap (entryAt D)) =
    heads ++ ps.map Placement.lo

section

variable {last : Nat} {queue misses : List String} {order : List Sequence} {ps : List Placement}
  {j : Jump} {js : List Jump}

theorem Drawing.Later.entryAt {onward : Nat → List Nat}
    (h : d.Later log (· < d.size) onward D) (hd : d.Sound heads) {l : String} {id : Nat}
    (hl : d.labels.lookup l = some id) {x : Nat} (hx : entryAt D l = some x) : x ∈ heads := by
  obtain ⟨hx, hfree⟩ := entryAt_eq_some.mp hx
  obtain rfl := Option.some.inj ((lookup_mono h.labels hl).symm.trans hx)
  obtain ⟨ps, qs, hps, -⟩ := List.lookup_eq_some_iff.mp hl
  obtain ⟨a, ha⟩ | hx := (hd.labels (l, id) (by simp [hps])).2
  · exact absurd (h.leads (hd.leads_lt ha).1 ha) (hfree a)
  · exact hx

theorem Unrolled.known (hd : d.Sound heads) (hj : d.jumps = j :: js) {id : Nat}
    (hl : d.labels.lookup j.label = some id)
    (h : Unrolled (taken ++ [⟨j, true⟩]) log heads last queue order misses
      ((d.withJumps js).withLinks [⟨j.source, id, some j.condition⟩]) ps D) :
    Unrolled taken (⟨j, true⟩ :: log) heads last (j.label :: queue) order misses d ps D := by
  have hlater := (Later.resolved hj (.refl _) hl).step h.later (Nat.le_refl _) (Nat.le_refl _)
    fun _ _ => rfl
  refine { h with
    later := hlater
    found := fun hm => List.forall_mem_cons.mpr ⟨rfl, h.found hm⟩
    shown := fun p hp => List.append_cons .. ▸ h.shown p hp
    announced := fun hm => ?_ }
  rw [← h.announced hm, List.cons_append]
  cases hx : entryAt D j.label with
  | none => rw [List.filterMap_cons_none hx]
  | some x => rw [List.filterMap_cons_some hx, addHeads_cons_of_mem (hlater.entryAt hd hl hx)]

theorem Unrolled.miss (hj : d.jumps = j :: js)
    (h : Unrolled (taken ++ [⟨j, false⟩]) log heads last queue order misses (d.withJumps js) ps D) :
    Unrolled taken (⟨j, false⟩ :: log) heads last (j.label :: queue) order (j.label :: misses) d ps D :=
  { h with
    later := (Later.missing hj).step h.later (Nat.le_refl _) (Nat.le_refl _) fun _ _ => rfl
    found := nofun
    shown := fun p hp => List.append_cons .. ▸ h.shown p hp
    announced := nofun }

theorem Unrolled.draw {s : Sequence} {e : Drawing} {hi : Nat} (hd : d.Sound heads)
    (hheads : ∀ x ∈ heads, x < d.size) (htaken : ∀ k ∈ taken, k.jump.source < d.size)
    (hj : d.jumps = j :: js) (hnone : d.labels.lookup j.label = none) (hnew : d.New (labelsIn s))
    (hlabel : s.label? = some j.label)
    (hfound : ∀ k ∈ log, k.jump.label ∈ labelsIn s → k.found = true)
    (hs : DrawnWhole (heads ++ [d.size]) s [] (d.withJumps js) hi last e)
    (h : Unrolled (taken ++ [⟨j, true⟩]) log (heads ++ [d.size]) last (queue ++ jumpsIn s) order misses
      (e.withLinks [⟨j.source, d.size, some j.condition⟩]) ps D) :
    Unrolled taken (⟨j, true⟩ :: log) heads last (j.label :: queue) (s :: order) misses d
      (⟨s, d.size, hi⟩ :: ps) D := by
  have hlt : d.size < hi := hs.lt
  have hle := hs.le
  have hid := hs.named j.label hlabel hnone
  have hlater := (Later.resolved hj (hs.later.mono (fun _ h => h) fun _ _ => rfl) hid).step
    h.later (Nat.le_refl _) (Nat.le_trans (Nat.le_of_lt hlt) hle) fun _ _ => rfl
  have hsource : j.source < d.size := hd.jumps j (hj ▸ List.mem_cons_self)
  have hbefore := taken_lt htaken hsource true
  -- the jump's own link is not one of the nodes of the sequence
  have hstep : e.Later [] (fun id => d.size ≤ id ∧ id < e.size) (fun _ => [])
      (e.withLinks [⟨j.source, d.size, some j.condition⟩]) :=
    .withTransition e (fun h => absurd h.1 (by omega)) _ _
  have hafter := (hstep.trans (h.later.mono (fun _ h => h.2) fun _ _ => rfl) fun _ h => h.2).after
    fun k hk hkeep => absurd hkeep.1 (Nat.not_le.mpr (hbefore k hk))
  have hfinds : Finds (taken ++ [⟨j, true⟩] ++ log) ⟨s, d.size, hi⟩ := fun k hk hlo hl => by
    obtain hk | hk := List.mem_append.mp hk
    · exact absurd hlo (Nat.not_le.mpr (hbefore k hk))
    · exact hfound k hk hl
  have hshown : Shown (taken ++ [⟨j, true⟩] ++ log) last D ⟨s, d.size, hi⟩ :=
    hs.shown (hafter.mono (fun _ h => h) fun _ _ => rfl) ⟨_, h.sound⟩ h.jumps
      ⟨hnew.nodup, hnew.unknown⟩ hlabel hnone hfinds
  refine ⟨hlater, by simpa using h.sound, h.jumps, fun l => ?_, by simp [h.sequences],
    fun hm => List.forall_mem_cons.mpr ⟨rfl, h.found hm⟩, ?_,
    List.forall_mem_cons.mpr ⟨Nat.le_refl _, fun p hp => ?_⟩, List.pairwise_cons.mpr
    ⟨fun p hp => Nat.le_trans hle (h.bounds p hp), h.apart⟩, fun hm => ?_⟩
  · rw [h.labels, List.flatMap_cons, List.mem_append, ← or_assoc]
    exact or_congr_left (hs.labels l)
  · rw [List.append_cons]
    exact List.forall_mem_cons.mpr ⟨hshown, h.shown⟩
  · exact Nat.le_trans (Nat.le_trans (Nat.le_of_lt hlt) hle) (h.bounds p hp)
  · have hentry : entryAt D j.label = some d.size :=
      entryAt_eq_some.mpr ⟨hshown.named _ hlabel, hshown.entry⟩
    rw [List.cons_append, List.filterMap_cons_some hentry, addHeads_cons_of_not_mem, List.flatMap_cons,
      ← List.append_assoc, h.announced hm]
    · simp
    · exact fun hx => Nat.lt_irrefl _ (hheads _ hx)

end

/-- A drawing with jumps to resolve. The sequences `done` have been drawn. -/
structure Pending (heads : List Nat) (last : Nat) (done : List Sequence) (queue : List String)
    (d : Drawing) : Prop where
  sound : d.Sound heads
  below : ∀ x ∈ heads, x < d.size
  endNode : d.endNode = some last
  labels : ∀ l, (d.labels.lookup l).isSome ↔ l ∈ done.flatMap labelsIn
  jumps : d.jumps.map Jump.label = queue

section

variable {secondary done : List Sequence} {last fuel : Nat} {queue : List String} {l : String} {u : Unit}

/-- The first jump is taken from the queue. -/
theorem Pending.take (h : Pending heads last done (l :: queue) d) (hf : 0 < fuel)
    (hr : Runs (resolveWithin secondary fuel) d u D) : ∃ n j js e, fuel = n + 1 ∧ d.jumps = j :: js ∧
      j.label = l ∧ Pending heads last done queue (d.withJumps js) ∧
        Runs (resolve secondary j) (d.withJumps js) () e ∧ Runs (resolveWithin secondary n) e () D := by
  obtain ⟨n, rfl⟩ : ∃ n, fuel = n + 1 := ⟨fuel - 1, by omega⟩
  have hq := h.jumps
  obtain ⟨hnil, -⟩ | ⟨j, js, e, hj, hr, hr'⟩ := runs_resolveWithin.mp hr
  · simp [hnil] at hq
  · rw [hj, List.map_cons] at hq
    obtain ⟨hl, hqs⟩ := List.cons.inj hq
    exact ⟨n, j, js, e, rfl, hj, hl, ⟨h.sound.withJumps hj, h.below, h.endNode, h.labels, hqs⟩, hr, hr'⟩

/-- Where no jump is left, there is nothing to resolve. -/
theorem Pending.settled (h : Pending heads last done [] d)
    (hr : Runs (resolveWithin secondary fuel) d u D) : d.jumps = [] ∧ D = d := by
  have hjumps : d.jumps = [] := List.map_eq_nil_iff.mp h.jumps
  refine ⟨hjumps, ?_⟩
  cases fuel with
  | zero => exact (runs_pure.mp hr).2
  | succ fuel =>
    obtain ⟨-, hsame⟩ | ⟨j, js, e, hj, -⟩ := runs_resolveWithin.mp hr
    · exact hsame
    · rw [hjumps] at hj
      cases hj

theorem Pending.source_lt (h : Pending heads last done queue d) {j : Jump} {js : List Jump}
    (hj : d.jumps = j :: js) : j.source < d.size :=
  h.sound.jumps j (hj ▸ List.mem_cons_self)

theorem Pending.lookup_eq_none (h : Pending heads last done queue d) (hl : l ∉ done.flatMap labelsIn) :
    d.labels.lookup l = none := by
  rw [← Option.not_isSome_iff_eq_none, h.labels]
  exact hl

theorem Pending.withTransition (h : Pending heads last done queue d) {source : Nat}
    (hs : source < d.size) (target : Nat) (c : Condition) :
    Pending heads last done queue (d.withLinks [⟨source, target, some c⟩]) :=
  ⟨h.sound.withTransition hs target c, h.below, h.endNode, h.labels, h.jumps⟩

/-- No label of a sequence that is not drawn is known. -/
theorem Pending.new (h : Pending heads last done queue d) {all : List Sequence} {s : Sequence}
    (hunique : (all.flatMap labelsIn).Nodup) (hdone : ∀ r ∈ done, r ∈ all) (hs : s ∈ all)
    (hnot : s ∉ done) : d.New (labelsIn s) := by
  refine ⟨(List.nodup_flatMap.mp hunique).1 s hs, fun l hl => h.lookup_eq_none ?_⟩
  rw [List.mem_flatMap]
  rintro ⟨r, hr, hlr⟩
  obtain rfl := eq_of_mem_labelsIn hunique hs (hdone r hr) hl hlr
  exact hnot hr

theorem Pending.drawnWhole (h : Pending heads last done queue d) {s : Sequence}
    (hs : s.IsProper) (hr : Runs (drawWhole [] s) d u d') :
    ∃ hi, DrawnWhole (heads ++ [d.size]) s [] d hi last d' := by
  have hd : d.Sound (heads ++ [d.size]) := h.sound.mono fun x hx => List.mem_append_left _ hx
  obtain ⟨hi, last', hw⟩ := Graph.drawnWhole hd
    ⟨by simp, .inl ⟨rfl, List.mem_append_right _ (List.mem_singleton.mpr rfl)⟩⟩ hs hr
  obtain rfl := Option.some.inj ((hw.later.endNode last h.endNode).symm.trans hw.endNode)
  exact ⟨hi, hw⟩

/-- A sequence more is drawn, and its jumps are put in the queue. -/
theorem Pending.draw (h : Pending heads last done queue d) {s : Sequence} {hi : Nat}
    (hw : DrawnWhole (heads ++ [d.size]) s [] d hi last d') :
    Pending (heads ++ [d.size]) last (done ++ [s]) (queue ++ jumpsIn s) d' := by
  obtain ⟨ks, hks, hkl⟩ := hw.jumps
  have hsize : d.size < d'.size := Nat.lt_of_lt_of_le hw.lt hw.le
  refine ⟨hw.sound, fun x hx => ?_, hw.endNode, fun l => ?_, ?_⟩
  · obtain hx | hx := List.mem_append.mp hx
    · exact Nat.lt_trans (h.below x hx) hsize
    · rwa [List.mem_singleton.mp hx]
  · rw [hw.labels, List.flatMap_append, List.mem_append, h.labels, List.flatMap_singleton]
  · rw [hks, List.map_append, h.jumps, hkl]

/-- A jump whose label is known becomes a link. -/
theorem Pending.known (h : Pending heads last done queue d) {j : Jump} (hj : j.source < d.size)
    (hl : j.label ∈ done.flatMap labelsIn) (hr : Runs (resolve secondary j) d u d') :
    ∃ id, d.labels.lookup j.label = some id ∧ d' = d.withLinks [⟨j.source, id, some j.condition⟩] ∧
      Pending heads last done queue d' := by
  obtain ⟨id, hid⟩ := Option.isSome_iff_exists.mp ((h.labels _).mpr hl)
  obtain rfl := resolve_known hr hid
  exact ⟨id, hid, rfl, h.withTransition hj _ _⟩

/-- A jump whose label is not known becomes a link to the sequence that is named by it. -/
theorem Pending.drawn (h : Pending heads last done queue d) {j : Jump}
    {s : Sequence} (hj : j.source < d.size) (hl : j.label ∉ done.flatMap labelsIn) (hs : s.IsProper)
    (hfind : secondary.find? (fun s => s.label? == some j.label) = some s)
    (hr : Runs (resolve secondary j) d u d') :
    ∃ e hi, Runs (drawWhole [] s) d () e ∧ DrawnWhole (heads ++ [d.size]) s [] d hi last e ∧
      d' = e.withLinks [⟨j.source, d.size, some j.condition⟩] ∧
        Pending (heads ++ [d.size]) last (done ++ [s]) (queue ++ jumpsIn s) d' := by
  have hnone := h.lookup_eq_none hl
  have hlabel : s.label? = some j.label := by simpa using List.find?_some hfind
  obtain ⟨e, hdraw, he⟩ := resolve_draw hr hnone hfind
  obtain ⟨hi, hw⟩ := h.drawnWhole hs hdraw
  obtain rfl := he d.size (hw.named _ hlabel hnone)
  have hsource : j.source < e.size := Nat.lt_trans hj (Nat.lt_of_lt_of_le hw.lt hw.le)
  exact ⟨e, hi, hdraw, hw, rfl, (h.draw hw).withTransition hsource _ _⟩

theorem Pending.missing (h : Pending heads last done queue d) {j : Jump}
    (hl : j.label ∉ done.flatMap labelsIn)
    (hfind : secondary.find? (fun s => s.label? == some j.label) = none)
    (hr : Runs (resolve secondary j) d u d') : d' = d :=
  resolve_miss hr (h.lookup_eq_none hl) hfind

end

/-- Resolving takes the jumps as the sequences `order` say, and these are drawn meanwhile. -/
theorem unrolled {all secondary : List Sequence} (hunique : (all.flatMap labelsIn).Nodup)
    (hproper : ∀ s ∈ secondary, s ∈ all ∧ s.IsProper) {last : Nat} {done order : List Sequence}
    {queue misses : List String} (h : Unrolls secondary done queue order misses)
    (hdone : ∀ s ∈ done, s ∈ all) :
    ∀ {taken : List Taken} {heads : List Nat} {d D : Drawing} {fuel : Nat},
      queue.length + (order.flatMap jumpsIn).length ≤ fuel → Pending heads last done queue d →
        Runs (resolveWithin secondary fuel) d () D → (∀ k ∈ taken, k.jump.source < d.size) →
          ∃ log ps, Takes secondary done d log order D ∧
            Unrolled taken log heads last queue order misses d ps D := by
  induction h with
  | nil =>
    intro taken heads d D fuel _ hp hr _
    obtain ⟨hjumps, rfl⟩ := hp.settled hr
    exact ⟨[], [], .done hjumps, .refl _, by simpa using hp.sound, hjumps, by simp, rfl, by simp, by simp,
      by simp, .nil, by simp⟩
  | known hl h ih =>
    intro taken heads d D fuel hf hp hr ht
    obtain ⟨n, j, js, e, rfl, hj, rfl, hp', hresolve, hr⟩ := hp.take (by simp at hf; omega) hr
    have hsource := hp.source_lt hj
    obtain ⟨id, hid, rfl, hp'⟩ := hp'.known hsource hl hresolve
    obtain ⟨log, ps, htakes, h⟩ := ih hdone (by simp at hf ⊢; omega) hp' hr (taken_lt ht hsource true)
    exact ⟨_, ps, .known hj hl hresolve htakes, h.known hp.sound hj hid⟩
  | @draw done order queue misses l s hl hs h ih =>
    intro taken heads d D fuel hf hp hr ht
    obtain ⟨n, j, js, e, rfl, hj, rfl, hp', hresolve, hr⟩ := hp.take (by simp at hf; omega) hr
    obtain ⟨hmem, hs'⟩ := hproper s (List.mem_of_find?_eq_some hs)
    have hlabel : s.label? = some j.label := by simpa using List.find?_some hs
    have hdone' : ∀ r ∈ done ++ [s], r ∈ all := by
      simpa [or_imp, forall_and] using ⟨hdone, hmem⟩
    have hnew := hp.new hunique hdone hmem (not_mem_done hl hs)
    have hsource := hp.source_lt hj
    obtain ⟨f, hi, -, hw, rfl, hp''⟩ := hp'.drawn hsource hl hs' hs hresolve
    have hsize : d.size ≤ f.size := Nat.le_trans (Nat.le_of_lt hw.lt) hw.le
    obtain ⟨log, ps, htakes, h⟩ := ih hdone' (by simp at hf ⊢; omega) hp'' hr fun k hk =>
      Nat.lt_of_lt_of_le (taken_lt ht hsource true k hk) hsize
    refine ⟨_, _, .draw hj hl hs hresolve htakes, h.draw hp.sound hp.below ht hj (hp.lookup_eq_none hl) hnew
      hlabel (fun k hk hlk => htakes.found k hk (.inl ?_)) hw⟩
    rw [List.flatMap_append, List.flatMap_singleton]
    exact List.mem_append_right _ hlk
  | miss hl hs h ih =>
    intro taken heads d D fuel hf hp hr ht
    obtain ⟨n, j, js, e, rfl, hj, rfl, hp', hresolve, hr⟩ := hp.take (by simp at hf; omega) hr
    have hsource := hp.source_lt hj
    obtain rfl := hp'.missing hl hs hresolve
    obtain ⟨log, ps, htakes, h⟩ := ih hdone (by simp at hf ⊢; omega) hp' hr (taken_lt ht hsource false)
    exact ⟨_, ps, .miss hj hl hs hresolve htakes, h.miss hj⟩

/-! ## Tasks -/

/-- What is drawn of a task: its first sequence from the start on, and the sequences `order`. -/
structure DrawnTask (log : List Taken) (first : Sequence) (order : List Sequence)
    (misses : List String) (last hi : Nat) (ps : List Placement) (D : Drawing) : Prop where
  start : ∃ n, D.graph.named? startName = some n ∧ D.graph.successors n.id = [1]
  sound : D.Sound (ps.map Placement.lo)
  endNode : D.endNode = some last
  main : ShowsSequence D.graph (Carries log D) first 1 hi last
  finds : Finds log ⟨first, 1, hi⟩
  found : misses = [] → ∀ k ∈ log, k.found = true
  labels : ∀ l, (D.labels.lookup l).isSome ↔ l ∈ (first :: order).flatMap labelsIn
  outside : last < 1 ∨ hi ≤ last
  sequences : ps.map Placement.sequence = order
  shown : ∀ p ∈ ps, Shown log last D p
  bounds : ∀ p ∈ ps, hi ≤ p.lo
  apart : ps.Pairwise fun p q => p.hi ≤ q.lo
  announced : misses = [] →
    addHeads [] ((jumpsIn first ++ order.flatMap jumpsIn).filterMap (entryAt D)) =
      ps.map Placement.lo

section

variable {first s : Sequence} {order : List Sequence} {misses : List String} {last hi : Nat}
  {ps : List Placement}

theorem DrawnTask.shows (h : DrawnTask log first order misses last hi ps D) (hs : s ∈ first :: order) :
    ∃ lo hi', ShowsSequence D.graph (Carries log D) s lo hi' last := by
  rcases List.mem_cons.mp hs with rfl | hs
  · exact ⟨1, hi, h.main⟩
  · rw [← h.sequences] at hs
    obtain ⟨p, hp, rfl⟩ := List.mem_map.mp hs
    exact ⟨p.lo, p.hi, (h.shown p hp).shows⟩

/-- The node of a label is the node of the app or split that has it. -/
theorem DrawnTask.labelled (h : DrawnTask log first order misses last hi ps D) {l : String} {id : Nat}
    (hl : D.labels.lookup l = some id) : ∃ s ∈ first :: order, ∃ n ∈ nodesOf s.elements,
      n.label? = some l ∧ D.graph.node? id = some (flowNode id n) ∧ id ∉ D.targetIds := by
  have hmem := (h.labels l).mp (by rw [hl]; rfl)
  obtain ⟨s, hs, hmem⟩ := List.mem_flatMap.mp hmem
  obtain ⟨n, hn, hlabel⟩ := List.mem_filterMap.mp hmem
  have hflow : IsFlowNode n := by
    cases n with
    | app | split => trivial
    | task | sequence | transition => cases hlabel
  obtain ⟨lo, hi, hshow⟩ := h.shows hs
  obtain ⟨id', hc, hnode, -⟩ := hshow.elements.at n hn hflow
  obtain rfl := Option.some.inj ((hc.label l hlabel).symm.trans hl)
  exact ⟨s, hs, n, hn, hlabel, hnode, hc.own⟩

end

theorem sound_empty : Drawing.Sound [] {} where
  ids i n hn := by simp at hn
  sources := by simp
  jumps := by simp
  onward a b hl := by simp [Leads, successors] at hl
  last := by simp
  targets := by simp
  led a b hl := by simp [Leads, successors] at hl
  labels := by simp

/-- The first sequence is drawn from the start on, and then its jumps wait. -/
theorem drawnFirst {first : Sequence} {u : Unit} (hfirst : first.IsProper)
    (hr : Runs (drawWhole [0] first) (Drawing.withNode {} startName none []) u d) :
    ∃ hi last, DrawnWhole [] first [0] (Drawing.withNode {} startName none []) hi last d ∧
      Pending [] last [first] (jumpsIn first) d := by
  obtain ⟨hi, last, hw⟩ := drawnWhole (sound_empty.withNode startName none [])
    ⟨by simp [Drawing.size, Drawing.withNode], .inr ⟨0, by simp, List.not_mem_nil⟩⟩ hfirst hr
  obtain ⟨js, hjs, hjl⟩ := hw.jumps
  refine ⟨hi, last, hw, hw.sound, by simp, hw.endNode, fun l => ?_, by rw [hjs]; exact hjl⟩
  rw [hw.labels]
  simp [Drawing.withNode]

/-- A task is drawn in two stages: its first sequence, and what jumps lead to. -/
theorem runs_drawTask {t : Task} {first : Sequence} {secondary : List Sequence}
    (ht : t.sequences = first :: secondary) : ∃ d,
      Runs (drawWhole [0] first) (Drawing.withNode {} startName none []) () d ∧
        Runs (resolveWithin secondary (countInBranches (first :: secondary))) d ()
          ((drawTask t).run {}).2 := by
  have hr := runs_run (drawTask t) {}
  generalize ((drawTask t).run {}).2 = D at hr ⊢
  simp only [drawTask, ht, runs_bind, runs_addNode] at hr
  obtain ⟨_, _, ⟨rfl, rfl⟩, _, d, hw, hr⟩ := hr
  exact ⟨d, hw, hr⟩

theorem drawnTask {t : Task} {first : Sequence} {secondary order : List Sequence} {misses : List String}
    (ht : t.sequences = first :: secondary) (hproper : ∀ s ∈ t.sequences, s.IsProper)
    (hunique : (t.sequences.flatMap labelsIn).Nodup)
    (h : Unrolls secondary [first] (jumpsIn first) order misses) :
    ∃ d D log last hi ps, D = ((drawTask t).run {}).2 ∧
      Runs (drawWhole [0] first) (Drawing.withNode {} startName none []) () d ∧
        Takes secondary [first] d log order D ∧ DrawnTask log first order misses last hi ps D := by
  obtain ⟨d, hdraw, hr⟩ := runs_drawTask ht
  rw [ht] at hproper hunique
  obtain ⟨hfirst, hproper⟩ := List.forall_mem_cons.mp hproper
  obtain ⟨hi, last, hw, hp⟩ := drawnFirst hfirst hdraw
  obtain ⟨log, ps, htakes, hu⟩ := @unrolled _ _ hunique
    (fun s hs => ⟨List.mem_cons_of_mem _ hs, hproper s hs⟩) last _ _ _ _ h (by simp) [] [] _ _ _
      h.length_le hp hr nofun
  have hlt := hw.lt
  have hle := hw.le
  have hlater := hw.later.step hu.later (Nat.le_refl _) (by omega) fun _ _ => rfl
  have hsize : Drawing.size (Drawing.withNode {} startName none []) = 1 := rfl
  refine ⟨d, _, log, last, hi, ps, rfl, hdraw, htakes, ⟨⟨0, startName, none, []⟩, ?_, ?_⟩,
    by simpa using hu.sound, hu.later.endNode _ hw.endNode, ?_,
    fun k hk _ hl => htakes.found k hk (.inl (by simpa using hl)), hu.found, fun l => ?_,
    hw.outside, hu.sequences, hu.shown, fun p hp => Nat.le_trans hle (hu.bounds p hp), hu.apart,
    hu.announced⟩
  · obtain ⟨ns, hns⟩ := hlater.nodes
    rw [named?, ← hns]
    rfl
  · rw [hlater.successors 0 (by omega), hsize]
    rfl
  · have hnew := (List.nodup_flatMap.mp hunique).1 first List.mem_cons_self
    exact hw.shows ⟨hnew, fun l _ => rfl⟩ _ _
      ⟨hu.later.mono (fun _ h => h.2) fun _ _ => rfl, ⟨_, hu.sound⟩, hu.jumps⟩
  · rw [hu.labels, hw.labels, List.flatMap_cons, List.mem_append]
    exact or_congr_left ⟨fun h => h.resolve_left (by simp [Drawing.withNode]), .inr⟩

end Pipework.Graph
