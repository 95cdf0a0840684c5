import Pipework.Proofs.Graph.Joins
import Pipework.Proofs.Graph.WellFormed
import Pipework.Proofs.Graph.Writing

/-! On what the text of a graph depends. It can be read with any of the nodes that can be the join of a
split, so on a cycle there is more than one text; without cycles there is one. -/

namespace Pipework.Graph

open Pipework.Task Relation

variable {g : Graph} {entries : List Nat} {i j : Option Nat}

/-! ## Reading with any of the joins -/

section

variable {meets meets' : List Nat → Option Nat → Prop}

mutual

theorem ReadsFlow.mono (hm : ∀ {entries j}, 1 < entries.length → meets entries j → meets' entries j) :
    {r r' : Reading} → {entries : List Nat} → {stop : Option Nat} → {es : List Element} →
      ReadsFlow g meets r entries stop es r' → ReadsFlow g meets' r entries stop es r'
  | _, _, _, _, _, .nil => .nil
  | _, _, _, _, _, .halt h => .halt h
  | _, _, _, _, _, .app h hs hf => .app h hs (hf.mono hm)
  | _, _, _, _, _, .pass h hs hl hf => .pass h hs hl (hf.mono hm)
  | _, _, _, _, _, .fork h hs hl hj hb hf => .fork h hs hl (hm hl hj) (hb.mono hm) (hf.mono hm)
  | _, _, _, _, _, .split hl hj hb hf => .split hl (hm hl hj) (hb.mono hm) (hf.mono hm)

theorem ReadsBranches.mono
    (hm : ∀ {entries j}, 1 < entries.length → meets entries j → meets' entries j) :
    {r r' : Reading} → {entries : List Nat} → {join : Option Nat} → {bs : List Sequence} →
      ReadsBranches g meets r entries join bs r' → ReadsBranches g meets' r entries join bs r'
  | _, _, _, _, _, .nil => .nil
  | _, _, _, _, _, .cons hf hb => .cons (hf.mono hm) (hb.mono hm)

end

theorem ReadsHeads.mono
    (hm : ∀ {entries j}, 1 < entries.length → meets entries j → meets' entries j) {r r' : Reading}
    {index : Nat} {ss : List Sequence} (h : ReadsHeads g meets r index ss r') :
    ReadsHeads g meets' r index ss r' := by
  induction h with
  | done h => exact .done h
  | next h hf _ ih => exact .next h (hf.mono hm) ih

theorem ReadsGraph.unique (hm : ∀ {entries i j}, meets entries i → meets entries j → i = j)
    {start : Node} {first first' : List Element} {rest rest' : List Sequence} {r r' s s' : Reading}
    (h : ReadsGraph g meets start first rest r s) (h' : ReadsGraph g meets start first' rest' r' s') :
    first = first' ∧ rest = rest' := by
  obtain ⟨rfl, rfl⟩ := @ReadsFlow.unique g meets hm _ _ _ _ _ _ _ h.flow h'.flow
  exact ⟨rfl, (@ReadsHeads.unique g meets hm _ _ _ _ _ _ h.heads h'.heads).1⟩

end

/-- The text of a graph as it is written when the joins are looked for in some orders. -/
def MayWrite (g : Graph) (text : String) : Prop :=
  ∃ start first rest r r', g.named? startName = some start ∧
    ReadsGraph g (MayJoin g) start first rest r r' ∧
      text = "\n".intercalate ((⟨first, 0, 0⟩ :: rest).map Sequence.render)

theorem mayWrite_render (h : g.named? startName ≠ none) : g.MayWrite g.render := by
  obtain ⟨start, hs⟩ := Option.ne_none_iff_exists'.mp h
  obtain ⟨first, rest, r, r', h, hss⟩ := readsGraph hs
  have hm : ∀ {entries j}, 1 < entries.length → Joins g entries j → MayJoin g entries j := by
    rintro entries j hl rfl
    exact mayJoin_joinOf (List.ne_nil_of_length_pos (Nat.lt_of_succ_lt hl))
  exact ⟨start, first, rest, r, r', hs, ⟨h.flow.mono hm, h.heads.mono hm⟩, by
    rw [render_eq_readback, Task.render, hss]⟩

/-- No two nodes lie on one cycle of plain links; a link from a node to itself is no harm. -/
def IsAcyclic (g : Graph) : Prop := ∀ n m, TransGen g.Leads n m → TransGen g.Leads m n → m = n

theorem isAcyclic_of_lt (h : ∀ l ∈ g.links, l.source < l.target) : g.IsAcyclic := by
  have hlt : ∀ {n m}, TransGen g.Leads n m → n < m := fun hnm => by
    induction hnm with
    | single hl =>
      obtain ⟨l, hmem, rfl, rfl, -⟩ := leads_iff.mp hl
      exact h l hmem
    | tail _ hl ih =>
      obtain ⟨l, hmem, rfl, rfl, -⟩ := leads_iff.mp hl
      exact ih.trans (h l hmem)
  exact fun n m hnm hmn => absurd (hlt hnm) (Nat.not_lt.mpr (Nat.le_of_lt (hlt hmn)))

theorem IsAcyclic.mayJoin_unique (h : g.IsAcyclic) (hi : g.MayJoin entries i)
    (hj : g.MayJoin entries j) : i = j :=
  (mayJoin_unique_iff hi.ne_nil).mpr (fun n m _ => h n m) i j hi hj

theorem MayWrite.unique {text text' : String} (ha : g.IsAcyclic) (h : g.MayWrite text)
    (h' : g.MayWrite text') : text = text' := by
  obtain ⟨start, first, rest, r, s, hs, h, rfl⟩ := h
  obtain ⟨start', first', rest', r', s', hs', h', rfl⟩ := h'
  obtain rfl := Option.some.inj (hs.symm.trans hs')
  obtain ⟨rfl, rfl⟩ := @ReadsGraph.unique g g.MayJoin ha.mayJoin_unique _ _ _ _ _ _ _ _ _ h h'
  rfl

theorem isAcyclic_ofTask {text : String} {t : Task} (h : parse text = .ok t) :
    (ofTask t).IsAcyclic := by
  obtain ⟨hne, hproper⟩ := proper_of_parse h
  obtain ⟨first, secondary, ht⟩ := List.exists_cons_of_ne_nil hne
  obtain ⟨order, misses, hu⟩ := exists_unrolls secondary [first] (jumpsIn first)
  obtain ⟨-, D, log, last, hi, ps, hD, -, -, hd⟩ := drawnTask ht hproper
    (nodup_labelsIn (parse_eq_ok.mp h).2) hu
  intro n m hnm hmn
  rw [ofTask, ← hD] at hnm hmn
  exact absurd (hnm.trans hmn) (hd.sound.acyclic hd.endNode n)

/-! ## What is settled -/

/-- The join of the flows from some entries, as far as it is settled. -/
structure JoinsOnCycle (g : Graph) (entries : List Nat) : Prop where
  reader : g.MayJoin entries (g.joinOf entries)
  some : ∀ n, g.MayJoin entries (some n) ↔ g.CanJoin entries n
  none : g.MayJoin entries none ↔ ∀ n, ¬ g.CanJoin entries n
  cycle : ∀ n m, g.CanJoin entries n →
    (g.CanJoin entries m ↔ m = n ∨ TransGen g.Leads n m ∧ TransGen g.Leads m n)
  unique : (∀ i j, g.MayJoin entries i → g.MayJoin entries j → i = j) ↔
    ∀ n m, g.CanJoin entries n → TransGen g.Leads n m → TransGen g.Leads m n → m = n

/-- What can be the join lies on one cycle. Without cycles, neither the join nor the text depends on the
order of a search, and what is drawn of a task is without cycles. -/
theorem joins_on_cycle (g : Graph) : (∀ entries, entries ≠ [] → g.JoinsOnCycle entries) ∧
    (g.IsAcyclic → ∀ entries i, g.MayJoin entries i → i = g.joinOf entries) ∧
    (g.IsAcyclic → g.named? startName ≠ none → ∀ text, g.MayWrite text ↔ text = g.render) ∧
      ∀ text t, parse text = .ok t → g = ofTask t → g.IsAcyclic := by
  refine ⟨fun entries hne => ⟨mayJoin_joinOf hne, fun n => mayJoin_some_iff hne, mayJoin_none_iff hne,
    fun n m hn => hn.iff_cycle, mayJoin_unique_iff hne⟩, fun ha entries i hi =>
      ha.mayJoin_unique hi (mayJoin_joinOf hi.ne_nil), fun ha hs text => ?_, ?_⟩
  · have hr := mayWrite_render hs
    exact ⟨fun h => h.unique ha hr, fun h => h ▸ hr⟩
  · rintro text t h rfl
    exact isAcyclic_ofTask h

/-- A split in a split, both closed at one node. -/
theorem joins_on_cycle_nested : ∃ g : Graph, g.IsAcyclic ∧ g.joinOf [2, 3] = some 6 ∧
    g.joinOf [4, 5] = some 6 ∧ g.JoinsOnCycle [2, 3] ∧ (∀ i, g.MayJoin [4, 5] i → i = some 6) ∧
      ∀ text, g.MayWrite text ↔ text = "<a || <b || c>> && d" := by
  let g : Graph := ⟨[⟨0, "START", none, []⟩, ⟨1, "SYNC", none, []⟩, ⟨2, "a", none, []⟩,
    ⟨3, "SYNC", none, []⟩, ⟨4, "b", none, []⟩, ⟨5, "c", none, []⟩, ⟨6, "d", none, []⟩,
    ⟨7, "END", none, []⟩], [⟨0, 1, none⟩, ⟨1, 2, none⟩, ⟨1, 3, none⟩, ⟨2, 6, none⟩, ⟨3, 4, none⟩,
    ⟨3, 5, none⟩, ⟨4, 6, none⟩, ⟨5, 6, none⟩, ⟨6, 7, none⟩]⟩
  have ha : g.IsAcyclic := isAcyclic_of_lt (by decide)
  have hrender : g.render = "<a || <b || c>> && d" := by decide +kernel
  exact ⟨g, ha, by decide, by decide, (joins_on_cycle g).1 _ (by simp),
    fun i hi => (joins_on_cycle g).2.1 ha _ i hi,
    fun text => hrender ▸ (joins_on_cycle g).2.2.1 ha (by decide) text⟩

/-- Two flows that lead into a cycle of two nodes. -/
def intoCycle (name : String) : Graph where
  nodes := [⟨0, startName, none, []⟩, ⟨1, "a", none, []⟩, ⟨2, "b", none, []⟩, ⟨3, name, none, []⟩,
    ⟨4, "d", none, []⟩]
  links := [⟨0, 1, none⟩, ⟨0, 2, none⟩, ⟨1, 3, none⟩, ⟨2, 3, none⟩, ⟨3, 4, none⟩, ⟨4, 3, none⟩]

theorem common_intoCycle (name : String) {order : List Nat} (ho : order.Perm [3, 4]) (n : Nat) :
    n ∈ order ↔ (intoCycle name).IsCommon [1, 2] n := by
  have hone : (intoCycle name).reachable 1 = [4, 3] := rfl
  have htwo : (intoCycle name).reachable 2 = [4, 3] := rfl
  simp only [IsCommon, ← mem_reachable, List.forall_mem_cons, hone, htwo, ho.mem_iff]
  simp [or_comm]

/-- The first node of the cycle is taken, and what follows it is written after the split. -/
theorem mayWrite_firstJoin : (intoCycle "c").MayWrite "<a || b> && c && d" := by
  have hjoin : (intoCycle "c").MayJoin [1, 2] (some 3) :=
    ⟨[3, 4], common_intoCycle "c" (.refl [3, 4]), rfl⟩
  have ha : Fresh (intoCycle "c") {} (some 3) 1 ⟨1, "a", none, []⟩ :=
    ⟨by decide, rfl, by decide, by decide⟩
  have hb : Fresh (intoCycle "c") ⟨[1], []⟩ (some 3) 2 ⟨2, "b", none, []⟩ :=
    ⟨by decide, rfl, by decide, by decide⟩
  have hc : Fresh (intoCycle "c") ⟨[2, 1], []⟩ none 3 ⟨3, "c", none, []⟩ :=
    ⟨by decide, rfl, by decide, by decide⟩
  have hd : Fresh (intoCycle "c") ⟨[3, 2, 1], []⟩ none 4 ⟨4, "d", none, []⟩ :=
    ⟨by decide, rfl, by decide, by decide⟩
  have hread : ∀ {r : Reading} {stop : Option Nat}, 3 ∈ r.visited → Halts (intoCycle "c") r stop 3 :=
    fun h => .inr fun _ _ => .inr h
  have happ := @ReadsFlow.app (intoCycle "c") (intoCycle "c").MayJoin
  have hfirst := happ ha rfl (.halt (.inl rfl))
  have hsecond := happ hb rfl (.halt (.inl rfl))
  have hrest := happ hc rfl (happ hd rfl (.halt (hread (by decide))))
  exact ⟨_, _, _, _, _, rfl, ⟨.split (by decide) hjoin (.cons hfirst (.cons hsecond .nil)) hrest,
    .done rfl⟩, by decide +kernel⟩

/-- The flows meet at either node of the cycle. Which of them is found first shows in the text, unless
the first is a fork that is not written. -/
theorem not_settled_on_cycle : (∀ name, (intoCycle name).CanJoin [1, 2] 3 ∧
    (intoCycle name).CanJoin [1, 2] 4) ∧ (intoCycle syncName).render = "<a || b> && d" ∧
      (intoCycle "c").MayWrite "<a || b> && c && d" ∧ (intoCycle "c").MayWrite "<a && c || b> && d" := by
  refine ⟨fun name => ⟨?_, ?_⟩, by decide +kernel, mayWrite_firstJoin, ?_⟩
  · exact canJoin_of_firstJoin (common_intoCycle name (.refl [3, 4])) rfl
  · exact canJoin_of_firstJoin (common_intoCycle name (.swap 3 4 [])) rfl
  · have hrender : (intoCycle "c").render = "<a && c || b> && d" := by decide +kernel
    exact hrender ▸ mayWrite_render (by decide)

end Pipework.Graph
