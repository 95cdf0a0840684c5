import Pipework.Proofs.Graph.Reading
import Pipework.Proofs.Graph.Shows

/-! A flow that a graph shows is read from it: the branches of a split join at the node after the split,
and each app is read from its own node. -/

namespace Pipework.Graph

open Pipework.Task Relation

variable {g : Graph} {P : Task.Node → Nat → Prop}

/-! ## Splits -/

/-- All splits of the nodes have two branches or more. -/
def Wide (ns : List Task.Node) : Prop := ∀ s, .split s ∈ ns → 2 ≤ s.branches.length

theorem Wide.cons {e : Element} {es : List Element} (h : Wide (nodesOf (e :: es))) :
    Wide (nodesOf [e]) ∧ Wide (nodesOf es) := by
  rw [nodesOf_cons] at h
  exact ⟨fun s hs => h s (List.mem_append_left _ hs), fun s hs => h s (List.mem_append_right _ hs)⟩

theorem Wide.split {label : Option Label} {bs : List Sequence} {start stop : Nat}
    (h : Wide (nodesOf [.split ⟨label, bs, start, stop⟩])) :
    2 ≤ bs.length ∧ Wide (nodesOfBranches bs) := by
  rw [nodesOf_split, nodesOf_nil, List.append_nil] at h
  exact ⟨h _ List.mem_cons_self, fun s hs => h s (List.mem_cons_of_mem _ hs)⟩

theorem Wide.branches {es : List Element} {start stop : Nat} {bs : List Sequence}
    (h : Wide (nodesOfBranches (⟨es, start, stop⟩ :: bs))) :
    Wide (nodesOf es) ∧ Wide (nodesOfBranches bs) := by
  rw [nodesOfBranches_cons, nodes_sequence] at h
  exact ⟨fun s hs => h s (List.mem_append_left _ (List.mem_cons_of_mem _ hs)),
    fun s hs => h s (List.mem_append_right _ hs)⟩

/-! ## Joins -/

mutual

theorem ShowsElements.leads : {es : List Element} → {lo hi next : Nat} → es ≠ [] →
    Wide (nodesOf es) → ShowsElements g P es lo hi next → TransGen g.Leads lo next
  | [], _, _, _, hne, _, _ => absurd rfl hne
  | [_], _, _, _, _, hw, ⟨_, he, _⟩ => he.leads hw
  | _ :: _ :: _, _, _, _, _, hw, ⟨_, he, hes⟩ =>
    (he.leads hw.cons.1).trans (ShowsElements.leads (by simp) hw.cons.2 hes)

theorem ShowsElement.leads : {e : Element} → {lo hi next : Nat} → Wide (nodesOf [e]) →
    ShowsElement g P e lo hi next → TransGen g.Leads lo next
  | .app _, _, _, _, _, ⟨_, _, _, hs⟩ => .single (by simp [Leads, hs])
  | .split ⟨_, bs, _, _⟩, lo, _, _, hw, ⟨_, _, h⟩ => by
    obtain ⟨hlen, hw⟩ := hw.split
    obtain ⟨entry, hentry⟩ : ∃ entry, entry ∈ g.successors lo := by
      cases bs with
      | nil => simp at hlen
      | cons b bs =>
        obtain ⟨_, rest, hsucc, -⟩ := h
        exact ⟨lo + 1, by simp [hsucc]⟩
    exact .head hentry (h.leads hw entry hentry)

theorem ShowsBranches.leads : {bs : List Sequence} → {entries : List Nat} → {lo hi next : Nat} →
    Wide (nodesOfBranches bs) → ShowsBranches g P bs entries lo hi next →
      ∀ e ∈ entries, TransGen g.Leads e next
  | [], _, _, _, _, _, ⟨hnil, _⟩ => by simp [hnil]
  | ⟨_, _, _⟩ :: _, _, _, _, _, hw, ⟨_, _, hentries, _, ⟨hne, hb⟩, hbs⟩ => by
    rw [hentries]
    exact List.forall_mem_cons.mpr ⟨hb.leads hne hw.branches.1, hbs.leads hw.branches.2⟩

end

theorem Encloses.mem {lo hi next a c : Nat} (h : Encloses g lo hi next) (ha : lo ≤ a ∧ a < hi)
    (hc : TransGen g.Leads a c) : (c = next ∨ TransGen g.Leads next c) ∨ (lo ≤ c ∧ c < hi) := by
  induction hc with
  | single hl => exact (h _ _ ha.1 ha.2 hl).imp_left .inl
  | tail _ hl ih =>
    rcases ih with (rfl | hn) | hin
    · exact .inl (.inr (.single hl))
    · exact .inl (.inr (hn.tail hl))
    · exact (h _ _ hin.1 hin.2 hl).imp_left .inl

/-- Two branches have no node in common, so what both lead to is at or after the node after them. -/
theorem ShowsBranches.join {bs : List Sequence} {entries : List Nat} {lo hi next : Nat}
    (hacyclic : ∀ a, ¬ TransGen g.Leads a a) (hlen : 2 ≤ bs.length) (hw : Wide (nodesOfBranches bs))
    (h : ShowsBranches g P bs entries lo hi next) : g.joinOf entries = some next := by
  have hall := h.leads hw
  match bs, hlen with
  | b :: c :: bs, _ =>
    obtain ⟨mid, rest, rfl, hin, hb, mid', rest', rfl, hin', hc, -⟩ := h
    refine joinOf_eq_some (by simp) hall ?_ ?_
    · intro x hx
      rcases hin.mem ⟨Nat.le_refl _, hb.lt⟩ (hx lo (by simp)) with hx' | hx'
      · exact hx'
      · rcases hin'.mem ⟨Nat.le_refl _, hc.lt⟩ (hx mid (by simp)) with hy | hy
        · exact hy
        · omega
    · intro x hx hback
      exact hacyclic next (hx.trans hback)

/-! ## Reading -/

/-- The app is read from the node as it is written, and the sequences that its transitions lead to are
those that `entry` tells of their labels. -/
structure ReadsApp (g : Graph) (entry : String → Option Nat) (a : App) (id : Nat) : Prop where
  name : a.name ≠ endName
  sync : a.name ≠ syncName
  app : g.appOf { targetKey a with id } = a.withoutPositions
  heads : g.headsOf { targetKey a with id } =
    (a.transitions.filterMap fun t => t.target.label?).filterMap entry

/-- An app is read from its node; a split needs nothing else. -/
def ReadsNode (g : Graph) (entry : String → Option Nat) (n : Task.Node) (id : Nat) : Prop :=
  ∀ a, n = .app a → ReadsApp g entry a id

/-- The sequences that jumps of the nodes lead to. -/
def headsIn (entry : String → Option Nat) (ns : List Task.Node) : List Nat :=
  (ns.filterMap Node.jump?).filterMap entry

theorem headsIn_append (entry : String → Option Nat) (ns ms : List Task.Node) :
    headsIn entry (ns ++ ms) = headsIn entry ns ++ headsIn entry ms := by
  simp [headsIn, List.filterMap_append]

/-- Only nodes from `lo` up to `hi` have been read. -/
structure Reading.After (r : Reading) (heads : List Nat) (lo hi : Nat) (r' : Reading) : Prop where
  visited : ∀ x ∈ r'.visited, x ∈ r.visited ∨ (lo ≤ x ∧ x < hi)
  heads : r'.heads = addHeads r.heads heads

/-- The node is none of those from `lo` up to `hi`. -/
def Outside (lo hi x : Nat) : Prop := x < lo ∨ hi ≤ x

theorem Reading.After.trans {r r₁ r' : Reading} {xs ys : List Nat} {lo mid hi : Nat}
    (h : r.After xs lo mid r₁) (h' : r₁.After ys mid hi r') (hle : lo ≤ mid) (hle' : mid ≤ hi) :
    r.After (xs ++ ys) lo hi r' where
  visited x hx := by
    rcases h'.visited x hx with hx | hx
    · rcases h.visited x hx with hx | hx
      · exact .inl hx
      · exact .inr (by omega)
    · exact .inr (by omega)
  heads := by rw [h'.heads, h.heads, addHeads_append]

theorem Reading.After.outside {r r' : Reading} {xs : List Nat} {lo mid hi : Nat}
    (h : r.After xs lo mid r') (hle : lo ≤ mid) (hr : ∀ x ∈ r.visited, Outside lo hi x) :
    ∀ x ∈ r'.visited, Outside mid hi x := by
  intro x hx
  unfold Outside at *
  rcases h.visited x hx with hx | hx
  · have := hr x hx
    omega
  · omega

/-- The elements are read from `lo` on, whatever is read from `next` on after them. -/
def ReadsOn (g : Graph) (r : Reading) (es : List Element) (lo hi next : Nat) (r' : Reading) : Prop :=
  ∀ stop fs r'', (∀ x, stop = some x → Outside lo hi x) →
    ReadsFlow g (Joins g) r' [next] stop fs r'' →
      ReadsFlow g (Joins g) r [lo] stop (elementsWithoutPositions es ++ fs) r''

variable {entry : String → Option Nat}

theorem ShowsElement.reads_app {a : App} {lo hi next : Nat} {r : Reading}
    (h : ShowsElement g (ReadsNode g entry) (.app a) lo hi next)
    (hr : ∀ x ∈ r.visited, Outside lo hi x) :
    ∃ r', r.After (headsIn entry (nodesOf [.app a])) lo hi r' ∧ ReadsOn g r [.app a] lo hi next r' := by
  obtain ⟨hlt, hn, ha, hs⟩ := h
  have ha := ha a rfl
  refine ⟨r.withApp g { targetKey a with id := lo }, ⟨?_, ?_⟩, ?_⟩
  · intro x hx
    rcases List.mem_cons.mp hx with rfl | hx
    · exact .inr ⟨Nat.le_refl _, hlt⟩
    · exact .inl hx
  · rw [Reading.withApp, ha.heads, headsIn, nodesOf_app, nodesOf_nil, List.append_nil,
      List.filterMap_cons_none rfl, List.filterMap_map]
    rfl
  · intro stop fs r'' hstop hf
    have hlo : ¬ Outside lo hi lo := by
      unfold Outside
      omega
    have hfresh : Fresh g r stop lo { targetKey a with id := lo } :=
      ⟨fun hgo => hlo (hstop lo hgo.symm), hn, ha.name, fun hv => hlo (hr lo hv)⟩
    have hsync : Node.isSync { targetKey a with id := lo } = false := by
      simpa [Node.isSync, targetKey] using ha.sync
    rw [← hs] at hf
    have := ReadsFlow.app hfresh hsync hf
    rwa [ha.app] at this

/-- A fork is read with all of its branches, up to the node where they join. -/
theorem ShowsElement.reads_split {label : Option Label} {bs : List Sequence} {start stop : Nat}
    {lo hi next : Nat} {r : Reading} (hacyclic : ∀ a, ¬ TransGen g.Leads a a)
    (hw : Wide (nodesOf [.split ⟨label, bs, start, stop⟩]))
    (h : ShowsElement g P (.split ⟨label, bs, start, stop⟩) lo hi next)
    (hr : ∀ x ∈ r.visited, Outside lo hi x)
    (hb : ∃ r', (r.visit lo).After (headsIn entry (nodesOfBranches bs)) (lo + 1) hi r' ∧
      ReadsBranches g (Joins g) (r.visit lo) (g.successors lo) (some next)
        (sequencesWithoutPositions bs) r') :
    ∃ r', r.After (headsIn entry (nodesOf [.split ⟨label, bs, start, stop⟩])) lo hi r' ∧
      ReadsOn g r [.split ⟨label, bs, start, stop⟩] lo hi next r' := by
  obtain ⟨r', hafter, hb⟩ := hb
  obtain ⟨hlen, hwb⟩ := hw.split
  obtain ⟨hn, -, hbs⟩ := h
  have hle : lo + 1 ≤ hi := hbs.le
  refine ⟨r', ⟨?_, ?_⟩, ?_⟩
  · intro x hx
    rcases hafter.visited x hx with hx | hx
    · rcases List.mem_cons.mp hx with rfl | hx
      · exact .inr ⟨Nat.le_refl _, hle⟩
      · exact .inl hx
    · exact .inr (by omega)
  · rw [nodesOf_split, nodesOf_nil, List.append_nil, headsIn, List.filterMap_cons_none rfl]
    exact hafter.heads
  · intro stop fs r'' hstop hf
    have hlo : ¬ Outside lo hi lo := by
      unfold Outside
      omega
    have hfresh : Fresh g r stop lo ⟨lo, syncName, label.map Label.name, []⟩ :=
      ⟨fun hgo => hlo (hstop lo hgo.symm), hn, show syncName ≠ endName by decide,
        fun hv => hlo (hr lo hv)⟩
    have hsucc : 1 < (g.successors lo).length := by
      match bs, hlen with
      | b :: c :: bs, _ =>
        obtain ⟨mid, rest, hentries, -, -, mid', rest', rfl, -⟩ := hbs
        simp [hentries]
    have hjoin : Joins g (g.successors lo) (some next) := hbs.join hacyclic hlen hwb
    have hread := ReadsFlow.fork hfresh (show (syncName == syncName) = true by decide) hsucc hjoin hb hf
    have hlabel : Node.toLabel ⟨lo, syncName, label.map Label.name, []⟩ =
        label.map Label.withoutPosition := by
      cases label <;> rfl
    rw [hlabel] at hread
    exact hread

mutual

theorem ShowsElements.reads (hacyclic : ∀ a, ¬ TransGen g.Leads a a) :
    (es : List Element) → {lo hi next : Nat} → {r : Reading} → es ≠ [] →
    Wide (nodesOf es) → ShowsElements g (ReadsNode g entry) es lo hi next → Outside lo hi next →
      (∀ x ∈ r.visited, Outside lo hi x) →
        ∃ r', r.After (headsIn entry (nodesOf es)) lo hi r' ∧ ReadsOn g r es lo hi next r'
  | [], _, _, _, _, hne, _, _, _, _ => absurd rfl hne
  | [e], _, _, _, _, _, hw, ⟨_, he, hmid⟩, hn, hr => by
    obtain rfl := hmid
    exact ShowsElement.reads hacyclic e hw he hn hr
  | e :: f :: es, lo, hi, next, r, _, hw, ⟨mid, he, hes⟩, hn, hr => by
    have hlt : lo < mid := he.lt
    have hle : mid ≤ hi := hes.le
    have hn' : Outside mid hi next := hn.imp_left fun h => Nat.lt_trans h hlt
    have hr' : ∀ x ∈ r.visited, Outside lo mid x := fun x hx =>
      (hr x hx).imp_right fun h => Nat.le_trans hle h
    obtain ⟨r₁, ha, hread⟩ := ShowsElement.reads hacyclic e hw.cons.1 he (.inr (Nat.le_refl _)) hr'
    obtain ⟨r₂, ha', hread'⟩ := ShowsElements.reads hacyclic (f :: es) (by simp) hw.cons.2 hes hn'
      (ha.outside (Nat.le_of_lt hlt) hr)
    refine ⟨r₂, ?_, ?_⟩
    · rw [nodesOf_cons, headsIn_append]
      exact ha.trans ha' (Nat.le_of_lt hlt) hle
    · intro stop fs r'' hstop hf
      exact hread stop _ r'' (fun x hx => (hstop x hx).imp_right fun h => Nat.le_trans hle h)
        (hread' stop fs r'' (fun x hx => (hstop x hx).imp_left fun h => Nat.lt_trans h hlt) hf)

theorem ShowsElement.reads (hacyclic : ∀ a, ¬ TransGen g.Leads a a) :
    (e : Element) → {lo hi next : Nat} → {r : Reading} →
    Wide (nodesOf [e]) → ShowsElement g (ReadsNode g entry) e lo hi next → Outside lo hi next →
      (∀ x ∈ r.visited, Outside lo hi x) →
        ∃ r', r.After (headsIn entry (nodesOf [e])) lo hi r' ∧ ReadsOn g r [e] lo hi next r'
  | .app _, _, _, _, _, _, h, _, hr => h.reads_app hr
  | .split ⟨label, bs, start, stop⟩, lo, hi, next, r, hw, h, hn, hr => by
    refine h.reads_split hacyclic hw hr (ShowsBranches.reads hacyclic bs hw.split.2 h.2.2 ?_ ?_)
    · exact hn.imp_left fun h => Nat.lt_succ_of_lt h
    · intro x hx
      rcases List.mem_cons.mp hx with rfl | hx
      · exact .inl (Nat.lt_succ_self _)
      · exact (hr x hx).imp_left fun h => Nat.lt_succ_of_lt h

theorem ShowsBranches.reads (hacyclic : ∀ a, ¬ TransGen g.Leads a a) :
    (bs : List Sequence) → {entries : List Nat} → {lo hi next : Nat} →
    {r : Reading} → Wide (nodesOfBranches bs) →
      ShowsBranches g (ReadsNode g entry) bs entries lo hi next → Outside lo hi next →
        (∀ x ∈ r.visited, Outside lo hi x) →
          ∃ r', r.After (headsIn entry (nodesOfBranches bs)) lo hi r' ∧
            ReadsBranches g (Joins g) r entries (some next) (sequencesWithoutPositions bs) r'
  | [], _, _, _, _, r, _, ⟨hnil, _⟩, _, _ => by
    subst hnil
    exact ⟨r, ⟨fun x hx => .inl hx, rfl⟩, .nil⟩
  | ⟨es, start, stop⟩ :: bs, _, lo, hi, next, r, hw, ⟨mid, rest, hentries, _, ⟨hne, hb⟩, hbs⟩, hn,
      hr => by
    subst hentries
    have hlt : lo < mid := ShowsSequence.lt (s := ⟨es, start, stop⟩) ⟨hne, hb⟩
    have hle : mid ≤ hi := hbs.le
    obtain ⟨r₁, ha, hread⟩ := ShowsElements.reads hacyclic es hne hw.branches.1 hb
      (hn.imp_right fun h => Nat.le_trans hle h)
      fun x hx => (hr x hx).imp_right fun h => Nat.le_trans hle h
    obtain ⟨r₂, ha', hread'⟩ := ShowsBranches.reads hacyclic bs hw.branches.2 hbs
      (hn.imp_left fun h => Nat.lt_trans h hlt) (ha.outside (Nat.le_of_lt hlt) hr)
    refine ⟨r₂, ?_, ?_⟩
    · rw [nodesOfBranches_cons, nodes_sequence, headsIn_append, headsIn, List.filterMap_cons_none rfl]
      exact ha.trans ha' (Nat.le_of_lt hlt) hle
    · have hfirst := hread (some next) [] r₁ (fun x hx => by
        obtain rfl := Option.some.inj hx
        exact hn.imp_right fun h => Nat.le_trans hle h) (.halt (.inl rfl))
      rw [List.append_nil] at hfirst
      exact .cons hfirst hread'

end

end Pipework.Graph
