import Pipework.Proofs.Parser.Repetition
import Pipework.Proofs.Token.Misreading
import Pipework.Proofs.Token.Touching

/-! The extents of what is read from tokens. What is read from some tokens extends from the start of the
first to the end of the last, and its parts are read from tokens among them, one part behind the
other; so extents nest because the tokens of a text are in order. -/

namespace Pipework.Token

open Text Pipework.Parser

theorem startOf_append {vs : List Sight} (h : vs ≠ []) (ws : List Sight) :
    startOf (vs ++ ws) = startOf vs := by
  rw [startOf, List.head?_append_of_ne_nil vs h, startOf]

/-- Where something stands in a text, and where its parts stand. -/
structure Extent where
  start : Nat
  stop : Nat
  parts : List Extent

/-- An extent is not empty and lies between characters; its parts lie within it, each behind the one
before, and nest themselves. -/
inductive Extent.Nests (cs : List Char) : Extent → Prop
  | mk {e : Extent} (hlt : e.start < e.stop) (hstart : IsBoundary cs e.start)
      (hstop : IsBoundary cs e.stop) (hwithin : ∀ f ∈ e.parts, e.start ≤ f.start ∧ f.stop ≤ e.stop)
      (hordered : e.parts.Pairwise fun f g => f.stop ≤ g.start)
      (hparts : ∀ f ∈ e.parts, f.Nests cs) : e.Nests cs

/-! ## Tokens in a text -/

theorem InOrder.left {vs ws : List Sight} (h : InOrder (vs ++ ws)) : InOrder vs :=
  ⟨fun v hv => h.1 v (List.mem_append_left ws hv), (List.pairwise_append.mp h.2).1⟩

theorem InOrder.right {vs ws : List Sight} (h : InOrder (vs ++ ws)) : InOrder ws :=
  ⟨fun v hv => h.1 v (List.mem_append_right vs hv), (List.pairwise_append.mp h.2).2.1⟩

/-- The tokens are in order, and each stands on the characters it is said to stand on. -/
structure LieIn (cs : List Char) (vs : List Sight) : Prop where
  inOrder : InOrder vs
  stands : ∀ v ∈ vs, ∃ raw, slice? cs v.start v.stop = some raw ∧ v.kind.StandsOn raw

/-- The tokens of a text lie in it. -/
theorem lieIn_of_tokenize {text : String} {ts : List Token} (h : tokenize text = .ok ts) :
    LieIn text.toList (sightsOf none ts.dropLast) where
  inOrder := inOrder_of_tokenize h
  stands v hv := by
    obtain ⟨us, ws, hts⟩ := List.append_of_mem hv
    have hrow : sightsOf none ts.dropLast = us ++ [v] ++ ws := by simpa using hts
    obtain ⟨raw, hslice, hstands⟩ := slice_touching h hrow (by simp)
    refine ⟨raw, hslice, ?_⟩
    cases hstands with
    | cons hstands hnil =>
      cases hnil
      simpa using hstands

namespace LieIn

variable {cs : List Char} {v : Sight} {vs ws : List Sight}

theorem left (h : LieIn cs (vs ++ ws)) : LieIn cs vs where
  inOrder := h.inOrder.left
  stands v hv := h.stands v (List.mem_append_left ws hv)

theorem right (h : LieIn cs (vs ++ ws)) : LieIn cs ws where
  inOrder := h.inOrder.right
  stands v hv := h.stands v (List.mem_append_right vs hv)

theorem head (h : LieIn cs (v :: vs)) : LieIn cs [v] := @left cs [v] vs h

theorem tail (h : LieIn cs (v :: vs)) : LieIn cs vs := @right cs [v] vs h

theorem isBoundary (h : LieIn cs vs) (hv : v ∈ vs) :
    IsBoundary cs v.start ∧ IsBoundary cs v.stop := by
  have hlt := h.inOrder.1 v hv
  obtain ⟨raw, hslice, -⟩ := h.stands v hv
  obtain ⟨before, after, rfl, hbefore, hlength⟩ := slice?_eq_some hslice
  refine ⟨⟨before, raw ++ after, rfl, hbefore⟩, before ++ raw, after, by simp, ?_⟩
  rw [byteLength_append]
  omega

/-- What holds of each item on tokens that lie in the text holds of items in a row. -/
theorem forall_item {α : Type} {Item : List Sight → α → Prop} {P : α → Prop} {as : List α}
    (hvs : LieIn cs vs) (h : Many Item vs as) (hi : ∀ {vs a}, LieIn cs vs → Item vs a → P a) :
    ∀ a ∈ as, P a := by
  induction h with
  | nil => simp
  | cons ha _ ih => exact List.forall_mem_cons.mpr ⟨hi hvs.left ha, ih hvs.right⟩

end LieIn

/-! ## Extents on tokens -/

/-- What is read from the tokens, in a row, has these extents. -/
inductive Lays : List Sight → List Extent → Prop
  | tokens (vs : List Sight) : Lays vs []
  | append {vs ws : List Sight} {es fs : List Extent} (hes : Lays vs es) (hfs : Lays ws fs) :
      Lays (vs ++ ws) (es ++ fs)
  | node {vs : List Sight} {es : List Extent} (hne : vs ≠ []) (hes : Lays vs es) :
      Lays vs [⟨startOf vs, stopOf vs, es⟩]

namespace Lays

variable {cs : List Char} {vs ws : List Sight} {es fs : List Extent}

theorem behind (hes : Lays vs es) (ws : List Sight) : Lays (ws ++ vs) es :=
  (Lays.tokens ws).append hes

theorem before (hes : Lays vs es) (ws : List Sight) : Lays (vs ++ ws) es := by
  simpa using hes.append (.tokens ws)

theorem many {α : Type} {Item : List Sight → α → Prop} {extents : α → List Extent} {as : List α}
    (h : Many Item vs as) (hi : ∀ {vs a}, Item vs a → Lays vs (extents a)) :
    Lays vs (as.flatMap extents) := by
  induction h with
  | nil => exact .tokens []
  | cons ha _ ih => exact (hi ha).append ih

theorem many_map {α : Type} {Item : List Sight → α → Prop} {extent : α → Extent} {as : List α}
    (h : Many Item vs as) (hi : ∀ {vs a}, Item vs a → Lays vs [extent a]) :
    Lays vs (as.map extent) := by
  rw [List.map_eq_flatMap]
  exact many h hi

/-! ## What is laid on tokens in order -/

/-- An extent starts where a token starts and stops where one stops. -/
theorem exists_tokens (h : Lays vs es) :
    ∀ e ∈ es, (∃ v ∈ vs, e.start = v.start) ∧ ∃ v ∈ vs, e.stop = v.stop := by
  induction h with
  | tokens => simp
  | append _ _ ihes ihfs =>
    refine List.forall_mem_append.mpr ⟨fun e he => ?_, fun e he => ?_⟩
    · obtain ⟨⟨v, hv, hstart⟩, w, hw, hstop⟩ := ihes e he
      exact ⟨⟨v, List.mem_append_left _ hv, hstart⟩, w, List.mem_append_left _ hw, hstop⟩
    · obtain ⟨⟨v, hv, hstart⟩, w, hw, hstop⟩ := ihfs e he
      exact ⟨⟨v, List.mem_append_right _ hv, hstart⟩, w, List.mem_append_right _ hw, hstop⟩
  | node hne _ _ =>
    rw [List.forall_mem_singleton]
    exact ⟨exists_startOf hne, exists_stopOf hne⟩

theorem ordered (h : Lays vs es) (hvs : InOrder vs) :
    es.Pairwise fun e f => e.stop ≤ f.start := by
  induction h with
  | tokens => exact .nil
  | @append vs ws es fs hes hfs ihes ihfs =>
    obtain ⟨-, -, hbetween⟩ := List.pairwise_append.mp hvs.2
    refine List.pairwise_append.mpr ⟨ihes hvs.left, ihfs hvs.right, fun e he f hf => ?_⟩
    obtain ⟨-, v, hv, hstop⟩ := hes.exists_tokens e he
    obtain ⟨⟨w, hw, hstart⟩, -⟩ := hfs.exists_tokens f hf
    rw [hstop, hstart]
    exact hbetween v hv w hw
  | node => exact List.pairwise_singleton _ _

theorem nests (h : Lays vs es) (hvs : LieIn cs vs) : ∀ e ∈ es, e.Nests cs := by
  induction h with
  | tokens => simp
  | append _ _ ihes ihfs => exact List.forall_mem_append.mpr ⟨ihes hvs.left, ihfs hvs.right⟩
  | @node vs es hne hes ih =>
    rw [List.forall_mem_singleton]
    obtain ⟨first, hfirst, hstart⟩ := exists_startOf hne
    obtain ⟨last, hlast, hstop⟩ := exists_stopOf hne
    refine .mk ?_ (hstart ▸ (hvs.isBoundary hfirst).1) (hstop ▸ (hvs.isBoundary hlast).2)
      (fun e he => ?_) (hes.ordered hvs.inOrder) (ih hvs)
    · have hlt := hvs.inOrder.1 first hfirst
      have hle := (hvs.inOrder.between hfirst).2
      show startOf vs < stopOf vs
      omega
    · obtain ⟨⟨v, hv, hstart⟩, w, hw, hstop⟩ := hes.exists_tokens e he
      exact ⟨hstart ▸ (hvs.inOrder.between hv).1, hstop ▸ (hvs.inOrder.between hw).2⟩

end Lays

end Pipework.Token
