import Pipework.Proofs.Task.Validity
import Pipework.Proofs.Token.Extent

/-! Where the parts of a task stand. A node starts at a label, a bracket or a name and ends with the last
of what belongs to it, and the elements of a group belong to the sequence around it; in every case it
extends over the tokens that derive it. -/

namespace Pipework

open Token Pipework.Parser

/-! ## Labels and arguments -/

def Label.extent (l : Label) : Extent := ⟨l.start, l.stop, []⟩

def Argument.extent (a : Argument) : Extent := ⟨a.start, a.stop, []⟩

theorem Argument.Derives.lays {vs : List Sight} {a : Argument} (h : a.Derives vs) :
    Lays vs [a.extent] := by
  obtain ⟨v, ws, rfl, -⟩ := h.exists_dashes
  rw [Argument.extent, h.start, h.stop]
  exact .node (List.cons_ne_nil _ _) (.tokens _)

namespace Task

/-! ## Extents -/

mutual

def App.extent : App → Extent
  | ⟨label, _, arguments, transitions, start, stop⟩ =>
    ⟨start, stop, label.toList.map Label.extent ++ arguments.map Argument.extent ++
      transitionExtents transitions⟩

def Transition.extent : Transition → Extent
  | ⟨_, target, start, stop⟩ => ⟨start, stop, target.extents⟩

def Target.extents : Target → List Extent
  | .label _ => []
  | .app a => [a.extent]

def transitionExtents : List Transition → List Extent
  | [] => []
  | t :: ts => t.extent :: transitionExtents ts

end

mutual

def Sequence.extent : Sequence → Extent
  | ⟨elements, start, stop⟩ => ⟨start, stop, elementExtents elements⟩

def Element.extent : Element → Extent
  | .app a => a.extent
  | .split ⟨label, branches, start, stop⟩ =>
    ⟨start, stop, label.toList.map Label.extent ++ branchExtents branches⟩

def elementExtents : List Element → List Extent
  | [] => []
  | e :: es => e.extent :: elementExtents es

def branchExtents : List Sequence → List Extent
  | [] => []
  | b :: bs => b.extent :: branchExtents bs

end

@[simp] theorem Sequence.extent_start (s : Sequence) : s.extent.start = s.start := by cases s; rfl

@[simp] theorem Sequence.extent_stop (s : Sequence) : s.extent.stop = s.stop := by cases s; rfl

theorem transitionExtents_eq_map (ts : List Transition) :
    transitionExtents ts = ts.map Transition.extent := by
  induction ts with
  | nil => rfl
  | cons t ts ih => rw [transitionExtents, ih, List.map_cons]

theorem elementExtents_eq_map (es : List Element) : elementExtents es = es.map Element.extent := by
  induction es with
  | nil => rfl
  | cons e es ih => rw [elementExtents, ih, List.map_cons]

theorem branchExtents_eq_map (bs : List Sequence) : branchExtents bs = bs.map Sequence.extent := by
  induction bs with
  | nil => rfl
  | cons b bs ih => rw [branchExtents, ih, List.map_cons]

/-! ## What is derived from tokens is laid on them -/

variable {appMode : Bool} {vs : List Sight}

theorem DerivesLabel.lays {label : Option Label} (h : DerivesLabel vs label) :
    Lays vs (label.toList.map Label.extent) := by
  cases h with
  | none => exact .tokens []
  | some => exact .node (List.cons_ne_nil _ _) (.tokens _)

theorem DerivesPlain.ne_nil {a : App} (h : DerivesPlain appMode vs a) : vs ≠ [] := by
  cases h
  simp

theorem DerivesPlain.lays_parts {a : App} (h : DerivesPlain appMode vs a) :
    Lays vs (a.label.toList.map Label.extent ++ a.arguments.map Argument.extent) := by
  obtain @⟨name, us, ws, label, arguments, hlabel, -, harguments, -⟩ := h
  have hparts : Lays ws (arguments.map Argument.extent) :=
    .many_map harguments Argument.Derives.lays
  exact hlabel.lays.append (hparts.behind [name])

theorem DerivesPlain.lays {a : App} (h : DerivesPlain appMode vs a) : Lays vs [a.extent] := by
  have hparts := h.lays_parts
  have hne := h.ne_nil
  cases h
  simpa [App.extent, transitionExtents] using Lays.node hne hparts

theorem DerivesTarget.lays {t : Target} (h : DerivesTarget appMode vs t) : Lays vs t.extents := by
  cases h with
  | label => exact .tokens _
  | app ha => exact ha.lays

theorem DerivesTransition.lays {t : Transition} (h : DerivesTransition appMode vs t) :
    Lays vs [t.extent] := by
  obtain ⟨-, -, ht⟩ := h
  exact .node (List.cons_ne_nil _ _) (ht.lays.behind [_, _])

theorem DerivesApp.lays {a : App} (h : DerivesApp appMode vs a) : Lays vs [a.extent] := by
  obtain @⟨us, ws, a, transitions, ha, hts⟩ := h
  have htransitions : Lays ws (transitions.map Transition.extent) :=
    .many_map hts DerivesTransition.lays
  have hnode := Lays.node (List.append_ne_nil_of_left_ne_nil ha.ne_nil ws)
    (ha.lays_parts.append htransitions)
  rw [startOf_append ha.ne_nil] at hnode
  cases ha
  simpa [App.extent, transitionExtents_eq_map] using hnode

/-- A sequence extends over the tokens, and its elements are laid on them. -/
structure Sequence.Covers (s : Sequence) (vs : List Sight) : Prop where
  ne_nil : vs ≠ []
  start : s.start = startOf vs
  stop : s.stop = stopOf vs
  elements : Lays vs (elementExtents s.elements)

theorem Sequence.Covers.lays {s : Sequence} (h : s.Covers vs) : Lays vs [s.extent] := by
  obtain ⟨elements, start, stop⟩ := s
  obtain ⟨hne, rfl, rfl, helements⟩ := h
  exact .node hne helements

section

variable {Inner : List Sight → Sequence → Prop} (hinner : ∀ {vs s}, Inner vs s → s.Covers vs)
include hinner

theorem DerivesElements.lays {es : List Element} (h : DerivesElements appMode Inner vs es) :
    Lays vs (elementExtents es) := by
  cases h with
  | group _ hs _ => exact ((hinner hs).elements.behind [_]).before [_]
  | @split lt gt us vs ws label first rest hlabel _ hfirst hrest _ =>
    have hbranch : ∀ {vs s}, Behind .doublePipe Inner vs s → Lays vs [s.extent] := fun h => by
      obtain ⟨-, hs⟩ := h
      exact (hinner hs).lays.behind [_]
    have hbranches := ((hinner hfirst).lays.append
      ((Lays.many_map hrest hbranch).before [gt])).behind [lt]
    have hnode := Lays.node (by simp) (hlabel.lays.append hbranches)
    have hstop : stopOf (us ++ ([lt] ++ (vs ++ (ws ++ [gt])))) = gt.stop := by
      simp only [← List.append_assoc]
      exact stopOf_append _ (List.cons_ne_nil _ _)
    rw [hstop] at hnode
    simpa [elementExtents, Element.extent, branchExtents, branchExtents_eq_map] using hnode
  | app ha => exact ha.lays

theorem behind_lays {es : List Element}
    (h : Behind .andAnd (DerivesElements appMode Inner) vs es) : Lays vs (es.map Element.extent) := by
  obtain ⟨-, hes⟩ := h
  rw [← elementExtents_eq_map]
  exact (hes.lays hinner).behind [_]

end

theorem DerivesSequence.covers {levels : Nat} {s : Sequence}
    (h : DerivesSequence appMode levels vs s) : s.Covers vs := by
  have hne := h.ne_nil
  induction levels generalizing vs s with
  | zero => cases h
  | succ levels ih =>
    have ih' : ∀ {vs s}, DerivesSequence appMode levels vs s → s.Covers vs :=
      fun h => ih h h.ne_nil
    obtain ⟨us, ws, first, rest, rfl, hfirst, hrest, rfl⟩ := h
    refine ⟨hne, rfl, rfl, ?_⟩
    have helements := (hfirst.lays ih').append (Lays.many hrest (behind_lays ih'))
    simpa [elementExtents_eq_map, List.map_flatten, List.flatMap] using helements

theorem DerivesNext.lays {levels : Nat} {s : Sequence} (h : DerivesNext appMode levels vs s) :
    Lays vs [s.extent] := by
  cases h with
  | semicolon _ hs => exact hs.covers.lays.behind [_]
  | line _ hs => exact hs.covers.lays

theorem Derives.lays {levels : Nat} {ss : List Sequence} (h : Derives appMode levels vs ss) :
    Lays vs (ss.map Sequence.extent) := by
  obtain ⟨hs, hss, -⟩ := h
  exact hs.covers.lays.append ((Lays.many_map hss DerivesNext.lays).before _)

/-- The sequences of a task that is read, and all that is in them, nest in its text. -/
theorem nests_of_parseWith {options : Options} {text : String} {t : Task}
    (h : parseWith options text = .ok t) :
    (∀ s ∈ t.sequences, s.extent.Nests text.toList) ∧
      t.sequences.Pairwise fun r s => r.stop ≤ s.start := by
  have hunchecked := parseUnchecked_of_parseWith h
  obtain ⟨ts, -, hts, -⟩ := parseUnchecked_eq_ok.mp hunchecked
  obtain ⟨-, -, -, hs⟩ := (parseUnchecked_iff_derives hts).mp hunchecked
  have hlie := lieIn_of_tokenize hts
  have hordered := List.pairwise_map.mp (hs.lays.ordered hlie.inOrder)
  exact ⟨List.forall_mem_map.mp (hs.lays.nests hlie), by simpa using hordered⟩

end Task

end Pipework
