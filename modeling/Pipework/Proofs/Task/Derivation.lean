import Pipework.Proofs.Task.Grammar

/-! The grammar of tasks over tokens with positions. What it derives is what is written, with every
node spanning its tokens; and what the parser of tasks reads is derived. -/

namespace Pipework.Task

open Token Pipework.Parser Read

/-! ## The grammar -/

inductive DerivesLabel : List Sight → Option Label → Prop
  | none : DerivesLabel [] none
  | some {name colon : Sight} : name.kind.isName = true → colon.kind = .colon → colon.glued = true →
      DerivesLabel [name, colon] (some ⟨name.kind.symbol, name.start, colon.stop⟩)

/-- An app without transitions. -/
inductive DerivesPlain (appMode : Bool) : List Sight → App → Prop
  | mk {name : Sight} {us ws : List Sight} {label : Option Label} {arguments : List Argument} :
      DerivesLabel us label → name.kind.isName = true → Many Argument.Derives ws arguments →
      (arguments ≠ [] → appMode = true) →
      DerivesPlain appMode (us ++ name :: ws) ⟨label, name.kind.symbol, arguments, [],
        startOf (us ++ name :: ws), stopOf (us ++ name :: ws)⟩

inductive DerivesTarget (appMode : Bool) : List Sight → Target → Prop
  | label {colon name : Sight} : colon.kind = .colon → name.kind.isName = true →
      DerivesTarget appMode [colon, name] (.label name.kind.symbol)
  | app {vs : List Sight} {a : App} : DerivesPlain appMode vs a → DerivesTarget appMode vs (.app a)

inductive DerivesTransition (appMode : Bool) : List Sight → Transition → Prop
  | mk {sign arrow : Sight} {vs : List Sight} {condition : Condition} {target : Target} :
      conditionOf? sign.kind = some condition → arrow.kind = .arrow →
      DerivesTarget appMode vs target →
      DerivesTransition appMode (sign :: arrow :: vs)
        ⟨condition, target, sign.start, stopOf (sign :: arrow :: vs)⟩

inductive DerivesApp (appMode : Bool) : List Sight → App → Prop
  | mk {us ws : List Sight} {a : App} {transitions : List Transition} : DerivesPlain appMode us a →
      Many (DerivesTransition appMode) ws transitions →
      DerivesApp appMode (us ++ ws) { a with transitions, stop := stopOf (us ++ ws) }

/-- An element, or the elements of a group; `Inner` derives a sequence one level further down. -/
inductive DerivesElements (appMode : Bool) (Inner : List Sight → Sequence → Prop) :
    List Sight → List Element → Prop
  | group {lparen rparen : Sight} {vs : List Sight} {s : Sequence} : lparen.kind = .lparen →
      Inner vs s → rparen.kind = .rparen →
      DerivesElements appMode Inner (lparen :: vs ++ [rparen]) s.elements
  | split {lt gt : Sight} {us vs ws : List Sight} {label : Option Label} {first : Sequence}
      {rest : List Sequence} : DerivesLabel us label → lt.kind = .lt → Inner vs first →
      Many (Behind .doublePipe Inner) ws rest → gt.kind = .gt →
      DerivesElements appMode Inner (us ++ lt :: (vs ++ (ws ++ [gt])))
        [.split ⟨label, first :: rest, startOf (us ++ lt :: (vs ++ (ws ++ [gt]))), gt.stop⟩]
  | app {vs : List Sight} {a : App} : DerivesApp appMode vs a →
      DerivesElements appMode Inner vs [.app a]

/-- A sequence within which `levels - 1` groups and splits can be open at once, each within the one
before. -/
def DerivesSequence (appMode : Bool) : Nat → List Sight → Sequence → Prop
  | 0, _, _ => False
  | levels + 1, vs, s => ∃ us ws first rest, vs = us ++ ws ∧
      DerivesElements appMode (DerivesSequence appMode levels) us first ∧
      Many (Behind .andAnd (DerivesElements appMode (DerivesSequence appMode levels))) ws rest ∧
      s = ⟨first ++ rest.flatten, startOf vs, stopOf vs⟩

/-- A sequence after a semicolon or on a new line. -/
inductive DerivesNext (appMode : Bool) (levels : Nat) : List Sight → Sequence → Prop
  | semicolon {v : Sight} {vs : List Sight} {s : Sequence} : v.kind = .semicolon →
      DerivesSequence appMode levels vs s → DerivesNext appMode levels (v :: vs) s
  | line {v : Sight} {vs : List Sight} {s : Sequence} : v.breaks = true →
      DerivesSequence appMode levels (v :: vs) s → DerivesNext appMode levels (v :: vs) s

/-- The sequences of a task, the last of which a semicolon can end. -/
inductive Derives (appMode : Bool) (levels : Nat) : List Sight → List Sequence → Prop
  | mk {us ws zs : List Sight} {s : Sequence} {ss : List Sequence} :
      DerivesSequence appMode levels us s → Many (DerivesNext appMode levels) ws ss →
      (zs = [] ∨ ∃ v, zs = [v] ∧ v.kind = .semicolon) →
      Derives appMode levels (us ++ (ws ++ zs)) (s :: ss)

variable {appMode : Bool} {vs : List Sight}

/-! ## What is derived is written -/

theorem DerivesLabel.spells {label : Option Label} (h : DerivesLabel vs label) :
    SpellsLabel (vs.map Sight.toView) (label.map Label.withoutPosition) := by
  cases h with
  | none => exact .none
  | some hn hk hg => exact .some hn hk hg

theorem DerivesPlain.spells {a : App} (h : DerivesPlain appMode vs a) :
    SpellsPlain appMode (vs.map Sight.toView) a.withoutPositions := by
  obtain ⟨hl, hn, has, hm⟩ := h
  rw [List.map_append]
  exact .mk hl.spells hn (Argument.many_spells has) (by simpa using hm)

theorem DerivesTarget.spells {t : Target} (h : DerivesTarget appMode vs t) :
    SpellsTarget appMode (vs.map Sight.toView) t.withoutPositions := by
  cases h with
  | label hk hn => exact .label hk hn
  | app ha => exact .app ha.spells

theorem DerivesTransition.spells {t : Transition} (h : DerivesTransition appMode vs t) :
    SpellsTransition appMode (vs.map Sight.toView) t.withoutPositions := by
  obtain ⟨hs, hk, ht⟩ := h
  exact .mk hs hk ht.spells

theorem DerivesApp.spells {a : App} (h : DerivesApp appMode vs a) :
    SpellsApp appMode (vs.map Sight.toView) a.withoutPositions := by
  obtain @⟨_, _, a, ts, ha, hts⟩ := h
  obtain ⟨label, name, arguments, transitions, start, stop⟩ := a
  rw [List.map_append, App.withoutPositions, transitionsWithoutPositions_eq_map]
  exact .mk ha.spells (hts.map fun ht => ht.spells)

section

variable {Inner : List Sight → Sequence → Prop} {Inner' : List View → Sequence → Prop}

theorem DerivesElements.spells {es : List Element} (h : DerivesElements appMode Inner vs es)
    (hinner : ∀ {vs s}, Inner vs s → Inner' (vs.map Sight.toView) s.withoutPositions) :
    SpellsElements appMode Inner' (vs.map Sight.toView) (elementsWithoutPositions es) := by
  cases h with
  | @group lparen rparen vs s hk hs hk' =>
    obtain ⟨elements, start, stop⟩ := s
    rw [List.map_append]
    exact .group hk (hinner hs) hk'
  | @split lt gt us vs ws label first rest hl hk hf hm hk' =>
    have hrest : Many (After .doublePipe Inner') (ws.map Sight.toView)
        (rest.map Sequence.withoutPositions) := hm.map fun h => h.after hinner
    rw [← sequencesWithoutPositions_eq_map] at hrest
    simp only [List.map_append, List.map_cons]
    exact .split hl.spells hk (hinner hf) hrest hk'
  | app ha => exact .app ha.spells

end

theorem DerivesSequence.spells {levels : Nat} {s : Sequence}
    (h : DerivesSequence appMode levels vs s) :
    SpellsSequence appMode levels (vs.map Sight.toView) s.withoutPositions := by
  induction levels generalizing vs s with
  | zero => cases h
  | succ levels ih =>
    obtain ⟨us, ws, first, rest, rfl, hf, hm, rfl⟩ := h
    refine ⟨_, _, elementsWithoutPositions first, rest.map elementsWithoutPositions,
      List.map_append, hf.spells ih, hm.map fun h => h.after fun he => he.spells ih, ?_⟩
    rw [Sequence.withoutPositions, elementsWithoutPositions_append_flatten]

theorem DerivesNext.spells {s : Sequence} (h : DerivesNext appMode maxDepth vs s) :
    SpellsNext appMode (vs.map Sight.toView) s.withoutPositions := by
  cases h with
  | semicolon hk hs => exact .semicolon hk hs.spells
  | line hb hs => exact .line hb hs.spells

theorem Derives.spells {ss : List Sequence} (h : Derives appMode maxDepth vs ss) :
    Spells appMode (vs.map Sight.toView) (ss.map Sequence.withoutPositions) := by
  obtain ⟨hs, hm, hz⟩ := h
  simp only [List.map_append]
  refine .mk hs.spells (hm.map fun h => h.spells) ?_
  obtain rfl | ⟨v, rfl, hk⟩ := hz
  · exact .inl rfl
  · exact .inr ⟨_, rfl, hk⟩

/-! ## What is written is derived -/

theorem SpellsLabel.exists_derives {label : Option Label} (h : SpellsLabel (vs.map Sight.toView) label) :
    ∃ l, DerivesLabel vs l ∧ l.map Label.withoutPosition = label := by
  generalize hus : vs.map Sight.toView = us at h
  cases h with
  | none =>
    obtain rfl := List.map_eq_nil_iff.mp hus
    exact ⟨Option.none, .none, rfl⟩
  | some hn hk hg =>
    simp only [List.map_eq_cons_iff, List.map_eq_nil_iff] at hus
    obtain ⟨name, _, rfl, rfl, colon, _, rfl, rfl, rfl⟩ := hus
    exact ⟨_, .some hn hk hg, rfl⟩

theorem SpellsPlain.exists_derives {a : App} (h : SpellsPlain appMode (vs.map Sight.toView) a) :
    ∃ b, DerivesPlain appMode vs b ∧ b.withoutPositions = a := by
  generalize hus : vs.map Sight.toView = us at h
  obtain ⟨hl, hn, has, hm⟩ := h
  simp only [List.map_eq_append_iff, List.map_eq_cons_iff] at hus
  obtain ⟨us, _, rfl, rfl, name, ws, rfl, rfl, rfl⟩ := hus
  obtain ⟨l, hl', rfl⟩ := hl.exists_derives
  obtain ⟨as, has', rfl⟩ := has.exists_map fun ha => ha.exists_derives
  exact ⟨_, .mk hl' hn has' (by simpa using hm), rfl⟩

theorem SpellsTarget.exists_derives {t : Target} (h : SpellsTarget appMode (vs.map Sight.toView) t) :
    ∃ u, DerivesTarget appMode vs u ∧ u.withoutPositions = t := by
  generalize hus : vs.map Sight.toView = us at h
  cases h with
  | label hk hn =>
    simp only [List.map_eq_cons_iff, List.map_eq_nil_iff] at hus
    obtain ⟨colon, _, rfl, rfl, name, _, rfl, rfl, rfl⟩ := hus
    exact ⟨_, .label hk hn, rfl⟩
  | app ha =>
    subst hus
    obtain ⟨b, hb, rfl⟩ := ha.exists_derives
    exact ⟨.app b, .app hb, rfl⟩

theorem SpellsTransition.exists_derives {t : Transition}
    (h : SpellsTransition appMode (vs.map Sight.toView) t) :
    ∃ u, DerivesTransition appMode vs u ∧ u.withoutPositions = t := by
  generalize hus : vs.map Sight.toView = us at h
  obtain ⟨hs, hk, ht⟩ := h
  simp only [List.map_eq_cons_iff] at hus
  obtain ⟨sign, _, rfl, rfl, arrow, ws, rfl, rfl, rfl⟩ := hus
  obtain ⟨u, hu, rfl⟩ := ht.exists_derives
  exact ⟨_, .mk hs hk hu, rfl⟩

theorem SpellsApp.exists_derives {a : App} (h : SpellsApp appMode (vs.map Sight.toView) a) :
    ∃ b, DerivesApp appMode vs b ∧ b.withoutPositions = a := by
  generalize hus : vs.map Sight.toView = us at h
  obtain ⟨ha, hts⟩ := h
  obtain ⟨us, ws, rfl, rfl, rfl⟩ := List.map_eq_append_iff.mp hus
  obtain ⟨b, hb, rfl⟩ := ha.exists_derives
  obtain ⟨ts, hts', rfl⟩ := hts.exists_map fun ht => ht.exists_derives
  refine ⟨_, .mk hb hts', ?_⟩
  cases b
  rw [App.withoutPositions, transitionsWithoutPositions_eq_map, App.withoutPositions]

theorem SpellsElements.exists_derives {Inner : List Sight → Sequence → Prop}
    {Inner' : List View → Sequence → Prop} {es : List Element}
    (h : SpellsElements appMode Inner' (vs.map Sight.toView) es)
    (hinner : ∀ {vs s}, Inner' (vs.map Sight.toView) s → ∃ t, Inner vs t ∧ t.withoutPositions = s) :
    ∃ fs, DerivesElements appMode Inner vs fs ∧ elementsWithoutPositions fs = es := by
  generalize hus : vs.map Sight.toView = us at h
  cases h with
  | group hk hs hk' =>
    simp only [List.map_eq_append_iff, List.map_eq_cons_iff, List.map_eq_nil_iff] at hus
    obtain ⟨_, _, rfl, ⟨lparen, vs, rfl, rfl, rfl⟩, rparen, _, rfl, rfl, rfl⟩ := hus
    obtain ⟨t, ht, rfl⟩ := hinner hs
    refine ⟨_, .group hk ht hk', ?_⟩
    cases t
    rfl
  | split hl hk hf hm hk' =>
    simp only [List.map_eq_append_iff, List.map_eq_cons_iff, List.map_eq_nil_iff] at hus
    obtain ⟨us, _, rfl, rfl, lt, _, rfl, rfl, vs, _, rfl, rfl, ws, _, rfl, rfl, gt, _, rfl, rfl, rfl⟩ := hus
    obtain ⟨l, hl', rfl⟩ := hl.exists_derives
    obtain ⟨first, hf', rfl⟩ := hinner hf
    obtain ⟨rest, hm', rfl⟩ := hm.exists_map fun h => Behind.of_after h hinner
    refine ⟨_, .split hl' hk hf' hm' hk', ?_⟩
    simp [elementsWithoutPositions, Element.withoutPositions, Split.withoutPositions,
      sequencesWithoutPositions_eq_map]
  | app ha =>
    subst hus
    obtain ⟨b, hb, rfl⟩ := ha.exists_derives
    exact ⟨_, .app hb, rfl⟩

theorem SpellsSequence.exists_derives {levels : Nat} {s : Sequence}
    (h : SpellsSequence appMode levels (vs.map Sight.toView) s) :
    ∃ t, DerivesSequence appMode levels vs t ∧ t.withoutPositions = s := by
  induction levels generalizing vs s with
  | zero => cases h
  | succ levels ih =>
    obtain ⟨_, _, _, _, hus, hf, hm, rfl⟩ := h
    obtain ⟨us, ws, rfl, rfl, rfl⟩ := List.map_eq_append_iff.mp hus
    obtain ⟨first, hf', rfl⟩ := hf.exists_derives ih
    obtain ⟨rest, hm', rfl⟩ := hm.exists_map fun h => Behind.of_after h fun he => he.exists_derives ih
    refine ⟨_, ⟨us, ws, first, rest, rfl, hf', hm', rfl⟩, ?_⟩
    rw [Sequence.withoutPositions, elementsWithoutPositions_append_flatten]

theorem SpellsNext.exists_derives {s : Sequence} (h : SpellsNext appMode (vs.map Sight.toView) s) :
    ∃ t, DerivesNext appMode maxDepth vs t ∧ t.withoutPositions = s := by
  generalize hus : vs.map Sight.toView = us at h
  cases h with
  | semicolon hk hs =>
    obtain ⟨v, vs, rfl, rfl, rfl⟩ := List.map_eq_cons_iff.mp hus
    obtain ⟨t, ht, rfl⟩ := hs.exists_derives
    exact ⟨t, .semicolon hk ht, rfl⟩
  | line hb hs =>
    obtain ⟨v, vs, rfl, rfl, rfl⟩ := List.map_eq_cons_iff.mp hus
    obtain ⟨t, ht, rfl⟩ := @SpellsSequence.exists_derives _ (v :: vs) _ _ hs
    exact ⟨t, .line hb ht, rfl⟩

theorem Spells.exists_derives {ss : List Sequence} (h : Spells appMode (vs.map Sight.toView) ss) :
    ∃ ts, Derives appMode maxDepth vs ts ∧ ts.map Sequence.withoutPositions = ss := by
  generalize hus : vs.map Sight.toView = us at h
  obtain ⟨hs, hm, hz⟩ := h
  simp only [List.map_eq_append_iff] at hus
  obtain ⟨us, _, rfl, rfl, ws, zs, rfl, rfl, rfl⟩ := hus
  obtain ⟨t, ht, rfl⟩ := hs.exists_derives
  obtain ⟨ts, hts, rfl⟩ := hm.exists_map fun h => h.exists_derives
  refine ⟨t :: ts, .mk ht hts ?_, rfl⟩
  obtain hz | ⟨v, hz, hk⟩ := hz
  · exact .inl (List.map_eq_nil_iff.mp hz)
  · simp only [List.map_eq_cons_iff, List.map_eq_nil_iff] at hz
    obtain ⟨w, _, rfl, rfl, rfl⟩ := hz
    exact .inr ⟨w, rfl, hk⟩

/-! ## What is read is derived -/

variable {c d e : Cursor}

theorem derivesLabel_of_reads {l : Option Label} (h : Reads label? c l d) :
    ∃ vs, c.Passes vs d ∧ DerivesLabel vs l := by
  obtain ⟨-, rfl, rfl⟩ | ⟨hn, hk, ha, rfl, rfl⟩ := reads_label?.mp h
  · exact ⟨[], .refl _, .none⟩
  · have hne := Kind.ne_eof_of_isName hn
    have hk := Cursor.peek_next hne hk
    exact ⟨[c.sight, c.next.2.sight], (Cursor.Passes.next hne).trans (.next (by simp [hk])),
      .some hn hk (Cursor.glued_of_adjacent ha)⟩

/-- Where a labelled node starts. -/
theorem DerivesLabel.start {us : List Sight} {l : Option Label} (h : DerivesLabel us l) (v : Sight)
    (ws : List Sight) : (l.map Label.start).getD v.start = startOf (us ++ v :: ws) := by
  cases h <;> rfl

theorem derives_of_arguments {as : List Argument} (h : Reads (arguments appMode) c as d) :
    ∃ vs, c.Passes vs d ∧ Many Argument.Derives vs as ∧ (as ≠ [] → appMode = true) := by
  obtain ⟨-, rfl, rfl⟩ | ⟨-, hm, h⟩ := reads_arguments.mp h
  · exact ⟨[], .refl _, .nil, by simp⟩
  · obtain ⟨vs, hv, has⟩ := Argument.many_derives_of_reads h
    exact ⟨vs, hv, has, fun _ => hm⟩

theorem derivesPlain_of_reads {label : Option Label} {us : List Sight} {a : App}
    (hc : c.Passes us e) (hl : DerivesLabel us label) (h : Reads (plainApp appMode label) e a d) :
    ∃ vs, c.Passes vs d ∧ DerivesPlain appMode vs a := by
  obtain ⟨hn, as, has, rfl⟩ := reads_plainApp.mp h
  obtain ⟨ws, hw, has, hm⟩ := derives_of_arguments has
  have hp : c.Passes (us ++ e.sight :: ws) d :=
    hc.trans ((Cursor.Passes.next (Kind.ne_eof_of_isName hn)).trans hw)
  refine ⟨_, hp, ?_⟩
  have hstart : (label.map Label.start).getD e.peek.start = startOf (us ++ e.sight :: ws) :=
    hl.start e.sight ws
  rw [hstart, hp.previousStop (by simp)]
  exact .mk hl hn has hm

theorem derivesTarget_of_reads {t : Target} (h : Reads (target appMode) c t d) :
    ∃ vs, c.Passes vs d ∧ DerivesTarget appMode vs t := by
  obtain ⟨hk, hn, rfl, rfl⟩ | ⟨-, label, e, a, hl, ha, rfl⟩ := reads_target.mp h
  · exact ⟨[c.sight, c.next.2.sight], (Cursor.Passes.next (by simp [hk])).trans
      (.next (Kind.ne_eof_of_isName hn)), .label hk hn⟩
  · obtain ⟨us, hu, hl⟩ := derivesLabel_of_reads hl
    obtain ⟨vs, hv, ha⟩ := derivesPlain_of_reads hu hl ha
    exact ⟨vs, hv, .app ha⟩

theorem derivesTransition_of_reads {x : Transition} (h : Reads (transition? appMode) c (some x) d) :
    ∃ vs, c.Passes vs d ∧ DerivesTransition appMode vs x := by
  obtain ⟨h, -⟩ | ⟨k, t, hk, ht, hx⟩ := reads_transition?.mp h
  · cases h
  · obtain rfl := Option.some.inj hx
    obtain ⟨hk, harrow, -⟩ := reads_condition?_some.mp hk
    have hne := ne_eof_of_conditionOf? hk
    have harrow := Cursor.peek_next hne harrow
    obtain ⟨vs, hv, ht⟩ := derivesTarget_of_reads ht
    have hp : c.Passes (c.sight :: c.next.2.sight :: vs) d :=
      (Cursor.Passes.next hne).trans ((Cursor.Passes.next (by simp [harrow])).trans hv)
    refine ⟨_, hp, ?_⟩
    rw [hp.previousStop (by simp)]
    exact .mk hk harrow ht

theorem derivesTransitions_of_reads {ts : List Transition}
    (h : Reads (many (transition? appMode)) c ts d) :
    ∃ vs, c.Passes vs d ∧ Many (DerivesTransition appMode) vs ts := by
  refine many_of_reads _ derivesTransition_of_reads (fun hn => ?_) h
  obtain ⟨-, h⟩ | ⟨_, _, -, -, h⟩ := reads_transition?.mp hn
  · exact (reads_condition?_none.mp h).2.2.2.2
  · cases h

theorem DerivesTransition.ne_nil {vs : List Sight} {t : Transition}
    (h : DerivesTransition appMode vs t) : vs ≠ [] := by
  cases h
  simp

/-- An app ends with the last of its transitions. -/
theorem stop_of_transitions {us ws : List Sight} {ts : List Transition}
    (h : Many (DerivesTransition appMode) ws ts) :
    (ts.getLast?.map Transition.stop).getD (stopOf us) = stopOf (us ++ ws) := by
  refine h.stop_eq fun ht => ⟨ht.ne_nil, ?_⟩
  cases ht
  rfl

theorem DerivesPlain.stop_eq {vs : List Sight} {a : App} (h : DerivesPlain appMode vs a) :
    a.stop = stopOf vs := by
  cases h
  rfl

theorem derivesApp_of_reads {label : Option Label} {us : List Sight} {a : App}
    (hc : c.Passes us e) (hl : DerivesLabel us label) (h : Reads (app appMode label) e a d) :
    ∃ vs, c.Passes vs d ∧ DerivesApp appMode vs a := by
  obtain ⟨b, f, ts, hb, hts, rfl⟩ := reads_app.mp h
  obtain ⟨vs, hv, hb⟩ := derivesPlain_of_reads hc hl hb
  obtain ⟨ws, hw, hts⟩ := derivesTransitions_of_reads hts
  refine ⟨vs ++ ws, hv.trans hw, ?_⟩
  rw [hb.stop_eq, stop_of_transitions hts]
  exact .mk hb hts

theorem derivesElementLabel_of_reads {l : Option Label} (h : Reads elementLabel c l d) :
    ∃ vs, c.Passes vs d ∧ DerivesLabel vs l := by
  obtain ⟨h', rfl⟩ | ⟨m, h', -, -, rfl⟩ := reads_elementLabel.mp h <;> exact derivesLabel_of_reads h'

/-! ### One level

`inner` reads what `Inner` derives. -/

section

variable {inner : Parser Sequence} {Inner : List Sight → Sequence → Prop}
  (hinner : ∀ {c s d}, Reads inner c s d → ∃ vs, c.Passes vs d ∧ Inner vs s)

include hinner

theorem derivesBranches_of_reads {ss : List Sequence} (h : Reads (many (branch? inner)) c ss d) :
    ∃ vs, c.Passes vs d ∧ Many (Behind .doublePipe Inner) vs ss := by
  refine many_of_reads _ (fun h => ?_) (fun h => ?_) h
  · obtain ⟨-, h, -⟩ | ⟨hk, t, ht, hs⟩ := reads_branch?.mp h
    · cases h
    · obtain rfl := Option.some.inj hs
      obtain ⟨vs, hv, ht⟩ := hinner ht
      exact ⟨_, (Cursor.Passes.next (by simp [hk])).trans hv, .mk hk ht⟩
  · obtain ⟨-, -, rfl⟩ | ⟨-, _, -, h⟩ := reads_branch?.mp h
    · rfl
    · cases h

theorem derivesSplit_of_reads {label : Option Label} {us : List Sight} {s : Split}
    (hc : c.Passes us e) (hl : DerivesLabel us label) (h : Reads (split inner label) e s d) :
    ∃ vs, c.Passes vs d ∧ DerivesElements appMode Inner vs [.split s] := by
  obtain ⟨hk, first, f, rest, g, hf, hr, hg, rfl, rfl⟩ := reads_split.mp h
  obtain ⟨vs, hv, hf⟩ := hinner hf
  obtain ⟨ws, hw, hr⟩ := derivesBranches_of_reads hinner hr
  have hp : c.Passes (us ++ e.sight :: (vs ++ (ws ++ [g.sight]))) g.next.2 :=
    hc.trans ((Cursor.Passes.next (by simp [hk])).trans
      (hv.trans (hw.trans (.next (by simp [hg])))))
  have hstart : (label.map Label.start).getD e.peek.start =
      startOf (us ++ e.sight :: (vs ++ (ws ++ [g.sight]))) := hl.start e.sight _
  refine ⟨_, hp, ?_⟩
  rw [hstart]
  exact .split hl hk hf hr hg

theorem derivesElements_of_reads {es : List Element} (h : Reads (elements appMode inner) c es d) :
    ∃ vs, c.Passes vs d ∧ DerivesElements appMode Inner vs es := by
  obtain ⟨hk, s, e, hs, hk', rfl, rfl⟩ | ⟨-, label, e, hl, h⟩ := reads_elements.mp h
  · obtain ⟨vs, hv, hs⟩ := hinner hs
    exact ⟨_, ((Cursor.Passes.next (by simp [hk])).trans hv).trans (.next (by simp [hk'])),
      .group hk hs hk'⟩
  · obtain ⟨us, hu, hl⟩ := derivesElementLabel_of_reads hl
    obtain ⟨-, s, hs, rfl⟩ | ⟨-, a, ha, rfl⟩ := h
    · exact derivesSplit_of_reads hinner hu hl hs
    · obtain ⟨vs, hv, ha⟩ := derivesApp_of_reads hu hl ha
      exact ⟨vs, hv, .app ha⟩

theorem derivesJoined_of_reads {ess : List (List Element)}
    (h : Reads (many (joinedElements? appMode inner)) c ess d) :
    ∃ vs, c.Passes vs d ∧ Many (Behind .andAnd (DerivesElements appMode Inner)) vs ess := by
  refine many_of_reads _ (fun h => ?_) (fun h => ?_) h
  · obtain ⟨-, h, -⟩ | ⟨hk, t, ht, hs⟩ := reads_joinedElements?.mp h
    · cases h
    · obtain rfl := Option.some.inj hs
      obtain ⟨vs, hv, ht⟩ := derivesElements_of_reads hinner ht
      exact ⟨_, (Cursor.Passes.next (by simp [hk])).trans hv, .mk hk ht⟩
  · obtain ⟨-, -, rfl⟩ | ⟨-, _, -, h⟩ := reads_joinedElements?.mp h
    · rfl
    · cases h

end

/-! ### Sequences and tasks -/

theorem DerivesSequence.ne_nil {levels : Nat} {s : Sequence} (h : DerivesSequence appMode levels vs s) :
    vs ≠ [] := by
  rintro rfl
  exact h.spells.ne_nil rfl

theorem derivesSequence_of_reads {levels : Nat} {s : Sequence}
    (h : Reads (sequence appMode levels) c s d) :
    ∃ vs, c.Passes vs d ∧ DerivesSequence appMode levels vs s := by
  induction levels generalizing c s d with
  | zero => exact absurd h reads_refuseHere
  | succ levels ih =>
    obtain ⟨first, e, rest, hf, hr, rfl⟩ := reads_sequenceWith.mp h
    obtain ⟨us, hu, hf⟩ := derivesElements_of_reads ih hf
    obtain ⟨ws, hw, hr⟩ := derivesJoined_of_reads ih hr
    have hp : c.Passes (us ++ ws) d := hu.trans hw
    have hs : DerivesSequence appMode (levels + 1) (us ++ ws)
        ⟨first ++ rest.flatten, startOf (us ++ ws), stopOf (us ++ ws)⟩ :=
      ⟨us, ws, first, rest, rfl, hf, hr, rfl⟩
    refine ⟨us ++ ws, hp, ?_⟩
    rwa [hp.start hs.ne_nil, hp.previousStop hs.ne_nil]

theorem derivesTop_of_reads {s : Sequence} (h : Reads (topSequence appMode) c s d) :
    ∃ vs, c.Passes vs d ∧ DerivesSequence appMode maxDepth vs s := by
  obtain ⟨e, hs, rfl⟩ := reads_topSequence.mp h
  obtain ⟨vs, hv, hs⟩ := derivesSequence_of_reads hs
  exact ⟨vs, hv.checkpoint, hs⟩

theorem derivesNext_of_reads {s : Sequence} (h : Reads (nextSequence? appMode) c (some s) d) :
    ∃ vs, c.Passes vs d ∧ DerivesNext appMode maxDepth vs s := by
  obtain ⟨-, h⟩ | ⟨e, t, hs, ht, h⟩ := reads_nextSequence?.mp h
  · cases h
  · obtain rfl := Option.some.inj h
    obtain ⟨vs, hv, hvs⟩ := derivesTop_of_reads ht
    obtain ⟨-, h, -⟩ | ⟨hk, -, rfl⟩ | ⟨-, -, hb, -, rfl⟩ := reads_separator?.mp hs
    · cases h
    · exact ⟨_, (Cursor.Passes.next (by simp [hk])).trans hv, .semicolon hk hvs⟩
    · obtain ⟨v, vs, rfl⟩ := List.exists_cons_of_ne_nil hvs.ne_nil
      rw [Cursor.view_of_views hv.views] at hb
      exact ⟨v :: vs, hv, .line hb hvs⟩

theorem end_of_reads (h : Reads (nextSequence? appMode) c none d) :
    ∃ vs, c.Passes vs d ∧ (vs = [] ∨ ∃ v, vs = [v] ∧ v.kind = .semicolon) := by
  obtain ⟨h, -⟩ | ⟨_, _, -, -, h⟩ := reads_nextSequence?.mp h
  · obtain ⟨-, -, rfl⟩ | ⟨hk, -, rfl⟩ | ⟨-, -, -, h, -⟩ := reads_separator?.mp h
    · exact ⟨[], .refl _, .inl rfl⟩
    · exact ⟨[c.sight], .next (by simp [hk]), .inr ⟨_, rfl, hk⟩⟩
    · cases h
  · cases h

/-- A task is read as it is derived, up to the end of the text. -/
theorem derives_of_reads {name : Option String} {t : Task}
    (h : Reads (definition name appMode) c t d) :
    d.peek.kind = .eof ∧ ∃ vs, c.Passes vs d ∧ Derives appMode maxDepth vs t.sequences := by
  obtain ⟨-, first, e, rest, hf, hr, rfl⟩ := reads_definition.mp h
  constructor
  · obtain h | ⟨e, h⟩ := reads_many_end (fun {c s d} h => by
      obtain ⟨vs, hv, hs⟩ := derivesNext_of_reads h
      have hne : vs ≠ [] := by cases hs <;> simp
      have := List.length_pos_iff.mpr hne
      rw [hv.length]
      omega) hr
    · simp [Cursor.peek, h, endOf]
    · exact eof_of_reads h
  · obtain ⟨us, hu, hf⟩ := derivesTop_of_reads hf
    obtain ⟨ws, zs, hw, hm, hz⟩ := reads_many (DerivesNext appMode maxDepth)
      (fun vs => vs = [] ∨ ∃ v, vs = [v] ∧ v.kind = .semicolon) derivesNext_of_reads end_of_reads
      (.inl rfl) hr
    exact ⟨us ++ (ws ++ zs), hu.trans hw, .mk hf hm hz⟩

end Pipework.Task
