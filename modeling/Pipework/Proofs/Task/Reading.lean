import Pipework.Proofs.Parser.Refuses
import Pipework.Proofs.Task.Derivation
import Pipework.Proofs.Task.Following
import Pipework.Proofs.Token.Lexing

/-! What the grammar of tasks derives is read: where what follows does not go on with a node, its
parser stops where its tokens end. -/

namespace Pipework.Task

open Token Pipework.Parser Read

variable {c d : Cursor} {appMode : Bool}

theorem FollowsApp.ne_nil {rest : List Sight} (h : FollowsApp (rest.map Sight.toView)) : rest ≠ [] := by
  rintro rfl
  obtain ⟨v, us, h, -⟩ := h
  cases h

/-! ## Apps are read -/

theorem no_label_reads (h : opensLabel c.views = false) : Reads label? c none c := by
  refine reads_label?.mpr (.inl ⟨fun ⟨hn, hk⟩ => ?_, rfl, rfl⟩)
  have hne := Kind.ne_eof_of_isName hn
  have hk := Cursor.peek_next hne hk
  rw [Cursor.views_eq_cons hne, Cursor.views_eq_cons (by simp [hk])] at h
  have hn : c.view.kind.isName = true := hn
  have hk : c.next.2.view.kind = .colon := hk
  simp [opensLabel, hn, hk] at h

theorem DerivesLabel.reads {us rest : List Sight} {l : Option Label} (h : DerivesLabel us l)
    (hc : c.sights = us ++ rest) (hr : opensLabel (rest.map Sight.toView) = false) :
    ∃ e, Reads label? c l e ∧ c.Passes us e := by
  cases h with
  | none =>
    refine ⟨c, no_label_reads ?_, .refl c⟩
    rwa [Cursor.views_of_sights hc]
  | @some name colon hn hk hg =>
    have hp := Cursor.next_passes hc (Kind.ne_eof_of_isName hn)
    have h₁ := hp.left hc
    refine ⟨_, reads_label?.mpr (.inr ⟨?_, ?_, ?_, ?_, rfl⟩),
      hp.trans (Cursor.next_passes h₁ (by simp [hk]))⟩
    · rw [Cursor.isName_of_sights hc, hn]
    · exact (Cursor.second_kind_of_sights hc).trans (congrArg Option.some hk)
    · rw [Cursor.adjacent_of_sights h₁, hg]
    · rw [Cursor.text_of_sights hc, Cursor.start_of_sights hc, Cursor.stop_of_sights h₁]

theorem arguments_reads {vs rest : List Sight} {as : List Argument} (h : Many Argument.Derives vs as)
    (hm : as ≠ [] → appMode = true) (hc : c.sights = vs ++ rest)
    (hr : FollowsPlain (rest.map Sight.toView)) :
    ∃ d, Reads (arguments appMode) c as d ∧ c.Passes vs d := by
  obtain ⟨v, us, hv, hd, -⟩ := hr
  cases h with
  | nil =>
    refine ⟨c, reads_arguments.mpr (.inl ⟨?_, rfl, rfl⟩), .refl c⟩
    rwa [Cursor.peek_kind_of_views ((Cursor.views_of_sights hc).trans hv)]
  | cons ha has =>
    obtain ⟨d, hd, hp⟩ := Argument.many_derives_reads (.cons ha has) hc ⟨v, us, hv, hd⟩
    obtain ⟨w, ws, rfl, hk⟩ := ha.exists_dashes
    refine ⟨d, reads_arguments.mpr (.inr ⟨?_, hm (by simp), hd⟩), hp⟩
    rw [Cursor.peek_kind_of_sights hc, hk]

/-- The label of an app is read, and then its name, its arguments and its span. -/
theorem DerivesPlain.reads {vs rest : List Sight} {a : App} (h : DerivesPlain appMode vs a)
    (hc : c.sights = vs ++ rest) (hr : FollowsPlain (rest.map Sight.toView)) :
    ∃ l e d, Reads label? c l e ∧ opensLabel e.views = false ∧ e.peek.isName = true ∧
      Reads (plainApp appMode l) e a d ∧ c.Passes vs d := by
  obtain @⟨name, us, ws, label, as, hl, hn, has, hm⟩ := h
  rw [List.append_assoc, List.cons_append] at hc
  have ho : opensLabel ((name :: (ws ++ rest)).map Sight.toView) = false := by
    rw [List.map_cons, List.map_append]
    exact opensLabel_eq (Argument.many_spells has) hr
  obtain ⟨e, he, hp⟩ := hl.reads hc ho
  have hv := hp.left hc
  have hpn := Cursor.next_passes hv (Kind.ne_eof_of_isName hn)
  obtain ⟨d, hd, hpd⟩ := arguments_reads has hm (hpn.left hv) hr
  have hn' : e.peek.isName = true := by rw [Cursor.isName_of_sights hv, hn]
  have hall : c.Passes (us ++ name :: ws) d := hp.trans (hpn.trans hpd)
  refine ⟨label, e, d, he, by rwa [Cursor.views_of_sights hv], hn',
    reads_plainApp.mpr ⟨hn', as, hd, ?_⟩, hall⟩
  rw [Cursor.text_of_sights hv, Cursor.start_of_sights hv, hl.start name ws,
    hall.previousStop (by simp)]

theorem DerivesTarget.reads {vs rest : List Sight} {t : Target} (h : DerivesTarget appMode vs t)
    (hc : c.sights = vs ++ rest) (hr : FollowsPlain (rest.map Sight.toView)) :
    ∃ d, Reads (target appMode) c t d ∧ c.Passes vs d := by
  cases h with
  | label hk hn =>
    have hp := Cursor.next_passes hc (by simp [hk])
    have h₁ := hp.left hc
    refine ⟨_, reads_target.mpr (.inl ⟨?_, ?_, ?_, rfl⟩),
      hp.trans (Cursor.next_passes h₁ (Kind.ne_eof_of_isName hn))⟩
    · rw [Cursor.peek_kind_of_sights hc, hk]
    · rw [Cursor.isName_of_sights h₁, hn]
    · rw [Cursor.text_of_sights h₁]
  | app ha =>
    obtain ⟨l, e, d, he, -, -, hd, hp⟩ := ha.reads hc hr
    obtain ⟨v, ws, hv, hn⟩ := ha.spells.exists_name
    refine ⟨d, reads_target.mpr (.inr ⟨?_, l, e, _, he, hd, rfl⟩), hp⟩
    have hc' : c.views = v :: (ws ++ rest.map Sight.toView) := by
      rw [Cursor.views_of_sights hc, List.map_append, hv, List.cons_append]
    rw [Cursor.peek_kind_of_views hc']
    exact Kind.ne_of_isName hn rfl

theorem DerivesTransition.reads {vs rest : List Sight} {t : Transition}
    (h : DerivesTransition appMode vs t) (hc : c.sights = vs ++ rest)
    (hr : FollowsPlain (rest.map Sight.toView)) :
    ∃ d, Reads (transition? appMode) c (some t) d ∧ c.Passes vs d := by
  obtain @⟨sign, arrow, vs, condition, target, hs, hk, ht⟩ := h
  have hp := Cursor.next_passes hc (ne_eof_of_conditionOf? hs)
  have h₁ := hp.left hc
  have hp' := Cursor.next_passes h₁ (by simp [hk])
  obtain ⟨d, hd, hpd⟩ := ht.reads (hp'.left h₁) hr
  have hall := hp.trans (hp'.trans hpd)
  refine ⟨d, reads_transition?.mpr (.inr ⟨condition, target,
    reads_condition?_some.mpr ⟨?_, ?_, rfl⟩, hd, ?_⟩), hall⟩
  · rw [Cursor.peek_kind_of_sights hc, hs]
  · exact (Cursor.second_kind_of_sights hc).trans (congrArg some hk)
  · rw [Cursor.start_of_sights hc, hall.previousStop (by simp)]
    rfl

theorem no_transition_reads (hr : FollowsApp c.views) : Reads (transition? appMode) c none c := by
  obtain ⟨v, us, hc, hv, hn⟩ := hr
  refine reads_transition?.mpr (.inl ⟨rfl, reads_condition?_none.mpr ?_⟩)
  rw [Token.isName, Cursor.peek_kind_of_views hc, Cursor.second_kind_of_views hc]
  refine ⟨?_, ?_, ?_, hn, rfl⟩
  all_goals
    intros
    rintro h
    simp [h, goesOn] at hv

theorem repeats_transition? :
    Repeats (transition? appMode) (DerivesTransition appMode) FollowsPlain where
  reads hi hw hc := hi.reads hc hw
  ne_nil hi := hi.ne_nil
  follows hi ws _ := hi.spells.followsPlain ws

theorem transitions_reads {vs rest : List Sight} {ts : List Transition}
    (h : Many (DerivesTransition appMode) vs ts) (hc : c.sights = vs ++ rest)
    (hr : FollowsApp (rest.map Sight.toView)) :
    ∃ d, Reads (many (transition? appMode)) c ts d ∧ c.Passes vs d := by
  refine reads_many_of repeats_transition? hr.plain hr.ne_nil (fun hc => no_transition_reads ?_) h hc
  rwa [Cursor.views_of_sights hc]

theorem DerivesApp.reads {vs rest : List Sight} {a : App} (h : DerivesApp appMode vs a)
    (hc : c.sights = vs ++ rest) (hr : FollowsApp (rest.map Sight.toView)) :
    ∃ l e d, Reads label? c l e ∧ opensLabel e.views = false ∧ e.peek.isName = true ∧
      Reads (app appMode l) e a d ∧ c.Passes vs d := by
  obtain @⟨us, ws, a, ts, ha, hts⟩ := h
  rw [List.append_assoc] at hc
  have hf : FollowsPlain ((ws ++ rest).map Sight.toView) := by
    have hts' : Many (SpellsTransition appMode) (ws.map Sight.toView)
        (ts.map Transition.withoutPositions) := hts.map fun ht => ht.spells
    rw [List.map_append]
    exact hts'.follow (fun h us _ => h.followsPlain us) hr.plain
  obtain ⟨l, e, f, he, ho, hn, hb, hp⟩ := ha.reads hc hf
  obtain ⟨d, hd, hpd⟩ := transitions_reads hts (hp.left hc) hr
  refine ⟨l, e, d, he, ho, hn, reads_app.mpr ⟨a, f, ts, hb, hd, ?_⟩, hp.trans hpd⟩
  rw [ha.stop_eq, stop_of_transitions hts]

/-! ## Sequences are read -/

section

variable {inner : Parser Sequence} {Inner : List Sight → Sequence → Prop}
  (hinner : ∀ {c s vs rest}, Inner vs s → FollowsSequence (rest.map Sight.toView) →
    c.sights = vs ++ rest → ∃ d, Reads inner c s d ∧ c.Passes vs d)

include hinner

theorem repeats_branch? : Repeats (branch? inner) (Behind .doublePipe Inner) FollowsSequence where
  reads h hw hc := by
    obtain ⟨hk, hs⟩ := h
    have hp := Cursor.next_passes hc (by simp [hk])
    obtain ⟨d, hd, hpd⟩ := hinner hs hw (hp.left hc)
    refine ⟨d, reads_branch?.mpr (.inr ⟨?_, _, hd, rfl⟩), hp.trans hpd⟩
    rw [Cursor.peek_kind_of_sights hc, hk]
  ne_nil h := by
    cases h
    simp
  follows h _ _ := by
    obtain ⟨hk, -⟩ := h
    exact followsSequence_of_operator hk rfl rfl (by simp)

theorem branches_reads {vs rest : List Sight} {gt : Sight} {ss : List Sequence}
    (h : Many (Behind .doublePipe Inner) vs ss) (hgt : gt.kind = .gt)
    (hc : c.sights = vs ++ gt :: rest) : ∃ d, Reads (many (branch? inner)) c ss d ∧ c.Passes vs d := by
  have hfollow : FollowsSequence ((gt :: rest).map Sight.toView) :=
    followsSequence_of_operator hgt rfl rfl (by simp)
  refine reads_many_of (repeats_branch? hinner) hfollow (by simp)
    (fun hc => reads_branch?.mpr (.inl ⟨?_, rfl, rfl⟩)) h hc
  simp [Cursor.peek_kind_of_sights hc, hgt]

/-- The branches of a split follow its first one. -/
theorem split_reads {lt gt : Sight} {vs ws rest : List Sight} {first : Sequence}
    {ss : List Sequence} (label : Option Label) (hlt : lt.kind = .lt) (hf : Inner vs first)
    (hm : Many (Behind .doublePipe Inner) ws ss) (hgt : gt.kind = .gt)
    (hc : c.sights = lt :: (vs ++ (ws ++ (gt :: rest)))) :
    ∃ d, Reads (split inner label) c
        ⟨label, first :: ss, (label.map Label.start).getD lt.start, gt.stop⟩ d ∧
      c.Passes (lt :: (vs ++ (ws ++ [gt]))) d := by
  have hp := Cursor.next_passes hc (by simp [hlt])
  have hr : FollowsSequence ((ws ++ gt :: rest).map Sight.toView) := by
    cases hm with
    | nil => exact followsSequence_of_operator hgt rfl rfl (by simp)
    | cons hi _ =>
      obtain ⟨hk, -⟩ := hi
      exact followsSequence_of_operator hk rfl rfl (by simp)
  have h₁ := hp.left hc
  obtain ⟨e, he, hpe⟩ := hinner hf hr h₁
  have h₂ := hpe.left h₁
  obtain ⟨f, hf', hpf⟩ := branches_reads hinner hm hgt h₂
  have h₃ := hpf.left h₂
  have hlast := Cursor.next_passes h₃ (by simp [hgt])
  refine ⟨_, reads_split.mpr ⟨?_, first, e, ss, f, he, hf', ?_, rfl, ?_⟩,
    hp.trans (hpe.trans (hpf.trans hlast))⟩
  · rw [Cursor.peek_kind_of_sights hc, hlt]
  · rw [Cursor.peek_kind_of_sights h₃, hgt]
  · rw [Cursor.start_of_sights hc, Cursor.stop_of_sights h₃]

theorem group_reads {lparen rparen : Sight} {vs rest : List Sight} {s : Sequence}
    (hk : lparen.kind = .lparen) (hs : Inner vs s) (hk' : rparen.kind = .rparen)
    (hc : c.sights = lparen :: (vs ++ rparen :: rest)) :
    ∃ d, Reads (elements appMode inner) c s.elements d ∧ c.Passes (lparen :: (vs ++ [rparen])) d := by
  have hr : FollowsSequence ((rparen :: rest).map Sight.toView) :=
    followsSequence_of_operator hk' rfl rfl (by simp)
  have hp := Cursor.next_passes hc (by simp [hk])
  have h₁ := hp.left hc
  obtain ⟨e, he, hpe⟩ := hinner hs hr h₁
  have h₂ := hpe.left h₁
  refine ⟨_, reads_elements.mpr (.inl ⟨?_, s, e, he, ?_, rfl, rfl⟩),
    hp.trans (hpe.trans (Cursor.next_passes h₂ (by simp [hk'])))⟩
  · rw [Cursor.peek_kind_of_sights hc, hk]
  · rw [Cursor.peek_kind_of_sights h₂, hk']

theorem labelledSplit_reads {lt gt : Sight} {us vs ws rest : List Sight} {label : Option Label}
    {first : Sequence} {ss : List Sequence} (hl : DerivesLabel us label) (hlt : lt.kind = .lt)
    (hf : Inner vs first) (hm : Many (Behind .doublePipe Inner) ws ss) (hgt : gt.kind = .gt)
    (hc : c.sights = us ++ (lt :: (vs ++ (ws ++ (gt :: rest))))) :
    ∃ d, Reads (elements appMode inner) c
        [.split ⟨label, first :: ss, startOf (us ++ lt :: (vs ++ (ws ++ [gt]))), gt.stop⟩] d ∧
      c.Passes (us ++ lt :: (vs ++ (ws ++ [gt]))) d := by
  have hfirst : c.peek.kind ≠ .lparen := by
    cases hl with
    | none => simp [Cursor.peek_kind_of_sights hc, hlt]
    | some hn =>
      rw [Cursor.peek_kind_of_sights hc]
      exact Kind.ne_of_isName hn rfl
  have hopen : opensLabel ((lt :: (vs ++ (ws ++ (gt :: rest)))).map Sight.toView) = false := by
    rw [List.map_cons]
    cases (vs ++ (ws ++ (gt :: rest))).map Sight.toView <;> simp [opensLabel, hlt, Kind.isName]
  obtain ⟨e, he, hpe⟩ := hl.reads hc hopen
  have hv := hpe.left hc
  obtain ⟨d, hd, hpd⟩ := split_reads hinner label hlt hf hm hgt hv
  rw [hl.start lt (vs ++ (ws ++ [gt]))] at hd
  -- The parser of elements looks for a second label; the split's `<` is not the start of one.
  have hlabel : Reads elementLabel c label e := by
    refine reads_elementLabel.mpr ?_
    cases label with
    | none => exact .inl ⟨he, rfl⟩
    | some l =>
      refine .inr ⟨l, he, no_label_reads (by rwa [Cursor.views_of_sights hv]), ?_, rfl⟩
      simp [Cursor.peek_kind_of_sights hv, hlt]
  refine ⟨d, reads_elements.mpr (.inr ⟨hfirst, label, e, hlabel, .inl ⟨?_, _, hd, rfl⟩⟩),
    hpe.trans hpd⟩
  rw [Cursor.peek_kind_of_sights hv, hlt]

omit hinner in
theorem appElement_reads {vs rest : List Sight} {a : App} (ha : DerivesApp appMode vs a)
    (hc : c.sights = vs ++ rest) (hr : FollowsApp (rest.map Sight.toView)) :
    ∃ d, Reads (elements appMode inner) c [.app a] d ∧ c.Passes vs d := by
  obtain ⟨l, e, d, he, ho, hn, hd, hp⟩ := ha.reads hc hr
  obtain ⟨v, us, hv, hname⟩ := ha.spells.exists_name
  have hc' : c.views = v :: (us ++ rest.map Sight.toView) := by
    rw [Cursor.views_of_sights hc, List.map_append, hv, List.cons_append]
  have hlabel : Reads elementLabel c l e := by
    refine reads_elementLabel.mpr ?_
    cases l with
    | none => exact .inl ⟨he, rfl⟩
    | some l => exact .inr ⟨l, he, no_label_reads ho, Kind.ne_of_isName hn rfl, rfl⟩
  refine ⟨d, reads_elements.mpr (.inr ⟨?_, l, e, hlabel,
    .inr ⟨Kind.ne_of_isName hn rfl, _, hd, rfl⟩⟩), hp⟩
  rw [Cursor.peek_kind_of_views hc']
  exact Kind.ne_of_isName hname rfl

theorem DerivesElements.reads {vs rest : List Sight} {es : List Element}
    (h : DerivesElements appMode Inner vs es) (hc : c.sights = vs ++ rest)
    (hr : FollowsApp (rest.map Sight.toView)) :
    ∃ d, Reads (elements appMode inner) c es d ∧ c.Passes vs d := by
  cases h with
  | group hk hs hk' => exact group_reads hinner hk hs hk' (by simpa using hc)
  | split hl hlt hf hm hgt => exact labelledSplit_reads hinner hl hlt hf hm hgt (by simpa using hc)
  | app ha => exact appElement_reads ha hc hr

theorem repeats_joinedElements? : Repeats (joinedElements? appMode inner)
    (Behind .andAnd (DerivesElements appMode Inner)) FollowsApp where
  reads h hw hc := by
    obtain ⟨hk, hs⟩ := h
    have hp := Cursor.next_passes hc (by simp [hk])
    obtain ⟨d, hd, hpd⟩ := hs.reads hinner (hp.left hc) hw
    refine ⟨d, reads_joinedElements?.mpr (.inr ⟨?_, _, hd, rfl⟩), hp.trans hpd⟩
    rw [Cursor.peek_kind_of_sights hc, hk]
  ne_nil h := by
    cases h
    simp
  follows h _ _ := by
    obtain ⟨hk, -⟩ := h
    exact followsApp_of_operator hk rfl rfl

theorem joinedElements_reads {vs rest : List Sight} {ess : List (List Element)}
    (h : Many (Behind .andAnd (DerivesElements appMode Inner)) vs ess) (hc : c.sights = vs ++ rest)
    (hr : FollowsSequence (rest.map Sight.toView)) :
    ∃ d, Reads (many (joinedElements? appMode inner)) c ess d ∧ c.Passes vs d := by
  obtain ⟨hr, ha⟩ := hr
  have hne := hr.ne_nil
  refine reads_many_of (repeats_joinedElements? hinner) hr hne (fun hc => ?_) h hc
  obtain ⟨v, us, rfl⟩ := List.exists_cons_of_ne_nil hne
  refine reads_joinedElements?.mpr (.inl ⟨?_, rfl, rfl⟩)
  rw [Cursor.peek_kind_of_sights hc]
  simpa using ha

end

/-- A derived sequence is read, to where what follows does not go on with it. -/
theorem DerivesSequence.reads {levels : Nat} {vs rest : List Sight} {s : Sequence}
    (h : DerivesSequence appMode levels vs s) (hr : FollowsSequence (rest.map Sight.toView))
    (hc : c.sights = vs ++ rest) : ∃ d, Reads (sequence appMode levels) c s d ∧ c.Passes vs d := by
  have hne := h.ne_nil
  induction levels generalizing c vs rest s with
  | zero => cases h
  | succ levels ih =>
    -- The sequences within brackets are one level further down, for the grammar and the parser.
    have ih' : ∀ {c s vs rest}, DerivesSequence appMode levels vs s →
        FollowsSequence (rest.map Sight.toView) → c.sights = vs ++ rest →
        ∃ d, Reads (sequence appMode levels) c s d ∧ c.Passes vs d :=
      fun h hr hc => ih h hr hc h.ne_nil
    obtain ⟨us, ws, first, ess, rfl, hf, hm, rfl⟩ := h
    rw [List.append_assoc] at hc
    have hfollow : FollowsApp ((ws ++ rest).map Sight.toView) := by
      have hm' : Many (After .andAnd (SpellsElements appMode (SpellsSequence appMode levels)))
          (ws.map Sight.toView) (ess.map elementsWithoutPositions) :=
        hm.map fun h => h.after fun he => he.spells DerivesSequence.spells
      rw [List.map_append]
      exact hm'.follow (fun h ws _ => followsApp_of_after h ws) hr.1
    obtain ⟨e, he, hp⟩ := hf.reads ih' hc hfollow
    obtain ⟨d, hd, hpd⟩ := joinedElements_reads ih' hm (hp.left hc) hr
    have hall : c.Passes (us ++ ws) d := hp.trans hpd
    refine ⟨d, reads_sequenceWith.mpr ⟨first, e, ess, he, hd, ?_⟩, hall⟩
    rw [hall.start hne, hall.previousStop hne]

/-! ## Tasks are read -/

theorem topSequence_reads {vs rest : List Sight} {s : Sequence}
    (h : DerivesSequence appMode maxDepth vs s) (hr : FollowsSequence (rest.map Sight.toView))
    (hc : c.sights = vs ++ rest) : ∃ d, Reads (topSequence appMode) c s d ∧ c.Passes vs d := by
  obtain ⟨d, hd, hp⟩ := h.reads hr hc
  exact ⟨d.checkpoint, reads_topSequence.mpr ⟨d, hd, rfl⟩, hp.checkpoint⟩

theorem DerivesNext.reads {vs rest : List Sight} {s : Sequence} (h : DerivesNext appMode maxDepth vs s)
    (hc : c.sights = vs ++ rest) (hr : FollowsSequence (rest.map Sight.toView)) :
    ∃ d, Reads (nextSequence? appMode) c (some s) d ∧ c.Passes vs d := by
  cases h with
  | @semicolon v vs s hk hs =>
    have hp := Cursor.next_passes hc (by simp [hk])
    have h₁ := hp.left hc
    obtain ⟨d, hd, hpd⟩ := topSequence_reads hs hr h₁
    obtain ⟨w, ws, rfl⟩ := List.exists_cons_of_ne_nil hs.ne_nil
    refine ⟨d, reads_nextSequence?.mpr (.inr ⟨_, s, reads_separator?.mpr (.inr (.inl ⟨?_, ?_, rfl⟩)),
      hd, rfl⟩), hp.trans hpd⟩
    · rw [Cursor.peek_kind_of_sights hc, hk]
    · rw [Cursor.peek_kind_of_sights h₁]
      simp [SpellsSequence.head_ne hs.spells]
  | @line v vs s hb hs =>
    obtain ⟨d, hd, hp⟩ := topSequence_reads hs hr hc
    obtain ⟨he, hsemi⟩ := SpellsSequence.head_ne hs.spells
    have hview := Cursor.view_of_views (Cursor.views_of_sights hc)
    rw [← Cursor.peek_kind_of_sights hc] at he hsemi
    exact ⟨d, reads_nextSequence?.mpr (.inr ⟨c, s,
      reads_separator?.mpr (.inr (.inr ⟨he, hsemi, by rw [hview]; exact hb, rfl, rfl⟩)), hd, rfl⟩), hp⟩

theorem repeats_nextSequence? :
    Repeats (nextSequence? appMode) (DerivesNext appMode maxDepth) FollowsSequence where
  reads h hw hc := h.reads hc hw
  ne_nil h := by cases h <;> simp
  follows h _ hw := h.spells.followsSequence hw.1

/-- Where only a semicolon is left, if that, no sequence follows. -/
theorem no_sequence_reads {zs : List Sight} {v : Sight} (hv : v.kind = .eof)
    (hz : zs = [] ∨ ∃ w, zs = [w] ∧ w.kind = .semicolon) (hc : c.sights = zs ++ [v]) :
    ∃ d, Reads (nextSequence? appMode) c none d ∧ c.Passes zs d := by
  obtain rfl | ⟨w, rfl, hw⟩ := hz
  · refine ⟨c, reads_nextSequence?.mpr (.inl ⟨reads_separator?.mpr (.inl ⟨?_, rfl, rfl⟩), rfl⟩), .refl c⟩
    rw [Cursor.peek_kind_of_sights hc, hv]
  · have hp := Cursor.next_passes hc (by simp [hw])
    refine ⟨_, reads_nextSequence?.mpr (.inl ⟨reads_separator?.mpr (.inr (.inl ⟨?_, ?_, rfl⟩)), rfl⟩), hp⟩
    · rw [Cursor.peek_kind_of_sights hc, hw]
    · simp [Cursor.peek_kind_of_sights (hp.left hc), hv]

/-- A derived task is read to its last sequence, if the text ends there. -/
theorem Derives.reads {vs : List Sight} {v : Sight} {ss : List Sequence} (h : Derives appMode maxDepth vs ss)
    (hv : v.kind = .eof) {name : Option String} (hn : ∀ n ∈ name, Text.isLegalName n = true)
    (hc : c.sights = vs ++ [v]) : ∃ d, c.Passes vs d ∧
      Reads (definition name appMode) c { name, text := d.expression, sequences := ss } d := by
  obtain @⟨us, ws, zs, s, ss, hs, hm, hz⟩ := h
  have hend : FollowsSequence ((zs ++ [v]).map Sight.toView) := by
    rw [List.map_append]
    refine followsSequence_end hv ?_
    obtain rfl | ⟨w, rfl, hw⟩ := hz
    · exact .inl rfl
    · exact .inr ⟨_, rfl, hw⟩
  have hnext := repeats_nextSequence?.follow hm hend
  rw [List.append_assoc, List.append_assoc] at hc
  obtain ⟨e, he, hp⟩ := topSequence_reads hs hnext hc
  obtain ⟨d, hd, hpd⟩ := many_reads repeats_nextSequence? hend (by simp) zs
    (fun hc => no_sequence_reads hv hz hc) hm (hp.left hc)
  exact ⟨d, hp.trans hpd, reads_definition.mpr ⟨hn, s, e, ss, he, hd, rfl⟩⟩

/-! ## Whole texts -/

variable {name : Option String} {text : String} {t : Task}

theorem parseUnchecked_eq_ok : parseUnchecked name appMode text = .ok t ↔
    ∃ ts d, tokenize text = .ok ts ∧ Reads (definition name appMode) (.ofTokens text ts) t d := by
  unfold parseUnchecked Reads
  cases tokenize text with
  | error e => simp [bind, Except.bind]
  | ok ts =>
    cases hd : definition name appMode (.ofTokens text ts) with
    | error e => simp [hd, bind, Except.bind, StateT.run]
    | ok p =>
      obtain ⟨u, d⟩ := p
      simp [hd, bind, Except.bind, StateT.run, pure, Except.pure]

theorem parseUnchecked_eq_error {f : Fault} : parseUnchecked name appMode text = .error f ↔
    tokenize text = .error f ∨
      ∃ ts, tokenize text = .ok ts ∧ Refuses (definition name appMode) (.ofTokens text ts) f := by
  unfold parseUnchecked Refuses
  cases tokenize text with
  | error e => simp [bind, Except.bind]
  | ok ts =>
    cases hd : definition name appMode (.ofTokens text ts) <;>
      simp [hd, bind, Except.bind, StateT.run, pure, Except.pure]

/-- The sequences of a task are those that its tokens before `eof` derive. -/
theorem parseUnchecked_iff_derives {ts : List Token} (hts : tokenize text = .ok ts) :
    parseUnchecked name appMode text = .ok t ↔ (∀ n ∈ name, Text.isLegalName n = true) ∧
      t.name = name ∧ t.text = text ∧ Derives appMode maxDepth (sightsOf none ts.dropLast) t.sequences := by
  obtain ⟨v, hc, hv, hne⟩ := sights_ofTokens hts
  rw [parseUnchecked_eq_ok]
  constructor
  · rintro ⟨_, d, hts', hd⟩
    obtain rfl := Except.ok.inj (hts.symm.trans hts')
    obtain ⟨hk, vs, hp, hs⟩ := derives_of_reads hd
    obtain ⟨hlegal, first, e, rest, -, -, rfl⟩ := reads_definition.mp hd
    have hvs : ∀ w ∈ vs, w.kind ≠ .eof := fun w hw => hs.spells.ne_eof _ (List.mem_map_of_mem hw)
    obtain rfl := hp.eq_of_eof hc hne hv hvs hk
    exact ⟨hlegal, rfl, hp.expression, hs⟩
  · rintro ⟨hlegal, hname, htext, hs⟩
    obtain ⟨d, hp, hd⟩ := hs.reads hv hlegal hc
    refine ⟨ts, d, hts, ?_⟩
    obtain ⟨n, x, ss⟩ := t
    obtain rfl : n = name := hname
    obtain rfl : x = d.expression := htext.trans hp.expression.symm
    exact hd

/-- A task that is read is spelled by the views of its text. -/
theorem spells_of_parseUnchecked (h : parseUnchecked name appMode text = .ok t) :
    ∃ (ws us : List View) (v : View), LexesAll false text.toList ws ∧ unglued ws = us ++ [v] ∧
      v.kind = .eof ∧ Spells appMode us (t.sequences.map Sequence.withoutPositions) ∧
      t.name = name ∧ ∀ n ∈ name, Text.isLegalName n = true := by
  obtain ⟨ts, d, hts, -⟩ := parseUnchecked_eq_ok.mp h
  obtain ⟨hlegal, hname, -, hs⟩ := (parseUnchecked_iff_derives hts).mp h
  obtain ⟨ws, hws, hu⟩ := lexesAll_of_tokenize hts
  obtain ⟨us, v, hus, hv, -⟩ := hws.unglued_eof
  exact ⟨ws, us, v, hws, hus, hv, sightsOf_dropLast_views hts hu hus ▸ hs.spells, hname, hlegal⟩

theorem parseUnchecked_of_spells {ws us : List View} {v : View} {ss : List Sequence}
    (hl : LexesAll false text.toList ws) (hu : unglued ws = us ++ [v]) (hs : Spells appMode us ss)
    (hn : ∀ n ∈ name, Text.isLegalName n = true) :
    ∃ t, parseUnchecked name appMode text = .ok t ∧ t.name = name ∧
      t.sequences.map Sequence.withoutPositions = ss := by
  obtain ⟨ts, hts, hws⟩ := tokenize_of_lexesAll hl
  rw [← sightsOf_dropLast_views hts hws hu] at hs
  obtain ⟨ss, hss, rfl⟩ := hs.exists_derives
  exact ⟨⟨name, text, ss⟩, (parseUnchecked_iff_derives hts).mpr ⟨hn, rfl, rfl, hss⟩, rfl, rfl⟩

end Pipework.Task
