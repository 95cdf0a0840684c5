import Pipework.Proofs.Task.Grammar

/-! What can follow a node of a task. Where an app, a sequence or a task ends depends on the next two
tokens at most. -/

namespace Pipework.Task

open Token Pipework.Parser Read

/-- A name and a colon, which make a label. -/
def opensLabel : List View → Bool
  | v :: w :: _ => v.kind.isName && w.kind == .colon
  | _ => false

/-- The next token goes on neither with the name of an app nor with its arguments. -/
def FollowsPlain (ws : List View) : Prop :=
  ∃ v us, ws = v :: us ∧ v.kind ≠ .doubleMinus ∧ v.kind ≠ .colon

/-- The kinds of the tokens that go on with an app, whatever follows. -/
def goesOn : Kind → Bool
  | .doubleMinus | .colon | .arrow | .star | .literal _ => true
  | _ => false

/-- The views from here on do not go on with an app; a name before an arrow would be a condition. -/
def FollowsApp (ws : List View) : Prop :=
  ∃ v us, ws = v :: us ∧ goesOn v.kind = false ∧
    (v.kind.isName = true → us.head?.map View.kind ≠ some .arrow)

/-- The views from here on do not go on with a sequence. -/
def FollowsSequence (ws : List View) : Prop := FollowsApp ws ∧ ws.head?.map View.kind ≠ some .andAnd

theorem FollowsApp.plain {ws : List View} (h : FollowsApp ws) : FollowsPlain ws := by
  obtain ⟨v, us, rfl, hv, -⟩ := h
  refine ⟨v, us, rfl, ?_, ?_⟩ <;>
  · intro h
    simp [h, goesOn] at hv

theorem goesOn_of_isName {k : Kind} (h : k.isName = true) : goesOn k = false := by
  cases k <;> simp_all [Kind.isName, goesOn]

section

variable {k : Kind} {v : View} {ws : List View}

/-- An operator that does not go on with an app follows one. -/
theorem followsApp_of_operator (hv : v.kind = k) (hg : goesOn k = false) (hn : k.isName = false) :
    FollowsApp (v :: ws) := by
  subst hv
  exact ⟨v, ws, rfl, hg, fun h => absurd h (Bool.eq_false_iff.mp hn)⟩

/-- The operators after which a sequence is over. -/
theorem followsSequence_of_operator (hv : v.kind = k) (hg : goesOn k = false) (hn : k.isName = false)
    (ha : k ≠ .andAnd) : FollowsSequence (v :: ws) :=
  ⟨followsApp_of_operator hv hg hn, by simpa [hv] using ha⟩

/-- A name follows a sequence unless it is a condition. -/
theorem followsSequence_of_name (hn : v.kind.isName = true)
    (ha : ws.head?.map View.kind ≠ some .arrow) : FollowsSequence (v :: ws) :=
  ⟨⟨v, ws, rfl, goesOn_of_isName hn, fun _ => ha⟩,
    mt Option.some.inj (Kind.ne_of_isName hn rfl)⟩

end

variable {appMode : Bool}

/-! ## Apps -/

/-- The name and the arguments of an app, and that they do not open a label. -/
theorem opensLabel_eq {name : View} {ws rest : List View} {as : List Argument}
    (h : Many Argument.Spells ws as) (hr : FollowsPlain rest) :
    opensLabel (name :: (ws ++ rest)) = false := by
  cases h with
  | nil =>
    obtain ⟨v, us, rfl, -, hv⟩ := hr
    simp [opensLabel, hv]
  | cons ha _ =>
    obtain ⟨hk, -⟩ := ha
    simp [opensLabel, hk]

theorem SpellsPlain.exists_name {vs : List View} {a : App} (h : SpellsPlain appMode vs a) :
    ∃ v ws, vs = v :: ws ∧ v.kind.isName = true := by
  obtain ⟨hl, hn, -, -⟩ := h
  cases hl with
  | none => exact ⟨_, _, rfl, hn⟩
  | some hl => exact ⟨_, _, rfl, hl⟩

theorem SpellsTransition.followsPlain {vs : List View} {t : Transition}
    (h : SpellsTransition appMode vs t) (ws : List View) : FollowsPlain (vs ++ ws) := by
  obtain ⟨hs, -, -⟩ := h
  refine ⟨_, _, rfl, ?_, ?_⟩ <;>
  · rintro h
    simp [h, conditionOf?] at hs

theorem SpellsApp.exists_name {vs : List View} {a : App} (h : SpellsApp appMode vs a) :
    ∃ v ws, vs = v :: ws ∧ v.kind.isName = true := by
  obtain ⟨ha, -⟩ := h
  obtain ⟨v, ws, rfl, hn⟩ := ha.exists_name
  exact ⟨v, _, rfl, hn⟩

/-- What comes after the name of an app is no arrow. -/
theorem head_ne_arrow {us ws rest : List View} {as : List Argument} {ts : List Transition}
    (has : Many Argument.Spells us as) (hts : Many (SpellsTransition appMode) ws ts)
    (hr : FollowsApp rest) : (us ++ (ws ++ rest)).head?.map View.kind ≠ some .arrow := by
  cases has with
  | cons ha _ =>
    obtain ⟨hk, -⟩ := ha
    simp [hk]
  | nil =>
    cases hts with
    | cons ht _ =>
      obtain ⟨hs, -, -⟩ := ht
      intro h
      rw [Option.some.inj h] at hs
      cases hs
    | nil =>
      obtain ⟨v, us, rfl, hv, -⟩ := hr
      intro h
      rw [Option.some.inj h] at hv
      cases hv

theorem SpellsApp.followsSequence {vs ws : List View} {a : App} (h : SpellsApp appMode vs a)
    (hw : FollowsApp ws) : FollowsSequence (vs ++ ws) := by
  obtain ⟨⟨hl, hn, has, -⟩, hts⟩ := h
  cases hl with
  | some hn' hk => exact followsSequence_of_name hn' (by simp [hk])
  | none =>
    have ha := head_ne_arrow has hts hw
    rw [← List.append_assoc] at ha
    exact followsSequence_of_name hn ha

/-! ## Sequences -/

/-- Elements start with a name, a split or a group. -/
theorem SpellsElements.followsSequence {Inner : List View → Sequence → Prop} {vs ws : List View}
    {es : List Element} (h : SpellsElements appMode Inner vs es) (hw : FollowsApp ws) :
    FollowsSequence (vs ++ ws) := by
  cases h with
  | group hk => exact followsSequence_of_operator hk rfl rfl (by simp)
  | split hl hk =>
    cases hl with
    | none => exact followsSequence_of_operator hk rfl rfl (by simp)
    | some hn hk' => exact followsSequence_of_name hn (by simp [hk'])
  | app ha => exact ha.followsSequence hw

theorem followsApp_of_after {P : List View → List Element → Prop} {vs : List View} {es : List Element}
    (h : After .andAnd P vs es) (ws : List View) : FollowsApp (vs ++ ws) := by
  obtain ⟨hk, -⟩ := h
  exact followsApp_of_operator hk rfl rfl

theorem SpellsSequence.followsSequence {levels : Nat} {vs ws : List View} {s : Sequence}
    (h : SpellsSequence appMode levels vs s) (hw : FollowsApp ws) : FollowsSequence (vs ++ ws) := by
  cases levels with
  | zero => cases h
  | succ levels =>
    obtain ⟨us, us', first, ess, rfl, hf, hm, -⟩ := h
    rw [List.append_assoc]
    exact hf.followsSequence (hm.follow (fun h ws _ => followsApp_of_after h ws) hw)

theorem SpellsNext.followsSequence {vs ws : List View} {s : Sequence} (h : SpellsNext appMode vs s)
    (hw : FollowsApp ws) : FollowsSequence (vs ++ ws) := by
  cases h with
  | semicolon hk _ => exact followsSequence_of_operator hk rfl rfl (by simp)
  | line _ hs => exact hs.followsSequence hw

theorem followsSequence_end {zs : List View} {v : View} (hv : v.kind = .eof)
    (hz : zs = [] ∨ ∃ w, zs = [w] ∧ w.kind = .semicolon) : FollowsSequence (zs ++ [v]) := by
  obtain rfl | ⟨w, rfl, hw⟩ := hz
  · exact followsSequence_of_operator hv rfl rfl (by simp)
  · exact followsSequence_of_operator hw rfl rfl (by simp)

/-- The kinds of the tokens that a sequence cannot start with, apart from those that go on with the
one before. -/
theorem SpellsSequence.head_ne {levels : Nat} {v : View} {vs : List View} {s : Sequence}
    (h : SpellsSequence appMode levels (v :: vs) s) : v.kind ≠ .eof ∧ v.kind ≠ .semicolon := by
  have hname : ∀ {k : Kind}, k.isName = true → k ≠ .eof ∧ k ≠ .semicolon := fun h =>
    ⟨Kind.ne_of_isName h rfl, Kind.ne_of_isName h rfl⟩
  cases levels with
  | zero => cases h
  | succ levels =>
    obtain ⟨us, us', first, ess, hv, hf, -, -⟩ := h
    cases hf with
    | group hk =>
      obtain ⟨rfl, -⟩ := List.cons.inj hv
      simp [hk]
    | split hl hk =>
      cases hl with
      | none =>
        obtain ⟨rfl, -⟩ := List.cons.inj hv
        simp [hk]
      | some hn =>
        obtain ⟨rfl, -⟩ := List.cons.inj hv
        exact hname hn
    | app ha =>
      obtain ⟨w, ws, rfl, hn⟩ := ha.exists_name
      obtain ⟨rfl, -⟩ := List.cons.inj hv
      exact hname hn

/-! ## Kinds, and the end of the text -/

/-- The kinds of the tokens that apps are made of. -/
def isInApp (k : Kind) : Bool := Argument.isInArgument k || k == .colon || k == .arrow || k == .star

theorem isInApp_of_isName {k : Kind} (h : k.isName = true) : isInApp k = true := by
  rw [isInApp, Argument.isInArgument_of_isName h]
  rfl

theorem isInApp_of_conditionOf? {k : Kind} {condition : Condition}
    (h : conditionOf? k = some condition) : isInApp k = true := by
  cases k <;> simp_all [conditionOf?, isInApp, Argument.isInArgument]

theorem ne_eof_of_isInApp {k : Kind} (h : isInApp k = true) : k ≠ .eof := by
  rintro rfl
  cases h

theorem SpellsLabel.kinds {vs : List View} {label : Option Label} (h : SpellsLabel vs label) :
    ∀ v ∈ vs, isInApp v.kind = true := by
  cases h with
  | none => simp
  | some hn hk =>
    simp only [List.forall_mem_cons, isInApp_of_isName hn, hk]
    exact ⟨trivial, rfl, by simp⟩

theorem SpellsPlain.kinds {vs : List View} {a : App} (h : SpellsPlain appMode vs a) :
    ∀ v ∈ vs, isInApp v.kind = true := by
  obtain ⟨hl, hn, has, -⟩ := h
  refine List.forall_mem_append.mpr ⟨hl.kinds, List.forall_mem_cons.mpr
    ⟨isInApp_of_isName hn, has.forall_mem fun h v hv => ?_⟩⟩
  rw [isInApp, h.kinds v hv]
  rfl

theorem SpellsApp.kinds {vs : List View} {a : App} (h : SpellsApp appMode vs a) :
    ∀ v ∈ vs, isInApp v.kind = true := by
  obtain ⟨ha, hts⟩ := h
  refine List.forall_mem_append.mpr ⟨ha.kinds, hts.forall_mem fun h => ?_⟩
  obtain ⟨hs, hk, ht⟩ := h
  refine List.forall_mem_cons.mpr ⟨isInApp_of_conditionOf? hs, List.forall_mem_cons.mpr
    ⟨by rw [hk]; rfl, ?_⟩⟩
  cases ht with
  | label hk hn =>
    simp only [List.forall_mem_cons, isInApp_of_isName hn, hk]
    exact ⟨rfl, trivial, by simp⟩
  | app ha => exact ha.kinds

theorem ne_eof_of_after {α : Type} {separator : Kind} {P : List View → α → Prop} {vs : List View}
    {a : α} (hk : separator ≠ .eof) (hP : ∀ {vs a}, P vs a → ∀ v ∈ vs, v.kind ≠ .eof)
    (h : After separator P vs a) : ∀ v ∈ vs, v.kind ≠ .eof := by
  obtain ⟨hv, ha⟩ := h
  exact List.forall_mem_cons.mpr ⟨hv ▸ hk, hP ha⟩

theorem SpellsElements.ne_eof {Inner : List View → Sequence → Prop} {vs : List View}
    {es : List Element} (h : SpellsElements appMode Inner vs es)
    (hinner : ∀ {vs s}, Inner vs s → ∀ v ∈ vs, v.kind ≠ .eof) : ∀ v ∈ vs, v.kind ≠ .eof := by
  cases h with
  | group hk hs hk' =>
    refine List.forall_mem_append.mpr ⟨List.forall_mem_cons.mpr ⟨by simp [hk], hinner hs⟩, ?_⟩
    simp [hk']
  | split hl hk hf hm hk' =>
    refine List.forall_mem_append.mpr
      ⟨fun v hv => ne_eof_of_isInApp (hl.kinds v hv), List.forall_mem_cons.mpr ⟨by simp [hk],
      List.forall_mem_append.mpr ⟨hinner hf, List.forall_mem_append.mpr
        ⟨hm.forall_mem (ne_eof_of_after (by simp) hinner), ?_⟩⟩⟩⟩
    simp [hk']
  | app ha => exact fun v hv => ne_eof_of_isInApp (ha.kinds v hv)

theorem SpellsSequence.ne_eof {levels : Nat} {vs : List View} {s : Sequence}
    (h : SpellsSequence appMode levels vs s) : ∀ v ∈ vs, v.kind ≠ .eof := by
  induction levels generalizing vs s with
  | zero => cases h
  | succ levels ih =>
    obtain ⟨us, ws, first, ess, rfl, hf, hm, -⟩ := h
    exact List.forall_mem_append.mpr ⟨hf.ne_eof ih,
      hm.forall_mem (ne_eof_of_after (by simp) fun h => h.ne_eof ih)⟩

/-- What a task is written in does not reach the end of the text. -/
theorem Spells.ne_eof {vs : List View} {ss : List Sequence} (h : Spells appMode vs ss) :
    ∀ v ∈ vs, v.kind ≠ .eof := by
  obtain ⟨hs, hm, hz⟩ := h
  refine List.forall_mem_append.mpr ⟨hs.ne_eof, List.forall_mem_append.mpr
    ⟨hm.forall_mem fun h => ?_, ?_⟩⟩
  · cases h with
    | semicolon hk hs => exact List.forall_mem_cons.mpr ⟨by simp [hk], hs.ne_eof⟩
    | line _ hs => exact hs.ne_eof
  · obtain rfl | ⟨v, rfl, hv⟩ := hz <;> simp_all

end Pipework.Task
