import Pipework.Proofs.Task.Reading
import Pipework.Task.Validation

/-! How deep groups and splits are nested, counted over the tokens: by the openers that are open at
once. A derivation of any depth that never has too many of them open is one the parser reads. -/

namespace Pipework.Task

open Token Pipework.Parser Read

/-! ## Openers -/

/-- `1` for what opens a group or a split, `-1` for what closes one. -/
def nesting : Kind → ℤ
  | .lparen | .lt => 1
  | .rparen | .gt => -1
  | _ => 0

/-- How many more openers than closers there are. -/
def depthOf (vs : List Sight) : ℤ := (vs.map fun v => nesting v.kind).sum

/-- Fewer than `n` openers are open at once. -/
def OpensBelow (n : Nat) (vs : List Sight) : Prop := ∀ us, us <+: vs → depthOf us < n

variable {n : Nat} {u v : Sight} {us vs ws : List Sight}

@[simp] theorem depthOf_nil : depthOf [] = 0 := rfl

@[simp] theorem depthOf_cons : depthOf (v :: vs) = nesting v.kind + depthOf vs := by
  simp [depthOf]

@[simp] theorem depthOf_append : depthOf (us ++ vs) = depthOf us + depthOf vs := by
  simp [depthOf]

theorem OpensBelow.pos (h : OpensBelow n vs) : 0 < n := by
  have := h [] List.nil_prefix
  rw [depthOf_nil] at this
  omega

theorem opensBelow_nil : OpensBelow n [] ↔ 0 < n := by
  refine ⟨OpensBelow.pos, fun h us hu => ?_⟩
  rw [List.prefix_nil.mp hu, depthOf_nil]
  omega

theorem opensBelow_cons : OpensBelow n (v :: vs) ↔
    0 < n ∧ ∀ us, us <+: vs → nesting v.kind + depthOf us < n := by
  constructor
  · intro h
    refine ⟨h.pos, fun us hu => ?_⟩
    have := h (v :: us) ((List.prefix_cons_inj v).mpr hu)
    rwa [depthOf_cons] at this
  · rintro ⟨hn, h⟩ us hu
    obtain rfl | ⟨ws, rfl, hw⟩ := List.prefix_cons_iff.mp hu
    · rw [depthOf_nil]
      omega
    · rw [depthOf_cons]
      exact h ws hw

theorem prefix_append_cases (h : ws <+: us ++ vs) :
    ws <+: us ∨ ∃ zs, zs <+: vs ∧ ws = us ++ zs := by
  rcases List.prefix_or_prefix_of_prefix h (List.prefix_append us vs) with hw | ⟨zs, rfl⟩
  · exact .inl hw
  · exact .inr ⟨zs, (List.prefix_append_right_inj us).mp h, rfl⟩

/-- Tokens after which nothing is left open. -/
theorem opensBelow_append (h : depthOf us = 0) :
    OpensBelow n (us ++ vs) ↔ OpensBelow n us ∧ OpensBelow n vs := by
  constructor
  · intro hn
    refine ⟨fun ws hw => hn ws (hw.trans (List.prefix_append us vs)), fun ws hw => ?_⟩
    have := hn (us ++ ws) ((List.prefix_append_right_inj us).mpr hw)
    rwa [depthOf_append, h, zero_add] at this
  · rintro ⟨hu, hv⟩ ws hw
    obtain hw | ⟨zs, hz, rfl⟩ := prefix_append_cases hw
    · exact hu ws hw
    · rw [depthOf_append, h, zero_add]
      exact hv zs hz

theorem opensBelow_cons_of_nesting {k : Kind} (hv : v.kind = k) (hk : nesting k = 0) :
    OpensBelow n (v :: vs) ↔ OpensBelow n vs := by
  rw [opensBelow_cons, hv, hk]
  simp only [zero_add]
  exact ⟨fun hn => hn.2, fun hn => ⟨hn.pos, hn⟩⟩

/-- Within an opener and its closer, one opener less can be open. -/
theorem opensBelow_enclosed {k l : Kind} (hu : u.kind = k) (hk : nesting k = 1) (hv : v.kind = l)
    (hl : nesting l = -1) (h : depthOf vs = 0) :
    OpensBelow (n + 1) (u :: (vs ++ [v])) ↔ OpensBelow n vs := by
  rw [← hu] at hk
  rw [← hv] at hl
  rw [opensBelow_cons, hk]
  constructor
  · intro ⟨_, hn⟩ us hus
    have := hn us (hus.trans (List.prefix_append vs [v]))
    omega
  · intro hn
    refine ⟨by omega, fun us hus => ?_⟩
    obtain hus | ⟨zs, hz, rfl⟩ := prefix_append_cases hus
    · have := hn us hus
      omega
    · have hpos := hn.pos
      obtain rfl | ⟨ws, rfl, hw⟩ := List.prefix_cons_iff.mp hz
      · simp [h, hpos]
      · rw [List.prefix_nil.mp hw]
        simp [h, hl]

theorem depthOf_eq_zero (h : ∀ v ∈ vs, nesting v.kind = 0) : depthOf vs = 0 := by
  induction vs with
  | nil => rfl
  | cons v vs ih =>
    rw [List.forall_mem_cons] at h
    rw [depthOf_cons, h.1, ih h.2, add_zero]

/-- Tokens that open nothing. -/
theorem opensBelow_of_nesting (h : ∀ v ∈ vs, nesting v.kind = 0) : OpensBelow n vs ↔ 0 < n := by
  refine ⟨OpensBelow.pos, fun hn us hu => ?_⟩
  rw [depthOf_eq_zero fun v hv => h v (hu.subset hv)]
  omega

section

variable {α : Type} {Item : List Sight → α → Prop} {as : List α}

theorem depthOf_many (h : Many Item vs as) (hi : ∀ {vs a}, Item vs a → depthOf vs = 0) :
    depthOf vs = 0 := by
  induction h with
  | nil => rfl
  | cons ha _ ih => rw [depthOf_append, hi ha, ih, add_zero]

theorem many_opensBelow (hi : ∀ {vs a}, Item vs a → depthOf vs = 0) :
    Many (fun vs a => Item vs a ∧ OpensBelow n vs) vs as ∧ 0 < n ↔ Many Item vs as ∧ OpensBelow n vs := by
  constructor
  · rintro ⟨h, hn⟩
    refine ⟨h.mono fun _ _ _ ha => ha.1, ?_⟩
    induction h with
    | nil => exact opensBelow_nil.mpr hn
    | cons ha _ ih => exact (opensBelow_append (hi ha.1)).mpr ⟨ha.2, ih⟩
  · rintro ⟨h, hn⟩
    refine ⟨?_, hn.pos⟩
    induction h with
    | nil => exact .nil
    | cons ha _ ih =>
      obtain ⟨ha', hn⟩ := (opensBelow_append (hi ha)).mp hn
      exact .cons ⟨ha, ha'⟩ (ih hn)

theorem depthOf_behind {separator : Kind} (hk : nesting separator = 0)
    (hi : ∀ {vs a}, Item vs a → depthOf vs = 0) {a : α} (h : Behind separator Item vs a) :
    depthOf vs = 0 := by
  obtain ⟨hv, ha⟩ := h
  rw [depthOf_cons, hv, hk, hi ha, add_zero]

theorem behind_opensBelow {separator : Kind} (hk : nesting separator = 0) {a : α} :
    Behind separator (fun vs a => Item vs a ∧ OpensBelow n vs) vs a ↔
      Behind separator Item vs a ∧ OpensBelow n vs := by
  constructor
  · rintro ⟨hv, ha, hn⟩
    exact ⟨.mk hv ha, (opensBelow_cons_of_nesting hv hk).mpr hn⟩
  · rintro ⟨⟨hv, ha⟩, hn⟩
    exact .mk hv ⟨ha, (opensBelow_cons_of_nesting hv hk).mp hn⟩

theorem many_behind_opensBelow {separator : Kind} (hk : nesting separator = 0)
    (hi : ∀ {vs a}, Item vs a → depthOf vs = 0) :
    Many (Behind separator fun vs a => Item vs a ∧ OpensBelow n vs) vs as ∧ 0 < n ↔
      Many (Behind separator Item) vs as ∧ OpensBelow n vs := by
  rw [← many_opensBelow (depthOf_behind hk hi)]
  simp only [← behind_opensBelow hk]

end

/-! ## Derivations -/

variable {appMode : Bool}

theorem nesting_of_isInApp {k : Kind} (h : isInApp k = true) : nesting k = 0 := by
  cases k <;> simp_all [isInApp, Argument.isInArgument, nesting]

theorem DerivesLabel.nesting_eq {label : Option Label} (h : DerivesLabel vs label) :
    ∀ v ∈ vs, nesting v.kind = 0 := fun _ hv =>
  nesting_of_isInApp (h.spells.kinds _ (List.mem_map_of_mem hv))

theorem DerivesApp.nesting_eq {a : App} (h : DerivesApp appMode vs a) :
    ∀ v ∈ vs, nesting v.kind = 0 := fun _ hv =>
  nesting_of_isInApp (h.spells.kinds _ (List.mem_map_of_mem hv))

/-- The label of a split opens nothing, and its branches stand between the brackets. -/
theorem split_opensBelow (hus : ∀ v ∈ us, nesting v.kind = 0) {lt gt : Sight} (hlt : lt.kind = .lt)
    (hgt : gt.kind = .gt) (hv : depthOf vs = 0) (hw : depthOf ws = 0) :
    OpensBelow (n + 1) (us ++ lt :: (vs ++ (ws ++ [gt]))) ↔ OpensBelow n vs ∧ OpensBelow n ws := by
  rw [opensBelow_append (depthOf_eq_zero hus), opensBelow_of_nesting hus, ← List.append_assoc vs,
    opensBelow_enclosed hlt rfl hgt rfl (by simp [hv, hw]),
    opensBelow_append hv]
  simp

section

variable {Inner : List Sight → Sequence → Prop}
  (hinner : ∀ {vs s}, Inner vs s → depthOf vs = 0)

include hinner

theorem DerivesElements.depthOf_eq {es : List Element} (h : DerivesElements appMode Inner vs es) :
    depthOf vs = 0 := by
  cases h with
  | group hk hs hk' => simp [hk, hk', hinner hs, nesting]
  | split hl hk hf hm hk' =>
    simp [hk, hk', depthOf_eq_zero hl.nesting_eq, hinner hf,
      depthOf_many hm (depthOf_behind rfl hinner), nesting]
  | app ha => exact depthOf_eq_zero ha.nesting_eq

/-- Between the brackets of an element one opener less can be open. -/
theorem derivesElements_opensBelow {es : List Element} :
    DerivesElements appMode (fun vs s => Inner vs s ∧ OpensBelow n vs) vs es ↔
      DerivesElements appMode Inner vs es ∧ OpensBelow (n + 1) vs := by
  have hseparator : nesting .doublePipe = 0 := rfl
  constructor
  · intro h
    cases h with
    | group hk hs hk' =>
      obtain ⟨hs, hn⟩ := hs
      exact ⟨.group hk hs hk', (opensBelow_enclosed hk rfl hk' rfl (hinner hs)).mpr hn⟩
    | split hl hk hf hm hk' =>
      obtain ⟨hf, hn⟩ := hf
      obtain ⟨hm, hn'⟩ := (many_behind_opensBelow hseparator hinner).mp ⟨hm, hn.pos⟩
      have hw := depthOf_many hm (depthOf_behind hseparator hinner)
      exact ⟨.split hl hk hf hm hk',
        (split_opensBelow hl.nesting_eq hk hk' (hinner hf) hw).mpr ⟨hn, hn'⟩⟩
    | app ha => exact ⟨.app ha, (opensBelow_of_nesting ha.nesting_eq).mpr (by omega)⟩
  · rintro ⟨h, hn⟩
    cases h with
    | group hk hs hk' =>
      exact .group hk ⟨hs, (opensBelow_enclosed hk rfl hk' rfl (hinner hs)).mp hn⟩ hk'
    | split hl hk hf hm hk' =>
      have hw := depthOf_many hm (depthOf_behind hseparator hinner)
      obtain ⟨hn, hn'⟩ := (split_opensBelow hl.nesting_eq hk hk' (hinner hf) hw).mp hn
      exact .split hl hk ⟨hf, hn⟩ ((many_behind_opensBelow hseparator hinner).mpr ⟨hm, hn'⟩).1 hk'
    | app ha => exact .app ha

end

theorem DerivesElements.mono {Inner Inner' : List Sight → Sequence → Prop} {es : List Element}
    (h : DerivesElements appMode Inner vs es) (hi : ∀ {vs s}, Inner vs s → Inner' vs s) :
    DerivesElements appMode Inner' vs es := by
  cases h with
  | group hk hs hk' => exact .group hk (hi hs) hk'
  | split hl hk hf hm hk' =>
    exact .split hl hk (hi hf) (hm.mono fun _ _ _ h => h.mono hi) hk'
  | app ha => exact .app ha

theorem DerivesSequence.depthOf_eq {levels : Nat} {s : Sequence}
    (h : DerivesSequence appMode levels vs s) : depthOf vs = 0 := by
  induction levels generalizing vs s with
  | zero => cases h
  | succ levels ih =>
    obtain ⟨us, ws, first, rest, rfl, hf, hm, -⟩ := h
    rw [depthOf_append, hf.depthOf_eq ih,
      depthOf_many hm (depthOf_behind rfl fun h => h.depthOf_eq ih), add_zero]

/-- Elements joined by `&&`. -/
theorem joined_opensBelow {Item : List Sight → List Element → Prop} {first : List Element}
    {rest : List (List Element)} (hi : ∀ {vs es}, Item vs es → depthOf vs = 0) :
    ((Item us first ∧ OpensBelow n us) ∧
        Many (Behind .andAnd fun vs es => Item vs es ∧ OpensBelow n vs) ws rest) ↔
      (Item us first ∧ Many (Behind .andAnd Item) ws rest) ∧ OpensBelow n (us ++ ws) := by
  have hseparator : nesting .andAnd = 0 := rfl
  constructor
  · rintro ⟨⟨hf, hn⟩, hm⟩
    obtain ⟨hm, hn'⟩ := (many_behind_opensBelow hseparator hi).mp ⟨hm, hn.pos⟩
    exact ⟨⟨hf, hm⟩, (opensBelow_append (hi hf)).mpr ⟨hn, hn'⟩⟩
  · rintro ⟨⟨hf, hm⟩, hn⟩
    obtain ⟨hn, hn'⟩ := (opensBelow_append (hi hf)).mp hn
    exact ⟨⟨hf, hn⟩, ((many_behind_opensBelow hseparator hi).mpr ⟨hm, hn'⟩).1⟩

/-- The levels of a derivation bound the openers that are open at once. -/
theorem DerivesSequence.opensBelow {levels : Nat} {s : Sequence}
    (h : DerivesSequence appMode levels vs s) : OpensBelow levels vs := by
  induction levels generalizing vs s with
  | zero => cases h
  | succ levels ih =>
    have helements : ∀ {vs es}, DerivesElements appMode (DerivesSequence appMode levels) vs es →
        DerivesElements appMode (DerivesSequence appMode levels) vs es ∧ OpensBelow (levels + 1) vs :=
      fun h => (derivesElements_opensBelow DerivesSequence.depthOf_eq).mp (h.mono fun h => ⟨h, ih h⟩)
    obtain ⟨us, ws, first, rest, rfl, hf, hm, -⟩ := h
    exact ((joined_opensBelow fun h => h.depthOf_eq DerivesSequence.depthOf_eq).mp
      ⟨helements hf, hm.mono fun _ _ _ h => h.mono helements⟩).2

/-- A derivation with fewer openers open at once than there are levels needs no more levels. -/
theorem DerivesSequence.of_opensBelow {levels m : Nat} {s : Sequence}
    (h : DerivesSequence appMode m vs s) (hn : OpensBelow levels vs) :
    DerivesSequence appMode levels vs s := by
  induction m generalizing levels vs s with
  | zero => cases h
  | succ m ih =>
    obtain ⟨levels, rfl⟩ := Nat.exists_eq_succ_of_ne_zero (Nat.ne_of_gt hn.pos)
    have helements : ∀ {vs es}, DerivesElements appMode (DerivesSequence appMode m) vs es ∧
        OpensBelow (levels + 1) vs → DerivesElements appMode (DerivesSequence appMode levels) vs es :=
      fun h => ((derivesElements_opensBelow DerivesSequence.depthOf_eq).mpr h).mono fun h => ih h.1 h.2
    obtain ⟨us, ws, first, rest, rfl, hf, hm, rfl⟩ := h
    obtain ⟨hf, hm⟩ := (joined_opensBelow fun h => h.depthOf_eq DerivesSequence.depthOf_eq).mpr
      ⟨⟨hf, hm⟩, hn⟩
    exact ⟨us, ws, first, rest, rfl, helements hf, hm.mono fun _ _ _ h => h.mono helements, rfl⟩

theorem DerivesNext.depthOf_eq {levels : Nat} {s : Sequence} (h : DerivesNext appMode levels vs s) :
    depthOf vs = 0 := by
  cases h with
  | semicolon hk hs => rw [depthOf_cons, hk, hs.depthOf_eq]; rfl
  | line _ hs => exact hs.depthOf_eq

theorem derivesNext_opensBelow {levels : Nat} {s : Sequence} :
    DerivesNext appMode levels vs s ↔ (∃ m, DerivesNext appMode m vs s) ∧ OpensBelow levels vs := by
  constructor
  · intro h
    refine ⟨⟨levels, h⟩, ?_⟩
    cases h with
    | semicolon hk hs => exact (opensBelow_cons_of_nesting hk rfl).mpr hs.opensBelow
    | line _ hs => exact hs.opensBelow
  · rintro ⟨⟨m, h⟩, hn⟩
    cases h with
    | semicolon hk hs =>
      exact .semicolon hk (hs.of_opensBelow ((opensBelow_cons_of_nesting hk rfl).mp hn))
    | line hb hs => exact .line hb (hs.of_opensBelow hn)

theorem derives_opensBelow {levels : Nat} {ss : List Sequence} :
    Derives appMode levels vs ss ↔ (∃ m, Derives appMode m vs ss) ∧ OpensBelow levels vs := by
  constructor
  · intro h
    refine ⟨⟨levels, h⟩, ?_⟩
    obtain ⟨hs, hm, hz⟩ := h
    have hpos := hs.opensBelow.pos
    have hws := (many_opensBelow DerivesNext.depthOf_eq).mp
      ⟨hm.mono fun _ _ _ h => ⟨h, (derivesNext_opensBelow.mp h).2⟩, hpos⟩
    refine (opensBelow_append hs.depthOf_eq).mpr ⟨hs.opensBelow,
      (opensBelow_append (depthOf_many hm DerivesNext.depthOf_eq)).mpr ⟨hws.2, ?_⟩⟩
    refine (opensBelow_of_nesting ?_).mpr hpos
    obtain rfl | ⟨v, rfl, hk⟩ := hz
    · simp
    · simp [hk, nesting]
  · rintro ⟨⟨m, hs, hm, hz⟩, hn⟩
    obtain ⟨hu, hn⟩ := (opensBelow_append hs.depthOf_eq).mp hn
    obtain ⟨hw, -⟩ := (opensBelow_append (depthOf_many hm DerivesNext.depthOf_eq)).mp hn
    refine .mk (hs.of_opensBelow hu) ?_ hz
    refine ((many_opensBelow DerivesNext.depthOf_eq).mpr ⟨hm, hw⟩).1.mono fun _ _ _ h => ?_
    exact derivesNext_opensBelow.mpr ⟨⟨m, h.1⟩, h.2⟩

/-! ## Texts -/

variable {text : String} {t : Task}

/-- Without a check of the whole, a text is read as a task exactly if its tokens derive one, at
whatever depth, and never open more than 255 groups and splits at once. -/
theorem parseWith_iff_derives {ts : List Token} (hts : tokenize text = .ok ts) :
    parseWith { validate := false } text = .ok t ↔ t.name = none ∧ t.text = text ∧
      (∃ levels, Derives true levels (sightsOf none ts.dropLast) t.sequences) ∧
        OpensBelow 256 (sightsOf none ts.dropLast) := by
  have hp : parseWith { validate := false } text = parseUnchecked none true text := by
    simp [parseWith]
  rw [hp, parseUnchecked_iff_derives hts, derives_opensBelow]
  simp [maxDepth]

/-- A branch that jumps to the split it is in, a group that ends a branch, and a second sequence on a
new line. -/
theorem derives_labelled_split : ∃ ts t,
    tokenize "s: <a 1 -> :s || b && (c --x.y='z' )>\nd;" = .ok ts ∧
      parseWith { validate := false } "s: <a 1 -> :s || b && (c --x.y='z' )>\nd;" = .ok t ∧
      t.sequences = [⟨[.split ⟨some ⟨"s", 0, 2⟩,
        [⟨[.app ⟨none, "a", [], [⟨.exitCode "1", .label "s", 6, 13⟩], 4, 13⟩], 4, 13⟩,
          ⟨[.app ⟨none, "b", [], [], 17, 18⟩,
            .app ⟨none, "c", [⟨"x.y", "z", 25, 34⟩], [], 23, 34⟩], 17, 36⟩], 0, 37⟩], 0, 37⟩,
        ⟨[.app ⟨none, "d", [], [], 38, 39⟩], 38, 39⟩] ∧
      (∃ levels, Derives true levels (sightsOf none ts.dropLast) t.sequences) ∧
        OpensBelow 256 (sightsOf none ts.dropLast) := by
  obtain ⟨ts, hts⟩ : ∃ ts,
      (tokenize "s: <a 1 -> :s || b && (c --x.y='z' )>\nd;").toOption = some ts :=
    Option.isSome_iff_exists.mp (by decide +kernel)
  obtain ⟨t, ht, hs⟩ : ∃ t, (parseWith { validate := false }
      "s: <a 1 -> :s || b && (c --x.y='z' )>\nd;").toOption = some t ∧
      t.sequences = [⟨[.split ⟨some ⟨"s", 0, 2⟩,
        [⟨[.app ⟨none, "a", [], [⟨.exitCode "1", .label "s", 6, 13⟩], 4, 13⟩], 4, 13⟩,
          ⟨[.app ⟨none, "b", [], [], 17, 18⟩,
            .app ⟨none, "c", [⟨"x.y", "z", 25, 34⟩], [], 23, 34⟩], 17, 36⟩], 0, 37⟩], 0, 37⟩,
        ⟨[.app ⟨none, "d", [], [], 38, 39⟩], 38, 39⟩] := by decide +kernel
  rw [toOption_eq_some] at hts ht
  exact ⟨ts, t, hts, ht, hs, ((parseWith_iff_derives hts).mp ht).2.2⟩

end Pipework.Task
