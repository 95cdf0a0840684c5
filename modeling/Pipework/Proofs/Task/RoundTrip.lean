import Pipework.Proofs.Task.Arrows
import Pipework.Proofs.Task.Reading
import Pipework.Proofs.Task.Shape

/-! Which tasks are read back from their printed text. -/

namespace Pipework.Task

open Token Pipework.Parser Read

/-! ## What is read can be written

Nothing but an argument has `=` in it, so every name of a task is a word. -/

variable {vs : List View}

theorem SpellsLabel.isWord {label : Option Label} (h : SpellsLabel vs label) (hl : Lexed false vs) :
    (∀ l ∈ label, Token.isWord l.name = true) ∧ endsEquals false vs = false := by
  cases h with
  | none => exact ⟨by simp, rfl⟩
  | some hn hk =>
    refine ⟨?_, beq_eq_false_iff_ne.mpr (by simp [hk])⟩
    rintro l ⟨⟩
    exact ((hl.1 hn).resolve_right (by simp)).symbol

theorem SpellsPlain.isPlain {a : App} (h : SpellsPlain true vs a) (hl : Lexed false vs) :
    a.IsPlain ∧ a.transitions = [] ∧ endsEquals false vs = false := by
  obtain ⟨hlabel, hn, has, -⟩ := h
  obtain ⟨h₁, h₂⟩ := hl.of_append
  obtain ⟨hw, he⟩ := hlabel.isWord h₁
  rw [he] at h₂
  obtain ⟨hname, h₂⟩ := h₂
  have hq := beq_eq_false_iff_ne.mpr (@Kind.ne_of_isName _ .equals hn rfl)
  rw [hq] at h₂
  obtain ⟨hd, he'⟩ := Argument.many_isDottedWord has h₂
  exact ⟨⟨hw, ((hname hn).resolve_right (by simp)).symbol, hd⟩, rfl,
    by rw [endsEquals_append, he, endsEquals, hq, he']⟩

theorem isWritable_of_conditionOf? {v : View} {c : Condition} (h : conditionOf? v.kind = some c)
    (hw : v.kind.isName = true → v.kind.IsWord) : c.IsWritable := by
  unfold conditionOf? at h
  split at h
  · next code hk =>
    cases h
    rw [hk] at hw
    obtain ⟨w, hw, hcode⟩ := hw rfl
    unfold Kind.ofName at hcode
    split at hcode
    · next hd =>
      cases hcode
      exact .inr ⟨by rwa [Token.isWord, String.toList_ofList], by rwa [String.toList_ofList]⟩
    · cases hcode
  · cases h
    exact .inl rfl
  · cases h
    trivial
  · cases h

theorem ne_equals_of_conditionOf? {k : Kind} {c : Condition} (h : conditionOf? k = some c) :
    k ≠ .equals := by
  rintro rfl
  cases h

theorem SpellsTarget.isWritable {t : Target} (h : SpellsTarget true vs t) (hl : Lexed false vs) :
    t.IsWritable ∧ endsEquals false vs = false := by
  cases h with
  | label hk hn =>
    obtain ⟨-, hl⟩ := hl
    rw [hk] at hl
    exact ⟨((hl.1 hn).resolve_right (by simp)).symbol,
      beq_eq_false_iff_ne.mpr (Kind.ne_of_isName hn rfl)⟩
  | app ha =>
    obtain ⟨hp, ht, he⟩ := ha.isPlain hl
    exact ⟨⟨hp, ht⟩, he⟩

theorem SpellsTransition.isWritable {t : Transition} (h : SpellsTransition true vs t)
    (hl : Lexed false vs) :
    (t.condition.IsWritable ∧ t.target.IsWritable) ∧ endsEquals false vs = false := by
  obtain ⟨hs, hk, ht⟩ := h
  have hq := beq_eq_false_iff_ne.mpr (ne_equals_of_conditionOf? hs)
  obtain ⟨hsign, -, hl⟩ := hl
  rw [hk] at hl
  obtain ⟨hw, he⟩ := ht.isWritable hl
  exact ⟨⟨isWritable_of_conditionOf? hs fun hn => (hsign hn).resolve_right (by simp), hw⟩,
    by rwa [endsEquals, endsEquals, hk]⟩

/-- Parts that can be written one by one can be written in a row. -/
theorem many_isWritable {α : Type} {Item : List View → α → Prop} {P : α → Prop} {as : List α}
    (h : Many Item vs as)
    (item : ∀ {vs a}, Item vs a → Lexed false vs → P a ∧ endsEquals false vs = false)
    (hl : Lexed false vs) : (∀ a ∈ as, P a) ∧ endsEquals false vs = false := by
  induction h with
  | nil => exact ⟨by simp, rfl⟩
  | cons ha _ ih =>
    obtain ⟨h₁, h₂⟩ := hl.of_append
    obtain ⟨hP, he⟩ := item ha h₁
    rw [he] at h₂
    exact ⟨List.forall_mem_cons.mpr ⟨hP, (ih h₂).1⟩, by rw [endsEquals_append, he, (ih h₂).2]⟩

theorem after_isWritable {α : Type} {Item : List View → α → Prop} {P : α → Prop} {separator : Kind}
    {a : α} (h : After separator Item vs a) (hk : separator ≠ .equals)
    (item : ∀ {vs a}, Item vs a → Lexed false vs → P a ∧ endsEquals false vs = false)
    (hl : Lexed false vs) : P a ∧ endsEquals false vs = false := by
  obtain ⟨hv, ha⟩ := h
  obtain ⟨-, hl⟩ := hl
  rw [hv, beq_eq_false_iff_ne.mpr hk] at hl
  rw [endsEquals, hv, beq_eq_false_iff_ne.mpr hk]
  exact item ha hl

theorem SpellsApp.isWritable {a : App} (h : SpellsApp true vs a) (hl : Lexed false vs) :
    a.IsWritable ∧ endsEquals false vs = false := by
  obtain ⟨ha, hts⟩ := h
  obtain ⟨h₁, h₂⟩ := hl.of_append
  obtain ⟨hp, -, he⟩ := ha.isPlain h₁
  rw [he] at h₂
  obtain ⟨ht, he'⟩ := many_isWritable (P := fun t => t.condition.IsWritable ∧ t.target.IsWritable)
    hts SpellsTransition.isWritable h₂
  exact ⟨⟨⟨hp.label, hp.name, hp.arguments⟩, ht⟩, by rw [endsEquals_append, he, he']⟩

/-- Elements that are read can be written; a group has elements if its sequence has. -/
theorem SpellsElements.isWritable {Inner : List View → Sequence → Prop} {Branch : Sequence → Prop}
    {es : List Element} (h : SpellsElements true Inner vs es)
    (hinner : ∀ {vs s}, Inner vs s → Lexed false vs → Branch s ∧ endsEquals false vs = false)
    (hgroup : ∀ {s}, Branch s → s.elements ≠ [] ∧ ∀ e ∈ s.elements, e.IsWritable Branch)
    (hl : Lexed false vs) :
    (es ≠ [] ∧ ∀ e ∈ es, e.IsWritable Branch) ∧ endsEquals false vs = false := by
  cases h with
  | group hk hs hk' =>
    obtain ⟨⟨-, hl⟩, -⟩ := hl.of_append
    rw [hk] at hl
    refine ⟨hgroup (hinner hs hl).1, ?_⟩
    rw [endsEquals_append, endsEquals, hk']
    rfl
  | split hlabel hk hf hm hk' =>
    obtain ⟨h₁, h₂⟩ := hl.of_append
    obtain ⟨hw, he⟩ := hlabel.isWord h₁
    rw [he] at h₂
    obtain ⟨-, h₂⟩ := h₂
    rw [hk] at h₂
    obtain ⟨h₂, h₃⟩ := h₂.of_append
    obtain ⟨hb, he'⟩ := hinner hf h₂
    rw [show (Kind.lt == .equals) = false from rfl, he'] at h₃
    obtain ⟨hbs, -⟩ := many_isWritable (P := Branch) hm
      (fun h hl => after_isWritable h (by simp) hinner hl) h₃.of_append.1
    refine ⟨⟨by simp, ?_⟩, ?_⟩
    · rintro e he
      obtain rfl := List.mem_singleton.mp he
      exact ⟨hw, by simp, List.forall_mem_cons.mpr ⟨hb, hbs⟩⟩
    · simp [endsEquals_append, endsEquals, hk']
  | app ha =>
    obtain ⟨hw, he⟩ := ha.isWritable hl
    exact ⟨⟨by simp, by simpa [Element.IsWritable] using hw⟩, he⟩

theorem Element.IsWritable.mono {Branch Branch' : Sequence → Prop} {e : Element}
    (h : e.IsWritable Branch) (hb : ∀ {s}, Branch s → Branch' s) : e.IsWritable Branch' := by
  cases e with
  | app a => exact h
  | split s => exact ⟨h.label, h.nonempty, fun b hm => hb (h.branches b hm)⟩

theorem Sequence.IsWritable.succ {levels : Nat} {s : Sequence} (h : s.IsWritable levels) :
    s.IsWritable (levels + 1) := by
  induction levels generalizing s with
  | zero => cases h
  | succ levels ih => exact ⟨h.1, fun e he => (h.2 e he).mono ih⟩

theorem SpellsSequence.isWritable {levels : Nat} {s : Sequence}
    (h : SpellsSequence true levels vs s) (hl : Lexed false vs) :
    s.IsWritable levels ∧ endsEquals false vs = false := by
  induction levels generalizing vs s with
  | zero => cases h
  | succ levels ih =>
    obtain ⟨us, ws, first, ess, rfl, hf, hm, rfl⟩ := h
    obtain ⟨h₁, h₂⟩ := hl.of_append
    have hitem : ∀ {vs : List View} {es : List Element},
        SpellsElements true (SpellsSequence true levels) vs es → Lexed false vs →
          (es ≠ [] ∧ ∀ e ∈ es, e.IsWritable (Sequence.IsWritable levels)) ∧ endsEquals false vs = false :=
      fun h hl => SpellsElements.isWritable h ih
        Sequence.IsWritable.succ hl
    obtain ⟨⟨hne, hes⟩, he⟩ := hitem hf h₁
    rw [he] at h₂
    obtain ⟨hess, he'⟩ := many_isWritable hm (fun h hl => after_isWritable h (by simp) hitem hl) h₂
    refine ⟨⟨by simp [hne], ?_⟩, by rw [endsEquals_append, he, he']⟩
    intro e hmem
    obtain hmem | hmem := List.mem_append.mp hmem
    · exact hes e hmem
    · obtain ⟨es, hes', hmem⟩ := List.mem_flatten.mp hmem
      exact (hess es hes').2 e hmem

/-! ### Positions -/

theorem App.isPlain_of_plain {a : App} (h : a.plain.IsPlain) : a.IsPlain where
  label l hl := h.label l.withoutPosition (by simp [plain, Option.mem_def.mp hl])
  name := h.name
  arguments x hx := h.arguments x.withoutPosition (List.mem_map_of_mem hx)

theorem Target.isWritable_of_withoutPositions {t : Target} (h : t.withoutPositions.IsWritable) :
    t.IsWritable := by
  cases t with
  | label n => exact h
  | app a =>
    obtain ⟨hp, ht⟩ := h
    have ht : a.transitions = [] := by
      cases a
      simpa [App.withoutPositions, transitionsWithoutPositions_eq_map] using ht
    rw [App.withoutPositions_of_nil ht] at hp
    exact ⟨App.isPlain_of_plain hp, ht⟩

theorem App.isWritable_of_withoutPositions {a : App} (h : a.withoutPositions.IsWritable) :
    a.IsWritable := by
  obtain ⟨label, name, arguments, transitions, start, stop⟩ := a
  obtain ⟨hp, ht⟩ := h
  refine ⟨App.isPlain_of_plain ⟨hp.label, hp.name, hp.arguments⟩, fun t htm => ?_⟩
  have hmem : t.withoutPositions ∈ transitionsWithoutPositions transitions := by
    rw [transitionsWithoutPositions_eq_map]
    exact List.mem_map_of_mem htm
  obtain ⟨hc, ht⟩ := ht _ hmem
  cases t
  exact ⟨hc, Target.isWritable_of_withoutPositions ht⟩

theorem Sequence.isWritable_of_withoutPositions {levels : Nat} {s : Sequence}
    (h : s.withoutPositions.IsWritable levels) : s.IsWritable levels := by
  induction levels generalizing s with
  | zero => cases h
  | succ levels ih =>
    obtain ⟨es, start, stop⟩ := s
    obtain ⟨hne, h⟩ := h
    rw [Sequence.withoutPositions, elementsWithoutPositions_eq_map] at hne h
    refine ⟨by simpa using hne, fun e he => ?_⟩
    have he := h _ (List.mem_map_of_mem he)
    cases e with
    | app a => exact App.isWritable_of_withoutPositions he
    | split p =>
      obtain ⟨label, bs, start, stop⟩ := p
      obtain ⟨hl, hne, hb⟩ := he
      simp only [Split.withoutPositions, sequencesWithoutPositions_eq_map] at hl hne hb
      refine ⟨fun l hmem => hl l.withoutPosition (Option.mem_map_of_mem _ hmem), by simpa using hne,
        fun b hmem => ih (hb _ (List.mem_map_of_mem hmem))⟩

/-! ## Reading what is printed -/

theorem parseWith_eq_ok {options : Options} {text : String} {t : Task} :
    parseWith options text = .ok t ↔ parseUnchecked options.name options.appMode text = .ok t ∧
      (options.validate = true → t.validate = .ok ()) := by
  unfold parseWith
  cases parseUnchecked options.name options.appMode text with
  | error e => simp [bind, Except.bind]
  | ok u =>
    by_cases ho : options.validate = true
    · simp only [bind, Except.bind, ho, if_true, forall_const, Except.ok.injEq]
      cases hu : u.validate with
      | error e =>
        simp only [reduceCtorEq, false_iff, not_and]
        rintro rfl
        simp [hu]
      | ok => exact ⟨fun h => ⟨Except.ok.inj h, Except.ok.inj h ▸ hu⟩, fun h => congrArg _ h.1⟩
    · simp [bind, Except.bind, ho, pure, Except.pure]

theorem parse_eq_ok {text : String} {t : Task} : parse text = .ok t ↔
    parseUnchecked none true text = .ok t ∧ t.validate = .ok () := by
  simp [parse, parseWith_eq_ok]

/-- The sequences of a task that is read can be written, and there are some. -/
theorem isWritable_of_parseUnchecked {text : String} {t : Task}
    (h : parseUnchecked none true text = .ok t) :
    t.sequences ≠ [] ∧ ∀ s ∈ t.sequences, s.IsWritable maxDepth := by
  obtain ⟨ws, us, v, hl, hu, -, hs, -⟩ := spells_of_parseUnchecked h
  have hl : Lexed false us := (hu ▸ lexed_unglued (lexed_of_lexesAll hl)).of_append.1
  generalize hss : t.sequences.map Sequence.withoutPositions = ss at hs
  have hall : ss ≠ [] ∧ ∀ s ∈ ss, s.IsWritable maxDepth := by
    obtain ⟨hf, hm, -⟩ := hs
    obtain ⟨h₁, h₂⟩ := hl.of_append
    obtain ⟨hw, he⟩ := hf.isWritable h₁
    rw [he] at h₂
    have hnext : ∀ {vs : List View} {s : Sequence}, SpellsNext true vs s → Lexed false vs →
        s.IsWritable maxDepth ∧ endsEquals false vs = false := fun h hl => by
      cases h with
      | semicolon hk hs =>
        obtain ⟨-, hl⟩ := hl
        rw [hk] at hl
        rw [endsEquals, hk]
        exact hs.isWritable hl
      | line _ hs => exact hs.isWritable hl
    exact ⟨by simp, List.forall_mem_cons.mpr
      ⟨hw, (many_isWritable (P := Sequence.IsWritable maxDepth) hm hnext h₂.of_append.1).1⟩⟩
  subst hss
  exact ⟨by simpa using hall.1,
    fun s hs => Sequence.isWritable_of_withoutPositions (hall.2 _ (List.mem_map_of_mem hs))⟩

theorem parseUnchecked_of_closes {t : Task} (hname : ∀ n ∈ t.name, Text.isLegalName n = true)
    (hw : t.sequences ≠ [] ∧ ∀ s ∈ t.sequences, s.IsWritable maxDepth) (hc : t.closes = true) :
    ∃ m, parseUnchecked t.name true t.render = .ok m ∧ m.withoutPositions = t.withoutPositions := by
  obtain ⟨k, vs, hG, hl⟩ := @prints_render [] t hw.1 hw.2 hc fun _ => .nil
  have hlex := lexesAll_of_lexes (hl false [] rfl (by simp))
  rw [List.nil_append, List.append_nil] at hlex
  obtain ⟨m, hm, hn, hs⟩ := @parseUnchecked_of_spells true t.name t.render _ (⟨k, false, false⟩ :: vs)
    _ _ hlex rfl (hG false false) hname
  exact ⟨m, hm, by rw [withoutPositions, withoutPositions, hn, hs]⟩

theorem parse_of_closes {t : Task} (hname : t.name = none) (hv : t.validate = .ok ())
    (hw : t.sequences ≠ [] ∧ ∀ s ∈ t.sequences, s.IsWritable maxDepth) (hc : t.closes = true) :
    ∃ m, parse t.render = .ok m ∧ m.withoutPositions = t.withoutPositions := by
  obtain ⟨m, hm, ht⟩ := parseUnchecked_of_closes (by simp [hname]) hw hc
  rw [hname] at hm
  refine ⟨m, parse_eq_ok.mpr ⟨hm, ?_⟩, ht⟩
  rwa [← validate_withoutPositions, ht, validate_withoutPositions]

theorem arrowsFit_unglued {s : Bool × Bool} : ArrowsFit s (unglued vs) ↔ ArrowsFit s vs := by
  cases vs <;> rfl

/-- No task is read from a text that has an arrow out of place. -/
theorem parseUnchecked_ne_of_chokes {name : Option String} {text : String} {t : Task}
    (h : Chokes true text.toList []) : parseUnchecked name true text ≠ .ok t := fun ht => by
  obtain ⟨ws, us, v, hl, hu, hv, hs, -⟩ := spells_of_parseUnchecked ht
  obtain ⟨vs, cs, hl', hf⟩ := h [] rfl
  rw [List.nil_append, List.append_nil] at hl'
  obtain ⟨ws, rfl, -⟩ := hl'.all_iff.mp hl
  have hfit : ArrowsFit (true, true) (us ++ [v]) :=
    arrowsFit_append.mpr ⟨hs.arrowsFit, by simp [hv], trivial⟩
  rw [← hu, arrowsFit_unglued] at hfit
  exact hf true (arrowsFit_append.mp hfit).1

/-- The task that a text is read as is read back from its printed text exactly if none of its splits
ends in a hyphen. -/
theorem reparses_iff_closes {text : String} {t : Task} (h : parse text = .ok t) :
    (∃ m, parse t.render = .ok m ∧ m.sameShape t = true) ↔ t.closes = true := by
  obtain ⟨hp, hv⟩ := parse_eq_ok.mp h
  have hw := isWritable_of_parseUnchecked hp
  constructor
  · rintro ⟨m, hm, -⟩
    refine Bool.not_eq_false _ ▸ fun hc => ?_
    exact parseUnchecked_ne_of_chokes (chokes_render hw.2 hc) (parse_eq_ok.mp hm).1
  · intro hc
    obtain ⟨-, -, -, -, -, -, -, hname, -⟩ := spells_of_parseUnchecked hp
    obtain ⟨m, hm, hs⟩ := parse_of_closes hname hv hw hc
    exact ⟨m, hm, by simpa [sameShape] using hs⟩

theorem reparses_split_of_apps : ∃ t, parse "<a || b 0->:c && c: d>\ne: f-" = .ok t ∧
    ∃ m, parse t.render = .ok m ∧ m.sameShape t = true := by
  obtain ⟨t, ht, hc⟩ : ∃ t, (parse "<a || b 0->:c && c: d>\ne: f-").toOption = some t ∧
      t.closes = true := by decide +kernel
  exact ⟨t, toOption_eq_some.mp ht, (reparses_iff_closes (toOption_eq_some.mp ht)).mpr hc⟩

/-- The hyphen of the last app and the `>` after it are read as an arrow. -/
theorem not_reparsed_after_hyphen : ∃ t, parse "<a || b- >" = .ok t ∧ t.render = "<a || b->" ∧
    ¬ ∃ m, parse t.render = .ok m := by
  obtain ⟨t, ht, hr⟩ : ∃ t, (parse "<a || b- >").toOption = some t ∧ t.render = "<a || b->" := by
    decide +kernel
  refine ⟨t, toOption_eq_some.mp ht, hr, ?_⟩
  rintro ⟨m, hm⟩
  rw [hr, ← toOption_eq_some, show (parse "<a || b->").toOption = none by decide +kernel] at hm
  cases hm

end Pipework.Task
