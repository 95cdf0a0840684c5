import Pipework.Proofs.Task.Printing

/-! Texts that no task is read from because an arrow stands where no transition can be: the `>` that
ends a split makes one with a hyphen before it. -/

namespace Pipework.Task

open Token Pipework.Parser Read

/-! ## Where arrows are

In a task an arrow is the second token after one that an app can end in. -/

/-- The kinds of the tokens that an app can end in. -/
def endsPlain (k : Kind) : Bool := (Argument.valueText? k).isSome

/-- What is known of the last two tokens: whether an app can end in them. -/
def pass (s : Bool × Bool) (v : View) : Bool × Bool := (s.2, endsPlain v.kind)

def ArrowsFit : Bool × Bool → List View → Prop
  | _, [] => True
  | s, v :: vs => (v.kind = .arrow → s.1 = true) ∧ ArrowsFit (pass s v) vs

variable {s : Bool × Bool} {us vs ws : List View}

theorem arrowsFit_append : ArrowsFit s (us ++ vs) ↔ ArrowsFit s us ∧ ArrowsFit (us.foldl pass s) vs := by
  induction us generalizing s with
  | nil => simp [ArrowsFit]
  | cons u us ih => simp [ArrowsFit, ih, and_assoc]

theorem arrowsFit_of_ne (h : ∀ v ∈ vs, v.kind ≠ .arrow) : ArrowsFit s vs := by
  induction vs generalizing s with
  | nil => trivial
  | cons v vs ih =>
    rw [List.forall_mem_cons] at h
    exact ⟨fun hv => absurd hv h.1, ih h.2⟩

/-- What fits after less fits after more. -/
theorem ArrowsFit.after_true {b c : Bool} (h : ArrowsFit (b, c) vs) : ArrowsFit (b, true) vs := by
  match vs, h with
  | [], _ => trivial
  | [v], h => exact ⟨h.1, trivial⟩
  | v :: w :: ws, h => exact ⟨h.1, fun _ => rfl, h.2.2⟩

theorem endsPlain_of_isName {k : Kind} (h : k.isName = true) : endsPlain k = true := by
  cases k <;> simp_all [Kind.isName, endsPlain, Argument.valueText?]

theorem many_ends {as : List Argument} (h : Many Argument.Spells vs as) (hs : s.2 = true) :
    (vs.foldl pass s).2 = true := by
  induction h generalizing s with
  | nil => exact hs
  | cons ha _ ih =>
    rw [List.foldl_append]
    refine ih ?_
    obtain ⟨-, -, -, -, -, -, hv, -⟩ := ha
    simp [List.foldl_append, pass, endsPlain, hv]

theorem SpellsLabel.ne_arrow {label : Option Label} (h : SpellsLabel vs label) :
    ∀ v ∈ vs, v.kind ≠ .arrow := by
  cases h with
  | none => simp
  | some hn hk => simp [@Kind.ne_of_isName _ .arrow hn rfl, hk]

theorem SpellsPlain.arrowsFit {a : App} (h : SpellsPlain true vs a) :
    ArrowsFit s vs ∧ (vs.foldl pass s).2 = true := by
  obtain ⟨hl, hn, has, -⟩ := h
  constructor
  · refine arrowsFit_of_ne (List.forall_mem_append.mpr ⟨hl.ne_arrow, List.forall_mem_cons.mpr
      ⟨Kind.ne_of_isName hn rfl, has.forall_mem fun h v hv he => ?_⟩⟩)
    have := h.kinds v hv
    rw [he] at this
    cases this
  · rw [List.foldl_append, List.foldl_cons]
    exact many_ends has (endsPlain_of_isName hn)

theorem SpellsTarget.arrowsFit {t : Target} (h : SpellsTarget true vs t) :
    ArrowsFit s vs ∧ (vs.foldl pass s).2 = true := by
  cases h with
  | label hk hn =>
    exact ⟨arrowsFit_of_ne (by simp [hk, @Kind.ne_of_isName _ .arrow hn rfl]), endsPlain_of_isName hn⟩
  | app ha => exact ha.arrowsFit

theorem many_transitions_fit {ts : List Transition} (h : Many (SpellsTransition true) vs ts)
    (hs : s.2 = true) : ArrowsFit s vs ∧ (vs.foldl pass s).2 = true := by
  induction h generalizing s with
  | nil => exact ⟨trivial, hs⟩
  | cons ht _ ih =>
    obtain @⟨sign, arrow, vs, condition, target, hsign, hk, ht⟩ := ht
    obtain ⟨hfit, hend⟩ := @SpellsTarget.arrowsFit (pass (pass s sign) arrow) vs target ht
    obtain ⟨hfit', hend'⟩ := ih hend
    refine ⟨⟨fun h => ?_, fun _ => hs, arrowsFit_append.mpr ⟨hfit, hfit'⟩⟩, ?_⟩
    · rw [h] at hsign
      cases hsign
    · simpa using hend'

theorem SpellsApp.arrowsFit {a : App} (h : SpellsApp true vs a) :
    ArrowsFit s vs ∧ (vs.foldl pass s).2 = true := by
  obtain ⟨ha, hts⟩ := h
  obtain ⟨hfit, hend⟩ := @SpellsPlain.arrowsFit s _ _ ha
  obtain ⟨hfit', hend'⟩ := many_transitions_fit hts hend
  exact ⟨arrowsFit_append.mpr ⟨hfit, hfit'⟩, by rwa [List.foldl_append]⟩

theorem many_fit {α : Type} {Item : List View → α → Prop} {separator : Kind} {as : List α}
    (h : Many (After separator Item) vs as) (hk : separator ≠ .arrow)
    (item : ∀ {vs a}, Item vs a → ∀ s, ArrowsFit s vs) : ArrowsFit s vs := by
  induction h generalizing s with
  | nil => trivial
  | cons hi _ ih =>
    obtain ⟨hv, ha⟩ := hi
    exact arrowsFit_append.mpr ⟨⟨fun h => absurd (hv.symm.trans h) hk, item ha _⟩, ih⟩

theorem SpellsElements.arrowsFit {Inner : List View → Sequence → Prop} {es : List Element}
    (h : SpellsElements true Inner vs es) (hinner : ∀ {vs b}, Inner vs b → ∀ s, ArrowsFit s vs) :
    ArrowsFit s vs := by
  cases h with
  | group hk hs hk' =>
    exact arrowsFit_append.mpr ⟨⟨by simp [hk], hinner hs _⟩, ⟨by simp [hk'], trivial⟩⟩
  | split hl hk hf hm hk' =>
    refine arrowsFit_append.mpr ⟨arrowsFit_of_ne hl.ne_arrow, ⟨by simp [hk], ?_⟩⟩
    exact arrowsFit_append.mpr ⟨hinner hf _, arrowsFit_append.mpr
      ⟨many_fit hm (by simp) hinner, ⟨by simp [hk'], trivial⟩⟩⟩
  | app ha => exact ha.arrowsFit.1

theorem SpellsSequence.arrowsFit {levels : Nat} {b : Sequence} (h : SpellsSequence true levels vs b)
    (s : Bool × Bool) : ArrowsFit s vs := by
  induction levels generalizing vs b s with
  | zero => cases h
  | succ levels ih =>
    obtain ⟨us, ws, first, ess, rfl, hf, hm, -⟩ := h
    exact arrowsFit_append.mpr ⟨hf.arrowsFit ih, many_fit hm (by simp) fun h _ => h.arrowsFit ih⟩

/-- In a task all arrows are in transitions. -/
theorem Spells.arrowsFit {ss : List Sequence} (h : Spells true vs ss) : ArrowsFit s vs := by
  have hnext : ∀ {vs : List View} {ss : List Sequence}, Many (SpellsNext true) vs ss →
      ∀ {s}, ArrowsFit s vs := fun h => by
    induction h with
    | nil => exact fun {s} => trivial
    | cons hi _ ih =>
      refine fun {s} => arrowsFit_append.mpr ⟨?_, ih⟩
      cases hi with
      | semicolon hk hs => exact ⟨by simp [hk], hs.arrowsFit _⟩
      | line _ hs => exact hs.arrowsFit _
  obtain ⟨hs, hm, hz⟩ := h
  refine arrowsFit_append.mpr ⟨hs.arrowsFit _, arrowsFit_append.mpr ⟨hnext hm, ?_⟩⟩
  obtain rfl | ⟨v, rfl, hv⟩ := hz
  · trivial
  · exact ⟨by simp [hv], trivial⟩

/-! ## Texts with an arrow out of place -/

/-- However it goes on, the text has an arrow out of place; `last` tells whether an app can end
before the text. -/
def Chokes (last : Bool) (text rest : List Char) : Prop :=
  ∀ gap, gap.all Text.isBlank = true → ∃ vs cs, Lexes false (gap ++ (text ++ rest)) vs false cs ∧
    ∀ b, ¬ ArrowsFit (b, last) vs

variable {last : Bool} {text tail rest pre gap : List Char}

theorem Chokes.more (h : Chokes last text (tail ++ rest)) : Chokes last (text ++ tail) rest :=
  fun gap hg => by
    obtain ⟨vs, cs, hl, hf⟩ := h gap hg
    exact ⟨vs, cs, by rwa [List.append_assoc], hf⟩

theorem Chokes.after_false (h : Chokes last text rest) : Chokes false text rest := fun gap hg => by
  obtain ⟨vs, cs, hl, hf⟩ := h gap hg
  refine ⟨vs, cs, hl, fun b hb => hf b ?_⟩
  cases last with
  | false => exact hb
  | true => exact hb.after_true

/-- What is cut before the text does not matter if no app can end in it. -/
theorem Chokes.of_lexes {whole : List Char} (h : Chokes last text rest)
    (hg : gap.all Text.isBlank = true)
    (hl : ∀ gap', gap'.all Text.isBlank = true → ∃ us,
      Lexes false (gap' ++ (whole ++ rest)) us false (gap ++ (text ++ rest)) ∧
        (last = false → ∀ s, (us.foldl pass s).2 = false)) : Chokes true whole rest :=
  fun gap' hg' => by
    obtain ⟨us, hl, hu⟩ := hl gap' hg'
    obtain ⟨vs, cs, hl', hf⟩ := h gap hg
    refine ⟨us ++ vs, cs, hl.trans hl', fun b hb => ?_⟩
    have hfit := (arrowsFit_append.mp hb).2
    cases last with
    | true => exact hf _ hfit.after_true
    | false =>
      have he := hu rfl (b, true)
      generalize us.foldl pass (b, true) = t at hfit he
      obtain ⟨t₁, t₂⟩ := t
      obtain rfl : t₂ = false := he
      exact hf _ hfit

theorem Chokes.after {F : List View → Prop} (h : Chokes last text rest)
    (hg : gap.all Text.isBlank = true) (hp : Prints pre (gap ++ (text ++ rest)) F)
    (hF : last = false → ∀ vs s, F vs → (vs.foldl pass s).2 = false) :
    Chokes true (pre ++ (gap ++ text)) rest :=
  h.of_lexes hg fun gap' hg' => by
    obtain ⟨us, hu, hl⟩ := hp.lexes hg'
    exact ⟨us, by rwa [List.append_assoc, List.append_assoc], fun hlast s => hF hlast us s hu⟩

theorem Chokes.to_last (h : Chokes true text rest) : Chokes last text rest := by
  cases last with
  | false => exact h.after_false
  | true => exact h

/-- One of the items in a row chokes, and those before it do not. -/
theorem chokes_separated {α : Type} {print : α → String} {separator : Kind} {bar : String}
    (hbar : ∀ cs, cut false (bar.toList ++ cs) = some (⟨separator, false, false⟩, ' ' :: cs))
    (hk : separator ≠ .eof ∧ separator ≠ .equals ∧ endsPlain separator = false) {a : α}
    {before after : List α}
    (hb : ∀ b ∈ before, ∀ cs, ∃ F, Prints (print b).toList (bar.toList ++ cs) F)
    (ha : Chokes last (print a).toList
      (after.flatMap (fun b => bar.toList ++ (print b).toList) ++ rest)) :
    Chokes last (bar.intercalate ((before ++ a :: after).map print)).toList rest := by
  induction before with
  | nil =>
    rw [List.nil_append, List.map_cons, toList_intercalate_cons, List.flatMap_map]
    exact ha.more
  | cons b bs ih =>
    rw [List.forall_mem_cons] at hb
    have hchoke := (ih hb.2).after_false
    have htext : (bar.intercalate ((b :: bs ++ a :: after).map print)).toList = (print b).toList ++
        (bar.toList ++ (bar.intercalate ((bs ++ a :: after).map print)).toList) := by
      obtain ⟨c, cs, hc⟩ := List.exists_cons_of_ne_nil (show bs ++ a :: after ≠ [] by simp)
      simp [hc, String.intercalate_cons_cons, -String.toList_intercalate]
    rw [htext]
    refine Chokes.to_last (hchoke.of_lexes (show [' '].all Text.isBlank = true from rfl) fun gap' hg' => ?_)
    obtain ⟨F, hp⟩ := hb.1 ((bar.intercalate ((bs ++ a :: after).map print)).toList ++ rest)
    obtain ⟨us, -, hl⟩ := hp.lexes hg'
    refine ⟨us ++ [⟨separator, false, false⟩], ?_, fun _ s => ?_⟩
    · rw [List.append_assoc, List.append_assoc]
      exact hl.trans (.one (hbar _) hk.1 hk.2.1)
    · rw [List.foldl_append]
      exact hk.2.2

theorem chokes_name {name : String} (hn : isWord name = true) (hh : endsHyphen (some name) = true)
    (cs : List Char) : Chokes false name.toList ('>' :: cs) := fun gap hg => by
  have hlast : name.toList.getLast? = some '-' := by simpa [endsHyphen] using hh
  obtain ⟨word, hw⟩ := List.getLast?_eq_some_iff.mp hlast
  have hword : isNameWord word = true := by
    rw [isWord, hw] at hn
    cases word with
    | nil => exact absurd hn (by decide)
    | cons c word =>
      rw [List.cons_append, isNameWord, List.all_append, ← Bool.and_assoc] at hn
      exact (Bool.and_eq_true_iff.mp hn).1
  have hs : StopsName word ('-' :: '>' :: cs) := ⟨startsName_hyphen, fun _ => rfl, by simp⟩
  have hl := (@lexes_name false gap _ word hword hs hg (by simp)).trans
    (.one (cut_arrow cs) (by simp) (by simp))
  rw [hw, List.append_assoc]
  exact ⟨_, cs, hl, fun b h => Bool.false_ne_true (h.2.1 rfl)⟩

/-! ## Apps that end in a hyphen before `>` -/

theorem chokes_plain {a : App} (h : a.IsPlain) (hh : endsHyphen a.plainName? = true)
    (cs : List Char) : Chokes false a.renderPlain.toList ('>' :: cs) := by
  have harg : a.arguments = [] := by
    cases has : a.arguments with
    | nil => rfl
    | cons => simp [App.plainName?, has, endsHyphen] at hh
  have hname : endsHyphen (some a.name) = true := by simpa [App.plainName?, harg] using hh
  have hchoke := chokes_name h.name hname cs
  cases hlabel : a.label with
  | none => simpa [App.renderPlain, hlabel, harg, Label.render, Argument.renderAll] using hchoke
  | some l =>
    have hp : Prints (l.name.toList ++ [':']) ([' '] ++ (a.name.toList ++ '>' :: cs)) fun vs =>
        ∃ v colon : View, vs = [v, colon] ∧ colon.kind = .colon := by
      refine ⟨.ofName l.name.toList, [⟨.colon, true, false⟩], fun g b => ⟨_, _, rfl, rfl⟩,
        fun e gap hg he => ?_⟩
      simpa using Label.lexes (h.label l hlabel) hg he
    have := (hchoke.after rfl hp (by rintro - _ s ⟨v, colon, rfl, hc⟩; simp [pass, hc]; rfl)).after_false
    simpa [App.renderPlain, hlabel, harg, Label.render, Argument.renderAll] using this

theorem chokes_target {t : Target} (h : t.IsWritable) (hh : endsHyphen t.lastName? = true)
    (cs : List Char) : Chokes false t.render.toList ('>' :: cs) := by
  cases t with
  | label n =>
    have hp : Prints [':'] ([] ++ (n.toList ++ '>' :: cs)) fun vs =>
        ∃ colon : View, vs = [colon] ∧ colon.kind = .colon := by
      refine ⟨.colon, [], fun g b => ⟨_, rfl, rfl⟩, fun e gap hg he => ?_⟩
      exact lexes_operator (c := ':') rfl (by simp) (by simp) hg he
    have := ((chokes_name h hh cs).after rfl hp
      (by rintro - _ s ⟨colon, rfl, hc⟩; simp [pass, hc]; rfl)).after_false
    simpa [Target.render] using this
  | app a =>
    have := chokes_plain h.1 hh cs
    rwa [← App.render_of_nil h.2] at this

/-- A condition and an arrow before a target that chokes. -/
theorem chokes_transition {t : Transition} (h : t.condition.IsWritable ∧ t.target.IsWritable)
    (hh : endsHyphen t.target.lastName? = true) (cs : List Char) :
    Chokes true (t.condition.render.toList ++ ['-', '>'] ++ t.target.render.toList) ('>' :: cs) := by
  refine @Chokes.after _ _ _ _ [] _ (chokes_target h.2 hh cs) rfl (prints_sign h.1) ?_
  rintro - _ s ⟨sign, arrow, rfl, -, ha⟩
  simp [pass, ha]
  rfl

theorem render_append_transition (a : App) (ts : List Transition) (t : Transition)
    (h : a.transitions = ts ++ [t]) : a.render.toList = ({ a with transitions := ts } : App).render.toList ++
      ([' '] ++ (t.condition.render.toList ++ ['-', '>'] ++ t.target.render.toList)) := by
  cases a
  cases t
  subst h
  simp [App.render, toList_renderTransitions, Transition.render]

theorem chokes_app {a : App} (h : a.IsWritable) (hh : endsHyphen a.lastName? = true)
    (cs : List Char) : Chokes false a.render.toList ('>' :: cs) := by
  obtain hts | ⟨ts, t, hts⟩ := a.transitions.eq_nil_or_concat
  · rw [App.lastName?, hts] at hh
    rw [App.render_of_nil hts]
    exact chokes_plain h.plain hh cs
  · rw [List.concat_eq_append] at hts
    have ht : t ∈ a.transitions := by simp [hts]
    have hinit : ({ a with transitions := ts } : App).IsWritable :=
      ⟨⟨h.plain.label, h.plain.name, h.plain.arguments⟩, fun u hu => h.transitions u (by simp [hts, hu])⟩
    rw [App.lastName?, hts, List.getLast?_append] at hh
    rw [render_append_transition a ts t hts]
    exact ((chokes_transition (h.transitions t ht) hh cs).after rfl (prints_app hinit (.blank _))
      (by simp)).after_false

/-! ## Splits that end in a hyphen -/

theorem exists_first {α : Type} {p : α → Bool} {as : List α} (h : ¬ ∀ a ∈ as, p a = true) :
    ∃ before a after, as = before ++ a :: after ∧ (∀ b ∈ before, p b = true) ∧ p a = false := by
  cases hf : as.find? fun a => !p a with
  | none => exact absurd (fun a ha => by simpa using List.find?_eq_none.mp hf a ha) h
  | some a =>
    obtain ⟨hp, before, after, hs, hb⟩ := List.find?_eq_some_iff_append.mp hf
    exact ⟨before, a, after, hs, fun b hm => by simpa using hb b hm, by simpa using hp⟩

theorem prints_some_element {levels : Nat} {e : Element}
    (h : e.IsWritable (Sequence.IsWritable levels)) (hc : e.closes = true) (cs : List Char) :
    ∃ F, Prints e.render.toList (" && ".toList ++ cs) F :=
  ⟨_, prints_element h hc (fun h hc _ hr => prints_sequence h hc hr) (.blank _)⟩

theorem chokes_last_element {levels : Nat} {b : Sequence} (h : b.IsWritable levels)
    (hc : b.closes = true) (hh : endsHyphen b.lastName? = true) (cs : List Char) :
    Chokes false b.render.toList ('>' :: cs) := by
  cases levels with
  | zero => cases h
  | succ levels =>
    obtain ⟨es, start, stop⟩ := b
    obtain ⟨hne, h⟩ := h
    have hc : ∀ e ∈ es, e.closes = true := elementsClose_iff.mp hc
    obtain rfl | ⟨before, e, rfl⟩ := es.eq_nil_or_concat
    · exact absurd rfl hne
    · rw [List.concat_eq_append] at h hc hh ⊢
      rw [Sequence.render, renderElements_eq_map]
      refine chokes_separated cut_andAnd (by simp; rfl)
        (fun e he => prints_some_element (h e (by simp [he])) (hc e (by simp [he]))) ?_
      have he := h e (by simp)
      cases e with
      | app a => exact chokes_app he (by simpa [Sequence.lastName?, Element.lastName?] using hh) cs
      | split p => simp [Sequence.lastName?, Element.lastName?, endsHyphen] at hh

/-- A split that does not close has a branch that does not, or a hyphen behind its last branch. -/
theorem chokes_branches {levels : Nat} {p : Split} (h : p.IsWritable (Sequence.IsWritable levels))
    (hc : p.closes = false) (ih : ∀ {b : Sequence} {rest}, b.IsWritable levels → b.closes = false →
      Chokes true b.render.toList rest) (rest : List Char) :
    Chokes false (" || ".intercalate (p.branches.map Sequence.render)).toList ('>' :: rest) := by
  have hw : ∀ b ∈ p.branches, b.IsWritable levels := h.branches
  by_cases hall : ∀ b ∈ p.branches, b.closes = true
  · obtain hn | ⟨before, b, hb⟩ := p.branches.eq_nil_or_concat
    · exact absurd hn h.nonempty
    · rw [List.concat_eq_append] at hb
      have hlast : endsHyphen b.lastName? = true := by
        refine Bool.not_eq_false _ ▸ fun hh => ?_
        rw [closes_split.mpr ⟨hall, by simpa [hb] using hh⟩] at hc
        cases hc
      rw [hb] at hall hw ⊢
      exact chokes_separated cut_doublePipe (by simp; rfl)
        (fun b hm cs => ⟨_, prints_sequence (hw b (by simp [hm])) (hall b (by simp [hm])) (.blank _)⟩)
        (chokes_last_element (hw b (by simp)) (hall b (by simp)) hlast rest)
  · obtain ⟨before, b, after, hs, hb, hn⟩ := exists_first hall
    rw [hs] at hw ⊢
    exact chokes_separated cut_doublePipe (by simp; rfl)
      (fun b hm cs => ⟨_, prints_sequence (hw b (by simp [hm])) (hb b hm) (.blank _)⟩)
      (ih (hw b (by simp)) hn).after_false

theorem chokes_split {levels : Nat} {p : Split} (h : p.IsWritable (Sequence.IsWritable levels))
    (hc : p.closes = false) (ih : ∀ {b : Sequence} {rest}, b.IsWritable levels → b.closes = false →
      Chokes true b.render.toList rest) (rest : List Char) : Chokes true p.render.toList rest := by
  have hlt : ∀ cs, Prints ['<'] cs fun vs => ∃ lt : View, vs = [lt] ∧ lt.kind = .lt := fun cs =>
    ⟨.lt, [], fun g b => ⟨_, rfl, rfl⟩, fun e gap hg he => lexes_operator (c := '<') rfl (by simp)
      (by simp) hg he⟩
  have hopen : Chokes true ((Label.render p.label).toList ++ ['<'] ++
      (" || ".intercalate (p.branches.map Sequence.render)).toList) (['>'] ++ rest) := by
    refine @Chokes.after _ _ _ _ [] _ (chokes_branches h hc ih rest) rfl
      (prints_labelled h.label (hlt _)) ?_
    rintro - _ s ⟨us, _, rfl, -, lt, rfl, hk⟩
    simp [pass, hk]
    rfl
  have htext : p.render.toList = (Label.render p.label).toList ++ ['<'] ++
      (" || ".intercalate (p.branches.map Sequence.render)).toList ++ ['>'] := by
    cases p
    simp [Split.render, renderBranches_eq_map]
  rw [htext]
  exact hopen.more

theorem chokes_sequence {levels : Nat} {b : Sequence} (h : b.IsWritable levels)
    (hc : b.closes = false) : Chokes true b.render.toList rest := by
  induction levels generalizing b rest with
  | zero => cases h
  | succ levels ih =>
    obtain ⟨es, start, stop⟩ := b
    obtain ⟨-, h⟩ := h
    have hc : ¬ ∀ e ∈ es, e.closes = true := fun hall => by
      rw [Sequence.closes, elementsClose_iff.mpr hall] at hc
      cases hc
    obtain ⟨before, e, after, rfl, hb, hn⟩ := exists_first hc
    rw [Sequence.render, renderElements_eq_map]
    refine chokes_separated cut_andAnd (by simp; rfl)
      (fun e he => prints_some_element (h e (by simp [he])) (hb e he)) ?_
    have he := h e (by simp)
    cases e with
    | app a => cases hn
    | split p => exact chokes_split he hn ih _

/-- A task with a split that ends in a hyphen has an arrow out of place in its text. -/
theorem chokes_render {t : Task} (h : ∀ s ∈ t.sequences, s.IsWritable maxDepth)
    (hc : t.closes = false) : Chokes true t.render.toList [] := by
  obtain ⟨name, text, sequences⟩ := t
  have hc : ¬ ∀ s ∈ sequences, s.closes = true := fun hall => by
    rw [Task.closes, branchesClose_iff.mpr hall] at hc
    cases hc
  obtain ⟨before, s, after, rfl, hb, hn⟩ := exists_first hc
  have hchoke := (@chokes_sequence (after.flatMap (fun s => '\n' :: s.render.toList) ++ []) _ _
    (h s (by simp)) hn).more
  cases before with
  | nil =>
    rw [Task.render, List.nil_append, List.map_cons, toList_intercalate_cons, List.flatMap_map]
    exact hchoke
  | cons b bs =>
    have htext : (Task.mk name text (b :: bs ++ s :: after)).render.toList =
        (Task.mk name text (b :: bs)).render.toList ++ (['\n'] ++
          (s.render.toList ++ after.flatMap fun s => '\n' :: s.render.toList)) := by
      simp [Task.render, toList_intercalate_cons, List.flatMap_map, -String.toList_intercalate]
    rw [htext]
    refine hchoke.after rfl (prints_render (t := ⟨name, text, b :: bs⟩) (by simp)
      (fun c hm => h c (List.mem_append_left _ hm)) (branchesClose_iff.mpr hb) ?_) (by simp)
    exact fun _ c hc => .inr (.inl (by simpa using hc.symm))

end Pipework.Task
