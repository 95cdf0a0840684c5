import Pipework.Proofs.Stream.Extension

/-! What becomes of a stream when the name that its text ends in goes on: the last app has the longer
name, and all else stays. So the text is refused only if the longer name is a label already. -/

namespace Pipework.Token

open Text

/-! ## The last word of a text -/

variable {cs gap name raw more : List Char}

theorem needsQuotes_of_startsName {c : Char} (h : startsName c = true) : needsQuotes c = false := by
  refine Bool.eq_false_iff.mpr fun hq => ?_
  simp only [needsQuotes, isBlank_of_startsName h, Bool.false_or, Bool.or_eq_true, beq_iff_eq] at hq
  obtain (((rfl | rfl) | rfl) | rfl) | rfl := hq <;> exact absurd h (by decide)

theorem cut_value_word (h : isNameWord name = true) :
    cut true name = some (⟨.identifier (String.ofList name), true, false⟩, []) := by
  have hq : name.any needsQuotes = false := List.any_eq_false.mpr fun c hc => by
    obtain hs | rfl := startsName_or_hyphen_of_mem h c hc
    · simp [needsQuotes_of_startsName hs]
    · decide
  have hspans := @spans_bare name [] (by simp [StopsValue]) hq
  have hscan := scanValue_eq_ok.mpr ⟨_, (List.append_nil name).symm, hspans, rfl⟩
  refine cut_eq_some.mpr (.inl ⟨?_, _, hscan, rfl, rfl⟩)
  obtain ⟨c, cs, rfl, -⟩ := isNameWord_iff.mp h
  simp only [List.any_cons, Bool.or_eq_false_iff, needsQuotes] at hq
  simp_all [startsValue, endsValue]

/-- A word at the end of a text is a name, also where a value is expected. -/
theorem cut_word (hn : isNameWord name = true) (hg : gap.all isBlank = true) (expects : Bool) :
    ∃ k, cut expects (gap ++ name) = some (⟨k, gap.isEmpty, gap.contains '\n'⟩, []) ∧
      k.isName = true ∧ k.symbol = String.ofList name := by
  by_cases he : expects = true → gap ≠ []
  · have hcut := @cut_name _ _ [] _ hn trivial hg he
    rw [List.append_nil] at hcut
    exact ⟨_, hcut, Kind.isName_ofName _, Kind.symbol_ofName _⟩
  · rw [Classical.not_imp, not_not] at he
    obtain ⟨rfl, rfl⟩ := he
    exact ⟨_, cut_value_word hn, rfl, rfl⟩

/-- A word that goes on as a longer word starts alike. -/
theorem onset_word (hne : raw ≠ []) (hw : isNameWord (raw ++ more) = true) :
    onset (gap ++ raw) = onset (gap ++ (raw ++ more)) := by
  refine onset_append ?_ gap
  match raw, hne with
  | _ :: _ :: _, _ => rfl
  | [c], _ =>
    have hgt : more.head? ≠ some '>' := fun h => by
      have hm : '>' ∈ more := List.mem_of_head? h
      obtain hs | he := startsName_or_hyphen_of_mem hw '>' (by simp [hm])
      · rw [startsName_gt] at hs
        cases hs
      · cases he
    simp [onset, beq_eq_false_iff_ne.mpr hgt]

/-- A name that a text ends in stands there with white space before it at most. -/
theorem eq_append_of_cut {expects : Bool} {v : View} (h : cut expects cs = some (v, []))
    (hv : v.kind.isName = true) : ∃ gap, cs = gap ++ v.kind.symbol.toList ∧
      gap.all isBlank = true ∧ v.glued = gap.isEmpty ∧ v.kind.symbol.toList ≠ [] := by
  obtain ⟨hs, l, hl, rfl, hrest⟩ | ⟨-, l, hl, rfl, hrest⟩ := cut_eq_some.mp h
  · have hc := (Bool.and_eq_true_iff.mp hs).2
    obtain ⟨happend, hne⟩ := scanValue_append hl
    have hstands := (standsOn_of_scanValue hl hc).eq_name hv
    rw [← hrest, List.append_nil] at happend
    exact ⟨[], by rw [← hstands, happend, List.nil_append], rfl, rfl, hstands ▸ hne hc⟩
  · obtain ⟨happend, hne⟩ := scan_append hl
    have hstands := (standsOn_of_scan hl).eq_name hv
    rw [← hrest, List.append_nil] at happend
    refine ⟨cs.takeWhile isBlank, ?_, List.all_takeWhile, rfl,
      hstands ▸ hne (Kind.ne_eof_of_isName hv)⟩
    rw [← hstands, happend, List.takeWhile_append_dropWhile]

/-- A name at the end of a text can be any longer word. -/
theorem Lexes.exists_longer {us : List View} {w : View} {e : Bool}
    (h : Lexes false cs (us ++ [w]) e []) (hw : w.kind.isName = true) :
    ∃ lead, cs = lead ++ w.kind.symbol.toList ∧ ∀ more,
      isNameWord (w.kind.symbol.toList ++ more) = true → ∃ v : View, v.kind.isName = true ∧
        v.kind.symbol = String.ofList (w.kind.symbol.toList ++ more) ∧ v.glued = w.glued ∧
        ∃ e, Lexes false (lead ++ (w.kind.symbol.toList ++ more)) (us ++ [v]) e [] := by
  obtain ⟨expects, mid, hus, hmid⟩ := h.of_append
  obtain ⟨front, rfl, -, -, hfront⟩ := hus.congr
  cases hmid with
  | cons hcut hk hnil =>
    cases hnil
    obtain ⟨gap, rfl, hg, hglued, hne⟩ := eq_append_of_cut hcut hw
    refine ⟨front ++ gap, by rw [List.append_assoc], fun more hword => ?_⟩
    obtain ⟨k, hcut', hk', hsymbol⟩ := cut_word hword hg expects
    have hlast := Lexes.cons hcut' (Kind.ne_eof_of_isName hk') .nil
    have hall := (hfront _ (onset_word hne hword)).trans hlast
    rw [← List.append_assoc front gap] at hall
    exact ⟨_, hk', hsymbol, hglued.symm, _, hall⟩

end Pipework.Token

namespace Pipework.Stream

open Token Pipework.Parser

/-! ## Views that end in a name -/

/-- The views end in a name with this symbol, and with another name there, however it is written,
they are what `G` says of its symbol. -/
def EndsInName (vs : List View) (symbol : String) (G : String → List View → Prop) : Prop :=
  ∃ (us : List View) (w : View), vs = us ++ [w] ∧ w.kind.isName = true ∧ w.kind.symbol = symbol ∧
    ∀ v : View, v.kind.isName = true → v.glued = w.glued → G v.kind.symbol (us ++ [v])

namespace EndsInName

variable {us vs : List View} {symbol : String} {G G' : String → List View → Prop}

theorem imp (h : EndsInName vs symbol G) (hG : ∀ n vs, G n vs → G' n vs) :
    EndsInName vs symbol G' := by
  obtain ⟨us, w, rfl, hw, hs, h⟩ := h
  exact ⟨us, w, rfl, hw, hs, fun v hv hg => hG _ _ (h v hv hg)⟩

theorem append (us : List View) (h : EndsInName vs symbol fun n vs => G n (us ++ vs)) :
    EndsInName (us ++ vs) symbol G := by
  obtain ⟨vs, w, rfl, hw, hs, h⟩ := h
  refine ⟨us ++ vs, w, (List.append_assoc _ _ _).symm, hw, hs, fun v hv hg => ?_⟩
  rw [List.append_assoc]
  exact h v hv hg

/-- Another name at the end opens no other channel. -/
theorem opensKeyword (h : EndsInName vs symbol G) : EndsInName vs symbol fun n ws =>
    G n ws ∧ Stream.opensKeyword ws = Stream.opensKeyword vs := by
  obtain ⟨us, w, rfl, hw, hs, h⟩ := h
  refine ⟨us, w, rfl, hw, hs, fun v hv hg => ⟨h v hv hg, ?_⟩⟩
  cases us with
  | nil => rfl
  | cons u us =>
    have hcolon : ∀ {k : Kind}, k.isName = true → k ≠ .colon := fun hk =>
      Kind.ne_of_isName hk rfl
    rw [opensKeyword_append (by simp) (by simpa using hcolon hv),
      opensKeyword_append (by simp) (by simpa using hcolon hw)]

theorem of_unglued (h : EndsInName (unglued vs) symbol G) :
    EndsInName vs symbol fun n ws => G n (unglued ws) := by
  obtain ⟨us, w, hu, hw, hs, h⟩ := h
  rcases List.eq_nil_or_concat vs with rfl | ⟨ws, v, rfl⟩
  · simp [unglued] at hu
  rw [List.concat_eq_append] at hu ⊢
  by_cases hws : ws = []
  · subst hws
    obtain ⟨rfl, hlast⟩ := @List.append_inj' _ [] _ _ _ hu rfl
    obtain rfl := List.singleton_inj.mp hlast
    exact ⟨[], v, rfl, hw, hs, fun x hx _ => h ⟨x.kind, false, false⟩ hx rfl⟩
  · rw [unglued_append hws] at hu
    obtain ⟨rfl, hlast⟩ := List.append_inj' hu rfl
    obtain rfl := List.singleton_inj.mp hlast
    refine ⟨ws, v, rfl, hw, hs, fun x hx hg => ?_⟩
    show G _ (unglued (ws ++ [x]))
    rw [unglued_append hws]
    exact h x hx hg

end EndsInName

/-! ## The last app -/

/-- The app under another name. -/
def App.named (a : App) (name : String) : App := { a with name }

section

variable {vs : List View} {last : App} (harg : last.arguments = [])

theorem LabelledName.endsInName {label : Option Label} {name : String}
    (h : LabelledName vs label name) : EndsInName vs name fun n vs => LabelledName vs label n := by
  cases h with
  | plain hn => exact ⟨[], _, rfl, hn, rfl, fun _ hv _ => .plain hv⟩
  | @labelled label colon name hl hc hg hn hb =>
    exact ⟨[label, colon], name, rfl, hn, rfl, fun _ hv hg' => .labelled hl hc hg hv (hg' ▸ hb)⟩

include harg

theorem App.Spells.endsInName (h : last.Spells vs) :
    EndsInName vs last.name fun n vs => (last.named n).Spells vs := by
  obtain ⟨hn, has⟩ := h
  obtain ⟨-, rfl⟩ := Argument.foldl_insert_eq_nil.mp harg
  cases has
  rw [List.append_nil]
  refine hn.endsInName.imp fun n vs hvs => ?_
  have := App.Spells.mk hvs .nil
  rwa [List.append_nil] at this

theorem many_endsInName {separator : Kind} {init : List App}
    (h : Many (After separator App.Spells) vs (init ++ [last])) :
    EndsInName vs last.name fun n vs => Many (After separator App.Spells) vs (init ++ [last.named n]) := by
  obtain ⟨us, ws, rfl, hinit, hlast⟩ := h.exists_append
  cases hlast with
  | @cons ws _ _ _ hi hnil =>
    cases hnil
    obtain @⟨v, ws, _, hv, ha⟩ := hi
    rw [List.append_nil, ← List.singleton_append]
    refine .append us (.append [v] ((ha.endsInName harg).imp fun n vs hvs => ?_))
    exact hinit.append (by simpa using Many.cons (After.mk hv hvs) .nil)

theorem Row.endsInName {init : List App} {unbound : Bool} (h : Row vs (init ++ [last]) unbound) :
    EndsInName vs last.name fun n vs => Row vs (init ++ [last.named n]) unbound := by
  generalize happs : init ++ [last] = apps at h
  cases h with
  | @bound us ws a as ha hm =>
    cases init with
    | nil =>
      obtain ⟨rfl, rfl⟩ := List.cons.inj happs
      cases hm
      rw [List.append_nil]
      refine (ha.endsInName harg).imp fun n vs hvs => ?_
      have := Row.bound hvs .nil
      rwa [List.append_nil] at this
    | cons b init =>
      obtain ⟨rfl, rfl⟩ := List.cons.inj happs
      exact .append us ((many_endsInName harg hm).imp fun n vs hvs => .bound ha hvs)
  | @apart us ws a as ha hm hne =>
    cases init with
    | nil =>
      obtain ⟨-, rfl⟩ := List.cons.inj happs
      exact absurd rfl hne
    | cons b init =>
      obtain ⟨rfl, rfl⟩ := List.cons.inj happs
      exact .append us ((many_endsInName harg hm).imp fun n vs hvs => .apart ha hvs (by simp))

variable {t : Stream} {init : List App} (hsink : t.sink = none) (happs : t.apps = init ++ [last])

include hsink happs

theorem Body.endsInName (h : Body vs t) :
    EndsInName vs last.name fun n vs => Body vs { t with apps := init ++ [last.named n] } := by
  cases h with
  | bridge => cases hsink
  | @row vs us _ apps source _ hs hrow hk hopen =>
    obtain rfl := hsink
    obtain rfl := happs
    cases hk
    rw [List.append_nil]
    refine .append vs ((hrow.endsInName harg).opensKeyword.imp fun n ws ⟨hrow', ho⟩ => ?_)
    have hbody := Body.row hs hrow' .none fun h => ⟨(hopen (ho ▸ h)).1, .inl rfl⟩
    rwa [List.append_nil] at hbody
  | apart hrow =>
    obtain rfl := happs
    exact (hrow.endsInName harg).imp fun n ws hrow' => .apart hrow'

theorem Spells.endsInName (h : Spells vs t) :
    EndsInName vs last.name fun n vs => Spells vs { t with apps := init ++ [last.named n] } := by
  cases h with
  | unnamed hb => exact (hb.endsInName harg hsink happs).imp fun n vs hvs => .unnamed hvs
  | @named name equals vs t hn hk hb =>
    have hbody := Body.endsInName (t := t) harg hsink happs hb
    exact .append [name, equals] (hbody.imp fun n vs hvs => .named hn hk hvs)

end

/-! ## A longer name -/

section

variable {text lead name : String} {s : Stream} {init : List App} {last : App}
  (h : parse text = .ok s) (hsink : s.sink = none) (happs : s.apps = init ++ [last])
  (harg : last.arguments = []) (hblank : Text.endsBlank text.toList = false)
  (htext : text = lead ++ last.name) (hname : isWord name = true)
  (hlonger : Text.startsWith name last.name = true)

include h hsink happs harg hblank htext hname hlonger

/-- Where the text of a stream ends in the name of the last app, it is written like a stream with a
longer word there. -/
theorem exists_spells_longer : ∃ us e, us ≠ [] ∧ Lexes false (lead ++ name).toList us e [] ∧
    Spells (unglued us) { s.withoutPositions with
      apps := init.map App.withoutPosition ++ [(last.named name).withoutPosition] } := by
  obtain ⟨us, e, hne, hs, hl⟩ := exists_spells_of_parse h
  have harg' : last.withoutPosition.arguments = [] := by simp [App.withoutPosition, harg]
  have happs' : s.withoutPositions.apps = init.map App.withoutPosition ++ [last.withoutPosition] := by
    simp [withoutPositions, happs]
  have hends := hs.endsInName harg' (by simp [withoutPositions, hsink]) happs'
  obtain ⟨ws, w, rfl, hw, hsymbol, hrename⟩ := hends.of_unglued
  have htrim : Text.trimEnd text.toList = text.toList := by
    simpa using @trimEnd_append _ [] hblank rfl
  have hlex := hl [] rfl
  rw [htrim, List.append_nil] at hlex
  obtain ⟨lead', hlead, hlonger'⟩ := hlex.exists_longer hw
  obtain ⟨more, hmore⟩ := List.isPrefixOf_iff_prefix.mp hlonger
  have hlast : w.kind.symbol.toList = last.name.toList := congrArg String.toList hsymbol
  rw [hlast] at hlead hlonger'
  obtain rfl : lead' = lead.toList := by
    rw [htext, String.toList_append] at hlead
    exact (List.append_cancel_right hlead).symm
  obtain ⟨v, hv, hvname, hglued, e', hlex⟩ := hlonger' more (hmore ▸ hname)
  rw [hmore, String.ofList_toList] at hvname
  rw [hmore, ← String.toList_append] at hlex
  exact ⟨ws ++ [v], e', by simp, hlex, hvname ▸ hrename v hv hglued⟩

/-- With the longer name the text is refused only if a label is there twice then. -/
theorem parse_longer :
    ((init.map App.labelName ++ [(last.named name).labelName]).Nodup → ∃ m,
        parse (lead ++ name) = .ok m ∧ m.withoutPositions = { s.withoutPositions with
          apps := init.map App.withoutPosition ++ [(last.named name).withoutPosition] }) ∧
      (¬ (init.map App.labelName ++ [(last.named name).labelName]).Nodup → ∃ f,
        parse (lead ++ name) = .error f ∧ f.message = .duplicateLabel) := by
  obtain ⟨us, e, hne, hl, hs⟩ :=
    exists_spells_longer h hsink happs harg hblank htext hname hlonger
  have hlabels : init.map App.labelName ++ [(last.named name).labelName] =
      ({ s.withoutPositions with apps := init.map App.withoutPosition ++
        [(last.named name).withoutPosition] } : Stream).labelNames := by
    simp [labelNames, labelName_withoutPosition]
  rw [hlabels]
  exact ⟨parse_of_lexes hl hne hs fun n hn => isLegalName_of_parse h n hn,
    parse_of_clash hl hne hs fun n hn => isLegalName_of_parse h n hn⟩

end

end Pipework.Stream
