import Pipework.Proofs.Stream.Printing

/-! Which streams that are read can be written, and are read back from their printed text. -/

namespace Pipework.Stream

open Token Pipework.Parser Read

/-! ## Channels -/

theorem isPart_symbol {k : Kind} (hk : isComponent k = true) (hw : k.isName = true → k.IsWord) :
    IsPart k.symbol := by
  cases hn : k.isName with
  | true => exact .inl (hw hn).symbol
  | false => cases k <;> simp_all [isComponent, Kind.isName, Kind.symbol, IsPart]

theorem isPart_of_many {vs : List View} {parts : List String} (h : Many ComponentPart vs parts)
    (hw : ∀ v ∈ vs, v.kind.isName = true → v.kind.IsWord) : ∀ p ∈ parts, IsPart p := by
  induction h with
  | nil => simp
  | cons hi _ ih =>
    obtain ⟨hk, -⟩ := hi
    rw [List.forall_mem_append] at hw
    exact List.forall_mem_cons.mpr ⟨isPart_symbol hk (hw.1 _ (by simp)), ih hw.2⟩

theorem Component.isComponentText {vs : List View} {text : String} (h : Component vs text)
    (hw : ∀ v ∈ vs, v.kind.isName = true → v.kind.IsWord) : IsComponentText text := by
  obtain @⟨first, vs, parts, hk, hm⟩ := h
  rw [List.forall_mem_cons] at hw
  exact ⟨first.kind.symbol :: parts, by simp,
    List.forall_mem_cons.mpr ⟨isPart_symbol hk hw.1, isPart_of_many hm hw.2⟩, by simp⟩

theorem many_isComponentText {vs : List View} {texts : List String}
    (h : Many DottedComponent vs texts) (hw : ∀ v ∈ vs, v.kind.isName = true → v.kind.IsWord) :
    ∀ t ∈ texts, IsComponentText t := by
  induction h with
  | nil => simp
  | cons hi _ ih =>
    obtain ⟨-, -, -, ht⟩ := hi
    rw [List.forall_mem_append, List.forall_mem_cons] at hw
    exact List.forall_mem_cons.mpr ⟨ht.isComponentText hw.1.2, ih hw.2⟩

theorem many_isWord {vs : List View} {names : List String} (h : Many ColonName vs names)
    (hw : ∀ v ∈ vs, v.kind.isName = true → v.kind.IsWord) : ∀ n ∈ names, isWord n = true := by
  induction h with
  | nil => simp
  | cons hi _ ih =>
    obtain ⟨-, -, hn, -⟩ := hi
    rw [List.forall_mem_append] at hw
    exact List.forall_mem_cons.mpr ⟨(hw.1 _ (by simp) hn).symbol, ih hw.2⟩

theorem isComponentText_of_isWord {n : String} (h : isWord n = true) : IsComponentText n :=
  ⟨[n], by simp, by simpa using .inl h, by simp⟩

/-- A labelled tap of the long form has a name with a colon, or the short form says the same. -/
theorem writable_of_spells {isSource : Bool} {v : View} {vs : List View} {ch : Channel}
    (h : SpellsChannel isSource (v :: vs) ch)
    (hw : ∀ v ∈ vs, v.kind.isName = true → v.kind.IsWord)
    (hcolon : ∀ stream label, ch = .tap stream (some label) → ':' ∉ stream.toList) :
    Writable isSource ch := by
  cases h with
  | @destination _ first us ws text texts hk hg hf hm =>
    have hw := List.forall_mem_append.mp hw
    have hc : ∀ t ∈ text :: texts, IsComponentText t :=
      List.forall_mem_cons.mpr ⟨hf.isComponentText hw.1, many_isComponentText hm hw.2⟩
    match texts, hc with
    | [], hc => exact .destination hc (by simp)
    | _ :: _ :: _, hc => exact .destination hc (by simp)
    | [label], hc =>
      cases isSource with
      | false => exact .destination hc (by simp)
      | true => exact .labelledTap rfl (hc text (by simp)) (hc label (by simp))
  | @named _ _ kind names hword hn hne =>
    match names, hne with
    | n :: ns, _ => exact .named (many_isWord hn hw)
  | tap hs hword hn => exact .tap hs fun n h => many_isWord hn hw n (List.mem_cons_of_mem _ h)
  | @labelledTap _ dot name us stream more hs hword hn hd hg hi hg' =>
    have hw := List.forall_mem_append.mp hw
    have hstream := many_isWord hn hw.1
    obtain rfl : more = [] := by
      cases more with
      | nil => rfl
      | cons m ms => exact absurd (by simp) (hcolon _ _ rfl)
    rw [String.intercalate_singleton]
    exact .labelledTap hs (isComponentText_of_isWord (hstream stream (by simp)))
      (isComponentText_of_isWord (hw.2 name (by simp) hi).symbol)

/-! ## Apps -/

/-- What the label and the name of an app are. -/
theorem isWord_of_labelledName {e : Bool} {vs : List View} {label : Option Label} {name : String}
    (h : LabelledName vs label name) (hl : Lexed e vs) :
    (∀ l ∈ label, isWord l.name = true) ∧ (e = false → isWord name = true) ∧
      endsEquals e vs = false := by
  cases h with
  | plain hn =>
    refine ⟨by simp, fun he => ?_, beq_eq_false_iff_ne.mpr (Kind.ne_of_isName hn rfl)⟩
    subst he
    exact ((hl.1 hn).resolve_right (by simp)).symbol
  | @labelled label colon name hn hc hg hn' =>
    obtain ⟨hw, -, hl⟩ := hl
    rw [hc] at hl
    refine ⟨?_, fun _ => ((hl.1 hn').resolve_right (by simp)).symbol,
      beq_eq_false_iff_ne.mpr (Kind.ne_of_isName hn' rfl)⟩
    rintro l ⟨⟩
    refine ((hw hn).resolve_right fun ⟨_, _, h⟩ => ?_).symbol
    have := h colon rfl hg
    rw [hc] at this
    cases this

theorem isWritable_of_spells {e : Bool} {vs : List View} {a : App} (h : a.Spells vs)
    (hl : Lexed e vs) (hn : e = true → isWord a.name = true) :
    a.IsWritable ∧ endsEquals e vs = false := by
  obtain ⟨hname, harg⟩ := h
  obtain ⟨h₁, h₂⟩ := hl.of_append
  obtain ⟨hlabel, hw, he⟩ := isWord_of_labelledName hname h₁
  rw [he] at h₂
  obtain ⟨hd, he'⟩ := Argument.many_isDottedWord harg h₂
  refine ⟨⟨hlabel, ?_, Argument.forall_mem_foldl_insert (by simp) hd,
    Argument.nodup_foldl_insert (by simp)⟩, ?_⟩
  · cases e with
    | false => exact hw rfl
    | true => exact hn rfl
  · rw [endsEquals_append, he, he']

theorem many_isWritable {separator : Kind} {vs : List View} {as : List App}
    (h : Many (After separator App.Spells) vs as) (hk : separator ≠ .equals) (hl : Lexed false vs) :
    (∀ a ∈ as, a.IsWritable) ∧ endsEquals false vs = false := by
  induction h with
  | nil => exact ⟨by simp, rfl⟩
  | cons hi _ ih =>
    obtain ⟨hv, ha⟩ := hi
    obtain ⟨⟨-, h₁⟩, h₂⟩ := hl.of_append
    rw [hv, beq_eq_false_iff_ne.mpr hk] at h₁
    obtain ⟨hw, he⟩ := isWritable_of_spells ha h₁ (by simp)
    rw [endsEquals, hv, beq_eq_false_iff_ne.mpr hk, he] at h₂
    refine ⟨List.forall_mem_cons.mpr ⟨hw, (ih h₂).1⟩, ?_⟩
    rw [endsEquals_append, endsEquals, hv, beq_eq_false_iff_ne.mpr hk, he, (ih h₂).2]

/-- The apps of a row can be written, at least from the second on. -/
theorem Row.isWritable {e : Bool} {vs : List View} {as : List App} {unbound : Bool}
    (h : Row vs as unbound) (hl : Lexed e vs)
    (hn : e = true → ∀ a ∈ as.head?, isWord a.name = true) :
    (∀ a ∈ as, a.IsWritable) ∧ endsEquals e vs = false := by
  obtain ⟨us, ws, a, bs, separator, rfl, rfl, ha, hk, hm⟩ := h.exists_first
  obtain ⟨h₁, h₂⟩ := hl.of_append
  obtain ⟨hw, he⟩ := isWritable_of_spells ha h₁ fun h => hn h a rfl
  rw [he] at h₂
  obtain ⟨hws, he'⟩ := many_isWritable hm (by obtain rfl | rfl := hk <;> simp) h₂
  exact ⟨List.forall_mem_cons.mpr ⟨hw, hws⟩, by rw [endsEquals_append, he, he']⟩

theorem opensKeyword_of_isKeyword {e : Bool} {vs : List View} {as : List App} {unbound : Bool}
    (h : Row vs as unbound) (hl : Lexed e vs) {a : App} (ha : a ∈ as.head?) {l : Label}
    (hlabel : l ∈ a.label) (hk : isKeyword l.name = true) : opensKeyword vs = true := by
  obtain ⟨us, ws, b, bs, separator, rfl, rfl, hb, -⟩ := h.exists_first
  obtain rfl := Option.some.inj ha
  obtain ⟨hname, -⟩ := hb
  cases hname with
  | plain => cases hlabel
  | @labelled label colon name hn hc hg hn' =>
    obtain rfl := Option.some.inj hlabel
    obtain ⟨w, -, hw⟩ : label.kind.IsWord := by
      refine (hl.1 hn).resolve_right fun ⟨_, _, h⟩ => ?_
      have := h colon rfl hg
      rw [hc] at this
      cases this
    have hkind : label.kind = .identifier label.kind.symbol := by
      simp only [isKeyword, hw, Kind.symbol_ofName, Bool.or_eq_true, beq_iff_eq] at hk ⊢
      rw [← @String.toList_ofList w]
      obtain (h | h) | h := hk <;> rw [h] <;> decide
    simp only [isKeyword, Bool.or_eq_true, beq_iff_eq] at hk
    obtain (h | h) | h := hk <;> rw [h] at hkind <;> simp [opensKeyword, hkind, hc, hg]

/-! ## Streams -/

/-- What it takes to read a stream back from its printed text, other than having been read: the
first app, which right after the `=` of a name can have any value for its name, has a word, and no
labelled tap is on a name with colons. -/
structure IsRereadable (s : Stream) : Prop where
  name : ∀ a ∈ s.apps.head?, isWord a.name = true
  tap : ∀ e ∈ s.source, ∀ stream label, e.channel = .tap stream (some label) → ':' ∉ stream.toList

theorem writable_of_lexed {isSource e : Bool} {vs : List View} {ch : Channel}
    (h : SpellsChannel isSource vs ch)
    (hl : Lexed e vs)
    (hcolon : ∀ stream label, ch = .tap stream (some label) → ':' ∉ stream.toList) :
    Writable isSource ch ∧ endsEquals e vs = false := by
  have hq : ∀ v ∈ vs, v.kind ≠ .equals := fun v hv he => by
    have := h.kinds v hv
    rw [he] at this
    cases this
  match vs, hq with
  | [], _ => cases h
  | v :: vs, hq =>
    rw [List.forall_mem_cons] at hq
    obtain ⟨-, hl⟩ := hl
    rw [beq_eq_false_iff_ne.mpr hq.1] at hl
    refine ⟨writable_of_spells h (hl.words hq.2) hcolon, ?_⟩
    rw [endsEquals, beq_eq_false_iff_ne.mpr hq.1, endsEquals_of_notMem hq.2]

theorem writable_sink {vs : List View} {ch : Channel} (h : SpellsChannel false vs ch)
    (hl : Lexed false vs) : Writable false ch :=
  (writable_of_lexed h hl fun _ _ hch => absurd hch (h.ne_tap _ _)).1

theorem writable_of_source {e : Bool} {vs : List View} {source : Option Endpoint}
    (h : SpellsSource vs source) (hl : Lexed e vs)
    (hcolon : ∀ e ∈ source, ∀ stream label, e.channel = .tap stream (some label) →
      ':' ∉ stream.toList) : ∀ e ∈ source, Writable true e.channel := by
  cases h with
  | none => simp
  | some hch hgt =>
    rintro t ⟨⟩
    exact (writable_of_lexed hch hl.of_append.1 (hcolon _ rfl)).1

theorem writable_of_sink {vs : List View} {sink : Option Endpoint} (h : SpellsSink vs sink)
    (hl : Lexed false vs) : ∀ e ∈ sink, Writable false e.channel := by
  cases h with
  | none => simp
  | some hgt hch =>
    rintro t ⟨⟩
    obtain ⟨-, hl⟩ := hl
    rw [hgt] at hl
    exact writable_sink hch hl

theorem App.isWritable_bridge (offset : Nat) : (App.bridge offset).withoutPosition.IsWritable where
  label := by simp [App.withoutPosition, App.bridge]
  name := by simp [App.withoutPosition, App.bridge]; decide
  arguments := by simp [App.withoutPosition, App.bridge]
  distinct := by simp [App.withoutPosition, App.bridge]

theorem Body.isWritable {e : Bool} {vs : List View} {s : Stream} (h : Body vs s) (hl : Lexed e vs)
    (hr : s.IsRereadable) (hd : s.labelNames.Nodup) : s.IsWritable := by
  cases h with
  | @bridge gt vs ws source sink hs hgt hk =>
    obtain ⟨hl₁, -, hl₂⟩ := hl.of_append
    rw [hgt] at hl₂
    exact
      { name := by simp
        apps := by simpa using App.isWritable_bridge 0
        nonempty := by simp
        distinct := hd
        unbound := by simp
        source := by
          rintro t ⟨⟩
          exact (writable_of_lexed hs hl₁ (hr.tap _ rfl)).1
        sink := by
          rintro t ⟨⟩
          exact writable_sink hk hl₂
        keyword := by rintro a ⟨⟩; simp [App.withoutPosition, App.bridge] }
  | @row vs us ws apps source sink hs hrow hk hopen =>
    rw [List.append_assoc] at hl
    obtain ⟨hl₁, hl₂⟩ := hl.of_append
    obtain ⟨hl₂, hl₃⟩ := hl₂.of_append
    obtain ⟨happs, he'⟩ := hrow.isWritable hl₂ fun _ => hr.name
    rw [he'] at hl₃
    exact
      { name := by simp
        apps := happs
        nonempty := hrow.apps_ne_nil
        distinct := hd
        unbound := by simp
        source := writable_of_source hs hl₁ hr.tap
        sink := writable_of_sink hk hl₃
        keyword := fun a ha l hlabel hkey =>
          hopen (opensKeyword_of_isKeyword hrow hl₂ ha hlabel hkey) }
  | @apart us apps hrow =>
    exact
      { name := by simp
        apps := (hrow.isWritable hl fun _ => hr.name).1
        nonempty := hrow.apps_ne_nil
        distinct := hd
        unbound := fun _ => ⟨hrow.two_le_length, rfl, rfl⟩
        source := by simp
        sink := by simp
        keyword := fun _ _ _ _ _ => ⟨rfl, .inl rfl⟩ }

theorem App.isWritable_of_withoutPosition {a : App} (h : a.withoutPosition.IsWritable) :
    a.IsWritable where
  label l hl := h.label l.withoutPosition (by simp [withoutPosition, Option.mem_def.mp hl])
  name := h.name
  arguments x hx := h.arguments x.withoutPosition (List.mem_map_of_mem hx)
  distinct := by simpa [withoutPosition, Function.comp_def, Argument.withoutPosition] using h.distinct

theorem isWritable_of_withoutPositions {s : Stream} (h : s.withoutPositions.IsWritable) :
    s.IsWritable where
  name := h.name
  apps a ha := App.isWritable_of_withoutPosition (h.apps _ (List.mem_map_of_mem ha))
  nonempty := by simpa [withoutPositions] using h.nonempty
  distinct := labelNames_withoutPositions s ▸ h.distinct
  unbound hu := by simpa [withoutPositions] using h.unbound hu
  source e he := h.source e.withoutPosition (by simp [withoutPositions, Option.mem_def.mp he])
  sink e he := h.sink e.withoutPosition (by simp [withoutPositions, Option.mem_def.mp he])
  keyword a ha l hl hk := by
    have := h.keyword a.withoutPosition (by simp [withoutPositions, List.head?_map, Option.mem_def.mp ha])
      l.withoutPosition (by simp [App.withoutPosition, Option.mem_def.mp hl]) hk
    simpa [withoutPositions] using this

theorem isRereadable_withoutPositions {s : Stream} :
    s.withoutPositions.IsRereadable ↔ s.IsRereadable := by
  constructor
  · intro h
    exact ⟨fun a ha => h.name a.withoutPosition
        (by simp [withoutPositions, List.head?_map, Option.mem_def.mp ha]),
      fun e he => h.tap e.withoutPosition (by simp [withoutPositions, Option.mem_def.mp he])⟩
  · intro h
    constructor
    · intro a ha
      rw [withoutPositions, List.head?_map] at ha
      obtain ⟨b, hb, rfl⟩ := Option.map_eq_some_iff.mp ha
      exact h.name b hb
    · intro e he
      obtain ⟨t, ht, rfl⟩ := Option.map_eq_some_iff.mp he
      exact h.tap t ht

/-- A stream that is read can be written if it can be reread. -/
theorem isWritable_of_parse {text : String} {s : Stream} (h : parse text = .ok s)
    (hr : s.IsRereadable) : s.IsWritable := by
  obtain ⟨ws, us, v, t, hl, hu, hv, hs, ht, hlegal, hd⟩ := spells_of_parseNamed h
  have ht : s.withoutPositions = t := by simpa using ht
  have hlexed : Lexed false us := (hu ▸ lexed_unglued (lexed_of_lexesAll hl)).of_append.1
  refine isWritable_of_withoutPositions ?_
  rw [← isRereadable_withoutPositions] at hr
  rw [← labelNames_withoutPositions] at hd
  change ∀ n ∈ s.withoutPositions.name, Text.isLegalName n = true at hlegal
  rw [ht] at hr hd hlegal ⊢
  cases hs with
  | unnamed hb => exact hb.isWritable hlexed hr hd
  | @named name equals vs b hn hk hb =>
    obtain ⟨-, -, hlexed⟩ := hlexed
    have hb := hb.isWritable hlexed ⟨hr.name, hr.tap⟩ hd
    exact { hb with name := hlegal }

/-! ## What is reread can be written -/

theorem glued_eq_false_of_cut {e : Bool} {c : Char} {cs rest : List Char} {v : View}
    (h : cut e (c :: cs) = some (v, rest)) (hc : Text.isBlank c = true) : v.glued = false := by
  obtain ⟨hs, -⟩ | ⟨-, l, -, rfl, -⟩ := cut_eq_some.mp h
  · simp [startsValue, endsValue, hc] at hs
  · simp [hc]

/-- How the views of a body start, given what the text starts with. -/
theorem exists_cut {e : Bool} {cs : List Char} {ws us : List View} {v : View}
    (h : LexesAll e cs ws) (hw : ws = us ++ [v]) (hne : us ≠ []) :
    ∃ w vs rest, us = w :: vs ∧ cut e cs = some (w, rest) := by
  match us, hne with
  | u :: us, _ =>
    cases h with
    | last => simp at hw
    | cons hc _ _ =>
      obtain ⟨rfl, -⟩ := List.cons.inj hw
      exact ⟨_, us, _, rfl, hc⟩

/-- The first view of the body of a printed stream that is read back: after a name there is white
space before it. -/
theorem exists_body_of_reparse {s m : Stream} (hname : ∀ n ∈ s.name, Text.isLegalName n = true)
    (h : parse s.render = .ok m) (hm : m.withoutPositions = s.withoutPositions) :
    ∃ e gap v rest w vs, gap.all Text.isBlank = true ∧ (e = true → gap ≠ []) ∧
      cut e (gap ++ s.renderBody.toList) = some (v, rest) ∧ w.kind = v.kind ∧
      (e = true → w.glued = false) ∧ Lexed e (w :: vs) ∧ Body (w :: vs) s.withoutName := by
  obtain ⟨ws, us, v, t, hl, hu, hv, hs, ht, -, -⟩ := spells_of_parseNamed h
  have ht : s.withoutPositions = t := by simpa [hm] using ht
  have hlexed : Lexed false us := (hu ▸ lexed_unglued (lexed_of_lexesAll hl)).of_append.1
  cases hs with
  | unnamed hb =>
    have hnone : s.name = none := by rw [← hb.name_eq, ← ht]; rfl
    have hbody : s.withoutName = t := by rw [← ht]; simp [withoutName, withoutPositions, hnone]
    rw [← hbody] at hb
    rw [render, hnone, renderName, String.empty_append] at hl
    rcases us with _ | ⟨u, us⟩
    · exact absurd rfl hb.ne_nil
    rcases ws with _ | ⟨w, ws⟩
    · cases hu
    obtain ⟨rfl, rfl⟩ := List.cons.inj hu
    obtain ⟨w', vs, rest, hw', hc⟩ := exists_cut hl (List.cons_append ..).symm (by simp)
    obtain ⟨rfl, rfl⟩ := List.cons.inj hw'
    exact ⟨false, [], w, rest, ⟨w.kind, false, false⟩, us, rfl, by simp, hc, rfl, by simp, hlexed, hb⟩
  | @named name equals us b hn hk hb =>
    have hsome : s.name = some name.kind.symbol := congrArg Stream.name ht
    have hbody : s.withoutName = b := by
      have := congrArg (fun t : Stream => ({ t with name := none } : Stream)) ht
      exact this.trans (by rw [← hb.name_eq])
    rw [← hbody] at hb
    have hw := isWord_of_isLegalName (hname _ hsome)
    have hlex := @lexes_name_equals false [] (' ' :: s.renderBody.toList) _ hw rfl (by simp)
    have htext : s.render.toList =
        [] ++ (name.kind.symbol.toList ++ ' ' :: '=' :: ' ' :: s.renderBody.toList) := by
      simp [render, renderName, hsome]
    rw [htext] at hl
    obtain ⟨ws', rfl, hl'⟩ := hlex.all_iff.mp hl
    have hws : ws' = us ++ [v] := (List.cons.inj (List.cons.inj hu).2).2
    obtain ⟨w, vs, rest, rfl, hc⟩ := exists_cut hl' hws hb.ne_nil
    have hg := glued_eq_false_of_cut hc (by decide)
    obtain ⟨-, -, hlexed⟩ := hlexed
    rw [hk] at hlexed
    exact ⟨true, [' '], w, rest, w, vs, rfl, by simp, hc, rfl, fun _ => hg, hlexed, hb⟩

/-- The first app of a row has a word for its name unless its name is a value. -/
theorem Row.isWord_name {e : Bool} {vs : List View} {as : List App} {unbound : Bool}
    (h : Row vs as unbound) (hl : Lexed e vs) (hg : e = true → ∀ v ∈ vs.head?, v.glued = false) :
    ∀ a ∈ as.head?, isWord a.name = true := by
  obtain ⟨us, ws, a, bs, separator, rfl, rfl, ha, -⟩ := h.exists_first
  rintro b ⟨⟩
  obtain ⟨hname, -⟩ := ha
  cases hname with
  | @plain name hn =>
    refine ((hl.1 hn).resolve_right fun ⟨he, hglued, _⟩ => ?_).symbol
    rw [hg he name rfl] at hglued
    cases hglued
  | @labelled label colon name hn hc hg' hn' =>
    obtain ⟨-, -, hl⟩ := hl
    rw [hc] at hl
    exact ((hl.1 hn').resolve_right (by simp)).symbol

theorem notMem_of_isComponentText {named : Bool} {cs : List Char}
    (h : isComponentText named cs = true) : ':' ∉ cs := by
  induction cs generalizing named with
  | nil => simp
  | cons c cs ih =>
    rw [isComponentText] at h
    rw [List.mem_cons, not_or]
    split at h
    · next hs =>
      refine ⟨?_, ih h⟩
      rintro rfl
      exact absurd hs (by decide)
    · split at h
      · next hm =>
        rw [Bool.and_eq_true] at h
        exact ⟨by rintro rfl; simp at hm, ih h.2⟩
      · rw [Bool.and_eq_true] at h
        exact ⟨by rintro rfl; simp at h, ih h.2⟩

/-- The short form of a labelled tap names a stream without colons. -/
theorem notMem_of_spells {e : Bool} {v : View} {vs : List View} {ch : Channel}
    (h : SpellsChannel true (v :: vs) ch) (hk : v.kind = .colon) (hl : Lexed e (v :: vs))
    (stream label : String) (hch : ch = .tap stream (some label)) : ':' ∉ stream.toList := by
  cases h with
  | named hw | tap _ hw | labelledTap _ hw => simp [hk] at hw
  | @destination _ first us ws text texts _ _ hf hm =>
    have hq : ∀ v ∈ first :: us, v.kind ≠ .equals := fun v hv he => by
      have := hf.kinds v hv
      rw [he] at this
      cases this
    obtain ⟨-, hl⟩ := hl
    rw [hk] at hl
    have hc := hf.isComponentText (hl.of_append.1.words hq)
    match texts, hch with
    | [_], hch =>
      obtain ⟨rfl, -⟩ := Channel.tap.inj hch
      exact notMem_of_isComponentText hc.toList.2
    | [], hch | _ :: _ :: _, hch => cases hch

/-- A labelled tap in front that begins with a colon is in the short form. -/
theorem notMem_of_front {e : Bool} {v : View} {vs ws us : List View} {ch : Channel}
    (h : SpellsChannel true ws ch) (hv : v :: vs = ws ++ us) (hl : Lexed e (v :: vs))
    (hk : ∀ stream label, ch = .tap stream (some label) → v.kind = .colon) :
    ∀ stream label, ch = .tap stream (some label) → ':' ∉ stream.toList := by
  intro stream label hch
  rw [hv] at hl
  match ws with
  | [] => cases h
  | w :: ws =>
    obtain ⟨rfl, -⟩ := List.cons.inj hv
    exact notMem_of_spells h (hk _ _ hch) hl.of_append.1 _ _ hch

theorem Body.isRereadable {e : Bool} {v : View} {vs : List View} {t : Stream}
    (h : Body (v :: vs) t) (hl : Lexed e (v :: vs)) (hg : e = true → v.glued = false)
    (hk : ∀ e ∈ t.source, ∀ stream label, e.channel = .tap stream (some label) → v.kind = .colon) :
    t.IsRereadable := by
  generalize hus : v :: vs = us at h
  cases h with
  | @bridge gt vs' ws src snk hs hgt _ =>
    refine ⟨by rintro a ⟨⟩; decide, ?_⟩
    rintro t ⟨⟩
    exact notMem_of_front hs hus hl (hk _ rfl)
  | @row vs' us' ws apps src snk hs hrow _ _ =>
    cases hs with
    | none =>
      rw [List.nil_append] at hus
      rw [hus] at hl
      refine ⟨hrow.isWord_name hl.of_append.1 fun he u hu => ?_, by simp⟩
      match us', hrow.ne_nil with
      | u :: us', _ =>
        obtain rfl := Option.some.inj hu
        obtain ⟨rfl, -⟩ := List.cons.inj hus
        exact hg he
    | @some gt vs'' ch hch hgt =>
      refine ⟨?_, ?_⟩
      · rw [hus, List.append_assoc] at hl
        have hl := hl.of_append.2
        rw [endsEquals_append, endsEquals, hgt] at hl
        exact hrow.isWord_name hl.of_append.1 (by simp [endsEquals])
      · rintro t ⟨⟩
        exact notMem_of_front hch (hus.trans (by simp [List.append_assoc]; rfl)) hl (hk _ rfl)
  | apart hrow =>
    subst hus
    exact ⟨hrow.isWord_name hl (by rintro h w ⟨⟩; exact hg h), by simp⟩

/-- A stream fed by a labelled tap is printed from the colon on. -/
theorem exists_colon {s : Stream} {source : Endpoint} {stream label : String}
    (hs : s.source = some source) (hch : source.channel = .tap stream (some label)) :
    ∃ cs, s.renderBody.toList = ':' :: cs := by
  unfold renderBody
  rw [hs]
  cases s.sink with
  | none => simp [hch, Channel.render]
  | some sink =>
    simp only
    split <;> simp [hch, Channel.render]

theorem isRereadable_of_reparse {s m : Stream} (hname : ∀ n ∈ s.name, Text.isLegalName n = true)
    (h : parse s.render = .ok m) (hm : m.withoutPositions = s.withoutPositions) :
    s.IsRereadable := by
  obtain ⟨e, gap, v, rest, w, vs, hgap, he, hc, hk, hg, hl, hb⟩ := exists_body_of_reparse hname h hm
  rw [← isRereadable_withoutPositions]
  have hb := hb.isRereadable hl hg ?_
  · exact ⟨hb.name, hb.tap⟩
  · intro t ht stream label hch
    obtain ⟨source, hsource, rfl⟩ := Option.map_eq_some_iff.mp ht
    obtain ⟨cs, hcs⟩ := exists_colon hsource hch
    rw [hcs, cut_operator (show operator? ':' = some .colon from rfl) hgap he] at hc
    rw [hk, ← (Prod.mk.inj (Option.some.inj hc)).1]

/-! ## The round trip -/

theorem App.render_withoutPosition (a : App) : a.withoutPosition.render = a.render := by
  have ha : Argument.render ∘ Argument.withoutPosition = Argument.render := rfl
  cases hl : a.label <;>
    simp [App.render, App.withoutPosition, Label.render, Label.withoutPosition, Argument.renderAll,
      hl, ha]

theorem isBridge_withoutPositions (s : Stream) : s.withoutPositions.isBridge = s.isBridge := by
  unfold isBridge withoutPositions
  match s.apps with
  | [] | _ :: _ :: _ => simp
  | [a] => simp [App.isBridge, App.withoutPosition]

/-- Positions are not printed. -/
theorem render_withoutPositions (s : Stream) : s.withoutPositions.render = s.render := by
  have ha : App.render ∘ App.withoutPosition = App.render := funext App.render_withoutPosition
  have hb := isBridge_withoutPositions s
  unfold render renderBody
  rw [hb]
  simp only [withoutPositions, List.map_map, ha]
  cases s.source <;> cases s.sink <;> rfl

/-- The stream that a text is read as is read back from its printed text exactly if its first app has
a word for its name and no labelled tap is on a name with colons. -/
theorem reparses_iff_isRereadable {text : String} {s : Stream} (h : parse text = .ok s) :
    (∃ m, parse s.render = .ok m ∧ m.sameShape s = true ∧ m.render = s.render) ↔
      s.IsRereadable := by
  constructor
  · rintro ⟨m, hm, hs, -⟩
    obtain ⟨-, -, -, -, -, -, -, -, -, hlegal, -⟩ := spells_of_parseNamed h
    exact isRereadable_of_reparse hlegal hm (by simpa [sameShape] using hs)
  · intro hr
    obtain ⟨m, hm, hs⟩ := parse_of_isWritable (isWritable_of_parse h hr)
    refine ⟨m, hm, by simpa [sameShape] using hs, ?_⟩
    rw [← render_withoutPositions m, hs, render_withoutPositions]

theorem reparses_time_to_log : ∃ s, parse "n = time --x=1 | log" = .ok s ∧
    ∃ m, parse s.render = .ok m ∧ m.sameShape s = true ∧ m.render = s.render := by
  obtain ⟨s, hs, hw⟩ : ∃ s, (parse "n = time --x=1 | log").toOption = some s ∧
      (s.apps.head?.all fun a => isWord a.name) = true ∧ s.source = none := by decide +kernel
  refine ⟨s, toOption_eq_some.mp hs, (reparses_iff_isRereadable (toOption_eq_some.mp hs)).mpr ⟨?_, ?_⟩⟩
  · exact fun a ha => by simpa [Option.mem_def.mp ha] using hw.1
  · simp [hw.2]

/-- Right after `=` the name of an app is read as a value, and is printed after a space. -/
theorem not_reparsed_after_equals : ∃ s, parse "n=a.b | log" = .ok s ∧
    s.render = "n = a.b | log" ∧ ¬ ∃ m, parse s.render = .ok m := by
  obtain ⟨s, hs, hr⟩ : ∃ s, (parse "n=a.b | log").toOption = some s ∧ s.render = "n = a.b | log" := by
    decide +kernel
  refine ⟨s, toOption_eq_some.mp hs, hr, ?_⟩
  rintro ⟨m, hm⟩
  rw [hr, ← toOption_eq_some, show (parse "n = a.b | log").toOption = none by decide +kernel] at hm
  cases hm

end Pipework.Stream
