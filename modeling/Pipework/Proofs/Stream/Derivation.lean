import Pipework.Proofs.Stream.Following

/-! The grammar of streams over tokens with positions. What it derives is what is written, with every
part spanning its tokens; and what the parser of streams reads is derived. -/

namespace Pipework.Stream

open Token Pipework.Parser Read

/-! ## The grammar -/

/-- The label of an app, if it has one, and the token of its name. -/
inductive DerivesName : List Sight → Option Label → Sight → Prop
  | plain {name : Sight} : name.kind.isName = true → DerivesName [name] none name
  | labelled {label colon name : Sight} : label.kind.isName = true → colon.kind = .colon →
      colon.glued = true → name.kind.isName = true → name.glued = false →
      DerivesName [label, colon, name] (some ⟨label.kind.symbol, label.start, colon.stop⟩) name

/-- An app; of two arguments of one name, the later gives the value. -/
inductive App.Derives : List Sight → App → Prop
  | mk {vs ws : List Sight} {label : Option Label} {name : Sight} {arguments : List Argument} :
      DerivesName vs label name → Many Argument.Derives ws arguments →
      App.Derives (vs ++ ws) ⟨label, name.kind.symbol, arguments.foldl Argument.insert [],
        startOf (vs ++ ws), stopOf (vs ++ ws)⟩

/-- Apps in a row, and whether they are side by side; one app alone is not. -/
inductive DerivesRow : List Sight → List App → Bool → Prop
  | bound {vs ws : List Sight} {a : App} {as : List App} : a.Derives vs →
      Many (Behind .pipe App.Derives) ws as → DerivesRow (vs ++ ws) (a :: as) false
  | apart {vs ws : List Sight} {a : App} {as : List App} : a.Derives vs →
      Many (Behind .doublePipe App.Derives) ws as → as ≠ [] → DerivesRow (vs ++ ws) (a :: as) true

/-- The endpoint at a channel that a `>` joins. -/
def endpointBy (gt : Sight) (p : Placed) : Endpoint := ⟨p.1, p.2.1, p.2.2, gt.start⟩

inductive DerivesSource : List Sight → Option Endpoint → Prop
  | none : DerivesSource [] none
  | some {gt : Sight} {vs : List Sight} {p : Placed} : DerivesChannel true vs p → gt.kind = .gt →
      DerivesSource (vs ++ [gt]) (some (endpointBy gt p))

inductive DerivesSink : List Sight → Option Endpoint → Prop
  | none : DerivesSink [] none
  | some {gt : Sight} {vs : List Sight} {p : Placed} : gt.kind = .gt → DerivesChannel false vs p →
      DerivesSink (gt :: vs) (some (endpointBy gt p))

/-- A stream without its name. Where a channel could stand, the keywords of channels are no
labels. -/
inductive DerivesBody (text : String) : List Sight → Stream → Prop
  | bridge {gt : Sight} {vs ws : List Sight} {source sink : Placed} : DerivesChannel true vs source →
      gt.kind = .gt → DerivesChannel false ws sink →
      DerivesBody text (vs ++ gt :: ws) ⟨none, text, [.bridge gt.start], some (endpointBy gt source),
        some (endpointBy gt sink), false⟩
  | row {vs us ws : List Sight} {apps : List App} {source sink : Option Endpoint} :
      DerivesSource vs source → DerivesRow us apps false → DerivesSink ws sink →
      (opensKeyword (us.map Sight.toView) = true → source = none ∧ (sink = none ∨ 2 ≤ apps.length)) →
      DerivesBody text (vs ++ us ++ ws) ⟨none, text, apps, source, sink, false⟩
  | apart {us : List Sight} {apps : List App} : DerivesRow us apps true →
      DerivesBody text us ⟨none, text, apps, none, none, true⟩

/-- What the tokens of `text` derive. -/
inductive Derives (text : String) : List Sight → Stream → Prop
  | unnamed {vs : List Sight} {s : Stream} : DerivesBody text vs s → Derives text vs s
  | named {name equals : Sight} {vs : List Sight} {s : Stream} : name.kind.isName = true →
      equals.kind = .equals → DerivesBody text vs s →
      Derives text (name :: equals :: vs) { s with name := some name.kind.symbol }

variable {vs : List Sight} {text : String}

/-! ## What is derived is written -/

theorem DerivesName.spells {label : Option Label} {name : Sight} (h : DerivesName vs label name) :
    LabelledName (vs.map Sight.toView) (label.map Label.withoutPosition) name.kind.symbol := by
  cases h with
  | plain hn => exact .plain hn
  | labelled hl hk hg hn hb => exact .labelled hl hk hg hn hb

theorem App.Derives.spells {a : App} (h : a.Derives vs) :
    a.withoutPosition.Spells (vs.map Sight.toView) := by
  obtain ⟨hn, has⟩ := h
  rw [List.map_append, App.withoutPosition, Argument.foldl_insert_withoutPosition]
  exact .mk hn.spells (Argument.many_spells has)

theorem many_behind_spells {separator : Kind} {as : List App}
    (h : Many (Behind separator App.Derives) vs as) :
    Many (After separator App.Spells) (vs.map Sight.toView) (as.map App.withoutPosition) :=
  h.map fun h => h.after fun ha => ha.spells

theorem DerivesRow.spells {as : List App} {unbound : Bool} (h : DerivesRow vs as unbound) :
    Row (vs.map Sight.toView) (as.map App.withoutPosition) unbound := by
  cases h with
  | bound ha hm =>
    rw [List.map_append, List.map_cons]
    exact .bound ha.spells (many_behind_spells hm)
  | apart ha hm hne =>
    rw [List.map_append, List.map_cons]
    exact .apart ha.spells (many_behind_spells hm) (by simpa using hne)

theorem DerivesSource.spells {e : Option Endpoint} (h : DerivesSource vs e) :
    SpellsSource (vs.map Sight.toView) (e.map Endpoint.withoutPosition) := by
  cases h with
  | none => exact .none
  | some hch hk =>
    rw [List.map_append]
    exact .some hch.spells hk

theorem DerivesSink.spells {e : Option Endpoint} (h : DerivesSink vs e) :
    SpellsSink (vs.map Sight.toView) (e.map Endpoint.withoutPosition) := by
  cases h with
  | none => exact .none
  | some hk hch => exact .some hk hch.spells

theorem DerivesBody.spells {s : Stream} (h : DerivesBody text vs s) :
    Body (vs.map Sight.toView) s.withoutPositions := by
  cases h with
  | bridge hs hk hsink =>
    rw [List.map_append, List.map_cons]
    exact .bridge hs.spells hk hsink.spells
  | row hs hrow hsink hopen =>
    rw [List.map_append, List.map_append]
    exact .row hs.spells hrow.spells hsink.spells (by simpa using hopen)
  | apart hrow => exact .apart hrow.spells

theorem Derives.spells {s : Stream} (h : Derives text vs s) :
    Spells (vs.map Sight.toView) s.withoutPositions := by
  cases h with
  | unnamed hb => exact .unnamed hb.spells
  | named hn hk hb => exact .named hn hk hb.spells

/-! ## What is written is derived -/

theorem LabelledName.exists_derives {label : Option Label} {name : String}
    (h : LabelledName (vs.map Sight.toView) label name) :
    ∃ l v, DerivesName vs l v ∧ l.map Label.withoutPosition = label ∧ v.kind.symbol = name := by
  generalize hus : vs.map Sight.toView = us at h
  cases h with
  | plain hn =>
    simp only [List.map_eq_cons_iff, List.map_eq_nil_iff] at hus
    obtain ⟨name, _, rfl, rfl, rfl⟩ := hus
    exact ⟨none, name, .plain hn, rfl, rfl⟩
  | labelled hl hk hg hn hb =>
    simp only [List.map_eq_cons_iff, List.map_eq_nil_iff] at hus
    obtain ⟨label, _, rfl, rfl, colon, _, rfl, rfl, name, _, rfl, rfl, rfl⟩ := hus
    exact ⟨_, name, .labelled hl hk hg hn hb, rfl, rfl⟩

theorem App.Spells.exists_derives {a : App} (h : a.Spells (vs.map Sight.toView)) :
    ∃ b, App.Derives vs b ∧ b.withoutPosition = a := by
  generalize hus : vs.map Sight.toView = us at h
  obtain ⟨hn, has⟩ := h
  obtain ⟨us, ws, rfl, rfl, rfl⟩ := List.map_eq_append_iff.mp hus
  obtain ⟨l, v, hv, rfl, rfl⟩ := hn.exists_derives
  obtain ⟨as, has', rfl⟩ := has.exists_map fun ha => ha.exists_derives
  refine ⟨_, .mk hv has', ?_⟩
  rw [App.withoutPosition, Argument.foldl_insert_withoutPosition, List.map_nil]

theorem many_exists_behind {separator : Kind} {as : List App}
    (h : Many (After separator App.Spells) (vs.map Sight.toView) as) :
    ∃ bs, Many (Behind separator App.Derives) vs bs ∧ bs.map App.withoutPosition = as :=
  h.exists_map fun h => Behind.of_after h fun ha => ha.exists_derives

theorem Row.exists_derives {as : List App} {unbound : Bool} (h : Row (vs.map Sight.toView) as unbound) :
    ∃ bs, DerivesRow vs bs unbound ∧ bs.map App.withoutPosition = as := by
  generalize hus : vs.map Sight.toView = us at h
  cases h with
  | bound ha hm =>
    obtain ⟨us, ws, rfl, rfl, rfl⟩ := List.map_eq_append_iff.mp hus
    obtain ⟨b, hb, rfl⟩ := ha.exists_derives
    obtain ⟨bs, hbs, rfl⟩ := many_exists_behind hm
    exact ⟨b :: bs, .bound hb hbs, rfl⟩
  | apart ha hm hne =>
    obtain ⟨us, ws, rfl, rfl, rfl⟩ := List.map_eq_append_iff.mp hus
    obtain ⟨b, hb, rfl⟩ := ha.exists_derives
    obtain ⟨bs, hbs, rfl⟩ := many_exists_behind hm
    exact ⟨b :: bs, .apart hb hbs (by simpa using hne), rfl⟩

theorem SpellsChannel.derives {isSource : Bool} {ch : Channel}
    (h : SpellsChannel isSource (vs.map Sight.toView) ch) :
    DerivesChannel isSource vs (ch, startOf vs, stopOf vs) := ⟨h, rfl, rfl⟩

theorem SpellsSource.exists_derives {e : Option Endpoint} (h : SpellsSource (vs.map Sight.toView) e) :
    ∃ f, DerivesSource vs f ∧ f.map Endpoint.withoutPosition = e := by
  generalize hus : vs.map Sight.toView = us at h
  cases h with
  | none =>
    obtain rfl := List.map_eq_nil_iff.mp hus
    exact ⟨Option.none, .none, rfl⟩
  | some hch hk =>
    simp only [List.map_eq_append_iff, List.map_eq_cons_iff, List.map_eq_nil_iff] at hus
    obtain ⟨us, _, rfl, rfl, gt, _, rfl, rfl, rfl⟩ := hus
    exact ⟨_, .some hch.derives hk, rfl⟩

theorem SpellsSink.exists_derives {e : Option Endpoint} (h : SpellsSink (vs.map Sight.toView) e) :
    ∃ f, DerivesSink vs f ∧ f.map Endpoint.withoutPosition = e := by
  generalize hus : vs.map Sight.toView = us at h
  cases h with
  | none =>
    obtain rfl := List.map_eq_nil_iff.mp hus
    exact ⟨Option.none, .none, rfl⟩
  | some hk hch =>
    obtain ⟨gt, us, rfl, rfl, rfl⟩ := List.map_eq_cons_iff.mp hus
    exact ⟨_, .some hk hch.derives, rfl⟩

theorem Body.exists_derives {s : Stream} (h : Body (vs.map Sight.toView) s) (text : String) :
    ∃ t, DerivesBody text vs t ∧ t.withoutPositions = s := by
  generalize hus : vs.map Sight.toView = us at h
  cases h with
  | bridge hs hk hsink =>
    simp only [List.map_eq_append_iff, List.map_eq_cons_iff] at hus
    obtain ⟨us, _, rfl, rfl, gt, ws, rfl, rfl, rfl⟩ := hus
    exact ⟨_, .bridge hs.derives hk hsink.derives, rfl⟩
  | row hs hrow hsink hopen =>
    simp only [List.map_eq_append_iff] at hus
    obtain ⟨_, ws, rfl, ⟨vs, us, rfl, rfl, rfl⟩, rfl⟩ := hus
    obtain ⟨source, hs', rfl⟩ := hs.exists_derives
    obtain ⟨apps, hrow', rfl⟩ := hrow.exists_derives
    obtain ⟨sink, hsink', rfl⟩ := hsink.exists_derives
    exact ⟨_, .row hs' hrow' hsink' (by simpa using hopen), rfl⟩
  | apart hrow =>
    subst hus
    obtain ⟨apps, hrow', rfl⟩ := hrow.exists_derives
    exact ⟨_, .apart hrow', rfl⟩

theorem Spells.exists_derives {s : Stream} (h : Spells (vs.map Sight.toView) s) (text : String) :
    ∃ t, Derives text vs t ∧ t.withoutPositions = s := by
  generalize hus : vs.map Sight.toView = us at h
  cases h with
  | unnamed hb =>
    subst hus
    obtain ⟨t, ht, rfl⟩ := hb.exists_derives text
    exact ⟨t, .unnamed ht, rfl⟩
  | named hn hk hb =>
    simp only [List.map_eq_cons_iff] at hus
    obtain ⟨name, _, rfl, rfl, equals, vs, rfl, rfl, rfl⟩ := hus
    obtain ⟨t, ht, rfl⟩ := hb.exists_derives text
    exact ⟨_, .named hn hk ht, rfl⟩

/-! ## What is read is derived -/

variable {c d e : Cursor}

theorem derivesName_of_reads {label : Option Label} {name : Token}
    (h : Reads labelledName c (label, name) d) :
    ∃ vs last, c.Passes vs d ∧ DerivesName vs label (sightOf last name) := by
  obtain ⟨hn, ⟨-, rfl, rfl, rfl⟩ | ⟨hk, ha, hb, hn', -, rfl, rfl, rfl⟩⟩ := reads_labelledName.mp h
  · exact ⟨[c.sight], _, .next (Kind.ne_eof_of_isName hn), .plain hn⟩
  · refine ⟨[c.sight, c.next.2.sight, c.next.2.next.2.sight], _, ?_, .labelled hn hk
      (Cursor.glued_of_adjacent ha) hn' (Cursor.not_glued (Kind.ne_eof_of_isName hn') hb)⟩
    exact (Cursor.Passes.next (Kind.ne_eof_of_isName hn)).trans
      ((Cursor.Passes.next (by simp [hk])).trans (.next (Kind.ne_eof_of_isName hn')))

theorem DerivesName.start {us : List Sight} {label : Option Label} {name : Sight}
    (h : DerivesName us label name) (ws : List Sight) :
    (label.map Label.start).getD name.start = startOf (us ++ ws) := by
  cases h <;> rfl

theorem DerivesName.stop {us : List Sight} {label : Option Label} {name : Sight}
    (h : DerivesName us label name) : name.stop = stopOf us := by
  cases h <;> rfl

/-- An app ends with the last of its arguments. -/
theorem stop_of_arguments {us ws : List Sight} {as : List Argument}
    (h : Many Argument.Derives ws as) :
    (as.getLast?.map Argument.stop).getD (stopOf us) = stopOf (us ++ ws) := by
  refine h.stop_eq fun {vs a} ha => ⟨?_, ha.stop⟩
  obtain ⟨v, ws, rfl, -⟩ := ha.exists_dashes
  simp

theorem app_of_reads {a : App} (h : Reads app c a d) :
    ∃ vs, c.Passes vs d ∧ a.Derives vs := by
  obtain ⟨label, name, e, arguments, hn, ha, rfl⟩ := reads_app.mp h
  obtain ⟨vs, last, hv, hn⟩ := derivesName_of_reads hn
  obtain ⟨ws, hw, ha⟩ := Argument.many_derives_of_reads ha
  refine ⟨vs ++ ws, hv.trans hw, ?_⟩
  have hstart : (label.map Label.start).getD name.start = startOf (vs ++ ws) := hn.start ws
  have hstop : name.stop = stopOf vs := hn.stop
  rw [hstart, hstop, stop_of_arguments ha]
  exact .mk hn ha

theorem separatedApps_of_reads {separator : Kind} {as : List App}
    (h : Reads (many (separatedApp separator)) c as d) : ∃ vs, c.Passes vs d ∧
      Many (fun vs a => (separator = .pipe ∨ separator = .doublePipe) ∧
        Behind separator App.Derives vs a) vs as := by
  refine many_of_reads _ (fun {c _ _} h => ?_) (fun h => ?_) h
  · obtain ⟨-, -, h, -⟩ | ⟨hs, hk, -, b, e, hb, he, rfl⟩ := reads_separatedApp.mp h
    · cases h
    · obtain rfl := Option.some.inj he
      obtain ⟨vs, hv, hb⟩ := app_of_reads hb
      refine ⟨c.sight :: vs, ?_, hk ▸ hs, .mk hk hb⟩
      exact ((Cursor.Passes.next (by rintro he; simp [he] at hs)).trans hv).checkpoint
  · obtain ⟨-, -, -, rfl⟩ | ⟨-, -, -, _, _, -, h, -⟩ := reads_separatedApp.mp h
    · rfl
    · cases h

theorem row_of_reads {as : List App} {unbound : Bool} (h : Reads Read.apps c (as, unbound) d) :
    ∃ vs, c.Passes vs d ∧ DerivesRow vs as unbound := by
  obtain ⟨first, e, rest, hf, hr, rfl, rfl⟩ := reads_apps.mp h
  obtain ⟨vs, hv, hf⟩ := app_of_reads hf
  obtain ⟨ws, hw, hm⟩ := separatedApps_of_reads hr
  refine ⟨vs ++ ws, hv.checkpoint.trans hw, ?_⟩
  by_cases hk : e.peek.kind = .doublePipe
  · rw [hk] at hm hr ⊢
    refine .apart hf (hm.mono fun _ _ _ h => h.2) ?_
    rintro rfl
    obtain ⟨h, -⟩ | h := reads_many_nil hr
    · rw [Cursor.peek, show e.ahead = [] from h] at hk
      cases hk
    · obtain ⟨-, h, -⟩ | ⟨-, -, -, _, _, -, h, -⟩ := reads_separatedApp.mp h
      · exact h hk
      · cases h
  · rw [show (e.peek.kind == .doublePipe) = false by simpa using hk]
    cases hm with
    | nil => exact .bound hf .nil
    | cons hi hm =>
      have hp := hi.1.resolve_right hk
      rw [hp] at hi hm
      exact .bound hf (.cons hi.2 (hm.mono fun _ _ _ h => h.2))

theorem source_of_reads {e : Option Endpoint} (h : Reads source? c e d) :
    ∃ vs, c.Passes vs d ∧ DerivesSource vs e := by
  obtain ⟨-, rfl, rfl⟩ | ⟨ho, p, f, hp, hk, rfl, rfl⟩ := reads_source?.mp h
  · exact ⟨[], .refl _, .none⟩
  · obtain ⟨vs, hv, hp⟩ := channel_of_reads (by rw [← startsKeyword_eq]; exact ho.imp_right And.left) hp
    exact ⟨vs ++ [f.sight], hv.trans (.next (by simp [hk])), .some hp hk⟩

theorem sink_of_reads {e : Option Endpoint} (h : Reads sink? c e d) :
    ∃ vs, c.Passes vs d ∧ DerivesSink vs e := by
  obtain ⟨-, rfl, rfl⟩ | ⟨hk, ho, p, hp, rfl⟩ := reads_sink?.mp h
  · exact ⟨[], .refl _, .none⟩
  · obtain ⟨vs, hv, hp⟩ := channel_of_reads (by rwa [← startsKeyword_eq]) hp
    exact ⟨c.sight :: vs, (Cursor.Passes.next (by simp [hk])).trans hv, .some hk hp⟩

theorem no_source (h : Reads source? c none d) :
    c.peek.kind ≠ .colon ∧ (opensKeyword c.views = true → gtAhead c.views = false) ∧ d = c := by
  obtain ⟨hn, -, rfl⟩ | ⟨-, _, _, -, -, h, -⟩ := reads_source?.mp h
  · rw [not_or, startsKeyword_eq, gtBeforePipe_eq] at hn
    exact ⟨hn.1, fun h => Bool.eq_false_iff.mpr fun hg => hn.2 ⟨h, hg⟩, rfl⟩
  · cases h

theorem gt_of_sink {e : Endpoint} (h : Reads sink? c (some e) d) : c.peek.kind = .gt := by
  obtain ⟨-, h, -⟩ | ⟨hk, -⟩ := reads_sink?.mp h
  · cases h
  · exact hk

/-- Where apps are read after a keyword that would open a channel, there is no source; and before a
sink, the labelled app is not alone. -/
theorem keyword_of_reads_row {us : List Sight} {as : List App} {source sink : Option Endpoint}
    (hs : Reads source? c source e) (hp : e.checkpoint.Passes us d) (hr : DerivesRow us as false)
    (ho : ¬ (source.isSome = true ∧ (e.peek.kind = .colon ∨ startsKeyword e = true)))
    (hk : d.peek.kind = .eof ∨ d.peek.kind = .gt) {f : Cursor} (hw : Reads sink? d sink f)
    (hopen : opensKeyword (us.map Sight.toView) = true) :
    source = none ∧ (sink = none ∨ 2 ≤ as.length) := by
  have hv : e.views = us.map Sight.toView ++ d.views := hp.views
  have hstart : opensKeyword e.views = true := by
    rw [hv, opensKeyword_append hr.spells.ne_nil, hopen]
    intro v hv
    obtain ⟨ws, hw⟩ := List.head?_eq_some_iff.mp hv
    rw [← Cursor.peek_kind_of_views hw]
    obtain hk | hk := hk <;> simp [hk]
  cases source with
  | some src => exact absurd ⟨rfl, .inr (startsKeyword_eq e ▸ hstart)⟩ ho
  | none =>
    obtain ⟨-, hg, rfl⟩ := no_source hs
    refine ⟨rfl, ?_⟩
    cases sink with
    | none => exact .inl rfl
    | some t =>
      have hk := gt_of_sink hw
      have hlen := hr.spells.two_le_length_of_opens hopen (hv ▸ hg hstart)
        ⟨d.view, by rw [Cursor.views_eq_cons (by simp [hk])]; rfl, hk⟩
      exact .inr (by simpa using hlen)

theorem body_of_reads {s : Stream} (h : Reads body c s d) :
    d.peek.kind = .eof ∧ ∃ e name vs, Reads inlineName c name e ∧ e.Passes vs d ∧
      ∃ t, DerivesBody d.expression vs t ∧ s = { t with name := name } := by
  obtain ⟨name, e, source, f, as, unbound, sink, hn, hs, ha, hu, hd, rfl⟩ := reads_body.mp h
  refine ⟨hd, e, name, ?_⟩
  obtain ⟨vs, hv, hvs⟩ := source_of_reads hs
  obtain ⟨src, rfl, ho, p, hp, rfl, rfl, rfl⟩ | ⟨ho, g, hg, hk, hw⟩ := reads_appsAndSink.mp ha
  · obtain ⟨ws, hws, hp⟩ := channel_of_reads (by rwa [← startsKeyword_eq]) hp
    cases hvs with
    | @some gt us q hch hgt =>
      refine ⟨us ++ gt :: ws, hn, ?_, _, .bridge hch hgt hp, rfl⟩
      rw [← List.singleton_append, ← List.append_assoc]
      exact hv.checkpoint.trans hws
  · obtain ⟨us, hus, hr⟩ := row_of_reads hg
    obtain ⟨ws, hws, hsink⟩ := sink_of_reads hw
    refine ⟨vs ++ us ++ ws, hn, (hv.checkpoint.trans hus).trans hws, ?_⟩
    cases unbound with
    | true =>
      obtain ⟨rfl, rfl⟩ := hu rfl
      cases hvs
      cases hsink
      rw [List.nil_append, List.append_nil]
      exact ⟨_, .apart hr, rfl⟩
    | false =>
      refine ⟨_, .row hvs hr hsink fun hopen => ?_, rfl⟩
      exact keyword_of_reads_row hs (e := f) hus hr ho hk hw hopen

/-- A stream is read as it is derived, up to the end of the text. -/
theorem derives_of_reads {s : Stream} (h : Reads body c s d) :
    d.peek.kind = .eof ∧ ∃ vs, c.Passes vs d ∧ Derives d.expression vs s := by
  obtain ⟨hd, e, name, vs, hn, hv, t, ht, rfl⟩ := body_of_reads h
  refine ⟨hd, ?_⟩
  obtain ⟨hname, hk, rfl, rfl⟩ | ⟨-, rfl, rfl⟩ := reads_inlineName.mp hn
  · have hne := Kind.ne_eof_of_isName hname
    have hq := Cursor.peek_next hne hk
    exact ⟨c.sight :: c.next.2.sight :: vs,
      (Cursor.Passes.next hne).trans ((Cursor.Passes.next (by simp [hq])).trans hv),
      .named hname hq ht⟩
  · have hnone : t.name = none := by cases ht <;> rfl
    exact ⟨vs, hv, by rw [← hnone]; exact .unnamed ht⟩

end Pipework.Stream
