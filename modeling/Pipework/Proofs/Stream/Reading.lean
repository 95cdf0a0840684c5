import Pipework.Proofs.Stream.Derivation
import Pipework.Proofs.Token.Lexed

/-! What the grammar of streams derives is read. A text is read as a stream exactly if its tokens
derive one with a legal name and labels that are all different, and then it is that stream which
is read. -/

namespace Pipework.Stream

open Token Pipework.Parser Read

variable {c d e f : Cursor}

/-! ## Apps are read -/

theorem FollowsApp.ne_nil {rest : List Sight} (h : FollowsApp (rest.map Sight.toView)) : rest ≠ [] := by
  rintro rfl
  obtain ⟨v, us, h, -⟩ := h
  cases h

theorem DerivesName.reads {vs rest : List Sight} {label : Option Label} {name : Sight}
    (h : DerivesName vs label name) (hc : c.sights = vs ++ rest)
    (hr : ∃ v us, rest.map Sight.toView = v :: us ∧ v.kind ≠ .colon) :
    ∃ t last d, Reads labelledName c (label, t) d ∧ name = sightOf last t ∧ c.Passes vs d := by
  obtain ⟨v, us, hv, hk'⟩ := hr
  cases h with
  | plain hn =>
    have hp := Cursor.next_passes hc (Kind.ne_eof_of_isName hn)
    have h₁ := (Cursor.views_of_sights (hp.left hc)).trans hv
    rw [← Cursor.isName_of_sights hc] at hn
    refine ⟨c.peek, _, c.next.2, reads_labelledName.mpr ⟨hn, .inl ⟨?_, rfl, rfl, rfl⟩⟩,
      (Cursor.sight_of_sights hc).symm, hp⟩
    simp [Cursor.peek_kind_of_views h₁, hk']
  | @labelled label colon name hl hk hg hn hb =>
    have hp₁ := Cursor.next_passes hc (Kind.ne_eof_of_isName hl)
    have h₁ := hp₁.left hc
    have hp₂ := Cursor.next_passes h₁ (by simp [hk])
    have h₂ := hp₂.left h₁
    have hp₃ := Cursor.next_passes h₂ (Kind.ne_eof_of_isName hn)
    have h₃ := (Cursor.views_of_sights (hp₃.left h₂)).trans hv
    rw [← Cursor.isName_of_sights hc] at hl
    rw [← Cursor.isName_of_sights h₂] at hn
    refine ⟨_, _, _, reads_labelledName.mpr ⟨hl, .inr ⟨?_, ?_, ?_, hn, ?_, ?_, rfl, rfl⟩⟩,
      (Cursor.sight_of_sights h₂).symm, hp₁.trans (hp₂.trans hp₃)⟩
    · rw [Cursor.peek_kind_of_sights h₁, hk]
    · rw [Cursor.adjacent_of_sights h₁, hg]
    · rw [Cursor.adjacent_of_sights h₂, hb]
    · simp [Cursor.peek_kind_of_views h₃, hk']
    · rw [Cursor.text_of_sights hc, Cursor.start_of_sights hc, Cursor.stop_of_sights h₁]

theorem App.Derives.reads {vs rest : List Sight} {a : App} (h : a.Derives vs)
    (hc : c.sights = vs ++ rest) (hr : FollowsApp (rest.map Sight.toView)) :
    ∃ d, Reads app c a d ∧ c.Passes vs d := by
  obtain @⟨us, ws, label, name, as, hn, ha⟩ := h
  obtain ⟨v, zs, hv, hk⟩ := hr
  have hend : v.kind ≠ .colon ∧ v.kind ≠ .doubleMinus := by
    constructor <;>
    · rintro h
      simp [h, endsApp] at hk
  rw [List.append_assoc] at hc
  have hfollow : ∃ v us, (ws ++ rest).map Sight.toView = v :: us ∧ v.kind ≠ .colon := by
    cases ha with
    | nil => exact ⟨v, zs, hv, hend.1⟩
    | cons hi _ =>
      obtain ⟨w, us, rfl, hw⟩ := hi.exists_dashes
      exact ⟨w.toView, _, rfl, by simp [hw]⟩
  obtain ⟨t, last, e, he, rfl, hp⟩ := hn.reads hc hfollow
  obtain ⟨d, hd, hpd⟩ := Argument.many_derives_reads ha (hp.left hc) ⟨v, zs, hv, hend.2⟩
  refine ⟨d, reads_app.mpr ⟨label, t, e, as, he, hd, ?_⟩, hp.trans hpd⟩
  have hstart : (label.map Label.start).getD t.start = startOf (us ++ ws) := hn.start ws
  have hstop : t.stop = stopOf us := hn.stop
  rw [hstart, hstop, stop_of_arguments ha]
  rfl

/-- Once apps are over, no separator is there. -/
theorem separatedApp_ends {separator : Kind} (hr : EndsChannel c.views) :
    Reads (separatedApp separator) c none c := by
  match hv : c.views, hr with
  | v :: ws, hr =>
    refine reads_separatedApp.mpr (.inl ⟨?_, ?_, rfl, rfl⟩) <;>
    · rw [Cursor.peek_kind_of_views hv]
      obtain hr | hr := hr <;> simp [hr]

section

variable {separator : Kind} (hk : separator = .pipe ∨ separator = .doublePipe)

include hk

theorem separatedApp_reads {vs rest : List Sight} {a : App} (h : Behind separator App.Derives vs a)
    (hr : FollowsApp (rest.map Sight.toView)) (hc : c.sights = vs ++ rest) :
    ∃ d, Reads (separatedApp separator) c (some a) d ∧ c.Passes vs d := by
  obtain @⟨v, vs, _, hv, ha⟩ := h
  have hp := Cursor.next_passes hc (by rw [hv]; obtain rfl | rfl := hk <;> simp)
  have h₁ : c.next.2.sights = vs ++ rest := hp.left hc
  obtain ⟨d, hd, hpd⟩ := ha.reads h₁ hr
  obtain ⟨w, us, hvs, hn⟩ := ha.spells.exists_name
  have hkind := Cursor.peek_kind_of_sights hc
  refine ⟨d.checkpoint, reads_separatedApp.mpr
    (.inr ⟨by rwa [hkind, hv], hkind.trans hv, ?_, a, d, hd, rfl, rfl⟩), (hp.trans hpd).checkpoint⟩
  have hviews := Cursor.views_of_sights h₁
  rw [List.map_append, hvs] at hviews
  rw [Cursor.peek_kind_of_views hviews]
  exact Kind.ne_of_isName hn rfl

theorem repeats_separatedApp :
    Repeats (separatedApp separator) (Behind separator App.Derives) FollowsApp where
  reads h hr hc := separatedApp_reads hk h hr hc
  ne_nil h := by
    cases h
    simp
  follows h _ _ := by
    obtain ⟨hv, -⟩ := h
    refine ⟨_, _, rfl, ?_⟩
    rw [hv]
    obtain rfl | rfl := hk <;> rfl

theorem separatedApps_reads {vs rest : List Sight} {as : List App}
    (h : Many (Behind separator App.Derives) vs as) (hc : c.sights = vs ++ rest)
    (hr : EndsChannel (rest.map Sight.toView)) :
    ∃ d, Reads (many (separatedApp separator)) c as d ∧ c.Passes vs d :=
  reads_many_of (repeats_separatedApp hk) hr.followsApp hr.followsApp.ne_nil
    (fun hc => separatedApp_ends (by rwa [Cursor.views_of_sights hc])) h hc

end

theorem apps_reads {separator : Kind} {us ws rest : List Sight} {a : App} {as : List App}
    (hk : separator = .pipe ∨ separator = .doublePipe) (ha : a.Derives us)
    (hm : Many (Behind separator App.Derives) ws as) (hne : as ≠ [])
    (hc : c.sights = us ++ ws ++ rest) (hr : EndsChannel (rest.map Sight.toView)) :
    ∃ d, Reads Read.apps c (a :: as, separator == .doublePipe) d ∧ c.Passes (us ++ ws) d := by
  rw [List.append_assoc] at hc
  have hw : ∃ v vs, ws ++ rest = v :: vs ∧ v.kind = separator := by
    cases hm with
    | nil => exact absurd rfl hne
    | cons hi _ =>
      obtain ⟨hv, -⟩ := hi
      exact ⟨_, _, rfl, hv⟩
  obtain ⟨v, vs, hw, hv⟩ := hw
  have hfollow : FollowsApp ((ws ++ rest).map Sight.toView) := by
    rw [hw]
    exact ⟨v.toView, _, rfl, by obtain rfl | rfl := hk <;> rw [hv] <;> rfl⟩
  obtain ⟨e, he, hp⟩ := ha.reads hc hfollow
  have h₁ := hp.left hc
  have hkind : e.peek.kind = separator := (Cursor.peek_kind_of_sights (h₁.trans hw)).trans hv
  obtain ⟨d, hd, hpd⟩ := separatedApps_reads (c := e.checkpoint) hk hm h₁ hr
  exact ⟨d, reads_apps.mpr ⟨a, e, as, he, hkind ▸ hd, rfl, by rw [hkind]⟩, hp.checkpoint.trans hpd⟩

theorem app_alone_reads {us rest : List Sight} {a : App} (ha : a.Derives us)
    (hc : c.sights = us ++ rest) (hr : EndsChannel (rest.map Sight.toView)) :
    ∃ d, Reads Read.apps c ([a], false) d ∧ c.Passes us d := by
  obtain ⟨e, he, hp⟩ := ha.reads hc hr.followsApp
  have hl := Cursor.views_of_sights (hp.left hc)
  rw [← hl] at hr
  have hk : (e.peek.kind == .doublePipe) = false := by
    match hv : e.views, hr with
    | v :: ws, hr =>
      rw [Cursor.peek_kind_of_views hv]
      obtain hr | hr := hr <;> rw [hr] <;> rfl
  exact ⟨e.checkpoint, reads_apps.mpr ⟨a, e, [], he,
    reads_many_of_none (separatedApp_ends (c := e.checkpoint) hr), rfl, hk.symm⟩, hp.checkpoint⟩

theorem DerivesRow.reads {vs rest : List Sight} {as : List App} {unbound : Bool}
    (h : DerivesRow vs as unbound) (hc : c.sights = vs ++ rest)
    (hr : EndsChannel (rest.map Sight.toView)) :
    ∃ d, Reads Read.apps c (as, unbound) d ∧ c.Passes vs d := by
  cases h with
  | bound ha hm =>
    cases hm with
    | nil =>
      rw [List.append_nil] at hc ⊢
      exact app_alone_reads ha hc hr
    | cons hi hm => exact apps_reads (.inl rfl) ha (.cons hi hm) (by simp) hc hr
  | apart ha hm hne => exact apps_reads (.inr rfl) ha hm hne hc hr

/-! ## Endpoints are read -/

theorem DerivesChannel.opens {isSource : Bool} {vs rest : List Sight} {p : Placed}
    (h : DerivesChannel isSource vs p) (hc : c.sights = vs ++ rest) :
    c.peek.kind = .colon ∨ opensKeyword c.views = true :=
  h.spells.opens ((Cursor.views_of_sights hc).trans List.map_append)

theorem source_reads {vs rest : List Sight} {source : Endpoint}
    (h : DerivesSource vs (some source)) (hc : c.sights = vs ++ rest) :
    ∃ d, Reads source? c (some source) d ∧ c.Passes vs d := by
  cases h with
  | @some gt us p hch hgt =>
    rw [List.append_assoc] at hc
    have hends : EndsChannel (([gt] ++ rest).map Sight.toView) := .inl hgt
    obtain ⟨e, he, hp⟩ := hch.reads hends hc
    have h₁ := hp.left hc
    refine ⟨_, reads_source?.mpr (.inr ⟨?_, p, e, he, ?_, ?_, rfl⟩),
      hp.trans (Cursor.next_passes h₁ (by simp [hgt]))⟩
    · rw [startsKeyword_eq, gtBeforePipe_eq]
      refine (hch.opens hc).imp_right fun h => ⟨h, ?_⟩
      rw [Cursor.views_of_sights hc, List.map_append, gtAhead_append hch.spells.endsApp_eq]
      simp [gtAhead, hgt, endsApp]
    · rw [Cursor.peek_kind_of_sights h₁, hgt]
    · rw [Cursor.start_of_sights h₁]
      rfl

theorem sink_reads {vs rest : List Sight} {sink : Option Endpoint} (h : DerivesSink vs sink)
    (hc : c.sights = vs ++ rest) (hr : ∃ v us, rest.map Sight.toView = v :: us ∧ v.kind = .eof) :
    ∃ d, Reads sink? c sink d ∧ c.Passes vs d := by
  obtain ⟨v, us, hv, hk⟩ := hr
  cases h with
  | none =>
    refine ⟨c, reads_sink?.mpr (.inl ⟨?_, rfl, rfl⟩), .refl c⟩
    simp [Cursor.peek_kind_of_views ((Cursor.views_of_sights hc).trans hv), hk]
  | @some gt vs p hgt hch =>
    have hp := Cursor.next_passes hc (by simp [hgt])
    have h₁ := hp.left hc
    have hends : EndsChannel (rest.map Sight.toView) := by
      rw [hv]
      exact .inr hk
    obtain ⟨d, hd, hpd⟩ := hch.reads hends h₁
    refine ⟨d, reads_sink?.mpr (.inr ⟨?_, ?_, p, hd, ?_⟩), hp.trans hpd⟩
    · rw [Cursor.peek_kind_of_sights hc, hgt]
    · rw [startsKeyword_eq]
      exact hch.opens h₁
    · rw [Cursor.start_of_sights hc]
      rfl

/-- Where no channel starts, none is read. -/
theorem no_source_reads (hk : c.peek.kind ≠ .colon)
    (hg : opensKeyword c.views = true → gtAhead c.views = false) : Reads source? c none c := by
  refine reads_source?.mpr (.inl ⟨?_, rfl, rfl⟩)
  rw [startsKeyword_eq, gtBeforePipe_eq]
  rintro (h | ⟨h, h'⟩)
  · exact hk h
  · rw [hg h] at h'
    cases h'

/-! ## Streams are read

`rest` is the end of the text. -/

section

variable {us ws rest : List Sight} {apps : List App} {unbound : Bool} {source sink : Option Endpoint}
  (hrow : DerivesRow us apps unbound) (hk : DerivesSink ws sink)
  (hr : ∃ v us, rest.map Sight.toView = v :: us ∧ v.kind = .eof)

include hr in
theorem endsChannel_of_eof : EndsChannel (rest.map Sight.toView) := by
  obtain ⟨v, us, hv, hk⟩ := hr
  rw [hv]
  exact .inr hk

include hr in
theorem gtAhead_of_eof : gtAhead (rest.map Sight.toView) = false := by
  obtain ⟨v, us, hv, hk⟩ := hr
  simp [hv, gtAhead, hk, endsApp]

include hrow in
theorem peek_of_row (hc : c.sights = us ++ ws ++ rest) : c.peek.kind ≠ .colon := by
  obtain ⟨v, vs, hv, hn⟩ := hrow.spells.exists_name
  have hviews := Cursor.views_of_sights hc
  rw [List.map_append, List.map_append, hv] at hviews
  rw [Cursor.peek_kind_of_views hviews]
  exact Kind.ne_of_isName hn rfl

include hk hr in
theorem endsChannel_after_row : EndsChannel ((ws ++ rest).map Sight.toView) := by
  rw [List.map_append]
  exact hk.spells.endsChannel (endsChannel_of_eof hr)

include hrow hk hr

theorem opensKeyword_of_row (hc : c.sights = us ++ ws ++ rest) :
    opensKeyword c.views = opensKeyword (us.map Sight.toView) := by
  rw [List.append_assoc] at hc
  rw [Cursor.views_of_sights hc, List.map_append, opensKeyword_append hrow.spells.ne_nil]
  obtain ⟨v, vs, hv, -, -, hn⟩ := (endsChannel_after_row hk hr).exists_cons
  simpa [hv] using hn

/-- Apps and perhaps a sink are read where no channel starts, or after nothing. -/
theorem row_and_sink_reads (hopen : source.isSome = true → opensKeyword (us.map Sight.toView) = false)
    (hc : c.sights = us ++ ws ++ rest) :
    ∃ d, Reads (appsAndSink source) c (apps, unbound, sink) d ∧ c.Passes (us ++ ws) d := by
  have hends := endsChannel_after_row hk hr
  have hc' := hc
  rw [List.append_assoc] at hc'
  obtain ⟨e, he, hp⟩ := hrow.reads hc' hends
  have h₁ := hp.left hc'
  obtain ⟨d, hd, hpd⟩ := sink_reads hk h₁ hr
  refine ⟨d, reads_appsAndSink.mpr (.inr ⟨?_, e, he, ?_, hd⟩), hp.trans hpd⟩
  · rintro ⟨hs, h | h⟩
    · exact peek_of_row hrow hc h
    · rw [startsKeyword_eq, opensKeyword_of_row hrow hk hr hc, hopen hs] at h
      cases h
  · rw [← Cursor.views_of_sights h₁] at hends
    match hv : e.views, hends with
    | v :: vs, hends =>
      rw [Cursor.peek_kind_of_views hv]
      exact hends.symm

theorem body_reads {name : Option String} (hn : Reads inlineName c name e)
    (hs : Reads source? e source f)
    (hopen : source.isSome = true → opensKeyword (us.map Sight.toView) = false)
    (hu : unbound = true → source = none ∧ sink = none) (hc : f.sights = us ++ ws ++ rest) :
    ∃ d, Reads body c ⟨name, f.expression, apps, source, sink, unbound⟩ d ∧ f.Passes (us ++ ws) d := by
  obtain ⟨d, hd, hp⟩ := row_and_sink_reads (c := f.checkpoint) hrow hk hr hopen hc
  have hp : f.Passes (us ++ ws) d := ⟨hp.expression, hp.sights, hp.stop⟩
  refine ⟨d, reads_body.mpr ⟨name, e, source, f, apps, unbound, sink, hn, hs, hd, hu, ?_, ?_⟩, hp⟩
  · obtain ⟨v, us, hv, hk⟩ := hr
    rw [Cursor.peek_kind_of_views ((Cursor.views_of_sights (hp.left hc)).trans hv), hk]
  · rw [hp.expression]

end

theorem bridge_reads {gt : Sight} {vs ws rest : List Sight} {source sink : Placed}
    {name : Option String} (hs : DerivesChannel true vs source) (hgt : gt.kind = .gt)
    (hk : DerivesChannel false ws sink) (hn : Reads inlineName c name e)
    (hc : e.sights = vs ++ gt :: ws ++ rest)
    (hr : ∃ v us, rest.map Sight.toView = v :: us ∧ v.kind = .eof) :
    ∃ d, Reads body c ⟨name, e.expression, [.bridge gt.start], some (endpointBy gt source),
        some (endpointBy gt sink), false⟩ d ∧ e.Passes (vs ++ gt :: ws) d := by
  have hc' : e.sights = vs ++ [gt] ++ (ws ++ rest) := by simpa using hc
  obtain ⟨f, hf, hp⟩ := source_reads (.some hs hgt) hc'
  have h₁ := hp.left hc'
  obtain ⟨d, hd, hpd⟩ := hk.reads (c := f.checkpoint) (endsChannel_of_eof hr) h₁
  have ho : f.peek.kind = .colon ∨ startsKeyword f = true := startsKeyword_eq f ▸ hk.opens h₁
  have hall : e.Passes (vs ++ gt :: ws) d := by
    rw [← List.singleton_append, ← List.append_assoc]
    exact hp.checkpoint.trans hpd
  refine ⟨d, reads_body.mpr ⟨name, e, some (endpointBy gt source), f, _, false, _, hn, hf,
    reads_appsAndSink.mpr (.inl ⟨_, rfl, ho, sink, hd, rfl, rfl, rfl⟩), by simp, ?_, ?_⟩, hall⟩
  · obtain ⟨v, us, hv, hk⟩ := hr
    rw [Cursor.peek_kind_of_views ((Cursor.views_of_sights (hall.left hc)).trans hv), hk]
  · rw [hall.expression]
    rfl

theorem DerivesBody.reads {text : String} {vs rest : List Sight} {s : Stream} {name : Option String}
    (h : DerivesBody text vs s) (htext : e.expression = text) (hn : Reads inlineName c name e)
    (hc : e.sights = vs ++ rest) (hr : ∃ v us, rest.map Sight.toView = v :: us ∧ v.kind = .eof) :
    ∃ d, Reads body c { s with name := name } d ∧ e.Passes vs d := by
  subst htext
  cases h with
  | bridge hs hgt hk => exact bridge_reads hs hgt hk hn hc hr
  | @row vs us ws apps source sink hs hrow hk hopen =>
    cases source with
    | none =>
      cases hs
      rw [List.nil_append] at hc ⊢
      -- A keyword with a `>` further on opens a source, unless a `|` or the end of the text is
      -- in between.
      have hsource : opensKeyword e.views = true → gtAhead e.views = false := by
        intro h
        rw [opensKeyword_of_row hrow hk hr hc] at h
        rw [Cursor.views_of_sights hc, List.append_assoc, List.map_append]
        obtain ⟨-, rfl | hlen⟩ := hopen h
        · cases hk
          exact hrow.spells.gtAhead_eq (.inr (gtAhead_of_eof hr))
        · exact hrow.spells.gtAhead_eq (.inl (by simpa using hlen))
      exact body_reads hrow hk hr hn (no_source_reads (peek_of_row hrow hc) hsource) (by simp)
        (by simp) hc
    | some source =>
      have hc' := hc
      rw [List.append_assoc, List.append_assoc] at hc'
      obtain ⟨f, hf, hp⟩ := source_reads hs hc'
      have hno : opensKeyword (us.map Sight.toView) = false :=
        Bool.eq_false_iff.mpr fun h => Option.some_ne_none _ (hopen h).1
      obtain ⟨d, hd, hpd⟩ := body_reads hrow hk hr hn hf (fun _ => hno) (by simp)
        (by simpa using hp.left hc')
      refine ⟨d, ?_, by rw [List.append_assoc]; exact hp.trans hpd⟩
      rwa [hp.expression] at hd
  | apart hrow =>
    rw [← List.append_nil vs] at hc ⊢
    have hsource : gtAhead e.views = false := by
      rw [Cursor.views_of_sights hc, List.append_nil, List.map_append]
      exact hrow.spells.gtAhead_eq (.inr (gtAhead_of_eof hr))
    exact body_reads hrow .none hr hn (no_source_reads (peek_of_row hrow hc) fun _ => hsource)
      (by simp) (by simp) hc

theorem reads_no_inlineName (h : opensName c.views = false) : Reads inlineName c none c := by
  refine reads_inlineName.mpr (.inr ⟨fun hn => ?_, rfl, rfl⟩)
  rw [opensName_of_inlineName hn.1 hn.2] at h
  cases h

/-- A stream without a name has none to read. -/
theorem no_inlineName_reads {vs rest : List Sight} {s : Stream} (h : Body (vs.map Sight.toView) s)
    (hc : c.sights = vs ++ rest) (hr : FollowsApp (rest.map Sight.toView)) :
    Reads inlineName c none c := by
  refine reads_no_inlineName ?_
  rw [Cursor.views_of_sights hc, List.map_append, h.opensName_eq hr]

theorem inlineName_reads {name equals : Sight} {rest : List Sight} (hn : name.kind.isName = true)
    (hk : equals.kind = .equals) (hc : c.sights = name :: equals :: rest) :
    ∃ d, Reads inlineName c (some name.kind.symbol) d ∧ c.Passes [name, equals] d := by
  have hp₁ := Cursor.next_passes hc (Kind.ne_eof_of_isName hn)
  have hp₂ := Cursor.next_passes (hp₁.left hc) (by simp [hk])
  refine ⟨c.next.2.next.2, reads_inlineName.mpr (.inl ⟨?_, ?_, ?_, rfl⟩), hp₁.trans hp₂⟩
  · rw [Cursor.isName_of_sights hc, hn]
  · exact (Cursor.second_kind_of_sights hc).trans (congrArg some hk)
  · rw [Cursor.text_of_sights hc]

theorem Derives.reads {text : String} {vs rest : List Sight} {s : Stream} (h : Derives text vs s)
    (htext : c.expression = text) (hc : c.sights = vs ++ rest)
    (hr : ∃ v us, rest.map Sight.toView = v :: us ∧ v.kind = .eof) :
    ∃ d, Reads body c s d ∧ c.Passes vs d := by
  cases h with
  | unnamed hb =>
    have hn := no_inlineName_reads hb.spells hc (endsChannel_of_eof hr).followsApp
    have hnone : s.name = none := by cases hb <;> rfl
    obtain ⟨d, hd, hp⟩ := hb.reads htext hn hc hr
    exact ⟨d, by rwa [← hnone] at hd, hp⟩
  | @named name equals vs s hn hk hb =>
    obtain ⟨e, he, hp⟩ := inlineName_reads hn hk hc
    obtain ⟨d, hd, hpd⟩ := hb.reads (hp.expression.trans htext) he (hp.left hc) hr
    exact ⟨d, hd, hp.trans hpd⟩

/-! ## Labels -/

theorem clashesAfter_eq_nil {before as : List App} : clashesAfter before as = [] ↔
    (as.map App.labelName).Nodup ∧ ∀ a ∈ as, ∀ b ∈ before, b.labelName ≠ a.labelName := by
  induction as generalizing before with
  | nil => simp [clashesAfter]
  | cons a as ih =>
    simp only [clashesAfter]
    split
    · next h =>
      have h : ∀ b ∈ before, b.labelName ≠ a.labelName := by simpa using h
      rw [ih]
      simp only [List.map_cons, List.nodup_cons, List.mem_map, List.forall_mem_cons,
        List.mem_append, List.mem_singleton]
      grind
    · next b h =>
      obtain ⟨hb, hm⟩ := List.find?_eq_some_iff_append.mp h
      grind

theorem clashes_eq_nil {s : Stream} : s.clashes = [] ↔ s.labelNames.Nodup := by
  simp [clashes, clashesAfter_eq_nil, labelNames]

theorem labelName_withoutPosition (a : App) : a.withoutPosition.labelName = a.labelName := by
  cases h : a.label <;> simp [App.labelName, App.withoutPosition, h, Label.withoutPosition]

theorem labelNames_withoutPositions (s : Stream) : s.withoutPositions.labelNames = s.labelNames := by
  simp [labelNames, withoutPositions, labelName_withoutPosition]

/-! ## Definitions -/

variable {name : Option String}

theorem reads_requireUniqueLabels {s : Stream} {u : Unit} :
    Reads (requireUniqueLabels s) c u d ↔ s.labelNames.Nodup ∧ d = c := by
  rw [← clashes_eq_nil]
  unfold Reads requireUniqueLabels
  split
  · next h => simp [h, Prod.ext_iff, eq_comm]
  · next h => simp [h]

theorem reads_requireLegalName {n : Option String} {u : Unit} :
    Reads (requireLegalName n) c u d ↔ (∀ m ∈ n, Text.isLegalName m = true) ∧ d = c := by
  cases n <;> simp [requireLegalName, reads_ite]

theorem reads_definition {s : Stream} : Reads (definition name) c s d ↔ ∃ b, Reads body c b d ∧
    s = { b with name := b.name <|> name } ∧ (∀ n ∈ s.name, Text.isLegalName n = true) ∧
      s.labelNames.Nodup := by
  simp only [definition, reads_bind, reads_requireLegalName, reads_requireUniqueLabels, reads_pure]
  constructor
  · rintro ⟨b, e, hb, ⟨⟩, e', ⟨hl, rfl⟩, ⟨⟩, e'', ⟨hn, rfl⟩, rfl, rfl⟩
    exact ⟨b, hb, rfl, hl, hn⟩
  · rintro ⟨b, hb, rfl, hl, hn⟩
    exact ⟨b, d, hb, (), d, ⟨hl, rfl⟩, (), d, ⟨hn, rfl⟩, rfl, rfl⟩

/-! ## Whole texts -/

variable {text : String} {s : Stream}

theorem parseNamed_eq_ok : parseNamed name text = .ok s ↔
    ∃ ts d, tokenize text = .ok ts ∧ Reads (definition name) (.ofTokens text ts) s d := by
  unfold parseNamed Reads
  cases tokenize text with
  | error e => simp [bind, Except.bind]
  | ok ts =>
    cases hd : definition name (.ofTokens text ts) with
    | error e => simp [hd, bind, Except.bind, StateT.run]
    | ok p =>
      obtain ⟨t, d⟩ := p
      simp [hd, bind, Except.bind, StateT.run, pure, Except.pure]

/-- The body of a stream is read to the end of the text, and derived by all its tokens. -/
theorem derives_of_body {ts : List Token} (hts : tokenize text = .ok ts)
    (h : Reads body (.ofTokens text ts) s d) : Derives text (sightsOf none ts.dropLast) s := by
  obtain ⟨v, hc, hv, hne⟩ := sights_ofTokens hts
  obtain ⟨hk, vs, hp, hderives⟩ := derives_of_reads h
  have hvs : ∀ w ∈ vs, w.kind ≠ .eof := fun w hw =>
    hderives.spells.ne_eof _ (List.mem_map_of_mem hw)
  obtain rfl := hp.eq_of_eof hc hne hv hvs hk
  rwa [hp.expression] at hderives

/-- A name in the text goes before the one given with it. -/
theorem parseNamed_iff_derives {ts : List Token} (hts : tokenize text = .ok ts) :
    parseNamed name text = .ok s ↔ ∃ t, Derives text (sightsOf none ts.dropLast) t ∧
      s = { t with name := t.name <|> name } ∧ (∀ n ∈ s.name, Text.isLegalName n = true) ∧
        s.labelNames.Nodup := by
  rw [parseNamed_eq_ok]
  constructor
  · rintro ⟨_, d, hts', hd⟩
    obtain rfl := Except.ok.inj (hts.symm.trans hts')
    obtain ⟨b, hb, hs, hlegal, hn⟩ := reads_definition.mp hd
    exact ⟨b, derives_of_body hts hb, hs, hlegal, hn⟩
  · rintro ⟨t, ht, hs, hlegal, hn⟩
    obtain ⟨v, hc, hv, -⟩ := sights_ofTokens hts
    obtain ⟨d, hd, -⟩ := ht.reads rfl hc ⟨v.toView, [], rfl, hv⟩
    exact ⟨ts, d, hts, reads_definition.mpr ⟨t, hd, hs, hlegal, hn⟩⟩

/-- A stream that is read is spelled by the views of its text. -/
theorem spells_of_parseNamed (h : parseNamed name text = .ok s) :
    ∃ (ws us : List View) (v : View) (t : Stream), LexesAll false text.toList ws ∧
      unglued ws = us ++ [v] ∧ v.kind = .eof ∧ Spells us t ∧
      s.withoutPositions = { t with name := t.name <|> name } ∧
      (∀ n ∈ s.name, Text.isLegalName n = true) ∧ s.labelNames.Nodup := by
  obtain ⟨ts, d, hts, -⟩ := parseNamed_eq_ok.mp h
  obtain ⟨t, ht, rfl, hlegal, hn⟩ := (parseNamed_iff_derives hts).mp h
  obtain ⟨ws, hws, hu⟩ := lexesAll_of_tokenize hts
  obtain ⟨us, v, hus, hv, -⟩ := hws.unglued_eof
  exact ⟨ws, us, v, _, hws, hus, hv, sightsOf_dropLast_views hts hu hus ▸ ht.spells, rfl, hlegal, hn⟩

theorem parseNamed_of_spells {t : Stream} {ws us : List View} {v : View}
    (hl : LexesAll false text.toList ws) (hu : unglued ws = us ++ [v]) (ht : Spells us t)
    (hlegal : ∀ n ∈ t.name <|> name, Text.isLegalName n = true) (hn : t.labelNames.Nodup) :
    ∃ m, parseNamed name text = .ok m ∧ m.withoutPositions = { t with name := t.name <|> name } := by
  obtain ⟨ts, hts, hws⟩ := tokenize_of_lexesAll hl
  rw [← sightsOf_dropLast_views hts hws hu] at ht
  obtain ⟨b, hb, rfl⟩ := ht.exists_derives text
  rw [labelNames_withoutPositions] at hn
  exact ⟨_, (parseNamed_iff_derives hts).mpr ⟨b, hb, rfl, hlegal, hn⟩, rfl⟩

/-- A text is read as a stream exactly if its tokens derive one with a legal name and different
labels. -/
theorem parse_iff_derives {ts : List Token} (hts : tokenize text = .ok ts) :
    parse text = .ok s ↔ Derives text (sightsOf none ts.dropLast) s ∧
      (∀ n ∈ s.name, Text.isLegalName n = true) ∧ s.labelNames.Nodup := by
  rw [parse, parseNamed_iff_derives hts]
  constructor
  · rintro ⟨t, ht, hs, hlegal, hn⟩
    obtain rfl : s = t := by simpa using hs
    exact ⟨ht, hlegal, hn⟩
  · rintro ⟨ht, hlegal, hn⟩
    exact ⟨s, ht, by simp, hlegal, hn⟩

/-- A keyword labels the first of two apps, which gives one of its arguments twice. -/
theorem derives_keyword_label : ∃ ts s,
    tokenize "s = queue: a --k=1 --j=0 --k=2 | 7 > topic:t:u" = .ok ts ∧
      parse "s = queue: a --k=1 --j=0 --k=2 | 7 > topic:t:u" = .ok s ∧
      s.name = some "s" ∧ s.source = none ∧ s.sink = some ⟨.named .topic "t:u", 37, 46, 35⟩ ∧
      s.apps = [⟨some ⟨"queue", 4, 10⟩, "a", [⟨"k", "2", 13, 30⟩, ⟨"j", "0", 19, 24⟩], 4, 30⟩,
        ⟨none, "7", [], 33, 34⟩] ∧
      Derives "s = queue: a --k=1 --j=0 --k=2 | 7 > topic:t:u" (sightsOf none ts.dropLast) s := by
  obtain ⟨ts, hts⟩ : ∃ ts,
      (tokenize "s = queue: a --k=1 --j=0 --k=2 | 7 > topic:t:u").toOption = some ts :=
    Option.isSome_iff_exists.mp (by decide +kernel)
  obtain ⟨s, hs, hname, hsource, hsink, happs⟩ : ∃ s,
      (parse "s = queue: a --k=1 --j=0 --k=2 | 7 > topic:t:u").toOption = some s ∧
        s.name = some "s" ∧ s.source = none ∧ s.sink = some ⟨.named .topic "t:u", 37, 46, 35⟩ ∧
        s.apps = [⟨some ⟨"queue", 4, 10⟩, "a", [⟨"k", "2", 13, 30⟩, ⟨"j", "0", 19, 24⟩], 4, 30⟩,
          ⟨none, "7", [], 33, 34⟩] := by decide +kernel
  rw [toOption_eq_some] at hts hs
  exact ⟨ts, s, hts, hs, hname, hsource, hsink, happs, ((parse_iff_derives hts).mp hs).1⟩

end Pipework.Stream
