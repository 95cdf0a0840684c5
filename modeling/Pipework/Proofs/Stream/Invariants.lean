import Pipework.Proofs.Argument.Merging
import Pipework.Proofs.Argument.Standing
import Pipework.Proofs.Stream.Reading

/-! What holds of every stream that is read. The parts of it are checked in different places: the apps
and the channels as they are read, the name and the labels afterwards, and of the arguments of an
app, those of one name are merged as they come. -/

namespace Pipework.Stream

open Token Pipework.Parser Read

/-! ## The invariants -/

/-- Where the `--` of a text are, among its tokens. -/
def dashesIn (ts : List Token) : List Nat :=
  (ts.filter fun t => t.kind == .doubleMinus).map Token.start

/-- Where the `--` within an app are. -/
def App.dashes (ts : List Token) (a : App) : List Nat :=
  (ts.filter fun t =>
    t.kind == .doubleMinus && decide (a.start ≤ t.start ∧ t.start < a.stop)).map Token.start

/-- The arguments that are written in an app, one at each `--`. -/
structure App.Writes (text : String) (ts : List Token) (a : App) (written : List Argument) : Prop where
  dashes : written.map Argument.start = a.dashes ts
  standing : ∀ w ∈ written, w.StandsIn text

/-- What is seen to while the text of a stream is read. -/
structure IsBuilt (text : String) (ts : List Token) (s : Stream) : Prop where
  apps : s.apps ≠ []
  unbound : s.unbound = true → s.source = none ∧ s.sink = none ∧ 2 ≤ s.apps.length
  sink : ∀ e ∈ s.sink, ∀ stream label, e.channel ≠ .tap stream label
  /-- Arguments of one name are merged into the first, with the value of the last. -/
  arguments : ∀ a ∈ s.apps, ∃ written, a.Writes text ts written ∧ Argument.Merges written a.arguments
  /-- Arguments are written within apps, and nowhere else. -/
  dashes : s.apps.flatMap (App.dashes ts) = dashesIn ts

/-- What holds of a stream that is read from the tokens of a text. -/
structure IsRead (text : String) (ts : List Token) (s : Stream) : Prop extends IsBuilt text ts s where
  labels : s.labelNames.Nodup
  name : ∀ n ∈ s.name, Text.isLegalName n = true

/-! ## Apps -/

variable {text : String} {ts : List Token} {vs us ws : List Sight} {a : App} {as : List App}

theorem dashesIn_eq (h : tokenize text = .ok ts) :
    dashesIn ts = Argument.dashesOf (sightsOf none ts.dropLast) :=
  starts_filter (q := fun m => m.1 == .doubleMinus) (fun _ => rfl) h

theorem DerivesName.kinds {label : Option Label} {name : Sight} (h : DerivesName vs label name) :
    ∀ v ∈ vs, v.kind ≠ .doubleMinus := by
  cases h with
  | plain hn =>
    have hn : _ ≠ Kind.doubleMinus := Kind.ne_of_isName hn rfl
    simpa using hn
  | labelled hl hk _ hn _ =>
    have hl : _ ≠ Kind.doubleMinus := Kind.ne_of_isName hl rfl
    have hn : _ ≠ Kind.doubleMinus := Kind.ne_of_isName hn rfl
    simp [hl, hk, hn]

theorem DerivesName.ne_nil {label : Option Label} {name : Sight} (h : DerivesName vs label name) :
    vs ≠ [] := by
  cases h <;> simp

/-- The `--` among the tokens of an app are those within its extent. -/
theorem App.Derives.dashes (h : a.Derives vs) (hts : tokenize text = .ok ts)
    (hvs : vs <:+: sightsOf none ts.dropLast) : a.dashes ts = Argument.dashesOf vs := by
  have hextent : startOf vs = a.start ∧ stopOf vs = a.stop ∧ vs ≠ [] := by
    cases h with
    | mk hn => exact ⟨rfl, rfl, by simp [hn.ne_nil]⟩
  obtain ⟨hstart, hstop, hne⟩ := hextent
  -- All tokens of the text are in order, so no other token lies between the first and the last.
  obtain ⟨us, ws, hall⟩ := hvs
  have horder := inOrder_of_tokenize hts
  rw [← hall] at horder
  have hfilter := horder.filter_extent hne
  rw [hall, hstart, hstop] at hfilter
  have hstarts := starts_filter (q := fun m => m.1 == .doubleMinus &&
    decide (a.start ≤ m.2.1 ∧ m.2.1 < a.stop)) (fun _ => rfl) hts
  refine hstarts.trans ?_
  rw [← List.filter_filter]
  exact congrArg _ (congrArg _ hfilter)

/-- The apps have what arguments there are among the tokens, each app its own. -/
structure Collects (text : String) (ts : List Token) (vs : List Sight) (as : List App) : Prop where
  dashes : Argument.dashesOf vs = as.flatMap (App.dashes ts)
  arguments : ∀ a ∈ as, ∃ written, a.Writes text ts written ∧ Argument.Merges written a.arguments

theorem Collects.none (h : ∀ v ∈ vs, v.kind ≠ .doubleMinus) : Collects text ts vs [] :=
  ⟨Argument.dashesOf_eq_nil h, by simp⟩

theorem Collects.append {bs : List App} (h : Collects text ts vs as) (h' : Collects text ts ws bs) :
    Collects text ts (vs ++ ws) (as ++ bs) where
  dashes := by rw [Argument.dashesOf_append, h.dashes, h'.dashes, List.flatMap_append]
  arguments := List.forall_mem_append.mpr ⟨h.arguments, h'.arguments⟩

theorem App.Derives.collects (h : a.Derives vs) (hts : tokenize text = .ok ts)
    (hvs : vs <:+: sightsOf none ts.dropLast) : Collects text ts vs [a] := by
  have hdashes := h.dashes hts hvs
  refine ⟨by simp [hdashes], List.forall_mem_singleton.mpr ?_⟩
  cases h with
  | @mk us ws label name arguments hn has =>
    refine ⟨arguments, ⟨?_, ?_⟩, Argument.merges_foldl_insert arguments⟩
    · rw [hdashes, Argument.dashesOf_append, Argument.dashesOf_eq_nil hn.kinds,
        Argument.many_dashesOf has, List.nil_append]
    · exact Argument.many_standsIn has hts ((List.suffix_append us ws).isInfix.trans hvs)

theorem many_behind_collects {separator : Kind} (hs : separator ≠ .doubleMinus)
    (h : Many (Behind separator App.Derives) vs as) (hts : tokenize text = .ok ts)
    (hvs : vs <:+: sightsOf none ts.dropLast) : Collects text ts vs as := by
  induction h with
  | nil => exact .none (by simp)
  | @cons us ws a as ha _ ih =>
    have hws := ih ((List.suffix_append us ws).isInfix.trans hvs)
    cases ha with
    | @mk v us _ hk ha =>
      have hv : Collects text ts [v] [] := .none (by simp [hk, hs])
      exact (hv.append (ha.collects hts (.trans ⟨[v], ws, by simp⟩ hvs))).append hws

theorem DerivesRow.collects {unbound : Bool} (h : DerivesRow vs as unbound)
    (hts : tokenize text = .ok ts) (hvs : vs <:+: sightsOf none ts.dropLast) :
    Collects text ts vs as := by
  cases h with
  | @bound us ws _ _ ha hm | @apart us ws _ _ ha hm =>
    have hus := ha.collects hts ((List.prefix_append us ws).isInfix.trans hvs)
    have hws := (List.suffix_append us ws).isInfix.trans hvs
    exact hus.append (many_behind_collects (by simp) hm hts hws)

/-! ## Channels -/

theorem DerivesChannel.kinds {isSource : Bool} {p : Placed} (h : DerivesChannel isSource vs p) :
    ∀ v ∈ vs, v.kind ≠ .doubleMinus := by
  intro v hv hk
  have hin := h.spells.kinds _ (List.mem_map_of_mem hv)
  rw [show v.toView.kind = .doubleMinus from hk] at hin
  cases hin

theorem DerivesSource.kinds {e : Option Endpoint} (h : DerivesSource vs e) :
    ∀ v ∈ vs, v.kind ≠ .doubleMinus := by
  cases h with
  | none => simp
  | some hch hk => exact List.forall_mem_append.mpr ⟨hch.kinds, by simp [hk]⟩

theorem DerivesSink.kinds {e : Option Endpoint} (h : DerivesSink vs e) :
    ∀ v ∈ vs, v.kind ≠ .doubleMinus := by
  cases h with
  | none => simp
  | some hk hch => exact List.forall_mem_cons.mpr ⟨by simp [hk], hch.kinds⟩

/-! ## Streams -/

theorem DerivesRow.ne_nil {unbound : Bool} (h : DerivesRow vs as unbound) : as ≠ [] := by
  simpa using h.spells.apps_ne_nil

theorem DerivesRow.two_le_length (h : DerivesRow vs as true) : 2 ≤ as.length := by
  simpa using h.spells.two_le_length

theorem DerivesSink.ne_tap {e : Option Endpoint} (h : DerivesSink vs e) :
    ∀ f ∈ e, ∀ stream label, f.channel ≠ .tap stream label := by
  cases h with
  | none => simp
  | some _ hch =>
    rintro f ⟨⟩
    exact hch.spells.ne_tap

theorem App.dashes_eq_nil (h : dashesIn ts = []) (a : App) : a.dashes ts = [] := by
  simp only [dashesIn, App.dashes, List.map_eq_nil_iff, List.filter_eq_nil_iff] at h ⊢
  exact fun t ht hd => h t ht (Bool.and_eq_true_iff.mp hd).1

theorem DerivesBody.isBuilt {s : Stream} (h : DerivesBody text vs s) (hts : tokenize text = .ok ts)
    (hvs : vs <:+: sightsOf none ts.dropLast) (hall : dashesIn ts = Argument.dashesOf vs) :
    IsBuilt text ts s := by
  cases h with
  | @bridge gt us ws source sink hsource hk hsink =>
    have hnone : dashesIn ts = [] := by
      rw [hall]
      refine Argument.dashesOf_eq_nil (List.forall_mem_append.mpr ⟨hsource.kinds, ?_⟩)
      exact List.forall_mem_cons.mpr ⟨by simp [hk], hsink.kinds⟩
    have hbridge := App.dashes_eq_nil hnone (.bridge gt.start)
    refine ⟨by simp, by simp, ?_, ?_, by simp [hbridge, hnone]⟩
    · rintro f ⟨⟩
      exact hsink.spells.ne_tap
    · exact List.forall_mem_singleton.mpr
        ⟨[], ⟨hbridge.symm, by simp⟩, Argument.merges_foldl_insert []⟩
  | @row us ws xs apps source sink hsource hrow hsink =>
    have happs := hrow.collects hts (.trans ⟨us, xs, rfl⟩ hvs)
    have hbody := ((Collects.none hsource.kinds).append happs).append (.none hsink.kinds)
    rw [List.nil_append, List.append_nil] at hbody
    exact ⟨hrow.ne_nil, by simp, hsink.ne_tap, hbody.arguments, hbody.dashes.symm.trans hall.symm⟩
  | apart hrow =>
    have happs := hrow.collects hts hvs
    exact ⟨hrow.ne_nil, fun _ => ⟨rfl, rfl, hrow.two_le_length⟩, by simp, happs.arguments,
      happs.dashes.symm.trans hall.symm⟩

theorem Derives.isBuilt {s : Stream} (h : Derives text (sightsOf none ts.dropLast) s)
    (hts : tokenize text = .ok ts) : IsBuilt text ts s := by
  have hall := dashesIn_eq hts
  generalize hvs : sightsOf none ts.dropLast = vs at h hall
  cases h with
  | unnamed hb => exact hb.isBuilt hts (hvs ▸ List.infix_rfl) hall
  | @named name equals us s hn hk hb =>
    have hn : _ ≠ Kind.doubleMinus := Kind.ne_of_isName hn rfl
    have hname : Argument.dashesOf [name, equals] = [] :=
      Argument.dashesOf_eq_nil (by simp [hn, hk])
    have hdashes := Argument.dashesOf_append [name, equals] us
    rw [hname, List.nil_append] at hdashes
    have hus := (List.suffix_append [name, equals] us).isInfix
    have hbuilt := hb.isBuilt hts (hvs ▸ hus) (hall.trans hdashes)
    exact ⟨hbuilt.apps, hbuilt.unbound, hbuilt.sink, hbuilt.arguments, hbuilt.dashes⟩

/-- What holds of every stream that is read, whatever its text and the name it is given. -/
theorem isRead_of_parseNamed {name : Option String} {s : Stream} (h : parseNamed name text = .ok s) :
    ∃ ts, tokenize text = .ok ts ∧ IsRead text ts s := by
  obtain ⟨ts, -, hts, -⟩ := parseNamed_eq_ok.mp h
  obtain ⟨t, ht, rfl, hlegal, hlabels⟩ := (parseNamed_iff_derives hts).mp h
  have hbuilt := ht.isBuilt hts
  exact ⟨ts, hts, ⟨⟨hbuilt.apps, hbuilt.unbound, hbuilt.sink, hbuilt.arguments, hbuilt.dashes⟩,
    hlabels, hlegal⟩⟩

/-- The second port gives the value and the end of the argument that the first one starts. -/
theorem isRead_of_ports : ∃ s,
    parseNamed (some "x") "a: http --port=1 --q=2 --port='3 4' | log" = .ok s ∧
    s.apps.map App.arguments = [[⟨"port", "3 4", 8, 35⟩, ⟨"q", "2", 17, 22⟩], []] ∧
      ∃ ts, tokenize "a: http --port=1 --q=2 --port='3 4' | log" = .ok ts ∧
        IsRead "a: http --port=1 --q=2 --port='3 4' | log" ts s := by
  obtain ⟨s, hs, ha⟩ : ∃ s,
      (parseNamed (some "x") "a: http --port=1 --q=2 --port='3 4' | log").toOption = some s ∧
        s.apps.map App.arguments = [[⟨"port", "3 4", 8, 35⟩, ⟨"q", "2", 17, 22⟩], []] := by
    decide +kernel
  exact ⟨s, toOption_eq_some.mp hs, ha, isRead_of_parseNamed (toOption_eq_some.mp hs)⟩

end Pipework.Stream
