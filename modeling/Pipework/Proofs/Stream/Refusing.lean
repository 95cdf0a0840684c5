import Pipework.Proofs.Parser.Refuses
import Pipework.Proofs.Stream.Extension
import Pipework.Proofs.Token.Tiling

/-! How a text is refused that starts as a stream which could go on: the tokens of the stream are
read as before, and what is wrong behind its apps is wrong with the text. -/

namespace Pipework.Stream

open Token Pipework.Parser Read

/-! ## What comes behind the apps -/

/-- What comes behind the apps does not make a name, a keyword or a source of how they begin. -/
structure IsBehind (tail : List View) : Prop where
  colon : ∀ v ∈ tail.head?, v.kind ≠ .colon
  equals : ∀ v ∈ tail.head?, v.kind ≠ .equals
  gtAhead : gtAhead tail = false

theorem opensName_append {us ws : List View} (hu : us ≠ [])
    (hw : ∀ v ∈ ws.head?, v.kind ≠ .equals) : opensName (us ++ ws) = opensName us := by
  match us, ws with
  | [], _ => exact absurd rfl hu
  | [_], [] => rfl
  | [_], w :: ws => simpa [opensName] using fun _ h => absurd h (hw w rfl)
  | _ :: _ :: _, _ => rfl

/-- What comes first in a stream without a name is no name. -/
theorem Body.opensName_self {vs : List View} {s : Stream} (h : Body vs s) : opensName vs = false := by
  have hend : FollowsApp [⟨.eof, false, false⟩] := ⟨_, [], rfl, rfl⟩
  rw [← h.opensName_eq hend, opensName_append h.ne_nil (by simp)]

/-! ## Parsers -/

/-- Apps in a row are refused with what stands behind one of their separators. -/
theorem apps_refuse_behind {c : Cursor} {P : Fault → Prop} {separator : Kind}
    (hk : separator = .pipe ∨ separator = .doublePipe) {us ws tail : List Sight} {a : App}
    {as : List App} (ha : a.Derives us) (hm : Many (Behind separator App.Derives) ws as)
    (htail : ∃ v vs, tail = v :: vs ∧ v.kind = separator) (hc : c.sights = us ++ (ws ++ tail))
    (hrefused : ∀ {c}, c.sights = tail → ∃ f, Refuses (separatedApp separator) c f ∧ P f) :
    ∃ f, Refuses Read.apps c f ∧ P f := by
  have hends : endsApp separator = true := by rcases hk with rfl | rfl <;> rfl
  have hfollow : ∀ {ws : List Sight}, (∃ v vs, ws = v :: vs ∧ v.kind = separator) →
      FollowsApp (ws.map Sight.toView) := by
    intro ws h
    obtain ⟨v, vs, rfl, rfl⟩ := h
    exact ⟨v.toView, _, rfl, hends⟩
  have hhead : ∃ v vs, ws ++ tail = v :: vs ∧ v.kind = separator := by
    cases hm with
    | nil => exact htail
    | cons hi _ =>
      obtain ⟨hv, -⟩ := hi
      exact ⟨_, _, rfl, hv⟩
  obtain ⟨e, he, hpass⟩ := ha.reads hc (hfollow hhead)
  have h₁ := hpass.left hc
  have hpeek : e.peek.kind = separator := by
    obtain ⟨v, vs, hv, hkind⟩ := hhead
    exact (Cursor.peek_kind_of_sights (h₁.trans hv)).trans hkind
  have hne : tail ≠ [] := by
    obtain ⟨v, vs, rfl, -⟩ := htail
    simp
  obtain ⟨f, hf, hP⟩ := many_refuses (c := e.checkpoint) (repeats_separatedApp hk) (hfollow htail)
    hne hrefused hm h₁
  refine ⟨f, he.refuses (Reads.refuses (a := ()) (reads_checkpoint.mpr rfl)
    (Reads.refuses (reads_peekKind.mpr ⟨rfl, rfl⟩) (Refuses.bind ?_))), hP⟩
  rw [Cursor.peek_checkpoint, hpeek]
  exact hf

section

variable {c e : Cursor} {text : String} {vs tail : List Sight} {s : Stream} {P : Fault → Prop}
  (htail : IsBehind (tail.map Sight.toView))

include htail

theorem no_name_reads (h : Body (vs.map Sight.toView) s) (hc : c.sights = vs ++ tail) :
    Reads inlineName c none c := by
  refine reads_no_inlineName ?_
  rw [Cursor.views_of_sights hc, List.map_append, opensName_append h.ne_nil htail.equals,
    h.opensName_self]

/-- Apps that are refused are refused with what comes before them. -/
theorem row_refuses {us : List Sight} {as : List App} {unbound : Bool} {source : Option Endpoint}
    (h : DerivesRow us as unbound)
    (hopen : source.isSome = true → opensKeyword (us.map Sight.toView) = false)
    (hc : c.sights = us ++ tail) (happs : ∃ f, Refuses Read.apps c f ∧ P f) :
    ∃ f, Refuses (appsAndSink source) c f ∧ P f := by
  obtain ⟨f, hf, hP⟩ := happs
  refine ⟨f, Reads.refuses (reads_startsChannel.mpr ⟨rfl, rfl⟩) ?_, hP⟩
  cases source with
  | none => exact hf.bind
  | some e =>
    have hcolon : c.peek.kind ≠ .colon := by
      rw [← List.append_nil us] at hc
      exact peek_of_row h hc
    have hkeyword : startsKeyword c = false := by
      rw [startsKeyword_eq, Cursor.views_of_sights hc, List.map_append,
        opensKeyword_append h.spells.ne_nil htail.colon]
      exact hopen rfl
    rw [hkeyword, beq_eq_false_iff_ne.mpr hcolon]
    exact hf.bind

/-- Without a source, the apps of a stream that has no sink come first. -/
theorem row_without_source_refuses {us : List Sight} {as : List App} {unbound : Bool}
    {name : Option String} (h : DerivesRow us as unbound) (hn : Reads inlineName c name e)
    (hc : e.sights = us ++ tail)
    (happs : ∀ {c}, c.sights = us ++ tail → ∃ f, Refuses Read.apps c f ∧ P f) :
    ∃ f, Refuses body c f ∧ P f := by
  have hgt : Stream.gtAhead e.views = false := by
    rw [Cursor.views_of_sights hc, List.map_append]
    exact h.spells.gtAhead_eq (.inr htail.gtAhead)
  have hcolon : e.peek.kind ≠ .colon := by
    have hc' := hc
    rw [← List.append_nil us] at hc'
    exact peek_of_row h hc'
  have hopen : (none : Option Endpoint).isSome = true → opensKeyword (us.map Sight.toView) = false :=
    nofun
  obtain ⟨f, hf, hP⟩ := row_refuses (c := e.checkpoint) htail h hopen hc (happs hc)
  have hsource := no_source_reads hcolon fun _ => hgt
  exact ⟨f, hn.refuses (hsource.refuses (Reads.refuses (a := ()) (reads_checkpoint.mpr rfl) hf.bind)),
    hP⟩

theorem DerivesBody.refused {name : Option String} (h : DerivesBody text vs s)
    (hsink : s.sink = none) (hn : Reads inlineName c name e) (hc : e.sights = vs ++ tail)
    (happs : ∀ {us c}, DerivesRow us s.apps s.unbound → c.sights = us ++ tail →
      ∃ f, Refuses Read.apps c f ∧ P f) : ∃ f, Refuses body c f ∧ P f := by
  cases h with
  | bridge => cases hsink
  | apart hrow => exact row_without_source_refuses htail hrow hn hc fun hc => happs hrow hc
  | @row vs us _ as source _ hsource hrow hk hopen =>
    obtain rfl := hsink
    cases hk
    rw [List.append_nil] at hc
    cases source with
    | none =>
      cases hsource
      exact row_without_source_refuses htail hrow hn hc fun hc => happs hrow hc
    | some source =>
      rw [List.append_assoc] at hc
      obtain ⟨g, hg, hpass⟩ := source_reads hsource hc
      have hno : (some source).isSome = true → opensKeyword (us.map Sight.toView) = false :=
        fun _ => Bool.eq_false_iff.mpr fun ho => Option.some_ne_none _ (hopen ho).1
      have hc := hpass.left hc
      obtain ⟨f, hf, hP⟩ := row_refuses (c := g.checkpoint) htail hrow hno hc (happs hrow hc)
      exact ⟨f, hn.refuses (hg.refuses (Reads.refuses (a := ()) (reads_checkpoint.mpr rfl) hf.bind)),
        hP⟩

/-- A stream whose apps are refused before the tail is refused. -/
theorem Derives.refused (h : Derives text vs s) (hsink : s.sink = none) (hc : c.sights = vs ++ tail)
    (happs : ∀ {us c}, DerivesRow us s.apps s.unbound → c.sights = us ++ tail →
      ∃ f, Refuses Read.apps c f ∧ P f) : ∃ f, Refuses body c f ∧ P f := by
  cases h with
  | unnamed hb => exact hb.refused htail hsink (no_name_reads htail hb.spells hc) hc happs
  | named hn hk hb =>
    obtain ⟨e, he, hpass⟩ := inlineName_reads hn hk hc
    exact hb.refused htail hsink he (hpass.left hc) happs

end

/-! ## Texts -/

theorem sightsOf_starts (last : Option Token) (ts : List Token) :
    (sightsOf last ts).map Sight.start = ts.map Token.start := by
  induction ts generalizing last with
  | nil => rfl
  | cons t ts ih => rw [sightsOf, List.map_cons, ih]; rfl

/-- The last token stands at the end of the text. -/
theorem start_of_sights {text : String} {ts : List Token} (hts : tokenize text = .ok ts)
    {vs : List Sight} {v : Sight} (hc : (Cursor.ofTokens text ts).sights = vs ++ [v]) :
    v.start = text.utf8ByteSize := by
  have htiles := tiles_of_tokenize hts
  obtain ⟨us, t, rfl, -, hk, hstart, -⟩ := htiles.ends
  have hstarts := sightsOf_starts none (us ++ [t])
  rw [Cursor.ofTokens, Cursor.sights, terminated_eq ⟨t, by simp, hk⟩] at hc
  change sightsOf none (us ++ [t]) = vs ++ [v] at hc
  rw [hc, List.map_append, List.map_append] at hstarts
  have hlast := (List.append_inj' hstarts rfl).2
  rw [← Text.byteLength_toList]
  simpa [hstart] using hlast

theorem views_ofTokens {text : String} {ts : List Token} (hts : tokenize text = .ok ts) :
    (Cursor.ofTokens text ts).views = viewsOf none ts := by
  obtain ⟨us, t, rfl, hk, -⟩ := exists_eof_of_tokenize hts
  rw [Cursor.ofTokens, Cursor.views, terminated_eq ⟨t, by simp, hk⟩]
  rfl

/-- The tokens of a text, as it is cut. -/
theorem exists_sights_of_lexes {text : String} {us : List View} {e : Bool}
    (hl : Lexes false text.toList us e []) (hne : us ≠ []) :
    ∃ ts vs stop, tokenize text = .ok ts ∧ (Cursor.ofTokens text ts).sights = vs ++ [stop] ∧
      vs.map Sight.toView = unglued us ∧ stop.toView = ⟨.eof, true, false⟩ := by
  obtain ⟨ws, v, hws, hu, rfl⟩ := lexesAll_of_text hl hne
  obtain ⟨ts, hts, hv⟩ := tokenize_of_lexesAll hws
  obtain ⟨stop, hc, -⟩ := sights_ofTokens hts
  have hviews := (Cursor.views_of_sights hc).symm.trans ((views_ofTokens hts).trans (hv.trans hu))
  rw [List.map_append] at hviews
  obtain ⟨hvs, hstop⟩ := List.append_inj' hviews rfl
  exact ⟨ts, _, stop, hts, hc, hvs, List.head_eq_of_cons_eq hstop⟩

variable {text next : String} {s : Stream} {rest : List Char} {ws : List View} {P : Fault → Prop}

/-- A text that goes on behind an open stream is refused where the apps of the stream, read before
the tokens that are added, are refused. -/
theorem parse_refused (h : parse text = .ok s) (hsink : s.sink = none) (hrest : onset rest = none)
    (hws : ∀ e, ∃ e', Lexes e rest ws e' []) (hnext : next.toList = Text.trimEnd text.toList ++ rest)
    (hbehind : IsBehind (ws ++ [⟨.eof, true, false⟩]))
    (happs : ∀ {us tail : List Sight} {as : List App} {stop : Sight} {c : Cursor}, DerivesRow us as s.unbound →
      tail.map Sight.toView = ws → stop.toView = ⟨.eof, true, false⟩ →
      stop.start = next.utf8ByteSize → c.sights = us ++ (tail ++ [stop]) →
      ∃ f, Refuses Read.apps c f ∧ P f) : ∃ f, parse next = .error f ∧ P f := by
  obtain ⟨us, e, hus, hs, hl⟩ := exists_spells_of_parse h
  obtain ⟨e', hlex⟩ := hws e
  have hlex := (hl rest hrest).trans hlex
  rw [← hnext] at hlex
  obtain ⟨ts, all, stop, hts, hc, hall, hstop⟩ := exists_sights_of_lexes hlex (by simp [hus])
  rw [unglued_append hus] at hall
  obtain ⟨vs, tail, rfl, hspelled, htail⟩ := List.map_eq_append_iff.mp hall
  rw [← hspelled] at hs
  obtain ⟨b, hb, hshape⟩ := hs.exists_derives next
  have hbsink : b.sink = none := by
    have := congrArg Stream.sink hshape
    simpa [withoutPositions, hsink] using this
  have hbound : b.unbound = s.unbound := by
    simpa [withoutPositions] using congrArg Stream.unbound hshape
  have hstart := start_of_sights hts hc
  have hviews : IsBehind ((tail ++ [stop]).map Sight.toView) := by
    rw [List.map_append, htail, List.map_singleton, hstop]
    exact hbehind
  rw [List.append_assoc] at hc
  obtain ⟨f, hf, hP⟩ := hb.refused hviews hbsink hc fun hrow hc =>
    happs (hbound ▸ hrow) htail hstop hstart hc
  exact ⟨f, parse_eq_error hts hf.bind, hP⟩

end Pipework.Stream
