import Pipework.Proofs.Argument.Alike
import Pipework.Proofs.Stream.Reading

/-! Streams read from tokens that look alike differ in their positions at most, and where one is
refused, so is the other, for the same reason. -/

namespace Pipework.Stream

open Token Pipework.Parser

variable {lines : Bool}

/-! ## Looking ahead -/

theorem opensKeyword_seen (lines : Bool) (vs : List View) :
    opensKeyword (vs.map (View.seen lines)) = opensKeyword vs := by
  match vs with
  | [] | [_] | _ :: _ :: _ => rfl

theorem gtAhead_seen (lines : Bool) (vs : List View) : gtAhead (vs.map (View.seen lines)) = gtAhead vs := by
  induction vs with
  | nil => rfl
  | cons v vs ih => rw [List.map_cons, gtAhead, gtAhead, ih]; rfl

theorem startsKeyword_alike {c d : Cursor} (h : c.seen lines = d.seen lines) :
    Read.startsKeyword c = Read.startsKeyword d := by
  rw [startsKeyword_eq, startsKeyword_eq, ← opensKeyword_seen lines c.views,
    ← opensKeyword_seen lines d.views]
  exact congrArg opensKeyword h

theorem gtBeforePipe_alike {c d : Cursor} (h : c.seen lines = d.seen lines) :
    Read.gtBeforePipe c.ahead = Read.gtBeforePipe d.ahead := by
  rw [gtBeforePipe_eq, gtBeforePipe_eq, ← gtAhead_seen lines c.views,
    ← gtAhead_seen lines d.views]
  exact congrArg gtAhead h

namespace Read

/-! ## Channels -/

theorem agree_componentRest : Agree lines id componentRest componentRest := by
  refine agree_peekKind.bindSame fun k => agree_adjacent.bindSame fun glued => ?_
  split
  · refine agree_next.bind fun t u ht => agree_pure ?_
    rw [show t.text = u.text from congrArg Kind.symbol ht]
  · exact agree_pure rfl

theorem agree_component : Agree lines id component component := by
  refine agree_next.bind fun t u ht => (agree_many_same agree_componentRest).bindSame fun _ => ?_
  rw [show t.text = u.text from congrArg Kind.symbol ht]
  exact agree_pure rfl

theorem agree_dottedComponent : Agree lines id dottedComponent dottedComponent := by
  refine agree_peekKind.bindSame fun k => agree_adjacent.bindSame fun glued => ?_
  split
  · exact agree_pure rfl
  refine agree_next.bind fun _ _ _ => agree_peek.bind fun t u ht => ?_
  rw [ht]
  refine agree_unexpected.guard <| agree_requireAdjacent.bindSame fun _ => ?_
  refine agree_refuseHere.guard <| agree_component.bindSame fun _ => agree_pure rfl

theorem agree_destination (isSource : Bool) :
    Agree lines Prod.fst (destination isSource) (destination isSource) := by
  refine agree_eat.bind fun _ _ _ => agree_peekKind.bindSame fun k => ?_
  refine agree_refuseHere.guard <| agree_requireAdjacent.bindSame fun _ => ?_
  refine agree_component.bindSame fun first => ?_
  refine (agree_many_same agree_dottedComponent).bindSame fun rest => ?_
  refine agree_peekKind.bindSame fun k => agree_adjacent.bindSame fun glued => ?_
  refine agree_refuseHere.guard <| agree_previousStop.bind fun _ _ _ => agree_pure rfl

theorem agree_colonName : Agree lines id colonName colonName := by
  refine agree_peekKind.bindSame fun k => ?_
  split
  · exact agree_pure rfl
  exact agree_requireAdjacent.bindSame fun _ => Argument.agree_gluedName _ _ some

theorem agree_tapLabel : Agree lines id tapLabel tapLabel := by
  refine agree_peekKind.bindSame fun k => agree_adjacent.bindSame fun glued => ?_
  split
  · exact agree_pure rfl
  exact Argument.agree_gluedName _ _ some

theorem agree_keywordChannel (isSource : Bool) {first first' : Token}
    (h : first.kind = first'.kind) (names : List String) :
    Agree lines id (keywordChannel isSource first names) (keywordChannel isSource first' names) := by
  unfold keywordChannel
  rw [show first.text = first'.text from congrArg Kind.symbol h]
  split
  · refine agree_refuse.guard ?_
    match names with
    | [] | [_] => exact agree_refuse
    | scope :: stream :: more =>
      exact agree_refuse.guard <| agree_tapLabel.bindSame fun _ => agree_pure rfl
  · cases Channel.Kind.ofName? first'.text with
    | none => exact agree_refuse
    | some kind =>
      refine agree_unexpected.guard <| agree_peekKind.bindSame fun k => ?_
      refine agree_adjacent.bindSame fun glued => ?_
      exact agree_refuseHere.guard <| agree_pure rfl

theorem agree_keyword (isSource : Bool) :
    Agree lines Prod.fst (keyword isSource) (keyword isSource) := by
  refine agree_next.bind fun first first' h => ?_
  refine (agree_many_same agree_colonName).bindSame fun names => ?_
  refine (agree_keywordChannel isSource h names).bindSame fun channel => ?_
  exact agree_previousStop.bind fun _ _ _ => agree_pure rfl

theorem agree_startsChannel : Agree lines id startsChannel startsChannel := by
  refine agree_get.bind fun c d h => agree_get.bind fun c' d' h' => agree_pure ?_
  rw [Cursor.peek_kind_alike h, startsKeyword_alike h']

theorem agree_channel (isSource : Bool) :
    Agree lines Prod.fst (channel isSource) (channel isSource) := by
  refine agree_peekKind.bindSame fun k => ?_
  split
  · exact agree_destination isSource
  · exact agree_keyword isSource

theorem agree_startsSource : Agree lines id startsSource startsSource := by
  refine agree_get.bind fun c d h => agree_pure ?_
  rw [Cursor.peek_kind_alike h, startsKeyword_alike h, gtBeforePipe_alike h]

theorem agree_source? :
    Agree lines (Option.map Endpoint.withoutPosition) source? source? := by
  refine agree_startsSource.bindSame fun starts => ?_
  split
  · exact agree_pure rfl
  refine (agree_channel true).bind fun p q hpq => agree_eat.bind fun _ _ _ => agree_pure ?_
  rw [Option.map_some, Option.map_some, Endpoint.withoutPosition, Endpoint.withoutPosition, hpq]

theorem agree_sink? : Agree lines (Option.map Endpoint.withoutPosition) sink? sink? := by
  refine agree_eatIf.bind fun gt gt' hgt => ?_
  match gt, gt', hgt with
  | none, none, _ => exact agree_pure rfl
  | some gt, some gt', _ =>
    refine agree_startsChannel.bindSame fun starts => ?_
    refine Agree.ite (agree_peek.bind fun _ _ _ => agree_refuseHere_bind) ?_
    refine (agree_channel false).bind fun p q hpq => agree_pure ?_
    rw [Option.map_some, Option.map_some, Endpoint.withoutPosition, Endpoint.withoutPosition, hpq]

/-! ## Apps -/

theorem agree_appName : Agree lines Token.kind appName appName := by
  refine agree_peek.bind fun t u ht => ?_
  rw [show t.isName = u.isName from congrArg Kind.isName ht]
  split
  · exact agree_next
  · exact agree_refuseHere

theorem agree_endsLabel : Agree lines id endsLabel endsLabel := by
  exact agree_peekKind.bindSame fun k => agree_adjacent.bindSame fun glued => agree_pure rfl

theorem agree_labelledName :
    Agree lines (fun r => (r.1.map Label.withoutPosition, r.2.kind)) labelledName labelledName := by
  refine agree_appName.bind fun first first' hf => agree_endsLabel.bindSame fun ends => ?_
  split
  · refine agree_pure ?_
    rw [hf]
  refine agree_next.bind fun _ _ _ => agree_hasNext.bindSame fun more => ?_
  refine agree_adjacent.bindSame fun glued => agree_refuseHere.guard ?_
  refine agree_appName.bind fun name name' hn => agree_endsLabel.bindSame fun ends => ?_
  refine agree_refuse.guard <| agree_pure ?_
  simp only [Option.map_some, Label.withoutPosition, hn,
    show first.text = first'.text from congrArg Kind.symbol hf]

theorem agree_app : Agree lines App.withoutPosition app app := by
  refine agree_labelledName.bind fun r r' hr => Argument.agree_arguments.bind fun as bs has => ?_
  refine agree_pure ?_
  obtain ⟨hl, hn⟩ := Prod.mk.inj hr
  simp only [App.withoutPosition, Argument.foldl_insert_withoutPosition, has, hl,
    show r.2.text = r'.2.text from congrArg Kind.symbol hn]

theorem agree_separatedApp (separator : Kind) : Agree lines (Option.map App.withoutPosition)
    (separatedApp separator) (separatedApp separator) := by
  refine agree_peek.bind fun t u ht => ?_
  rw [ht]
  split
  · exact agree_pure rfl
  refine agree_refuseHere.guard <| agree_next.bind fun _ _ _ => agree_peek.bind fun _ _ _ => ?_
  refine agree_peekKind.bindSame fun k => ?_
  refine Agree.ite ((agree_destination false).bind fun _ _ _ => agree_refuse_bind) ?_
  refine agree_app.bind fun a b hab => agree_checkpoint.bindSame fun _ => agree_pure ?_
  rw [Option.map_some, Option.map_some, hab]

theorem agree_apps :
    Agree lines (fun r => (r.1.map App.withoutPosition, r.2)) apps apps := by
  refine agree_app.bind fun a b hab => agree_checkpoint.bindSame fun _ => ?_
  refine agree_peekKind.bindSame fun separator => ?_
  refine (agree_many (agree_separatedApp separator)).bind fun as bs has => agree_pure ?_
  rw [List.map_cons, List.map_cons, hab, has]

/-! ## Streams -/

theorem agree_inlineName : Agree lines id inlineName inlineName := by
  refine agree_peek.bind fun t u ht => agree_secondKind.bindSame fun second => ?_
  rw [show t.isName = u.isName from congrArg Kind.isName ht]
  split
  · refine agree_next.bind fun t u ht => agree_next.bind fun _ _ _ => ?_
    rw [show t.text = u.text from congrArg Kind.symbol ht]
    exact agree_pure rfl
  · exact agree_pure rfl

theorem agree_appsAndSink {source source' : Option Endpoint}
    (h : source.map Endpoint.withoutPosition = source'.map Endpoint.withoutPosition) :
    Agree lines (fun r => (r.1.map App.withoutPosition, r.2.1, r.2.2.map Endpoint.withoutPosition))
      (appsAndSink source) (appsAndSink source') := by
  refine agree_startsChannel.bindSame fun starts => ?_
  match source, source', starts, h with
  | some source, some source', true, _ =>
    refine (agree_channel false).bind fun p q hpq => agree_pure ?_
    simp only [Option.map_some, Endpoint.withoutPosition, hpq]
    rfl
  | some _, some _, false, _ | none, none, true, _ | none, none, false, _ =>
    refine agree_apps.bind fun r r' hr => agree_peek.bind fun t u ht => ?_
    obtain ⟨has, hunbound⟩ := Prod.mk.inj hr
    rw [ht]
    refine agree_hasNext.bindSame fun more => agree_refuseHere.guard ?_
    refine agree_sink?.bind fun sink sink' hsink => agree_pure ?_
    rw [has, hunbound, hsink]

theorem agree_requireBound (unbound : Bool) {source source' sink sink' : Option Endpoint}
    (hsource : source.map Endpoint.withoutPosition = source'.map Endpoint.withoutPosition)
    (hsink : sink.map Endpoint.withoutPosition = sink'.map Endpoint.withoutPosition) :
    Agree lines id (requireBound unbound source sink) (requireBound unbound source' sink') := by
  cases unbound with
  | false => exact agree_pure rfl
  | true =>
    cases source with
    | some s =>
      obtain ⟨s', rfl, -⟩ := Option.map_eq_some_iff.mp hsource.symm
      exact agree_refuse
    | none =>
      obtain rfl := Option.map_eq_none_iff.mp hsource.symm
      cases sink with
      | some s =>
        obtain ⟨s', rfl, -⟩ := Option.map_eq_some_iff.mp hsink.symm
        exact agree_refuse
      | none =>
        obtain rfl := Option.map_eq_none_iff.mp hsink.symm
        exact agree_pure rfl

theorem agree_body : Agree lines withoutPositions body body := by
  refine agree_inlineName.bindSame fun name => agree_source?.bind fun source source' hsource => ?_
  refine agree_checkpoint.bindSame fun _ => (agree_appsAndSink hsource).bind fun r r' hr => ?_
  obtain ⟨has, hr⟩ := Prod.mk.inj hr
  obtain ⟨hunbound, hsink⟩ := Prod.mk.inj hr
  obtain ⟨as, unbound, sink⟩ := r
  obtain ⟨as', unbound', sink'⟩ := r'
  obtain rfl : unbound = unbound' := hunbound
  refine (agree_requireBound unbound hsource hsink).bindSame fun _ => ?_
  refine agree_hasNext.bindSame fun more => Agree.ite ?_ ?_
  · exact agree_get.bind fun _ _ _ => agree_refuseHere_bind
  · refine agree_get.bind fun c d _ => agree_pure ?_
    simp only [withoutPositions, has, hsource, hsink]

/-! ## Definitions -/

theorem agree_requireLegalName (name : Option String) :
    Agree lines id (requireLegalName name) (requireLegalName name) := by
  cases name with
  | none => exact agree_pure rfl
  | some name => exact Agree.ite (agree_pure rfl) agree_refuse

theorem agree_requireUniqueLabels {s t : Stream} (h : s.withoutPositions = t.withoutPositions) :
    Agree lines id (requireUniqueLabels s) (requireUniqueLabels t) := by
  have hclashes : s.clashes = [] ↔ t.clashes = [] := by
    rw [clashes_eq_nil, clashes_eq_nil, ← labelNames_withoutPositions, h, labelNames_withoutPositions]
  intro c d hcd
  simp only [shownRun, requireUniqueLabels]
  cases hs : s.clashes with
  | nil => rw [hclashes.mp hs, shown, shown, hcd]
  | cons clash rest =>
    cases ht : t.clashes with
    | nil => simp [hclashes.mpr ht] at hs
    | cons clash' rest' => rfl

theorem agree_definition (lines : Bool) (name : Option String) :
    Agree lines withoutPositions (definition name) (definition name) := by
  refine agree_body.bind fun s t hst => ?_
  have hname : s.withoutPositions.name = t.withoutPositions.name := by rw [hst]
  change s.name = t.name at hname
  have hnamed : { s with name := s.name <|> name }.withoutPositions =
      { t with name := t.name <|> name }.withoutPositions := by
    simp only [withoutPositions, Stream.mk.injEq] at hst ⊢
    simp [hst]
  rw [hname] at hnamed ⊢
  refine (agree_requireLegalName _).bindSame fun _ => ?_
  refine (agree_requireUniqueLabels hnamed).bindSame fun _ => agree_pure hnamed

end Read

end Pipework.Stream
