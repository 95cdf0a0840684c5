import Pipework.Proofs.Argument.Marks
import Pipework.Stream.Parser

/-! Streams are refused at their tokens: every offset that is kept in a stream while it is read, and
every one that a fault names, is where a token starts or stops. -/

namespace Pipework.Stream

open Token Pipework.Parser

variable {ts : List Token}

/-- A channel is joined to the apps at its tokens. -/
def Endpoint.IsMarked (ts : List Token) (e : Endpoint) : Prop := IsMark ts e.start ∧ IsMark ts e.gt

/-! ## Labels -/

/-- A clash is reported at one of the apps. -/
theorem offset_of_mem_clashesAfter {before apps : List App} {clash : LabelClash}
    (h : clash ∈ clashesAfter before apps) : ∃ a ∈ apps, clash.secondOffset = a.start := by
  induction apps generalizing before with
  | nil => cases h
  | cons a apps ih =>
    have hrest (h : clash ∈ clashesAfter (before ++ [a]) apps) :
        ∃ b ∈ a :: apps, clash.secondOffset = b.start := by
      obtain ⟨b, hb, hoffset⟩ := ih h
      exact ⟨b, List.mem_cons_of_mem _ hb, hoffset⟩
    unfold clashesAfter at h
    split at h
    · exact hrest h
    · rcases List.mem_cons.mp h with rfl | h
      · exact ⟨a, List.mem_cons_self, rfl⟩
      · exact hrest h

namespace Read

/-! ## Channels -/

theorem keeps_componentRest : Keeps ts componentRest fun _ => True := by
  refine carries_peekKind.bind fun _ _ => carries_adjacent.bind fun _ _ => ?_
  exact .ite (keeps_next.bind fun _ _ => carries_pure trivial) (carries_pure trivial)

theorem keeps_component : Keeps ts component fun _ => True :=
  keeps_next.bind fun _ _ => (carries_many_any keeps_componentRest).bind fun _ _ => carries_pure trivial

theorem keeps_dottedComponent : Keeps ts dottedComponent fun _ => True := by
  refine carries_peekKind.bind fun _ _ => carries_adjacent.bind fun _ _ => ?_
  refine .ite (carries_pure trivial) <| keeps_next.bind fun _ _ => keeps_peek.bind fun _ _ => ?_
  refine keeps_unexpected.guard <| (keeps_requireAdjacent rfl).bind fun _ _ => ?_
  exact (keeps_refuseHere rfl).guard <| keeps_component.bind fun _ _ => carries_pure trivial

theorem keeps_destination (isSource : Bool) :
    Keeps ts (destination isSource) fun p => IsMark ts p.2.1 := by
  refine keeps_eat.bind fun colon hcolon => carries_peekKind.bind fun _ _ => ?_
  refine (keeps_refuseHere rfl).guard <| (keeps_requireAdjacent rfl).bind fun _ _ => ?_
  refine keeps_component.bind fun _ _ => (carries_many_any keeps_dottedComponent).bind fun _ _ => ?_
  refine carries_peekKind.bind fun _ _ => carries_adjacent.bind fun _ _ => ?_
  refine (keeps_refuseHere rfl).guard <| keeps_previousStop.bind fun _ _ => ?_
  exact carries_pure (isMark_start hcolon)

theorem keeps_colonName : Keeps ts colonName fun _ => True := by
  refine carries_peekKind.bind fun _ _ => .ite (carries_pure trivial) ?_
  refine (keeps_requireAdjacent rfl).bind fun _ _ => keeps_next.bind fun _ _ => ?_
  refine keeps_peek.bind fun _ _ => keeps_unexpected.guard ?_
  exact (keeps_requireAdjacent rfl).bind fun _ _ => keeps_next.bind fun _ _ => carries_pure trivial

theorem keeps_tapLabel : Keeps ts tapLabel fun _ => True := by
  refine carries_peekKind.bind fun _ _ => carries_adjacent.bind fun _ _ => ?_
  refine .ite (carries_pure trivial) <| keeps_next.bind fun _ _ => keeps_peek.bind fun _ _ => ?_
  refine keeps_unexpected.guard <| (keeps_requireAdjacent rfl).bind fun _ _ => ?_
  exact keeps_next.bind fun _ _ => carries_pure trivial

theorem keeps_keywordChannel (isSource : Bool) {first : Token} (hf : first ∈ ts)
    (names : List String) : Keeps ts (keywordChannel isSource first names) fun _ => True := by
  have hstart : IsMark ts first.start := isMark_start hf
  unfold keywordChannel
  split
  · refine (keeps_refuse hstart rfl).guard ?_
    match names with
    | [] | [_] => exact keeps_refuse hstart rfl
    | scope :: stream :: more =>
      refine (keeps_refuse hstart rfl).guard ?_
      exact keeps_tapLabel.bind fun _ _ => carries_pure trivial
  · cases Channel.Kind.ofName? first.text with
    | none => cases isSource <;> exact keeps_refuse hstart rfl
    | some kind =>
      refine keeps_unexpected.guard <| carries_peekKind.bind fun _ _ => ?_
      exact carries_adjacent.bind fun _ _ => (keeps_refuseHere rfl).guard <| carries_pure trivial

theorem keeps_keyword (isSource : Bool) : Keeps ts (keyword isSource) fun p => IsMark ts p.2.1 := by
  refine keeps_next.bind fun first hfirst => (carries_many_any keeps_colonName).bind fun names _ => ?_
  refine (keeps_keywordChannel isSource hfirst names).bind fun _ _ => ?_
  exact keeps_previousStop.bind fun _ _ => carries_pure (isMark_start hfirst)

theorem keeps_startsChannel : Keeps ts startsChannel fun _ => True :=
  carries_get.bind fun _ _ => carries_get.bind fun _ _ => carries_pure trivial

theorem keeps_channel (isSource : Bool) : Keeps ts (channel isSource) fun p => IsMark ts p.2.1 :=
  carries_peekKind.bind fun _ _ => .ite (keeps_destination isSource) (keeps_keyword isSource)

theorem keeps_source? : Keeps ts source? fun e? => ∀ e, e? = some e → e.IsMarked ts := by
  refine (carries_look (P := fun _ => True) _ fun _ _ => trivial).bind fun _ _ => ?_
  refine .ite (carries_pure nofun) <| (keeps_channel true).bind fun p hp => ?_
  refine keeps_eat.bind fun gt hgt => carries_pure fun e he => ?_
  cases he
  exact ⟨hp, isMark_start hgt⟩

theorem keeps_sink? : Keeps ts sink? fun e? => ∀ e, e? = some e → e.IsMarked ts := by
  refine keeps_eatIf.bind fun gt? hgt => ?_
  cases gt? with
  | none => exact carries_pure nofun
  | some gt =>
    refine keeps_startsChannel.bind fun _ _ => ?_
    refine .ite (keeps_peek.bind fun _ _ => keeps_refuseHere_bind rfl) ?_
    refine (keeps_channel false).bind fun p hp => carries_pure fun e he => ?_
    cases he
    exact ⟨hp, isMark_start (hgt gt rfl)⟩

/-! ## Apps -/

theorem keeps_appName : Keeps ts appName (· ∈ ts) :=
  keeps_peek.bind fun _ _ => .ite keeps_next (keeps_refuseHere rfl)

theorem keeps_endsLabel : Keeps ts endsLabel fun _ => True :=
  carries_peekKind.bind fun _ _ => carries_adjacent.bind fun _ _ => carries_pure trivial

/-- A labelled app starts at its label, any other at its name. -/
theorem keeps_labelledName : Keeps ts labelledName fun r =>
    IsMark ts ((r.1.map Label.start).getD r.2.start) := by
  refine keeps_appName.bind fun first hfirst => keeps_endsLabel.bind fun _ _ => ?_
  refine .ite (carries_pure (isMark_start hfirst)) <| keeps_next.bind fun _ _ => ?_
  refine carries_hasNext.bind fun _ _ => carries_adjacent.bind fun _ _ => ?_
  refine (keeps_refuseHere rfl).guard <| keeps_appName.bind fun name hname => ?_
  refine keeps_endsLabel.bind fun _ _ => (keeps_refuse (isMark_start hname) rfl).guard ?_
  exact carries_pure (isMark_start hfirst)

theorem keeps_app : Keeps ts app fun a => IsMark ts a.start :=
  keeps_labelledName.bind fun _ hr => Argument.keeps_arguments.bind fun _ _ => carries_pure hr

theorem keeps_separatedApp (separator : Kind) :
    Keeps ts (separatedApp separator) fun a? => ∀ a, a? = some a → IsMark ts a.start := by
  refine keeps_peek.bind fun token _ => .ite (carries_pure nofun) ?_
  refine (keeps_refuseHere rfl).guard <| keeps_next.bind fun _ _ => ?_
  refine keeps_peek.bind fun next hnext => carries_peekKind.bind fun _ _ => ?_
  refine .ite ((keeps_destination false).bind fun _ _ => keeps_refuse_bind ?_ rfl) ?_
  · exact isMark_start hnext
  · refine keeps_app.bind fun a ha => keeps_checkpoint.bind fun _ _ => carries_pure fun b hb => ?_
    cases hb
    exact ha

theorem keeps_apps : Keeps ts apps fun r => ∀ a ∈ r.1, IsMark ts a.start := by
  refine keeps_app.bind fun first hfirst => keeps_checkpoint.bind fun _ _ => ?_
  refine carries_peekKind.bind fun separator _ => ?_
  refine (carries_many (keeps_separatedApp separator)).bind fun rest hrest => ?_
  exact carries_pure (List.forall_mem_cons.mpr ⟨hfirst, hrest⟩)

/-! ## Streams -/

theorem keeps_inlineName : Keeps ts inlineName fun _ => True := by
  refine keeps_peek.bind fun _ _ => carries_secondKind.bind fun _ _ => ?_
  refine .ite ?_ (carries_pure trivial)
  exact keeps_next.bind fun _ _ => keeps_next.bind fun _ _ => carries_pure trivial

theorem keeps_appsAndSink {source : Option Endpoint} (hs : ∀ e, source = some e → e.IsMarked ts) :
    Keeps ts (appsAndSink source) fun r =>
      (∀ a ∈ r.1, IsMark ts a.start) ∧ ∀ e, r.2.2 = some e → e.IsMarked ts := by
  refine keeps_startsChannel.bind fun starts _ => ?_
  match source, starts, hs with
  | some source, true, hs =>
    -- The app that stands for a bridge has the offset of the `>`.
    obtain ⟨-, hgt⟩ := hs source rfl
    refine (keeps_channel false).bind fun p hp => carries_pure ⟨?_, fun e he => ?_⟩
    · intro a ha
      obtain rfl := List.mem_singleton.mp ha
      exact hgt
    · cases he
      exact ⟨hp, hgt⟩
  | some _, false, _ | none, true, _ | none, false, _ =>
    refine keeps_apps.bind fun r hr => keeps_peek.bind fun _ _ => carries_hasNext.bind fun _ _ => ?_
    refine (keeps_refuseHere rfl).guard <| keeps_sink?.bind fun sink hsink => ?_
    exact carries_pure ⟨hr, hsink⟩

theorem keeps_requireBound (unbound : Bool) {source sink : Option Endpoint}
    (hsource : ∀ e, source = some e → e.IsMarked ts) (hsink : ∀ e, sink = some e → e.IsMarked ts) :
    Keeps ts (requireBound unbound source sink) fun _ => True := by
  unfold requireBound
  refine .ite ?_ (carries_pure trivial)
  match source, sink, hsource, hsink with
  | some source, _, hsource, _ => exact keeps_refuse (hsource source rfl).1 rfl
  | none, some sink, _, hsink => exact keeps_refuse (hsink sink rfl).2 rfl
  | none, none, _, _ => exact carries_pure trivial

theorem keeps_body : Keeps ts body fun s => ∀ a ∈ s.apps, IsMark ts a.start := by
  refine keeps_inlineName.bind fun _ _ => keeps_source?.bind fun source hsource => ?_
  refine keeps_checkpoint.bind fun _ _ => (keeps_appsAndSink hsource).bind fun r hr => ?_
  refine (keeps_requireBound r.2.1 hsource hr.2).bind fun _ _ => carries_hasNext.bind fun _ _ => ?_
  refine .ite (carries_get.bind fun _ _ => keeps_refuseHere_bind rfl) ?_
  exact carries_get.bind fun _ _ => carries_pure hr.1

/-! ## Definitions -/

theorem keeps_requireLegalName (name : Option String) :
    Keeps ts (requireLegalName name) fun _ => True := by
  cases name with
  | none => exact carries_pure trivial
  | some name => exact .ite (carries_pure trivial) (keeps_refuse (isMark_zero ts) rfl)

theorem keeps_requireUniqueLabels {s : Stream} (hs : ∀ a ∈ s.apps, IsMark ts a.start) :
    Keeps ts (requireUniqueLabels s) fun _ => True := by
  intro c hc
  unfold requireUniqueLabels
  cases h : s.clashes with
  | nil => exact ⟨hc, trivial⟩
  | cons clash rest =>
    obtain ⟨a, ha, hoffset⟩ := offset_of_mem_clashesAfter (h ▸ List.mem_cons_self : clash ∈ s.clashes)
    have hfault := hc.fault (hoffset ▸ hs a ha) (m := .duplicateLabel) rfl clash.inserts
    exact ⟨hfault.offset, hfault.grammar, hfault.checkpoint⟩

/-- A stream is refused at its tokens, or at the start of its text for its name. -/
theorem keeps_definition (name : Option String) : Keeps ts (definition name) fun _ => True := by
  refine keeps_body.bind fun s hs => (keeps_requireLegalName _).bind fun _ _ => ?_
  exact (keeps_requireUniqueLabels hs).bind fun _ _ => carries_pure trivial

end Read

end Pipework.Stream
