import Pipework.Proofs.Argument.Alike
import Pipework.Proofs.Task.Shape

/-! Tasks read from tokens that look alike, down to where lines start, differ in their positions at
most, and where one is refused, so is the other, for the same reason. Only between sequences do
lines matter. -/

namespace Pipework.Task

open Token Pipework.Parser

namespace Read

variable {lines : Bool} {appMode : Bool}

/-! ## Apps and transitions -/

theorem agree_label? : Agree lines (Option.map Label.withoutPosition) label? label? := by
  refine agree_peek.bind fun t u ht => agree_secondKind.bindSame fun second => ?_
  rw [show t.isName = u.isName from congrArg Kind.isName ht]
  refine Agree.ite (agree_pure rfl) ?_
  refine agree_next.bind fun name name' hn => agree_requireAdjacent.bindSame fun _ => ?_
  refine agree_next.bind fun _ _ _ => agree_pure ?_
  rw [Option.map_some, Option.map_some, Label.withoutPosition, Label.withoutPosition,
    show name.text = name'.text from congrArg Kind.symbol hn]

theorem agree_appName : Agree lines Token.kind appName appName := by
  refine agree_peek.bind fun t u ht => ?_
  rw [show t.isName = u.isName from congrArg Kind.isName ht, ht]
  exact .ite agree_next <| .ite agree_refuseHere agree_refuseHere

theorem agree_arguments :
    Agree lines (List.map Argument.withoutPosition) (arguments appMode) (arguments appMode) := by
  refine agree_peekKind.bindSame fun k => Agree.ite (agree_pure rfl) ?_
  exact agree_refuseHere.guard Argument.agree_arguments

theorem agree_plainApp {label label' : Option Label}
    (h : label.map Label.withoutPosition = label'.map Label.withoutPosition) :
    Agree lines App.withoutPositions (plainApp appMode label) (plainApp appMode label') := by
  refine agree_appName.bind fun name name' hn => agree_arguments.bind fun as as' has => ?_
  refine agree_previousStop.bind fun _ _ _ => agree_pure ?_
  simp only [App.withoutPositions, h, has, show name.text = name'.text from congrArg Kind.symbol hn]

theorem agree_condition? : Agree lines id condition? condition? := by
  refine agree_peek.bind fun t u ht => agree_secondKind.bindSame fun second => ?_
  have hmissing : Agree lines id (condition?.missingArrow t) (condition?.missingArrow u) :=
    agree_get.bind fun _ _ _ => agree_refuse
  rw [ht]
  split
  · exact agree_refuseHere
  · exact agree_pure rfl
  · exact agree_refuseHere.guard (agree_pure rfl)
  · exact .ite (agree_pure rfl) hmissing
  · exact .ite (agree_pure rfl) hmissing
  · exact agree_pure rfl

theorem agree_target : Agree lines Target.withoutPositions (target appMode) (target appMode) := by
  refine agree_eatIf.bind fun colon colon' hc => ?_
  rw [show colon.isSome = colon'.isSome by simpa using congrArg Option.isSome hc]
  split
  · refine agree_peek.bind fun t u ht => ?_
    rw [show t.isName = u.isName from congrArg Kind.isName ht]
    refine agree_unexpected.guard <| agree_next.bind fun t u ht => agree_pure ?_
    rw [Target.withoutPositions, Target.withoutPositions,
      show t.text = u.text from congrArg Kind.symbol ht]
  · refine agree_label?.bind fun label label' hl => (agree_plainApp hl).bind fun a b hab => ?_
    refine agree_pure ?_
    rw [Target.withoutPositions, Target.withoutPositions, hab]

theorem agree_transition? : Agree lines (Option.map Transition.withoutPositions)
    (transition? appMode) (transition? appMode) := by
  refine agree_peek.bind fun _ _ _ => agree_condition?.bindSame fun condition => ?_
  cases condition with
  | none => exact agree_pure rfl
  | some condition =>
    refine agree_next.bind fun _ _ _ => agree_next.bind fun _ _ _ => ?_
    refine agree_target.bind fun target target' ht => agree_previousStop.bind fun _ _ _ => ?_
    refine agree_pure ?_
    rw [Option.map_some, Option.map_some, Transition.withoutPositions, Transition.withoutPositions,
      ht]

theorem agree_app {label label' : Option Label}
    (h : label.map Label.withoutPosition = label'.map Label.withoutPosition) :
    Agree lines App.withoutPositions (app appMode label) (app appMode label') := by
  refine (agree_plainApp h).bind fun a b hab => ?_
  refine (agree_many agree_transition?).bind fun ts us htu => agree_pure ?_
  cases a
  cases b
  simp only [App.withoutPositions, App.mk.injEq, transitionsWithoutPositions_eq_map] at hab ⊢
  simp [hab, htu]

/-! ## Sequences

`inner` reads a sequence one level further down. -/

section

variable {inner : Parser Sequence} (hinner : Agree lines Sequence.withoutPositions inner inner)

include hinner

theorem agree_branch? :
    Agree lines (Option.map Sequence.withoutPositions) (branch? inner) (branch? inner) := by
  refine agree_eatIf.bind fun pipe pipe' hp => ?_
  rw [show pipe.isSome = pipe'.isSome by simpa using congrArg Option.isSome hp]
  refine .ite (hinner.bind fun s t hst => agree_pure ?_) (agree_pure rfl)
  rw [Option.map_some, Option.map_some, hst]

theorem agree_split {label label' : Option Label}
    (h : label.map Label.withoutPosition = label'.map Label.withoutPosition) :
    Agree lines Split.withoutPositions (split inner label) (split inner label') := by
  refine agree_eat.bind fun _ _ _ => hinner.bind fun first first' hfirst => ?_
  refine (agree_many (agree_branch? hinner)).bind fun rest rest' hrest => ?_
  refine agree_peek.bind fun t u ht => ?_
  rw [ht]
  split
  · refine agree_next.bind fun _ _ _ => agree_pure ?_
    simp [Split.withoutPositions, sequencesWithoutPositions_eq_map, h, hfirst, hrest]
  · exact agree_refuseHere
  · exact agree_refuseHere

omit hinner in
theorem agree_elementLabel :
    Agree lines (Option.map Label.withoutPosition) elementLabel elementLabel := by
  refine agree_label?.bind fun label label' hl => ?_
  match label, label', hl with
  | none, none, _ => exact agree_pure rfl
  | some _, some _, hl =>
    refine agree_label?.bind fun second second' hs => ?_
    match second, second', hs with
    | some _, some _, _ => exact agree_refuse_bind
    | none, none, _ =>
      exact agree_peekKind.bindSame fun k => agree_refuse.guard <| agree_pure hl

theorem agree_elements :
    Agree lines (List.map Element.withoutPositions) (elements appMode inner)
      (elements appMode inner) := by
  refine agree_eatIf.bind fun paren paren' hp => ?_
  rw [show paren.isSome = paren'.isSome by simpa using congrArg Option.isSome hp]
  split
  · refine hinner.bind fun group group' hg => agree_eat.bind fun _ _ _ => agree_pure ?_
    cases group
    cases group'
    simpa [Sequence.withoutPositions, elementsWithoutPositions_eq_map] using hg
  · refine agree_elementLabel.bind fun label label' hl => agree_peekKind.bindSame fun k => ?_
    refine .ite ((agree_split hinner hl).bind fun s t hst => agree_pure ?_)
      ((agree_app hl).bind fun a b hab => agree_pure ?_)
    · simp only [List.map_cons, List.map_nil, Element.withoutPositions, hst]
    · simp only [List.map_cons, List.map_nil, Element.withoutPositions, hab]

theorem agree_joinedElements? :
    Agree lines (Option.map (List.map Element.withoutPositions)) (joinedElements? appMode inner)
      (joinedElements? appMode inner) := by
  refine agree_eatIf.bind fun joint joint' hj => ?_
  rw [show joint.isSome = joint'.isSome by simpa using congrArg Option.isSome hj]
  refine .ite ((agree_elements hinner).bind fun es es' hes => agree_pure ?_) (agree_pure rfl)
  rw [Option.map_some, Option.map_some, hes]

theorem agree_sequenceWith :
    Agree lines Sequence.withoutPositions (sequenceWith appMode inner)
      (sequenceWith appMode inner) := by
  refine agree_peek.bind fun _ _ _ => (agree_elements hinner).bind fun first first' hfirst => ?_
  refine (agree_many (agree_joinedElements? hinner)).bind fun rest rest' hrest => ?_
  refine agree_previousStop.bind fun _ _ _ => agree_pure ?_
  simp only [Sequence.withoutPositions, elementsWithoutPositions_eq_map, List.map_append, hfirst,
    List.map_flatten, hrest]

end

theorem agree_sequence (levels : Nat) :
    Agree lines Sequence.withoutPositions (sequence appMode levels) (sequence appMode levels) := by
  induction levels with
  | zero => exact agree_refuseHere
  | succ levels ih => exact agree_sequenceWith ih

/-! ## Tasks

From here on lines are looked at. -/

theorem startsLine_seen (c : Cursor) : startsLine c = (c.seen true).head?.any View.breaks := by
  rcases c with ⟨source, _ | ⟨l, ls⟩, _ | ⟨t, ts⟩, good⟩ <;> rfl

theorem agree_separator? : Agree true id separator? separator? := by
  refine agree_hasNext.bindSame fun more => Agree.ite (agree_pure rfl) ?_
  refine agree_eatIf.bind fun semicolon semicolon' hs => ?_
  rw [show semicolon.isSome = semicolon'.isSome by simpa using congrArg Option.isSome hs]
  refine Agree.ite agree_hasNext <| agree_get.bind fun c d hcd => ?_
  rw [startsLine_seen, startsLine_seen, hcd]
  exact .ite (agree_pure rfl) <| agree_get.bind fun _ _ _ => agree_refuseHere

theorem agree_topSequence :
    Agree lines Sequence.withoutPositions (topSequence appMode) (topSequence appMode) :=
  (agree_sequence _).bind fun _ _ hst => agree_checkpoint.bindSame fun _ => agree_pure hst

theorem agree_nextSequence? : Agree true (Option.map Sequence.withoutPositions)
    (nextSequence? appMode) (nextSequence? appMode) := by
  refine agree_separator?.bindSame fun more => .ite ?_ (agree_pure rfl)
  refine agree_topSequence.bind fun s t hst => agree_pure ?_
  rw [Option.map_some, Option.map_some, hst]

theorem agree_requireLegalName (name : Option String) :
    Agree lines id (requireLegalName name) (requireLegalName name) := by
  cases name with
  | none => exact agree_pure rfl
  | some name => exact Agree.ite (agree_pure rfl) agree_refuse

theorem agree_definition (name : Option String) (appMode : Bool) :
    Agree true withoutPositions (definition name appMode) (definition name appMode) := by
  refine (agree_requireLegalName name).bindSame fun _ => ?_
  refine agree_topSequence.bind fun first first' hfirst => ?_
  refine (agree_many agree_nextSequence?).bind fun rest rest' hrest => ?_
  refine agree_get.bind fun _ _ _ => agree_pure ?_
  simp only [withoutPositions, List.map_cons, hfirst, hrest]

end Read

/-! ## Validation -/

/-- Tasks of one shape are invalid for the same reason. -/
theorem shown_validate {t u : Task} (h : t.withoutPositions = u.withoutPositions) :
    shown id t.validate = shown id u.validate := by
  have hfault := (survey_alike t).fault.trans (h ▸ (survey_alike u).fault.symm)
  unfold validate
  cases ht : t.survey.fault <;> cases hu : u.survey.fault <;> simp_all [shown]

end Pipework.Task
