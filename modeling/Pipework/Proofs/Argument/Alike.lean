import Pipework.Proofs.Argument.Grammar
import Pipework.Proofs.Parser.Alike

/-! Arguments read from tokens that look alike differ in their positions at most. -/

namespace Pipework.Argument

open Token Pipework.Parser

variable {lines : Bool}

/-- A name is read that touches the token passed before it. -/
theorem agree_gluedName {α : Type} (expected : String) (m : Message) (f : String → α) :
    Agree lines id
      (do
        let _ ← next
        if !(← peek).isName then unexpected expected
        requireAdjacent m
        return f (← next).text)
      (do
        let _ ← next
        if !(← peek).isName then unexpected expected
        requireAdjacent m
        return f (← next).text) := by
  refine agree_next.bind fun _ _ _ => agree_peek.bind fun t u ht => ?_
  rw [show t.isName = u.isName from congrArg Kind.isName ht]
  refine agree_unexpected.guard <| agree_requireAdjacent.bindSame fun _ => ?_
  refine agree_next.bind fun t u ht => agree_pure ?_
  rw [show t.text = u.text from congrArg Kind.symbol ht]

theorem agree_dottedRest : Agree lines id dottedRest dottedRest := by
  refine agree_peekKind.bindSame fun k => ?_
  split
  · exact agree_pure rfl
  exact agree_requireAdjacent.bindSame fun _ => agree_gluedName _ _ fun text => some ("." ++ text)

theorem agree_dottedName : Agree lines id dottedName dottedName := by
  refine agree_peek.bind fun t u ht => ?_
  rw [show t.isName = u.isName from congrArg Kind.isName ht]
  refine agree_unexpected.guard <| agree_next.bind fun t u ht => ?_
  rw [show t.text = u.text from congrArg Kind.symbol ht]
  refine (agree_many (f := id) ?_).bind fun ss ss' hss => agree_pure ?_
  · rw [Option.map_id]
    exact agree_dottedRest
  · rw [List.map_id, List.map_id] at hss
    rw [hss]

theorem agree_argument? :
    Agree lines (Option.map Argument.withoutPosition) argument? argument? := by
  refine agree_peek.bind fun dashes dashes' hd => ?_
  rw [hd]
  split
  · exact agree_pure rfl
  refine agree_adjacent.bindSame fun glued => agree_refuseHere.guard <| ?_
  refine agree_next.bind fun _ _ _ => agree_hasNext.bindSame fun more => ?_
  refine agree_requireAdjacent.guard <| ?_
  refine agree_dottedName.bindSame fun name => agree_peekKind.bindSame fun k => ?_
  refine agree_requireAdjacent.guard <| ?_
  refine agree_eat.bind fun _ _ _ => agree_peek.bind fun value value' hv => ?_
  rw [hv]
  split
  all_goals first
    | exact agree_refuseHere
    | exact agree_requireAdjacent.bindSame fun _ => agree_next.bind fun _ _ _ => agree_pure rfl

theorem agree_arguments :
    Agree lines (List.map Argument.withoutPosition) arguments arguments :=
  agree_many agree_argument?

end Pipework.Argument
