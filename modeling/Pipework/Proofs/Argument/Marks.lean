import Pipework.Argument.Parser
import Pipework.Proofs.Parser.Marks

/-! Arguments are refused at their tokens. -/

namespace Pipework.Argument

open Token Pipework.Parser

variable {ts : List Token}

theorem keeps_dottedRest : Keeps ts dottedRest fun _ => True := by
  refine carries_peekKind.bind fun k _ => ?_
  split
  · exact carries_pure trivial
  refine (keeps_requireAdjacent rfl).bind fun _ _ => keeps_next.bind fun _ _ => ?_
  refine keeps_peek.bind fun _ _ => keeps_unexpected.guard ?_
  refine (keeps_requireAdjacent rfl).bind fun _ _ => keeps_next.bind fun _ _ => ?_
  exact carries_pure trivial

theorem keeps_dottedName : Keeps ts dottedName fun _ => True := by
  refine keeps_peek.bind fun _ _ => keeps_unexpected.guard <| keeps_next.bind fun _ _ => ?_
  exact (carries_many_any keeps_dottedRest).bind fun _ _ => carries_pure trivial

theorem keeps_argument? : Keeps ts argument? fun _ => True := by
  refine keeps_peek.bind fun dashes _ => ?_
  split
  · exact carries_pure trivial
  refine carries_adjacent.bind fun _ _ => (keeps_refuseHere rfl).guard <| ?_
  refine keeps_next.bind fun _ _ => carries_hasNext.bind fun _ _ => ?_
  refine (keeps_requireAdjacent rfl).guard <| keeps_dottedName.bind fun _ _ => ?_
  refine carries_peekKind.bind fun _ _ => (keeps_requireAdjacent rfl).guard ?_
  refine keeps_eat.bind fun _ _ => keeps_peek.bind fun value _ => ?_
  split
  all_goals first
    | exact keeps_refuseHere rfl
    | exact (keeps_requireAdjacent rfl).bind fun _ _ => keeps_next.bind fun _ _ => carries_pure trivial

theorem keeps_arguments : Keeps ts arguments fun _ => True := carries_many_any keeps_argument?

end Pipework.Argument
