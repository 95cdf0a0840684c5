import Pipework.Proofs.Argument.Grammar
import Pipework.Proofs.Parser.Carries

/-! Arguments that are not finished. An argument at the end of a text that has no `=` yet is refused
for a token that is missing, or for one that is not expected, whatever there is of its name. -/

namespace Pipework.Argument

open Token Pipework.Parser

/-- Something else is expected than the next token, or than the end of the text. -/
def IsUnexpected (f : Fault) : Prop := f.message = .outOfData ∨ f.message = .notExpectedToken

/-- Up to the end of the text every token touches the one before it, and none is `=`. -/
def LacksValue (c : Cursor) : Prop :=
  ∃ vs, c.views = vs ++ [⟨.eof, true, false⟩] ∧ ∀ v ∈ vs, v.glued = true ∧ v.kind ≠ .equals

theorem isUnexpected (c : Cursor) (expected : String) : IsUnexpected (c.unexpected expected) := by
  unfold Cursor.unexpected
  split
  · exact .inl rfl
  · exact .inr rfl

namespace LacksValue

variable {c : Cursor}

theorem exists_view (h : LacksValue c) :
    ∃ v vs, c.views = v :: vs ∧ v.glued = true ∧ v.kind ≠ .equals := by
  obtain ⟨vs, hvs, hall⟩ := h
  cases vs with
  | nil => exact ⟨_, _, hvs, rfl, by simp⟩
  | cons v vs => exact ⟨v, _, hvs, hall v List.mem_cons_self⟩

theorem adjacent (h : LacksValue c) : c.adjacent = true := by
  obtain ⟨v, vs, hviews, hglued, -⟩ := h.exists_view
  rw [Cursor.adjacent_of_views hviews, hglued]

theorem peek_ne (h : LacksValue c) : c.peek.kind ≠ .equals := by
  obtain ⟨v, vs, hviews, -, hk⟩ := h.exists_view
  rwa [Cursor.peek_kind_of_views hviews]

/-- The end of the text is not passed. -/
theorem next (h : LacksValue c) : LacksValue c.next.2 := by
  by_cases hk : c.peek.kind = .eof
  · have hsame : c.next.2 = c := by
      unfold Cursor.next
      unfold Cursor.peek at hk
      split
      · rfl
      · next t ts hc =>
        have ht : t.kind = .eof := by simpa [hc] using hk
        rw [if_pos ht]
    rwa [hsame]
  · obtain ⟨vs, hvs, hall⟩ := h
    cases vs with
    | nil => exact absurd (Cursor.peek_kind_of_views hvs) hk
    | cons v vs =>
      rw [Cursor.views_eq_cons hk] at hvs
      exact ⟨vs, (List.cons.inj hvs).2, (List.forall_mem_cons.mp hall).2⟩

end LacksValue

/-! ## Parsers -/

section

variable {α : Type} {P : α → Prop}

theorem carries_peek : Carries LacksValue IsUnexpected peek fun _ => True :=
  carries_look _ fun _ _ => trivial

theorem carries_next : Carries LacksValue IsUnexpected next fun _ => True :=
  fun _ hc => ⟨hc.next, trivial⟩

theorem carries_unexpected {expected : String} :
    Carries LacksValue IsUnexpected (unexpected expected) P := fun c _ => isUnexpected c expected

/-- Tokens that touch are not refused for white space. -/
theorem carries_requireAdjacent {m : Message} :
    Carries LacksValue IsUnexpected (requireAdjacent m) fun _ => True := by
  intro c hc
  have hreads : Reads (requireAdjacent m) c () c := reads_requireAdjacent.mpr ⟨hc.adjacent, rfl⟩
  rw [hreads]
  exact ⟨hc, trivial⟩

theorem carries_eat_equals : Carries LacksValue IsUnexpected (eat .equals) fun _ => False := by
  intro c hc
  have hk : c.peekIs .equals = false := by
    simp [Cursor.peekIs, hc.peek_ne]
  rw [eat, Cursor.eat_eq, hk]
  exact isUnexpected c _

end

theorem carries_dottedRest : Carries LacksValue IsUnexpected dottedRest fun _ => True := by
  refine carries_peekKind.bind fun k _ => ?_
  split
  · exact carries_pure trivial
  refine carries_requireAdjacent.bind fun _ _ => carries_next.bind fun _ _ => ?_
  refine carries_peek.bind fun _ _ => carries_unexpected.guard ?_
  refine carries_requireAdjacent.bind fun _ _ => carries_next.bind fun _ _ => ?_
  exact carries_pure trivial

theorem carries_dottedName : Carries LacksValue IsUnexpected dottedName fun _ => True := by
  refine carries_peek.bind fun _ _ => carries_unexpected.guard <| carries_next.bind fun _ _ => ?_
  exact (carries_many_any carries_dottedRest).bind fun _ _ => carries_pure trivial

/-- Behind its dashes, an argument without `=` cannot be read. -/
theorem argument?_refuses {c : Cursor} (hk : c.peek.kind = .doubleMinus) (ha : c.adjacent = false)
    (h : LacksValue c.next.2) : ∃ f, Refuses argument? c f ∧ IsUnexpected f := by
  unfold argument?
  refine Reads.exists_refuses (reads_peek.mpr ⟨rfl, rfl⟩) ?_
  simp only [hk, bne_self_eq_false, Bool.false_eq_true, if_false]
  refine Reads.exists_refuses (reads_adjacent.mpr ⟨rfl, rfl⟩) ?_
  simp only [ha, Bool.false_eq_true, if_false]
  refine Reads.exists_refuses (reads_next.mpr ⟨rfl, rfl⟩) (Carries.exists_refuses ?_ h)
  refine carries_hasNext.bind fun _ _ => carries_requireAdjacent.guard ?_
  refine carries_dottedName.bind fun _ _ => carries_peekKind.bind fun _ _ => ?_
  exact carries_requireAdjacent.guard (carries_eat_equals.bind nofun)

end Pipework.Argument
