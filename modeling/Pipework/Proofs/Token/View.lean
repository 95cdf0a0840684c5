import Mathlib
import Pipework.Parser

/-! What a parser sees of the tokens ahead: the kind of each, whether it touches the one before it,
and whether it stands on a later line. Positions only end up in what is read, so two texts with
the same views are read alike. -/

namespace Pipework.Token

namespace Kind

/-- The kinds of the tokens whose texts differ. -/
@[simp] def hasText : Kind → Bool
  | .identifier _ | .number _ | .literal _ => true
  | .pipe | .doublePipe | .andAnd | .colon | .dot | .gt | .lt | .doubleMinus | .arrow | .equals
  | .lparen | .rparen | .star | .slash | .hash | .semicolon | .eof => false

@[simp] theorem sameSort_eq {a b : Kind} (h : ¬ b.hasText = true) :
    a.sameSort b = decide (a = b) := by
  cases a <;> cases b <;> simp_all [sameSort, variant]

theorem hasText_of_isName {k : Kind} (h : k.isName = true) : k.hasText = true := by
  cases k <;> simp_all [isName]

theorem ne_of_isName {k l : Kind} (h : k.isName = true) (hl : l.isName = false) : k ≠ l := by
  rintro rfl
  rw [h] at hl
  cases hl

theorem ne_eof_of_isName {k : Kind} (h : k.isName = true) : k ≠ .eof := ne_of_isName h rfl

end Kind

structure View where
  kind : Kind
  /-- The token starts where the one before it ends. -/
  glued : Bool
  /-- The token stands on a later line than the one before it. -/
  breaks : Bool
  deriving DecidableEq, Repr

/-- A token seen from the one before it; the first token touches nothing. -/
def viewOf (last : Option Token) (t : Token) : View :=
  ⟨t.kind, last.any fun l => l.stop == t.start, last.any fun l => l.span.line < t.span.line⟩

def viewsOf : Option Token → List Token → List View
  | _, [] => []
  | last, t :: ts => viewOf last t :: viewsOf (some t) ts

@[simp] theorem viewsOf_length (last : Option Token) (ts : List Token) :
    (viewsOf last ts).length = ts.length := by
  induction ts generalizing last with
  | nil => rfl
  | cons t ts ih => simp [viewsOf, ih]

namespace Cursor

def views (c : Cursor) : List View := viewsOf c.behind.head? c.ahead

/-- The next token as it is seen. -/
def view (c : Cursor) : View := viewOf c.behind.head? c.peek

theorem views_length (c : Cursor) : c.views.length = c.ahead.length := viewsOf_length _ _

/-- Passing a token other than the last takes one view off. -/
theorem views_eq_cons {c : Cursor} (h : c.peek.kind ≠ .eof) : c.views = c.view :: c.next.2.views := by
  rcases c with ⟨source, behind, _ | ⟨t, ts⟩, good⟩
  · exact absurd rfl h
  · have ht : t.kind ≠ .eof := h
    simp [views, view, viewsOf, next, peek, ht]

@[simp] theorem views_checkpoint (c : Cursor) : c.checkpoint.views = c.views := rfl

@[simp] theorem peek_checkpoint (c : Cursor) : c.checkpoint.peek = c.peek := rfl

theorem next_good (c : Cursor) : c.next.2.good = c.good := by
  unfold next
  split
  · rfl
  · split <;> rfl

theorem next_fst (c : Cursor) : c.next.1 = c.peek := by
  rcases c with ⟨source, behind, _ | ⟨t, ts⟩, good⟩
  · rfl
  · simp only [next]
    split <;> rfl

variable {c : Cursor} {v w : View} {vs : List View}

theorem view_of_views (h : c.views = v :: vs) : c.view = v := by
  rcases c with ⟨source, behind, _ | ⟨t, ts⟩, good⟩
  · simp [views, viewsOf] at h
  · simp only [views, viewsOf, List.cons.injEq] at h
    exact h.1

theorem peek_kind_of_views (h : c.views = v :: vs) : c.peek.kind = v.kind :=
  congrArg View.kind (view_of_views h)

theorem isName_of_views (h : c.views = v :: vs) : c.peek.isName = v.kind.isName :=
  congrArg Kind.isName (peek_kind_of_views h)

theorem text_of_views (h : c.views = v :: vs) : c.peek.text = v.kind.symbol :=
  congrArg Kind.symbol (peek_kind_of_views h)

theorem adjacent_eq (h : c.ahead ≠ []) : c.adjacent = c.view.glued := by
  rcases c with ⟨source, _ | ⟨l, ls⟩, _ | ⟨t, ts⟩, good⟩ <;>
    simp_all [adjacent, view, viewOf, peek]

theorem glued_of_adjacent (h : c.adjacent = true) : c.view.glued = true := by
  rcases c with ⟨source, _ | ⟨l, ls⟩, _ | ⟨t, ts⟩, good⟩ <;>
    simp_all [adjacent, view, viewOf, peek]

theorem adjacent_of_views (h : c.views = v :: vs) : c.adjacent = v.glued := by
  have hc : c.ahead ≠ [] := by
    intro he
    simp [views, he, viewsOf] at h
  rw [adjacent_eq hc, view_of_views h]

theorem not_glued (h : c.peek.kind ≠ .eof) (ha : c.adjacent = false) : c.view.glued = false := by
  rw [← adjacent_of_views (views_eq_cons h), ha]

theorem second_kind_of_views (h : c.views = v :: vs) :
    (c.peekAt 1).map Token.kind = vs.head?.map View.kind := by
  rcases c with ⟨source, behind, _ | ⟨t, _ | ⟨u, us⟩⟩, good⟩
  · simp [views, viewsOf] at h
  · obtain ⟨-, rfl⟩ := List.cons.inj h
    rfl
  · obtain ⟨-, rfl⟩ := List.cons.inj h
    rfl

theorem peek_next {k : Kind} (h : c.peek.kind ≠ .eof) (hk : (c.peekAt 1).map Token.kind = some k) :
    c.next.2.peek.kind = k := by
  rcases c with ⟨source, behind, _ | ⟨t, _ | ⟨u, us⟩⟩, good⟩
  · exact absurd rfl h
  · cases hk
  · have ht : t.kind ≠ .eof := h
    simpa [next, peek, peekAt, ht] using hk

end Cursor

end Pipework.Token
