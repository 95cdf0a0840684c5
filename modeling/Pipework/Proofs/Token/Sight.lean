import Pipework.Proofs.Token.View

/-! What a parser sees of a token, together with where the token stands. What is read from tokens in
a row spans them, from the start of the first to the end of the last. -/

namespace Pipework.Token

structure Sight extends View where
  start : Nat
  stop : Nat
  deriving DecidableEq, Repr

/-- A token seen from the one before it. -/
def sightOf (last : Option Token) (t : Token) : Sight :=
  { viewOf last t with start := t.start, stop := t.stop }

def sightsOf : Option Token → List Token → List Sight
  | _, [] => []
  | last, t :: ts => sightOf last t :: sightsOf (some t) ts

theorem sightsOf_append (last : Option Token) (ts : List Token) (t : Token) :
    ∃ v, sightsOf last (ts ++ [t]) = sightsOf last ts ++ [v] ∧ v.kind = t.kind := by
  induction ts generalizing last with
  | nil => exact ⟨_, rfl, rfl⟩
  | cons u us ih =>
    obtain ⟨v, hv, hk⟩ := ih (some u)
    exact ⟨v, congrArg (sightOf last u :: ·) hv, hk⟩

theorem sightsOf_kinds (last : Option Token) (ts : List Token) :
    (sightsOf last ts).map (fun v => v.kind) = ts.map Token.kind := by
  induction ts generalizing last with
  | nil => rfl
  | cons t ts ih => rw [sightsOf, List.map_cons, ih]; rfl

theorem sightsOf_views (last : Option Token) (ts : List Token) :
    (sightsOf last ts).map Sight.toView = viewsOf last ts := by
  induction ts generalizing last with
  | nil => rfl
  | cons t ts ih => rw [sightsOf, List.map_cons, ih, viewsOf, sightOf]

def startOf (vs : List Sight) : Nat := (vs.head?.map Sight.start).getD 0

def stopOf (vs : List Sight) : Nat := (vs.getLast?.map Sight.stop).getD 0

theorem stopOf_append (vs : List Sight) {ws : List Sight} (h : ws ≠ []) :
    stopOf (vs ++ ws) = stopOf ws := by
  rw [stopOf, List.getLast?_append_of_ne_nil vs h, stopOf]

namespace Cursor

def sights (c : Cursor) : List Sight := sightsOf c.behind.head? c.ahead

/-- The next token as it is seen, and where it stands. -/
def sight (c : Cursor) : Sight := sightOf c.behind.head? c.peek

variable {c d : Cursor} {v : Sight} {vs rest : List Sight}

theorem sights_views (c : Cursor) : c.sights.map Sight.toView = c.views := sightsOf_views _ _

theorem sights_length (c : Cursor) : c.sights.length = c.ahead.length := by
  rw [← views_length, ← sights_views, List.length_map]

theorem views_of_sights (h : c.sights = vs) : c.views = vs.map Sight.toView := by
  rw [← h, sights_views]

theorem sights_eq_cons (h : c.peek.kind ≠ .eof) : c.sights = c.sight :: c.next.2.sights := by
  rcases c with ⟨source, behind, _ | ⟨t, ts⟩, good⟩
  · exact absurd rfl h
  · have ht : t.kind ≠ .eof := h
    simp [sights, sight, sightsOf, next, peek, ht]

theorem sight_of_sights (h : c.sights = v :: vs) : c.sight = v := by
  rcases c with ⟨source, behind, _ | ⟨t, ts⟩, good⟩
  · cases h
  · exact (List.cons.inj h).1

theorem peek_kind_of_sights (h : c.sights = v :: vs) : c.peek.kind = v.kind :=
  peek_kind_of_views (views_of_sights h)

theorem isName_of_sights (h : c.sights = v :: vs) : c.peek.isName = v.kind.isName :=
  isName_of_views (views_of_sights h)

theorem text_of_sights (h : c.sights = v :: vs) : c.peek.text = v.kind.symbol :=
  text_of_views (views_of_sights h)

theorem adjacent_of_sights (h : c.sights = v :: vs) : c.adjacent = v.glued :=
  adjacent_of_views (views_of_sights h)

theorem second_kind_of_sights (h : c.sights = v :: vs) :
    (c.peekAt 1).map Token.kind = vs.head?.map fun w => w.kind := by
  rw [second_kind_of_views (views_of_sights h), List.head?_map, Option.map_map]
  rfl

theorem start_of_sights (h : c.sights = v :: vs) : c.peek.start = v.start :=
  congrArg Sight.start (sight_of_sights h)

theorem stop_of_sights (h : c.sights = v :: vs) : c.peek.stop = v.stop :=
  congrArg Sight.stop (sight_of_sights h)

/-! ## Passing tokens -/

/-- Between two cursors of one text lie these tokens. -/
structure Passes (c : Cursor) (vs : List Sight) (d : Cursor) : Prop where
  expression : d.expression = c.expression
  sights : c.sights = vs ++ d.sights
  stop : d.previousStop = (vs.getLast?.map Sight.stop).getD c.previousStop

theorem Passes.refl (c : Cursor) : Passes c [] c := ⟨rfl, rfl, rfl⟩

theorem Passes.trans {e : Cursor} {us : List Sight} (h : Passes c us e) (h' : Passes e vs d) :
    Passes c (us ++ vs) d where
  expression := h'.expression.trans h.expression
  sights := by rw [h.sights, h'.sights, List.append_assoc]
  stop := by
    rw [h'.stop, h.stop, List.getLast?_append]
    cases vs.getLast? <;> rfl

theorem Passes.next (h : c.peek.kind ≠ .eof) : Passes c [c.sight] c.next.2 where
  expression := by
    rcases c with ⟨source, behind, _ | ⟨t, ts⟩, good⟩
    · rfl
    · have ht : t.kind ≠ .eof := h
      simp [Cursor.next, ht]
  sights := sights_eq_cons h
  stop := by
    rcases c with ⟨source, behind, _ | ⟨t, ts⟩, good⟩
    · exact absurd rfl h
    · have ht : t.kind ≠ .eof := h
      simp [Cursor.next, ht, previousStop, sight, sightOf, peek]

theorem Passes.checkpoint (h : Passes c vs d) : Passes c vs d.checkpoint :=
  ⟨h.expression, h.sights, h.stop⟩

theorem Passes.views (h : Passes c vs d) : c.views = vs.map Sight.toView ++ d.views := by
  rw [← sights_views, h.sights, List.map_append, sights_views]

/-- The tokens before `eof` are passed once `eof` comes next. -/
theorem Passes.eq_of_eof {us : List Sight} (h : Passes c vs d) (hc : c.sights = us ++ [v])
    (hu : ∀ u ∈ us, u.kind ≠ .eof) (hv : v.kind = .eof) (hvs : ∀ w ∈ vs, w.kind ≠ .eof)
    (hd : d.peek.kind = .eof) : vs = us := by
  have hall := hc.symm.trans h.sights
  cases hw : d.sights with
  | nil =>
    rw [hw, List.append_nil] at hall
    exact absurd hv (hvs v (by simp [← hall]))
  | cons w ws =>
    rw [hw] at hall
    rcases List.eq_nil_or_concat ws with rfl | ⟨zs, z, rfl⟩
    · exact (List.append_inj' hall rfl).1.symm
    · rw [List.concat_eq_append, ← List.cons_append, ← List.append_assoc] at hall
      obtain ⟨rfl, -⟩ := List.append_inj' hall rfl
      exact absurd ((peek_kind_of_sights hw).symm.trans hd) (hu w (by simp))

/-- What is left is what comes after the tokens passed. -/
theorem Passes.left (h : Passes c vs d) (hc : c.sights = vs ++ rest) : d.sights = rest :=
  List.append_cancel_left (h.sights.symm.trans hc)

theorem Passes.previousStop (h : Passes c vs d) (hne : vs ≠ []) : d.previousStop = stopOf vs := by
  rw [h.stop, stopOf, List.getLast?_eq_some_getLast hne]
  rfl

theorem Passes.start (h : Passes c vs d) (hne : vs ≠ []) : c.peek.start = startOf vs := by
  obtain ⟨v, ws, rfl⟩ := List.exists_cons_of_ne_nil hne
  exact start_of_sights h.sights

theorem Passes.length (h : Passes c vs d) : c.ahead.length = vs.length + d.ahead.length := by
  rw [← sights_length, ← sights_length, h.sights, List.length_append]

theorem next_passes (h : c.sights = v :: rest) (hv : v.kind ≠ .eof) : Passes c [v] c.next.2 := by
  rw [← sight_of_sights h]
  exact .next (by rwa [peek_kind_of_sights h])

/-- A token is passed, and a name that touches it. -/
theorem pass_gluedName {w : Sight} (h : c.sights = v :: w :: rest) (hv : v.kind ≠ .eof)
    (hn : w.kind.isName = true) (hg : w.glued = true) :
    c.next.2.peek.isName = true ∧ c.next.2.adjacent = true ∧ c.next.2.peek.text = w.kind.symbol ∧
      Passes c [v, w] c.next.2.next.2 := by
  have hpass := next_passes h hv
  have hnext := hpass.left h
  exact ⟨(isName_of_sights hnext).trans hn, (adjacent_of_sights hnext).trans hg,
    text_of_sights hnext, hpass.trans (next_passes hnext (Kind.ne_eof_of_isName hn))⟩

end Cursor

end Pipework.Token
