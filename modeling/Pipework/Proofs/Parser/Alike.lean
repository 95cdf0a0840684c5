import Pipework.Proofs.Token.View

/-! Two runs of a parser, on tokens that look alike. Where a token stands never tells a parser what
to do next: it only sees the kind of each token, whether the token touches the one before it and,
in some parsers, whether it starts a line. So it suffices to compare what cursors show with what
parsers show of their outcomes. -/

namespace Pipework

namespace Token

/-- A view with its line break, or without it for parsers that do not look at lines. -/
def View.seen (lines : Bool) (v : View) : View := { v with breaks := lines && v.breaks }

def Cursor.seen (lines : Bool) (c : Cursor) : List View := c.views.map (View.seen lines)

namespace Cursor

variable {lines : Bool} {c d : Cursor}

theorem ahead_length (lines : Bool) (c : Cursor) : c.ahead.length = (c.seen lines).length := by
  rw [seen, List.length_map, views_length]

theorem peek_kind (lines : Bool) (c : Cursor) :
    c.peek.kind = ((c.seen lines).head?.map View.kind).getD .eof := by
  rcases c with ⟨source, behind, _ | ⟨t, ts⟩, good⟩ <;> rfl

theorem second_kind (lines : Bool) (c : Cursor) :
    (c.peekAt 1).map Token.kind = (c.seen lines)[1]?.map View.kind := by
  rcases c with ⟨source, behind, _ | ⟨t, _ | ⟨u, us⟩⟩, good⟩ <;> rfl

theorem adjacent_seen (lines : Bool) (c : Cursor) :
    c.adjacent = (c.seen lines).head?.any View.glued := by
  rcases c with ⟨source, _ | ⟨l, ls⟩, _ | ⟨t, ts⟩, good⟩ <;> rfl

theorem hasNext_seen (lines : Bool) (c : Cursor) :
    c.hasNext = (((c.seen lines).head?.map View.kind).getD .eof != .eof) := by
  rw [hasNext, peek_kind lines]

/-- Passing a token takes what it shows off, unless it is the last. -/
theorem seen_next (lines : Bool) (c : Cursor) : c.next.2.seen lines =
    if ((c.seen lines).head?.map View.kind).getD .eof = .eof then c.seen lines
    else (c.seen lines).tail := by
  rw [← peek_kind lines]
  split
  · next h =>
    rcases c with ⟨source, behind, _ | ⟨t, ts⟩, good⟩
    · rfl
    · have ht : t.kind = .eof := h
      simp [next, ht]
  · next h => rw [seen, seen, views_eq_cons h, List.map_cons, List.tail_cons]

@[simp] theorem seen_checkpoint (lines : Bool) (c : Cursor) :
    c.checkpoint.seen lines = c.seen lines := rfl

theorem next_alike (h : c.seen lines = d.seen lines) : c.next.2.seen lines = d.next.2.seen lines := by
  rw [seen_next, seen_next, h]

theorem peek_kind_alike (h : c.seen lines = d.seen lines) : c.peek.kind = d.peek.kind := by
  rw [peek_kind lines, peek_kind lines, h]

theorem peekIs_alike (h : c.seen lines = d.seen lines) (k : Kind) : c.peekIs k = d.peekIs k := by
  rw [peekIs, peekIs, peek_kind_alike h]

end Cursor

end Token

/-- What an outcome shows: what `f` tells of its value, or the message of its fault. -/
def shown {α γ : Type} (f : α → γ) : Except Fault α → Except Message γ
  | .ok a => .ok (f a)
  | .error e => .error e.message

theorem shown_bind {α β γ δ : Type} {f : α → γ} {g : β → δ} {x y : Except Fault α}
    {k l : α → Except Fault β} (h : shown f x = shown f y)
    (hk : ∀ a b, f a = f b → shown g (k a) = shown g (l b)) :
    shown g (x >>= k) = shown g (y >>= l) := by
  match x, y, h with
  | .ok a, .ok b, h => exact hk a b (Except.ok.inj h)
  | .error e, .error e', h => exact congrArg Except.error (Except.error.inj h)

namespace Parser

open Token

variable {α β γ δ : Type} {lines : Bool} {f : α → γ} {g : β → δ}

/-- What a parser's outcome shows: its value through `f`, and what lies ahead of the cursor. -/
def shownRun (lines : Bool) (f : α → γ) (p : Parser α) (c : Cursor) :
    Except Message (γ × List View) :=
  shown (fun r => (f r.1, r.2.seen lines)) (p c)

/-- On cursors that show the same, the parsers show the same. -/
def Agree (lines : Bool) (f : α → γ) (p q : Parser α) : Prop :=
  ∀ c d, c.seen lines = d.seen lines → shownRun lines f p c = shownRun lines f q d

/-! ## Composing -/

theorem agree_pure {a b : α} (h : f a = f b) : Agree lines f (pure a) (pure b) := by
  intro c d hcd
  change Except.ok (f a, c.seen lines) = Except.ok (f b, d.seen lines)
  rw [h, hcd]

theorem Agree.bind {p q : Parser α} {k l : α → Parser β} (hp : Agree lines f p q)
    (hk : ∀ a b, f a = f b → Agree lines g (k a) (l b)) : Agree lines g (p >>= k) (q >>= l) := by
  intro c d hcd
  refine shown_bind (hp c d hcd) fun r s hrs => ?_
  obtain ⟨hvalue, hcursor⟩ := Prod.mk.inj hrs
  exact hk r.1 s.1 hvalue r.2 s.2 hcursor

/-- Nothing of the first value is hidden. -/
theorem Agree.bindSame {p q : Parser α} {k l : α → Parser β} (hp : Agree lines id p q)
    (hk : ∀ a, Agree lines g (k a) (l a)) : Agree lines g (p >>= k) (q >>= l) :=
  hp.bind fun a _ h => (show a = _ from h) ▸ hk a

/-- Both parsers may refuse the text before they go on. -/
theorem Agree.guard {P : Prop} [Decidable P] {p q : Parser Unit} {k l : Unit → Parser β}
    (hp : Agree lines id p q) (hk : Agree lines g (k ()) (l ())) :
    Agree lines g (if P then p >>= k else k ()) (if P then q >>= l else l ()) := by
  split
  · exact hp.bindSame fun _ => hk
  · exact hk

theorem Agree.ite {P : Prop} [Decidable P] {p q p' q' : Parser α} (hp : Agree lines f p q)
    (hp' : Agree lines f p' q') : Agree lines f (if P then p else p') (if P then q else q') := by
  split
  · exact hp
  · exact hp'

/-! ## Looking -/

theorem agree_get : Agree lines (Cursor.seen lines) get get := by
  intro c d hcd
  change Except.ok (c.seen lines, c.seen lines) = Except.ok (d.seen lines, d.seen lines)
  rw [hcd]

/-- A parser that looks at what cursors show. -/
theorem agree_look (look : Cursor → α) (h : ∀ c d : Cursor, c.seen lines = d.seen lines →
    f (look c) = f (look d)) :
    Agree lines f (do return look (← get)) (do return look (← get)) :=
  agree_get.bind fun c d hcd => agree_pure (h c d hcd)

theorem agree_peek : Agree lines Token.kind peek peek :=
  agree_look _ fun _ _ h => Cursor.peek_kind_alike h

theorem agree_peekKind : Agree lines id peekKind peekKind :=
  agree_look _ fun _ _ h => Cursor.peek_kind_alike h

theorem agree_secondKind : Agree lines id secondKind secondKind :=
  agree_look (fun c => (c.peekAt 1).map Token.kind) fun c d h => by
    rw [Cursor.second_kind lines, Cursor.second_kind lines, h]

theorem agree_adjacent : Agree lines id adjacent adjacent :=
  agree_look _ fun c d h => by rw [Cursor.adjacent_seen lines, Cursor.adjacent_seen lines, h]

theorem agree_hasNext : Agree lines id hasNext hasNext :=
  agree_look _ fun c d h => by rw [Cursor.hasNext_seen lines, Cursor.hasNext_seen lines, h]

/-- Where a token ends is not shown. -/
theorem agree_previousStop : Agree lines (fun _ => ()) previousStop previousStop :=
  agree_look _ fun _ _ _ => rfl

/-! ## Refusing -/

theorem agree_refuse {m : Message} {n n' : Nat} {i i' : List String} :
    Agree lines f (refuse n m i) (refuse n' m i') := fun _ _ _ => rfl

theorem agree_refuseHere {m : Message} {i i' : List String} :
    Agree lines f (refuseHere m i) (refuseHere m i') := fun _ _ _ => rfl

theorem agree_refuse_bind {m : Message} {n n' : Nat} {i i' : List String} {k l : α → Parser β} :
    Agree lines g (refuse n m i >>= k) (refuse n' m i' >>= l) := fun _ _ _ => rfl

theorem agree_refuseHere_bind {m : Message} {i i' : List String} {k l : α → Parser β} :
    Agree lines g (refuseHere m i >>= k) (refuseHere m i' >>= l) := fun _ _ _ => rfl

theorem agree_unexpected {s s' : String} : Agree lines f (unexpected s) (unexpected s') := by
  intro c d hcd
  simp only [shownRun, shown, unexpected, Cursor.unexpected, Cursor.peek_kind_alike hcd]
  split <;> rfl

theorem agree_requireAdjacent {m : Message} :
    Agree lines id (requireAdjacent m) (requireAdjacent m) := by
  refine agree_adjacent.bindSame fun b => ?_
  cases b
  · exact agree_refuseHere
  · exact agree_pure rfl

/-! ## Moving -/

theorem agree_next : Agree lines Token.kind next next := by
  intro c d hcd
  change Except.ok (c.next.1.kind, c.next.2.seen lines) =
    Except.ok (d.next.1.kind, d.next.2.seen lines)
  rw [Cursor.next_fst, Cursor.next_fst, Cursor.peek_kind_alike hcd, Cursor.next_alike hcd]

theorem agree_eat {k : Kind} : Agree lines Token.kind (eat k) (eat k) := by
  intro c d hcd
  rw [shownRun, shownRun, eat, eat, Cursor.eat_eq, Cursor.eat_eq, Cursor.peekIs_alike hcd]
  split
  · exact agree_next c d hcd
  · exact agree_unexpected (f := Token.kind) c d hcd

theorem agree_eatIf {k : Kind} : Agree lines (Option.map Token.kind) (eatIf k) (eatIf k) := by
  intro c d hcd
  have hnext := agree_next c d hcd
  simp only [shownRun, shown, next, Except.ok.injEq, Prod.mk.injEq] at hnext
  simp only [shownRun, shown, eatIf, Cursor.eatIf, Cursor.peekIs_alike hcd]
  split
  · rw [Option.map_some, Option.map_some, hnext.1, hnext.2]
  · rw [Option.map_none, hcd]

theorem agree_checkpoint : Agree lines id checkpoint checkpoint := by
  intro c d hcd
  change Except.ok ((), c.checkpoint.seen lines) = Except.ok ((), d.checkpoint.seen lines)
  rw [Cursor.seen_checkpoint, Cursor.seen_checkpoint, hcd]

/-! ## Repeating -/

theorem agree_manyWithin {step step' : Parser (Option α)}
    (h : Agree lines (Option.map f) step step') (fuel : Nat) :
    Agree lines (List.map f) (manyWithin step fuel) (manyWithin step' fuel) := by
  induction fuel with
  | zero => exact agree_pure rfl
  | succ fuel ih =>
    refine h.bind fun a b hab => ?_
    match a, b, hab with
    | none, none, _ => exact agree_pure rfl
    | some a, some b, hab =>
      refine ih.bind fun as bs has => agree_pure ?_
      rw [List.map_cons, List.map_cons, has, Option.some.inj hab]

theorem agree_many {step step' : Parser (Option α)} (h : Agree lines (Option.map f) step step') :
    Agree lines (List.map f) (many step) (many step') := by
  refine agree_get.bind fun c d hcd => ?_
  rw [Cursor.ahead_length lines c, Cursor.ahead_length lines d, hcd]
  exact agree_manyWithin h _

/-- Nothing of the values is hidden. -/
theorem agree_many_same {step : Parser (Option α)} (h : Agree lines id step step) :
    Agree lines id (many step) (many step) := by
  have := agree_many (f := id) (by rwa [Option.map_id])
  rwa [List.map_id_fun] at this

end Parser

end Pipework
