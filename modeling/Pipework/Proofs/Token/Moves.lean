import Pipework.Proofs.Parser.Holds
import Pipework.Proofs.Token.Lexing

/-! A cursor through any moves. It stands at an index of its tokens, which never change, and it keeps
where the tokens before another index end: the one where the text was last declared good. -/

namespace Pipework.Token

/-! ## The last token -/

theorem terminated_eq_append {n : Nat} {ts : List Token} (h : ∀ t ∈ ts.getLast?, t.kind ≠ .eof) :
    terminated n ts = ts ++ [endOf n] := by
  fun_induction terminated n ts with
  | case1 => rfl
  | case2 t ht => exact absurd ht (h t rfl)
  | case3 => rfl
  | case4 t ts hne ih =>
    cases ts with
    | nil => exact (hne rfl).elim
    | cons u us => exact congrArg (t :: ·) (ih (by simpa using h))

/-- Whatever tokens are given, `eof` is the last of those that a cursor goes over. -/
theorem terminated_ends (n : Nat) (ts : List Token) :
    ∃ t ∈ (terminated n ts).getLast?, t.kind = .eof := by
  by_cases h : ∃ t ∈ ts.getLast?, t.kind = .eof
  · rwa [terminated_eq h]
  · push Not at h
    rw [terminated_eq_append h]
    exact ⟨endOf n, by simp, rfl⟩

/-- Where the first tokens end; none of them end at the start. -/
def stopBefore (ts : List Token) : Nat → Nat
  | 0 => 0
  | n + 1 => (ts[n]?.map Token.stop).getD 0

namespace Cursor

variable {c : Cursor} {kind : Kind}

/-! ## Indices -/

theorem getElem?_position (c : Cursor) : c.tokens[c.position]? = c.ahead.head? := by
  rw [tokens, position, List.getElem?_append_right (by simp)]
  simp [List.head?_eq_getElem?]

theorem getElem?_eq_peek (h : c.position < c.tokens.length) :
    c.tokens[c.position]? = some c.peek := by
  rw [getElem?_position]
  cases hahead : c.ahead with
  | nil => simp [tokens, position, hahead] at h
  | cons t ts => simp [peek, hahead]

theorem previousStop_eq (c : Cursor) : c.previousStop = stopBefore c.tokens c.position := by
  rcases c with ⟨expression, _ | ⟨t, behind⟩, ahead, good⟩
  · rfl
  · simp [previousStop, stopBefore, tokens, position]

/-- Only `eof` is not passed. -/
theorem position_next (c : Cursor) :
    c.next.2.position = if c.peek.kind = .eof then c.position else c.position + 1 := by
  rcases c with ⟨expression, behind, _ | ⟨t, ahead⟩, good⟩
  · rfl
  · by_cases hk : t.kind = .eof <;> simp [next, peek, position, hk]

theorem next_of_eof (h : c.peek.kind = .eof) : c.next = (c.peek, c) := by
  rcases c with ⟨expression, behind, _ | ⟨t, ahead⟩, good⟩
  · rfl
  · exact if_pos h

@[simp] theorem position_rewind (c : Cursor) (n : Nat) :
    (c.rewind n).position = min n (c.tokens.length - 1) := by
  simp only [rewind, position, List.length_reverse, List.length_take]
  omega

/-! ## Moves -/

inductive Move where
  | next
  | eatIf (kind : Kind)
  | eat (kind : Kind)
  | rewind (position : Nat)
  | checkpoint
  deriving DecidableEq, Repr

/-- The cursor that a move leaves. -/
def after (c : Cursor) : Move → Cursor
  | .next => c.next.2
  | .eatIf kind => (c.eatIf kind).2
  | .eat kind => (c.expect kind).2
  | .rewind position => c.rewind position
  | .checkpoint => c.checkpoint

def run (c : Cursor) (moves : List Move) : Cursor := moves.foldl after c

/-- A token is taken only if it is of the kind, whether or not it has to be. -/
theorem eatIf_eq (c : Cursor) (kind : Kind) :
    (c.eatIf kind).2 = if c.peekIs kind = true then c.next.2 else c := by
  unfold eatIf
  split <;> rfl

theorem after_eat (c : Cursor) (kind : Kind) : c.after (.eat kind) = c.after (.eatIf kind) := by
  simp only [after, expect, eatIf]
  cases c.peekIs kind <;> rfl

theorem eatIf_of_none (h : (c.eatIf kind).1 = none) : (c.eatIf kind).2 = c := by
  unfold eatIf at h ⊢
  split at h
  · cases h
  · next hk => rw [if_neg hk]

theorem expect_eq_error {f : Fault} (h : (c.expect kind).1 = .error f) :
    (c.expect kind).2 = c ∧ f.checkpoint = some c.good := by
  unfold expect at h ⊢
  split at h
  · cases h
  · next hk =>
    obtain rfl := Except.error.inj h
    rw [if_neg hk]
    exact ⟨rfl, Parser.unexpected_checkpoint c kind.symbol⟩

/-! ## Places -/

/-- Where a cursor stands among the tokens, and where it last stood when the text up to there was
declared good. -/
structure Place where
  position : Nat := 0
  mark : Nat := 0
  deriving DecidableEq, Repr

namespace Place

variable (ts : List Token) (p : Place)

def next : Place :=
  if ts[p.position]?.any fun t => t.kind != .eof then { p with position := p.position + 1 } else p

/-- What a move does to a place is told by the tokens alone. -/
def after : Move → Place
  | .next => p.next ts
  | .eatIf kind | .eat kind =>
    if ts[p.position]?.any fun t => t.kind.sameSort kind then p.next ts else p
  | .rewind position => { p with position := min position (ts.length - 1) }
  | .checkpoint => { p with mark := p.position }

def run (moves : List Move) : Place := moves.foldl (after ts) p

end Place

/-- The cursor goes over the tokens and stands at the place. -/
structure StandsAt (ts : List Token) (p : Place) (c : Cursor) : Prop where
  tokens : c.tokens = ts
  position : c.position = p.position
  inside : p.position < ts.length
  good : c.good = stopBefore ts p.mark
  marked : p.mark < ts.length

namespace StandsAt

variable {ts : List Token} {p : Place}

theorem peek (h : StandsAt ts p c) : ts[p.position]? = some c.peek := by
  rw [← h.tokens, ← h.position]
  exact getElem?_eq_peek (by rw [h.tokens, h.position]; exact h.inside)

/-- Behind a token that is not `eof` there is another one. -/
theorem next (h : StandsAt ts p c) (hends : ∃ t ∈ ts.getLast?, t.kind = .eof) :
    StandsAt ts (p.next ts) c.next.2 := by
  have hplace : p.next ts =
      { p with position := if c.peek.kind = .eof then p.position else p.position + 1 } := by
    rw [Place.next, h.peek]
    by_cases hk : c.peek.kind = .eof <;> simp [hk]
  rw [hplace]
  refine ⟨(tokens_next c).trans h.tokens, ?_, ?_, (next_good c).trans h.good, h.marked⟩
  · rw [position_next, h.position]
  · have hinside := h.inside
    by_cases hk : c.peek.kind = .eof
    · simpa [hk] using hinside
    · obtain ⟨t, hlast, ht⟩ := hends
      have hpeek := h.peek
      have hne : p.position ≠ ts.length - 1 := by
        intro hp
        rw [hp, ← List.getLast?_eq_getElem?, hlast] at hpeek
        obtain rfl := Option.some.inj hpeek
        exact hk ht
      simp only [hk, if_false]
      omega

theorem eatIf (h : StandsAt ts p c) (hends : ∃ t ∈ ts.getLast?, t.kind = .eof) (kind : Kind) :
    StandsAt ts (p.after ts (.eatIf kind)) (c.after (.eatIf kind)) := by
  simp only [Place.after, Cursor.after, eatIf_eq, h.peek, Option.any_some]
  rw [show c.peek.kind.sameSort kind = c.peekIs kind from rfl]
  split
  · exact h.next hends
  · exact h

theorem rewind (h : StandsAt ts p c) (n : Nat) :
    StandsAt ts (p.after ts (.rewind n)) (c.rewind n) := by
  have hinside := h.inside
  refine ⟨(tokens_rewind c n).trans h.tokens, ?_, ?_, h.good, h.marked⟩
  · rw [position_rewind, h.tokens]
    rfl
  · show min n (ts.length - 1) < ts.length
    omega

theorem checkpoint (h : StandsAt ts p c) : StandsAt ts (p.after ts .checkpoint) c.checkpoint where
  tokens := h.tokens
  position := h.position
  inside := h.inside
  good := by
    show c.previousStop = stopBefore ts p.position
    rw [previousStop_eq, h.tokens, h.position]
  marked := h.inside

theorem after (h : StandsAt ts p c) (hends : ∃ t ∈ ts.getLast?, t.kind = .eof) (m : Move) :
    StandsAt ts (p.after ts m) (c.after m) := by
  cases m with
  | next => exact h.next hends
  | eatIf kind => exact h.eatIf hends kind
  | eat kind =>
    rw [after_eat]
    exact h.eatIf hends kind
  | rewind n => exact h.rewind n
  | checkpoint => exact h.checkpoint

theorem run (h : StandsAt ts p c) (hends : ∃ t ∈ ts.getLast?, t.kind = .eof) (moves : List Move) :
    StandsAt ts (p.run ts moves) (c.run moves) := by
  induction moves generalizing p c with
  | nil => exact h
  | cons m moves ih => exact ih (h.after hends m)

end StandsAt

theorem standsAt_ofTokens (expression : String) (ts : List Token) :
    StandsAt (terminated expression.utf8ByteSize ts) {} (ofTokens expression ts) := by
  have hne : 0 < (terminated expression.utf8ByteSize ts).length := by
    obtain ⟨t, ht, -⟩ := terminated_ends expression.utf8ByteSize ts
    exact List.length_pos_of_mem (List.mem_of_getLast? ht)
  exact ⟨rfl, rfl, hne, rfl, hne⟩

/-! ## Runs -/

/-- What a cursor is relied on for, over some tokens and at a place among them. -/
structure IsSteady (ts : List Token) (p : Place) (c : Cursor) : Prop where
  tokens : c.tokens = ts
  ends : ∃ t ∈ c.tokens.getLast?, t.kind = .eof
  position : c.position = p.position
  inside : c.position < c.tokens.length
  peek : c.tokens[c.position]? = some c.peek
  eof : c.peek.kind = .eof → c.next = (c.peek, c)
  passes : c.peek.kind ≠ .eof → c.next.1 = c.peek ∧ c.next.2.position = c.position + 1
  notTaken : ∀ kind, (c.eatIf kind).1 = none → (c.eatIf kind).2 = c
  refused : ∀ kind f, (c.expect kind).1 = .error f →
    (c.expect kind).2 = c ∧ f.checkpoint = some c.good
  /-- The text is good up to the end of the token before the place where it was declared good. -/
  good : p.mark = 0 ∧ c.good = 0 ∨ ∃ n t, p.mark = n + 1 ∧ ts[n]? = some t ∧ c.good = t.stop
  fault : ∀ offset message inserts, (c.fault offset message inserts).checkpoint = some c.good
  unexpected : ∀ expected, (c.unexpected expected).checkpoint = some c.good

theorem stopBefore_cases {ts : List Token} {n : Nat} (h : n < ts.length) :
    n = 0 ∧ stopBefore ts n = 0 ∨
      ∃ m t, n = m + 1 ∧ ts[m]? = some t ∧ stopBefore ts n = t.stop := by
  cases n with
  | zero => exact .inl ⟨rfl, rfl⟩
  | succ m =>
    have hm : ts[m]? = some ts[m] := List.getElem?_eq_getElem (by omega)
    exact .inr ⟨m, ts[m], rfl, hm, by rw [stopBefore, hm]; rfl⟩

theorem StandsAt.isSteady {ts : List Token} {p : Place} (h : StandsAt ts p c)
    (hends : ∃ t ∈ ts.getLast?, t.kind = .eof) : IsSteady ts p c where
  tokens := h.tokens
  ends := by rwa [h.tokens]
  position := h.position
  inside := by
    rw [h.tokens, h.position]
    exact h.inside
  peek := by
    rw [h.tokens, h.position]
    exact h.peek
  eof := next_of_eof
  passes := fun hk => ⟨next_fst c, by rw [position_next, if_neg hk]⟩
  notTaken := fun _ => eatIf_of_none
  refused := fun _ _ => expect_eq_error
  good := by
    rw [h.good]
    exact stopBefore_cases h.marked
  fault := fun _ _ _ => rfl
  unexpected := Parser.unexpected_checkpoint c

/-- However a cursor over whatever tokens is moved, it is steady where the moves lead it. -/
theorem isSteady_run (expression : String) (ts : List Token) (moves : List Move) :
    IsSteady (terminated expression.utf8ByteSize ts)
      (Place.run (terminated expression.utf8ByteSize ts) {} moves)
      ((ofTokens expression ts).run moves) :=
  have hends := terminated_ends expression.utf8ByteSize ts
  ((standsAt_ofTokens expression ts).run hends moves).isSteady hends

/-- Only a rewind gets behind an `eof` among the tokens, and none gets behind the last one. -/
example : (ofTokens "a b" [⟨.identifier "a", ⟨0, 1, 1, 1⟩⟩, ⟨.eof, ⟨1, 1, 1, 2⟩⟩,
    ⟨.identifier "b", ⟨2, 3, 1, 3⟩⟩]).run [.next, .next, .eat .colon, .rewind 2, .next, .checkpoint,
      .rewind 9, .next, .rewind 1] = ⟨"a b", [⟨.identifier "a", ⟨0, 1, 1, 1⟩⟩],
        [⟨.eof, ⟨1, 1, 1, 2⟩⟩, ⟨.identifier "b", ⟨2, 3, 1, 3⟩⟩, ⟨.eof, ⟨3, 3, 1, 1⟩⟩], 3⟩ := by
  decide +kernel

end Cursor

end Pipework.Token
