import Pipework.Proofs.Token.View

/-! Runs of parsers that succeed. Every parser of the library is taken apart with the lemmas on
`Reads`, one for each way of building a parser. -/

namespace Pipework.Parser

open Token

variable {α β : Type} {c d : Cursor}

/-- From `c` the parser gives `a` and moves to `d`. -/
def Reads (p : Parser α) (c : Cursor) (a : α) (d : Cursor) : Prop := p c = .ok (a, d)

@[simp] theorem reads_pure {a b : α} : Reads (pure a) c b d ↔ b = a ∧ d = c := by
  simp [Reads, pure, StateT.pure, Except.pure, eq_comm]

@[simp] theorem reads_bind {p : Parser α} {f : α → Parser β} {b : β} :
    Reads (p >>= f) c b d ↔ ∃ a e, Reads p c a e ∧ Reads (f a) e b d := by
  simp only [Reads, bind, StateT.bind, Except.bind]
  cases p c with
  | error e => simp
  | ok r =>
    obtain ⟨a, e⟩ := r
    constructor
    · exact fun h => ⟨a, e, rfl, h⟩
    · rintro ⟨a', e', he, h⟩
      obtain ⟨rfl, rfl⟩ := Prod.mk.inj (Except.ok.inj he)
      exact h

@[simp] theorem reads_map {p : Parser α} {f : α → β} {b : β} :
    Reads (f <$> p) c b d ↔ ∃ a, Reads p c a d ∧ b = f a := by
  rw [map_eq_pure_bind, reads_bind]
  simp only [reads_pure]
  grind

theorem reads_ite {q : Prop} [Decidable q] {p p' : Parser α} {a : α} :
    Reads (if q then p else p') c a d ↔ (q ∧ Reads p c a d) ∨ (¬ q ∧ Reads p' c a d) := by
  split <;> simp_all

/-! ## Looking -/

@[simp] theorem reads_get {a : Cursor} : Reads get c a d ↔ a = c ∧ d = c := by
  simp [Reads, get, getThe, MonadStateOf.get, StateT.get, pure, Except.pure, eq_comm]

@[simp] theorem reads_peek {t : Token} : Reads peek c t d ↔ t = c.peek ∧ d = c := by
  simp [peek, and_comm]

@[simp] theorem reads_peekKind {k : Kind} : Reads peekKind c k d ↔ k = c.peek.kind ∧ d = c := by
  simp [peekKind, and_comm]

@[simp] theorem reads_secondKind {k : Option Kind} :
    Reads secondKind c k d ↔ k = (c.peekAt 1).map Token.kind ∧ d = c := by
  simp [secondKind, and_comm]

@[simp] theorem reads_adjacent {b : Bool} : Reads adjacent c b d ↔ b = c.adjacent ∧ d = c := by
  simp [adjacent, and_comm]

@[simp] theorem reads_hasNext {b : Bool} : Reads hasNext c b d ↔ b = c.hasNext ∧ d = c := by
  simp [hasNext, and_comm]

@[simp] theorem reads_previousStop {n : Nat} :
    Reads previousStop c n d ↔ n = c.previousStop ∧ d = c := by
  simp [previousStop, and_comm]

/-! ## Refusing -/

@[simp] theorem reads_refuse {a : α} {n : Nat} {m : Message} {i : List String} :
    ¬ Reads (refuse n m i) c a d := by simp [Reads, refuse]

@[simp] theorem reads_refuseHere {a : α} {m : Message} {i : List String} :
    ¬ Reads (refuseHere m i) c a d := by simp [Reads, refuseHere]

@[simp] theorem reads_unexpected {a : α} {s : String} :
    ¬ Reads (unexpected s) c a d := by simp [Reads, unexpected]

@[simp] theorem reads_requireAdjacent {m : Message} {u : Unit} :
    Reads (requireAdjacent m) c u d ↔ c.adjacent = true ∧ d = c := by
  simp [requireAdjacent, reads_ite]

/-! ## Moving -/

@[simp] theorem reads_next {t : Token} : Reads next c t d ↔ t = c.peek ∧ d = c.next.2 := by
  rw [← Cursor.next_fst]
  simp only [Reads, next, Except.ok.injEq, Prod.ext_iff]
  grind

@[simp] theorem reads_eat {k : Kind} {t : Token} :
    Reads (eat k) c t d ↔ c.peek.kind.sameSort k = true ∧ t = c.peek ∧ d = c.next.2 := by
  simp only [Reads, eat, Cursor.eat_eq, Cursor.peekIs]
  by_cases h : c.peek.kind.sameSort k = true
  · simp only [h, if_true, Except.ok.injEq, Prod.ext_iff, Cursor.next_fst]
    grind
  · simp [h]

@[simp] theorem reads_eatIf {k : Kind} {t : Option Token} :
    Reads (eatIf k) c t d ↔
      (c.peek.kind.sameSort k = true ∧ t = some c.peek ∧ d = c.next.2) ∨
        (c.peek.kind.sameSort k = false ∧ t = none ∧ d = c) := by
  simp only [Reads, eatIf, Cursor.eatIf, Cursor.peekIs, Cursor.next_fst, Except.ok.injEq]
  by_cases h : c.peek.kind.sameSort k = true
  · simp only [h, if_true, Prod.ext_iff]
    grind
  · simp only [h, if_false, Bool.false_eq_true, Prod.ext_iff]
    grind

theorem reads_eatIf_bind {k : Kind} {f : Option Token → Parser β} {b : β} :
    Reads (eatIf k >>= f) c b d ↔
      (c.peek.kind.sameSort k = true ∧ Reads (f (some c.peek)) c.next.2 b d) ∨
        (c.peek.kind.sameSort k = false ∧ Reads (f none) c b d) := by
  cases h : c.peek.kind.sameSort k <;> simp [h]

@[simp] theorem reads_checkpoint {u : Unit} : Reads checkpoint c u d ↔ d = c.checkpoint := by
  simp [Reads, checkpoint, modify, modifyGet, MonadStateOf.modifyGet, StateT.modifyGet, pure,
    Except.pure, eq_comm]

end Pipework.Parser
