import Pipework.Proofs.Parser.Carries

/-! Where parsers place what they read and what they refuse. Every offset that a parser keeps is
where some token starts or stops, or the start of the text, and every fault it gives says how far
the text was good. -/

namespace Pipework

open Token

/-- An offset that a parser can take from its tokens. -/
def IsMark (ts : List Token) (offset : Nat) : Prop :=
  offset = 0 ∨ ∃ t ∈ ts, offset = t.start ∨ offset = t.stop

/-- The good part of a text is empty or ends with a token. -/
def IsGood (ts : List Token) (offset : Nat) : Prop := offset = 0 ∨ ∃ t ∈ ts, offset = t.stop

/-- A fault that a parser gives of its tokens. -/
structure IsMarked (ts : List Token) (f : Fault) : Prop where
  offset : IsMark ts f.offset
  grammar : f.message.kind = .grammar
  checkpoint : ∃ n, f.checkpoint = some n ∧ IsGood ts n

variable {ts : List Token} {t : Token} {n : Nat}

theorem isMark_start (h : t ∈ ts) : IsMark ts t.start := .inr ⟨t, h, .inl rfl⟩

theorem isMark_stop (h : t ∈ ts) : IsMark ts t.stop := .inr ⟨t, h, .inr rfl⟩

theorem isMark_zero (ts : List Token) : IsMark ts 0 := .inl rfl

/-- A cursor over the tokens, the last of which is `eof`. -/
structure Token.Cursor.Over (ts : List Token) (c : Cursor) : Prop where
  tokens : c.tokens = ts
  ends : ∃ us e, c.ahead = us ++ [e] ∧ e.kind = .eof
  good : IsGood ts c.good

namespace Token.Cursor.Over

variable {c : Cursor}

theorem exists_ahead (h : c.Over ts) : ∃ us, c.ahead = c.peek :: us := by
  obtain ⟨us, e, he, -⟩ := h.ends
  unfold peek
  cases hc : c.ahead with
  | nil => simp [hc] at he
  | cons t us => exact ⟨us, rfl⟩

theorem mem_ahead (h : c.Over ts) (ht : t ∈ c.ahead) : t ∈ ts := by
  rw [← h.tokens]
  exact List.mem_append_right _ ht

theorem mem_behind (h : c.Over ts) (ht : t ∈ c.behind) : t ∈ ts := by
  rw [← h.tokens]
  exact List.mem_append_left _ (List.mem_reverse.mpr ht)

theorem peek_mem (h : c.Over ts) : c.peek ∈ ts := by
  obtain ⟨us, hus⟩ := h.exists_ahead
  exact h.mem_ahead (by rw [hus]; exact List.mem_cons_self)

theorem peekAt_mem (h : c.Over ts) (ht : c.peekAt 1 = some t) : t ∈ ts :=
  h.mem_ahead (List.mem_of_getElem? ht)

theorem isGood_previousStop (h : c.Over ts) : IsGood ts c.previousStop := by
  unfold previousStop
  cases hb : c.behind with
  | nil => exact .inl rfl
  | cons t us => exact .inr ⟨t, h.mem_behind (by rw [hb]; exact List.mem_cons_self), rfl⟩

theorem isMark_previousStop (h : c.Over ts) : IsMark ts c.previousStop := by
  rcases h.isGood_previousStop with h0 | ⟨t, ht, hstop⟩
  · exact .inl h0
  · exact .inr ⟨t, ht, .inr hstop⟩

/-- `eof` is never passed, so it stays ahead. -/
theorem next (h : c.Over ts) : c.next.2.Over ts := by
  refine ⟨(tokens_next c).trans h.tokens, ?_, ?_⟩
  · obtain ⟨us, e, he, hk⟩ := h.ends
    unfold Cursor.next
    split
    · exact ⟨us, e, he, hk⟩
    · next t rest hc =>
      split
      · exact ⟨us, e, he, hk⟩
      · next ht =>
        rw [hc] at he
        cases us with
        | nil =>
          obtain ⟨rfl, -⟩ := List.cons.inj he
          exact absurd hk ht
        | cons u us => exact ⟨us, e, (List.cons.inj he).2, hk⟩
  · rw [next_good]
    exact h.good

theorem checkpoint (h : c.Over ts) : c.checkpoint.Over ts := ⟨h.tokens, h.ends, h.isGood_previousStop⟩

theorem fault (h : c.Over ts) {offset : Nat} (ho : IsMark ts offset) {m : Message}
    (hm : m.kind = .grammar) (inserts : List String) : IsMarked ts (c.fault offset m inserts) :=
  ⟨ho, hm, c.good, rfl, h.good⟩

theorem unexpected (h : c.Over ts) (expected : String) : IsMarked ts (c.unexpected expected) := by
  unfold Cursor.unexpected
  split
  · exact h.fault (isMark_start h.peek_mem) rfl _
  · exact h.fault (isMark_start h.peek_mem) rfl _

end Token.Cursor.Over

namespace Parser

variable {α β : Type} {P : α → Prop} {Q : β → Prop}

/-- On a cursor over the tokens, the parser moves to another with a result in `P`, or gives a fault
of the tokens. -/
abbrev Keeps (ts : List Token) (p : Parser α) (P : α → Prop) : Prop :=
  Carries (Cursor.Over ts) (IsMarked ts) p P

/-! ## Looking -/

theorem keeps_peek : Keeps ts peek (· ∈ ts) := carries_look _ fun _ hc => hc.peek_mem

theorem keeps_previousStop : Keeps ts previousStop (IsMark ts) :=
  carries_look _ fun _ hc => hc.isMark_previousStop

/-! ## Refusing -/

variable {m : Message} {inserts : List String}

theorem keeps_refuse (ho : IsMark ts n) (hm : m.kind = .grammar) :
    Keeps ts (refuse n m inserts) P := fun _ hc => hc.fault ho hm inserts

theorem keeps_refuseHere (hm : m.kind = .grammar) : Keeps ts (refuseHere m inserts) P :=
  fun _ hc => hc.fault (isMark_start hc.peek_mem) hm inserts

theorem keeps_refuse_bind {k : α → Parser β} (ho : IsMark ts n) (hm : m.kind = .grammar) :
    Keeps ts (refuse n m inserts >>= k) Q :=
  (keeps_refuse (P := fun _ => False) ho hm).bind nofun

theorem keeps_refuseHere_bind {k : α → Parser β} (hm : m.kind = .grammar) :
    Keeps ts (refuseHere m inserts >>= k) Q := (keeps_refuseHere (P := fun _ => False) hm).bind nofun

theorem keeps_unexpected {expected : String} : Keeps ts (unexpected expected) P :=
  fun _ hc => hc.unexpected expected

theorem keeps_requireAdjacent (hm : m.kind = .grammar) :
    Keeps ts (requireAdjacent m) fun _ => True :=
  carries_adjacent.bind fun _ _ => .ite (carries_pure trivial) (keeps_refuseHere hm)

/-! ## Moving -/

theorem keeps_next : Keeps ts next (· ∈ ts) := by
  intro c hc
  exact ⟨hc.next, (Cursor.next_fst c).symm ▸ hc.peek_mem⟩

theorem keeps_eat {k : Kind} : Keeps ts (eat k) (· ∈ ts) := by
  intro c hc
  rw [eat, Cursor.eat_eq]
  by_cases hk : c.peekIs k = true
  · rw [if_pos hk]
    exact keeps_next c hc
  · rw [if_neg hk]
    exact hc.unexpected _

theorem keeps_eatIf {k : Kind} : Keeps ts (eatIf k) fun t? => ∀ t, t? = some t → t ∈ ts := by
  intro c hc
  simp only [eatIf, Cursor.eatIf]
  split
  · refine ⟨hc.next, fun t ht => ?_⟩
    obtain rfl := Option.some.inj ht
    exact (Cursor.next_fst c).symm ▸ hc.peek_mem
  · refine ⟨hc, fun t ht => ?_⟩
    cases ht

theorem keeps_checkpoint : Keeps ts checkpoint fun _ => True := fun _ hc => ⟨hc.checkpoint, trivial⟩

end Parser

end Pipework
