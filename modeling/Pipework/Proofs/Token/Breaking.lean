import Pipework.Proofs.Token.Lexing

/-! Texts that cannot be cut to their end. Behind the tokens that are cut stands what is misread, and
the reason of that is the reason for which the text is refused. -/

namespace Pipework.Token

open Text

/-- No token is at the start of a text, for the given reason. -/
def Misreads (expects : Bool) (cs : List Char) (m : Message) : Prop :=
  ∃ x, Reader.lexeme { rest := cs, expectsValue := expects } = .error x ∧ x.message = m

/-- Tokens are cut off a text up to where it is misread. -/
def Breaks (expects : Bool) (cs : List Char) (m : Message) : Prop :=
  ∃ us e rest, Lexes expects cs us e rest ∧ Misreads e rest m

variable {expects e : Bool} {cs rest : List Char} {us : List View} {m : Message}

theorem Misreads.cut (h : Misreads expects cs m) : cut expects cs = none := by
  obtain ⟨x, hx, -⟩ := h
  have hcut := cut_eq { rest := cs, expectsValue := expects }
  rwa [hx] at hcut

theorem breaks_of_fails {r : Reader} {source : String} {f : Fault} (h : r.Fails source f) :
    Breaks r.expectsValue r.rest f.message := by
  induction h with
  | here hx => exact ⟨[], _, _, .nil, _, hx, rfl⟩
  | @behind r l f hl hk _ ih =>
    obtain ⟨us, e, rest, hlex, hmisread⟩ := ih
    have hcut := cut_eq r
    rw [hl] at hcut
    exact ⟨_ :: us, e, rest, .cons hcut hk hlex, hmisread⟩

theorem fails_of_lexes {r : Reader} (source : String) (h : Lexes expects cs us e rest)
    (hm : Misreads e rest m) (he : r.expectsValue = expects) (hr : r.rest = cs) :
    ∃ f, r.Fails source f ∧ f.message = m := by
  induction h generalizing r with
  | nil =>
    obtain ⟨x, hx, rfl⟩ := hm
    subst he hr
    exact ⟨_, .here hx, rfl⟩
  | cons hc hk _ ih =>
    subst he hr
    rw [cut_eq] at hc
    obtain ⟨l, hl, hv⟩ := Option.map_eq_some_iff.mp hc
    obtain ⟨rfl, rfl⟩ := Prod.mk.inj hv
    obtain ⟨f, hf, hmessage⟩ := ih (r := r.behind l) hm rfl rfl
    exact ⟨f, .behind (toOption_eq_some.mp hl) hk hf, hmessage⟩

/-- A text is refused for the reason for which it is misread behind its tokens. -/
theorem exists_fault_iff {text : String} :
    (∃ f, tokenize text = .error f ∧ f.message = m) ↔ Breaks false text.toList m := by
  constructor
  · rintro ⟨f, hf, rfl⟩
    exact breaks_of_fails (tokenize_eq_error.mp hf)
  · rintro ⟨us, e, rest, hlex, hm⟩
    obtain ⟨f, hf, hmessage⟩ := fails_of_lexes text hlex hm (r := { rest := text.toList }) rfl rfl
    exact ⟨f, tokenize_of_fails hf, hmessage⟩

/-! ## A space in front -/

/-- Behind a space no value starts, even if one is expected. -/
theorem cut_space (cs : List Char) : cut true (' ' :: cs) =
    (cut false cs).map fun p => ({ p.1 with glued := false }, p.2) := by
  have hspace := cut_eq { rest := ' ' :: cs, expectsValue := true }
  have hcut := cut_eq { rest := cs }
  rw [@Reader.lexeme_of_blank _ [' '] cs rfl (by simp) rfl] at hspace
  rw [hspace, hcut, Option.map_map]
  rfl

theorem Misreads.behind_space (h : Misreads false cs m) : Misreads true (' ' :: cs) m := by
  obtain ⟨x, hx, hm⟩ := h
  refine ⟨x, ?_, hm⟩
  rwa [@Reader.lexeme_of_blank _ [' '] cs rfl (by simp) rfl]

theorem Breaks.behind_space (h : Breaks false cs m) : Breaks true (' ' :: cs) m := by
  obtain ⟨us, e, rest, hlex, hmisread⟩ := h
  cases hlex with
  | nil => exact ⟨[], true, _, .nil, hmisread.behind_space⟩
  | @cons _ _ _ mid _ v us hc hk hlex =>
    exact ⟨{ v with glued := false } :: us, e, rest, .cons (by rw [cut_space, hc]; rfl) hk hlex,
      hmisread⟩

theorem LexesAll.behind_space {v : View} {vs : List View} (h : LexesAll false cs (v :: vs)) :
    LexesAll true (' ' :: cs) ({ v with glued := false } :: vs) := by
  cases h with
  | last hc hk => exact .last (by rw [cut_space, hc]; rfl) hk
  | cons hc hk hvs => exact .cons (by rw [cut_space, hc]; rfl) hk hvs

end Pipework.Token
