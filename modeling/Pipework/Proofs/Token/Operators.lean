import Pipework.Proofs.Token.Boundary

/-! Operators that no character goes on with. Whatever text is put behind one of them, the tokens up to
it stay as they are. -/

namespace Pipework.Token

open Text

/-- The operator is the same before any text; only `|` can be the start of another one. -/
def Kind.isClosed (k : Kind) : Bool := !k.hasText && k != .pipe && k != .eof

variable {e e' : Bool} {cs mid : List Char} {us : List View} {v : View}

theorem Kind.ne_eof_of_isClosed {k : Kind} (h : k.isClosed = true) : k ≠ .eof := by
  rintro rfl
  cases h

theorem scan_of_isClosed {l : Lexeme} (h : scan cs = .ok l) (hk : l.kind.isClosed = true)
    (rest : List Char) : scan (l.raw ++ rest) = .ok { l with rest } := by
  obtain ⟨-, hscans⟩ := scan_eq_ok.mp h
  have hbefore : Lexeme.Scans { l with rest } := by
    cases hscans with
    | eof | quoted => cases hk
    | operator hsymbol he =>
      refine .operator hsymbol he ?_
      rintro rfl
      cases hk
    | @name name =>
      have hopen : (Kind.ofName name).isClosed = false := by
        unfold Kind.ofName
        split <;> rfl
      rw [hopen] at hk
      cases hk
  exact scan_of_scans hbefore

theorem cut_of_isClosed (h : cut e cs = some (v, mid)) (hk : v.kind.isClosed = true) :
    ∃ raw, cs = raw ++ mid ∧ raw ≠ [] ∧ endsBlank raw = false ∧
      ∀ rest, cut e (raw ++ rest) = some (v, rest) := by
  obtain ⟨-, l, hl, rfl, rfl⟩ | ⟨hs, l, hl, rfl, rfl⟩ := cut_eq_some.mp h
  · obtain ⟨v, -, -, rfl⟩ := scanValue_eq_ok.mp hl
    simp only [Value.kind] at hk
    split at hk <;> cases hk
  · have hne := (scan_append hl).2 (Kind.ne_eof_of_isClosed hk)
    refine ⟨cs.takeWhile isBlank ++ l.raw, ?_, by simp [hne],
      by rw [endsBlank_append _ hne, endsBlank_scan hl], fun rest => ?_⟩
    · rw [List.append_assoc, (scan_append hl).1, List.takeWhile_append_dropWhile]
    · rw [List.append_assoc]
      exact cut_before hs hl hne (scan_of_isClosed hl hk rest)

/-- The text behind such an operator can be exchanged for any that starts with `>` if it does. -/
theorem Lexes.exchange (h : Lexes e cs (us ++ [v]) e' mid) (hk : v.kind.isClosed = true) :
    ∃ front, cs = front ++ mid ∧ endsBlank front = false ∧ ∀ rest,
      (mid.head? = some '>' ↔ rest.head? = some '>') → Lexes e (front ++ rest) (us ++ [v]) e' rest := by
  obtain ⟨e'', last, hus, hv⟩ := h.of_append
  cases hv with
  | cons hc hv hnil =>
    cases hnil
    obtain ⟨raw, rfl, hne, hblank, hcut⟩ := cut_of_isClosed hc hk
    obtain ⟨front, rfl, -, -, hfront⟩ := hus.congr
    refine ⟨front ++ raw, by rw [List.append_assoc], by rw [endsBlank_append _ hne, hblank],
      fun rest hgt => ?_⟩
    rw [List.append_assoc]
    exact (hfront _ (onset_append_of_ne_nil hne hgt)).trans (.cons (hcut rest) hv .nil)

end Pipework.Token
