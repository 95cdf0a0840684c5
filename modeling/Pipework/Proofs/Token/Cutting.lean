import Pipework.Proofs.Token.Spaced
import Pipework.Proofs.Token.Sight

/-! A text cut off behind one of its tokens gives the tokens up to there, and then `eof`: what comes
behind the cut has no part in any of them. -/

namespace Pipework.Token

open Text

/-- Where the last of the tokens ends; no tokens end where they would start. -/
def stopAfter (offset : Nat) (ts : List Token) : Nat := (ts.getLast?.map Token.stop).getD offset

theorem stopAfter_cons (offset : Nat) (t : Token) (ts : List Token) :
    stopAfter offset (t :: ts) = stopAfter t.stop ts := by
  cases h : ts.getLast? <;> simp [stopAfter, List.getLast?_cons, h]

namespace Reader

variable {r : Reader} {front back : List Token}

/-- A hyphen alone is no token but a value. -/
theorem Reads.ne_hyphen (h : r.Reads front) (he : r.expectsValue = false) : r.rest ≠ ['-'] := by
  intro hr
  have hmisread : r.lexeme = .error ⟨1, .missingCharacter, ["-"]⟩ := by
    rw [lexeme, startsValue, he, hr]
    rfl
  cases h <;> simp_all

/-- The induction is on the tokens before the cut. Those behind the first are known to be read from
`mid`, which is then no lone hyphen that the first could go on with. -/
theorem Reads.cut_off (h : r.Reads (front ++ back)) (hback : back ≠ []) : ∃ mid after e,
    r.rest = mid ++ after ∧ r.offset + byteLength mid = stopAfter r.offset front ∧ e.kind = .eof ∧
      Reads { r with rest := mid } (front ++ [e]) := by
  induction front generalizing r with
  | nil =>
    have hnil : lexeme { r with rest := [] } = .ok ⟨.eof, [], []⟩ := by
      simp [lexeme, startsValue, scan]
    exact ⟨[], r.rest, _, rfl, rfl, rfl, .last hnil rfl⟩
  | cons t front ih =>
    generalize hts : t :: front ++ back = ts at h
    cases h with
    | last hl hk => simp [hback] at hts
    | @cons _ l ts hl hk hus =>
      obtain ⟨rfl, rfl⟩ := List.cons.inj hts
      obtain ⟨mid, after, e, hrest, hstop, he, hreads⟩ := ih hus
      have hends : EndsAlike l.kind l.rest mid := by
        refine endsAlike_of_prefix ⟨after, hrest.symm⟩ fun hname => hreads.ne_hyphen ?_
        exact beq_eq_false_iff_ne.mpr (Kind.ne_of_isName hname rfl)
      obtain ⟨hgap, hlexeme⟩ := lexeme_congr (s := { r with rest := r.gap ++ (l.raw ++ mid) }) hl hk
        hends rfl rfl
      have htoken : token { r with rest := r.gap ++ (l.raw ++ mid) } { l with rest := mid } =
          r.token l := by simp only [token, hgap]
      refine ⟨r.gap ++ (l.raw ++ mid), after, e, ?_, ?_, he, ?_⟩
      · rw [rest_of_lexeme hl, show l.rest = mid ++ after from hrest]
        simp only [List.append_assoc]
      · rw [stopAfter_cons, ← show (r.behind l).offset = (r.token l).stop from rfl, ← hstop]
        simp only [behind, token, Token.stop, byteLength_append, Nat.add_assoc]
      · rw [List.cons_append, ← htoken]
        refine .cons hlexeme hk ?_
        rw [behind, htoken]
        exact hreads

end Reader

/-- The text is cut off at the end of a token, or at the start. -/
theorem tokenize_cut_off {text : String} {front back : List Token}
    (h : tokenize text = .ok (front ++ back)) (hback : back ≠ []) : ∃ before after e,
    splitAtByte? (stopAfter 0 front) text.toList = some (before, after) ∧ e.kind = .eof ∧
      tokenize (String.ofList before) = .ok (front ++ [e]) := by
  obtain ⟨before, after, e, htext, hlength, he, hreads⟩ := (tokenize_eq_ok.mp h).cut_off hback
  refine ⟨before, after, e, ?_, he, tokenize_eq_ok.mpr (by simpa using hreads)⟩
  have hlength : byteLength before = stopAfter 0 front := (Nat.zero_add _).symm.trans hlength
  rw [show text.toList = before ++ after from htext, ← hlength]
  exact splitAtByte?_byteLength before after

/-! ## Sights of the tokens before the cut -/

theorem sightsOf_take (last : Option Token) (ts : List Token) (n : Nat) :
    sightsOf last (ts.take n) = (sightsOf last ts).take n := by
  induction n generalizing last ts with
  | zero => rfl
  | succ n ih =>
    cases ts with
    | nil => rfl
    | cons t ts => simp only [List.take_succ_cons, sightsOf, ih]

theorem sightsOf_stops (last : Option Token) (ts : List Token) :
    (sightsOf last ts).map Sight.stop = ts.map Token.stop := by
  induction ts generalizing last with
  | nil => rfl
  | cons t ts ih => rw [sightsOf, List.map_cons, ih]; rfl

theorem stopAfter_eq (last : Option Token) (ts : List Token) :
    stopAfter 0 ts = stopOf (sightsOf last ts) := by
  rw [stopAfter, stopOf, ← List.getLast?_map, ← List.getLast?_map, sightsOf_stops]

end Pipework.Token
