import Pipework.Proofs.Token.Tiling

/-! Where the offsets of a text lie: those of its tokens, and that of the fault when it has none. -/

namespace Pipework

namespace Text

/-- A byte offset of the text that does not lie inside a character. -/
def IsBoundary (cs : List Char) (offset : Nat) : Prop :=
  ∃ before after, cs = before ++ after ∧ byteLength before = offset

variable {cs : List Char} {offset : Nat}

theorem isBoundary_zero (cs : List Char) : IsBoundary cs 0 := ⟨[], cs, rfl, rfl⟩

theorem isBoundary_byteLength (before after : List Char) :
    IsBoundary (before ++ after) (byteLength before) := ⟨before, after, rfl, rfl⟩

theorem IsBoundary.append (h : IsBoundary cs offset) (before : List Char) :
    IsBoundary (before ++ cs) (byteLength before + offset) := by
  obtain ⟨front, after, rfl, rfl⟩ := h
  exact ⟨before ++ front, after, (List.append_assoc ..).symm, byteLength_append ..⟩

theorem IsBoundary.le (h : IsBoundary cs offset) : offset ≤ byteLength cs := by
  obtain ⟨front, after, rfl, rfl⟩ := h
  rw [byteLength_append]
  exact Nat.le_add_right _ _

end Text

namespace Token

open Text

/-! ## Tokens -/

/-- Every token of a text starts and ends between characters. -/
theorem Tiles.isBoundary {offset : Nat} {before cs : List Char} {ts : List Token}
    (h : Tiles offset cs ts) (hb : byteLength before = offset) :
    ∀ t ∈ ts, IsBoundary (before ++ cs) t.start ∧ IsBoundary (before ++ cs) t.stop := by
  induction h generalizing before with
  | @last gap t offset _ _ hstart hstop =>
    have hend : byteLength (before ++ gap) = t.start := by rw [byteLength_append, hb, hstart]
    have hbound := isBoundary_byteLength (before ++ gap) []
    rw [List.append_nil, hend] at hbound
    simpa [hstop] using hbound
  | @cons gap raw rest t ts offset _ _ _ _ hstart hstop _ ih =>
    have hfront : byteLength (before ++ gap) = t.start := by rw [byteLength_append, hb, hstart]
    have hback : byteLength (before ++ gap ++ raw) = t.stop := by rw [byteLength_append, hfront, hstop]
    have hwhole : before ++ (gap ++ (raw ++ rest)) = before ++ gap ++ raw ++ rest := by simp
    intro u hu
    rcases List.mem_cons.mp hu with rfl | hu
    · rw [hwhole, ← hback, ← hfront]
      refine ⟨?_, isBoundary_byteLength _ _⟩
      rw [List.append_assoc (before ++ gap)]
      exact isBoundary_byteLength _ _
    · rw [hwhole]
      exact ih hback u hu

/-! ## Faults -/

/-- The fault lies between characters of the text, and its reason is a lexical one. -/
structure Misread.Lies (e : Misread) (cs : List Char) : Prop where
  lexical : e.message.kind = .lexical
  isBoundary : IsBoundary cs e.distance

theorem unclosed_kind (q : Char) : (unclosed q).kind = .lexical := by
  unfold unclosed
  split <;> rfl

theorem lies_of_scan {cs : List Char} {e : Misread} (h : scan cs = .error e) : e.Lies cs := by
  unfold scan at h
  split at h
  case h_8 =>
    -- A lone hyphen is passed before the fault.
    cases h
    exact ⟨rfl, isBoundary_byteLength ['-'] _⟩
  case h_10 =>
    split at h
    · cases h
    · split at h
      · split at h <;> cases h
        exact ⟨unclosed_kind _, isBoundary_zero _⟩
      · split at h <;> cases h
        exact ⟨rfl, isBoundary_zero _⟩
  all_goals cases h
  all_goals exact ⟨rfl, isBoundary_zero _⟩

/-- A value is misread where one of its quotes is not closed. -/
theorem lies_of_spanValueWithin {n : Nat} {cs : List Char} {e : Misread}
    (h : spanValueWithin n cs = .error e) : e.Lies cs := by
  induction n generalizing cs e with
  | zero => cases cs <;> cases h
  | succ n ih =>
    cases cs with
    | nil => cases h
    | cons c cs =>
      unfold spanValueWithin at h
      split at h
      · cases h
      · split at h
        · split at h
          · cases h
            exact ⟨unclosed_kind c, isBoundary_zero _⟩
          · next q hq =>
            split at h <;> cases h
            next e he =>
              obtain ⟨hkind, hbound⟩ := ih he
              refine ⟨hkind, ?_⟩
              have := hbound.append (c :: q.raw)
              rwa [List.cons_append, closeQuote_append hq, Nat.add_comm] at this
        · split at h <;> cases h
          next e he =>
            obtain ⟨hkind, hbound⟩ := ih he
            refine ⟨hkind, ?_⟩
            have := hbound.append [c]
            rwa [Nat.add_comm] at this

theorem lies_of_scanValue {cs : List Char} {e : Misread} (h : scanValue cs = .error e) : e.Lies cs := by
  unfold scanValue at h
  cases hv : spanValue cs with
  | ok v => rw [hv] at h; cases h
  | error e' =>
    rw [hv] at h
    cases h
    exact lies_of_spanValueWithin hv

theorem lies_of_lexeme {r : Reader} {x : Misread} (h : r.lexeme = .error x) :
    ∃ cs, r.rest = r.gap ++ cs ∧ x.Lies cs := by
  unfold Reader.lexeme at h
  split at h
  · next hv => exact ⟨r.rest, by rw [Reader.gap_of_startsValue hv]; rfl, lies_of_scanValue h⟩
  · exact ⟨_, List.takeWhile_append_dropWhile.symm, lies_of_scan h⟩

/-- A fault of a text that cannot be cut into tokens. -/
structure IsLexicalAt (cs : List Char) (f : Fault) : Prop where
  lexical : f.isLexical = true
  isBoundary : IsBoundary cs f.offset
  checkpoint : f.checkpoint = none

variable {source : String} {r : Reader} {f : Fault} {passed : List Char}

theorem lexicalAt_of_fails (h : r.Fails source f) (hp : byteLength passed = r.offset) :
    IsLexicalAt (passed ++ r.rest) f := by
  induction h generalizing passed with
  | @here r x hx =>
    obtain ⟨cs, hrest, hkind, hbound⟩ := lies_of_lexeme hx
    refine ⟨beq_iff_eq.mpr hkind, ?_, rfl⟩
    have hbehind := hbound.append (passed ++ r.gap)
    rwa [byteLength_append, hp, List.append_assoc, ← hrest] at hbehind
  | @behind r l f hl _ _ ih =>
    have hpassed : byteLength (passed ++ (r.gap ++ l.raw)) = (r.behind l).offset := by
      simp only [byteLength_append, hp, Reader.behind, Reader.token, Token.stop, Nat.add_assoc]
    have hbehind := ih hpassed
    rw [Reader.rest_of_lexeme hl]
    simpa only [List.append_assoc, Reader.behind] using hbehind

/-- The fault of a text without tokens. -/
theorem lexicalAt_of_tokenize {text : String} (h : tokenize text = .error f) :
    IsLexicalAt text.toList f :=
  @lexicalAt_of_fails text { rest := text.toList } f [] (tokenize_eq_error.mp h) rfl

end Token

end Pipework
