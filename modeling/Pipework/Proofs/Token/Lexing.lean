import Pipework.Proofs.Token.Lexemes
import Pipework.Proofs.Token.Sight
import Pipework.Token.Cursor

/-! How a text is cut into views, without positions: the white space before a token tells how it is
seen. The tokens of a text are seen as it is cut. -/

namespace Pipework.Token

open Text

/-- A value is at the start of the text; `expects` tells that the token before was `=`. -/
def startsValue (expects : Bool) (cs : List Char) : Bool :=
  expects && cs.head?.any fun c => !endsValue c

/-- The next token of a text as it is seen, and the rest. -/
def cut (expects : Bool) (cs : List Char) : Option (View × List Char) :=
  if startsValue expects cs then
    (scanValue cs).toOption.map fun l => (⟨l.kind, true, false⟩, l.rest)
  else
    let gap := cs.takeWhile isBlank
    (scan (cs.dropWhile isBlank)).toOption.map fun l =>
      (⟨l.kind, gap.isEmpty, gap.contains '\n'⟩, l.rest)

theorem toOption_eq_some {α β : Type} {x : Except α β} {b : β} :
    x.toOption = some b ↔ x = .ok b := by
  cases x <;> simp [Except.toOption]

theorem cut_eq_some {expects : Bool} {cs rest : List Char} {v : View} :
    cut expects cs = some (v, rest) ↔
      (startsValue expects cs = true ∧ ∃ l, scanValue cs = .ok l ∧ v = ⟨l.kind, true, false⟩ ∧ rest = l.rest) ∨
        (startsValue expects cs = false ∧ ∃ l, scan (cs.dropWhile isBlank) = .ok l ∧
          v = ⟨l.kind, (cs.takeWhile isBlank).isEmpty, (cs.takeWhile isBlank).contains '\n'⟩ ∧
          rest = l.rest) := by
  unfold cut
  split <;> simp only [Option.map_eq_some_iff, toOption_eq_some, Prod.mk.injEq] <;> grind

/-- The views that a text is cut into, none of which is `eof`, up to a rest. -/
inductive Lexes : Bool → List Char → List View → Bool → List Char → Prop
  | nil {expects : Bool} {cs : List Char} : Lexes expects cs [] expects cs
  | cons {expects expects' : Bool} {cs mid rest : List Char} {v : View} {vs : List View} :
      cut expects cs = some (v, mid) → v.kind ≠ .eof →
      Lexes (v.kind == .equals) mid vs expects' rest → Lexes expects cs (v :: vs) expects' rest

/-- All views of a text, the last of which is `eof`. -/
inductive LexesAll : Bool → List Char → List View → Prop
  | last {expects : Bool} {cs rest : List Char} {v : View} :
      cut expects cs = some (v, rest) → v.kind = .eof → LexesAll expects cs [v]
  | cons {expects : Bool} {cs mid : List Char} {v : View} {vs : List View} :
      cut expects cs = some (v, mid) → v.kind ≠ .eof → LexesAll (v.kind == .equals) mid vs →
      LexesAll expects cs (v :: vs)

/-! ## Reading -/

theorem byteLength_eq_zero {cs : List Char} : byteLength cs = 0 ↔ cs = [] := by
  cases cs with
  | nil => simp
  | cons c cs => simpa using fun h => absurd h (Nat.ne_of_gt c.utf8Size_pos)

section

variable {r r' : Reader} {source : String} {t l : Token} {m : Lexeme}

/-- The next token is seen behind the white space before it. -/
theorem cut_eq (r : Reader) : cut r.expectsValue r.rest =
    r.lexeme.toOption.map fun l => (⟨l.kind, r.gap.isEmpty, r.gap.contains '\n'⟩, l.rest) := by
  rw [cut, Reader.lexeme, show startsValue r.expectsValue r.rest = r.startsValue from rfl]
  by_cases hv : r.startsValue = true
  · rw [if_pos hv, if_pos hv, Reader.gap_of_startsValue hv]
    rfl
  · rw [if_neg hv, if_neg hv]
    rfl

/-- A token read after `l` is seen as it is cut. -/
theorem viewOf_token (hs : l.stop = r.offset) (hl : l.span.line = r.line) (m : Lexeme) :
    viewOf (some l) (r.token m) = ⟨m.kind, r.gap.isEmpty, r.gap.contains '\n'⟩ := by
  simp only [viewOf, Option.any_some, hs, hl]
  congr 1
  · rw [Bool.eq_iff_iff, List.isEmpty_iff, ← byteLength_eq_zero]
    simp [Reader.token, Token.start]
  · rw [Bool.eq_iff_iff, List.contains_iff_mem, ← List.count_pos_iff]
    simp [Reader.token]

theorem cut_iff_lexeme {v : View} {rest : List Char} (hs : l.stop = r.offset)
    (hl : l.span.line = r.line) : cut r.expectsValue r.rest = some (v, rest) ↔
      ∃ m, r.lexeme = .ok m ∧ v = viewOf (some l) (r.token m) ∧ rest = m.rest := by
  simp only [cut_eq, Option.map_eq_some_iff, toOption_eq_some, Prod.mk.injEq, viewOf_token hs hl,
    @eq_comm _ v, @eq_comm _ rest]

theorem next_reader (h : r.next source = .ok (t, r')) :
    t.stop = r'.offset ∧ t.span.line = r'.line ∧ r'.expectsValue = (t.kind == .equals) := by
  obtain ⟨l, -, rfl, rfl⟩ := Reader.next_eq_ok.mp h
  exact ⟨rfl, rfl, rfl⟩

theorem lexesAll_of_reads {ts : List Token} (h : r.Reads ts) (hs : l.stop = r.offset)
    (hl : l.span.line = r.line) : LexesAll r.expectsValue r.rest (viewsOf (some l) ts) := by
  induction h generalizing l with
  | last hm hk => exact .last ((cut_iff_lexeme hs hl).mpr ⟨_, hm, rfl, rfl⟩) hk
  | cons hm hk _ ih => exact .cons ((cut_iff_lexeme hs hl).mpr ⟨_, hm, rfl, rfl⟩) hk (ih rfl rfl)

theorem reads_of_lexesAll {e : Bool} {cs : List Char} {vs : List View} (h : LexesAll e cs vs)
    (he : r.expectsValue = e) (hr : r.rest = cs) (hs : l.stop = r.offset)
    (hl : l.span.line = r.line) : ∃ ts, r.Reads ts ∧ viewsOf (some l) ts = vs := by
  induction h generalizing r l with
  | last hc hk =>
    subst he hr
    obtain ⟨m, hm, rfl, rfl⟩ := (cut_iff_lexeme hs hl).mp hc
    exact ⟨_, .last hm hk, rfl⟩
  | cons hc hk _ ih =>
    subst he hr
    obtain ⟨m, hm, rfl, rfl⟩ := (cut_iff_lexeme hs hl).mp hc
    obtain ⟨ts, hts, rfl⟩ := @ih (r.behind m) (r.token m) rfl rfl rfl rfl
    exact ⟨_, .cons hm hk hts, rfl⟩

end

/-- The first token of a text touches nothing. -/
def unglued : List View → List View
  | [] => []
  | v :: vs => ⟨v.kind, false, false⟩ :: vs

theorem unglued_kinds (vs : List View) : (unglued vs).map View.kind = vs.map View.kind := by
  cases vs <;> rfl

theorem unglued_append {us : List View} (h : us ≠ []) (vs : List View) :
    unglued (us ++ vs) = unglued us ++ vs := by
  cases us with
  | nil => exact absurd rfl h
  | cons u us => rfl

theorem unglued_viewsOf (l : Token) (ts : List Token) :
    unglued (viewsOf (some l) ts) = viewsOf none ts := by
  cases ts <;> rfl

theorem lexesAll_of_tokenize {text : String} {ts : List Token} (h : tokenize text = .ok ts) :
    ∃ vs, LexesAll false text.toList vs ∧ viewsOf none ts = unglued vs :=
  ⟨_, @lexesAll_of_reads _ ⟨.eof, ⟨0, 0, 1, 1⟩⟩ _ (tokenize_eq_ok.mp h) rfl rfl,
    (unglued_viewsOf _ _).symm⟩

theorem tokenize_of_lexesAll {text : String} {vs : List View} (h : LexesAll false text.toList vs) :
    ∃ ts, tokenize text = .ok ts ∧ viewsOf none ts = unglued vs := by
  obtain ⟨ts, hts, rfl⟩ := @reads_of_lexesAll { rest := text.toList } ⟨.eof, ⟨0, 0, 1, 1⟩⟩
    _ _ _ h rfl rfl rfl rfl
  exact ⟨ts, tokenize_of_reads hts, (unglued_viewsOf _ _).symm⟩

theorem LexesAll.exists_eof {expects : Bool} {cs : List Char} {vs : List View}
    (h : LexesAll expects cs vs) :
    ∃ (us : List View) (v : View), vs = us ++ [v] ∧ v.kind = .eof ∧ ∀ u ∈ us, u.kind ≠ .eof := by
  induction h with
  | last _ hk => exact ⟨[], _, rfl, hk, by simp⟩
  | cons _ hk _ ih =>
    obtain ⟨us, v, rfl, hv, hu⟩ := ih
    exact ⟨_ :: us, v, rfl, hv, List.forall_mem_cons.mpr ⟨hk, hu⟩⟩

theorem terminated_eq {n : Nat} {ts : List Token} (h : ∃ t ∈ ts.getLast?, t.kind = .eof) :
    terminated n ts = ts := by
  fun_induction terminated n ts with
  | case1 => obtain ⟨_, ht, -⟩ := h; cases ht
  | case2 => rfl
  | case3 t hk =>
    obtain ⟨_, ht, h⟩ := h
    obtain rfl := Option.some.inj ht
    exact absurd h hk
  | case4 t ts hne ih =>
    cases ts with
    | nil => exact (hne rfl).elim
    | cons u us => rw [ih (by simpa using h)]

theorem viewsOf_kinds (last : Option Token) (ts : List Token) :
    (viewsOf last ts).map View.kind = ts.map Token.kind := by
  induction ts generalizing last with
  | nil => rfl
  | cons t ts ih => simp [viewsOf, viewOf, ih]

theorem LexesAll.unglued_eof {expects : Bool} {cs : List Char} {vs : List View}
    (h : LexesAll expects cs vs) :
    ∃ (us : List View) (v : View), unglued vs = us ++ [v] ∧ v.kind = .eof ∧
      ∀ u ∈ us, u.kind ≠ .eof := by
  obtain ⟨us, v, rfl, hk, hu⟩ := h.exists_eof
  cases us with
  | nil => exact ⟨[], ⟨v.kind, false, false⟩, rfl, hk, by simp⟩
  | cons u us => exact ⟨⟨u.kind, false, false⟩ :: us, v, rfl, hk, by simpa using hu⟩

/-- The tokens of a text end with `eof`, which none of them is before that. -/
theorem exists_eof_of_tokenize {text : String} {ts : List Token} (h : tokenize text = .ok ts) :
    ∃ (us : List Token) (t : Token), ts = us ++ [t] ∧ t.kind = .eof ∧ ∀ u ∈ us, u.kind ≠ .eof := by
  obtain ⟨vs, hvs, hv⟩ := lexesAll_of_tokenize h
  obtain ⟨us, v, rfl, hk, hu⟩ := hvs.exists_eof
  have hkinds : ts.map Token.kind = us.map View.kind ++ [v.kind] := by
    rw [← viewsOf_kinds none, hv, unglued_kinds, List.map_append, List.map_singleton]
  obtain ⟨ts, es, rfl, hts, hes⟩ := List.map_eq_append_iff.mp hkinds
  simp only [List.map_eq_cons_iff, List.map_eq_nil_iff] at hes
  obtain ⟨t, _, rfl, ht, rfl⟩ := hes
  refine ⟨ts, t, rfl, ht.trans hk, fun u hu' => ?_⟩
  obtain ⟨w, hw, hwu⟩ := List.mem_map.mp (hts ▸ List.mem_map_of_mem hu')
  exact hwu ▸ hu w hw

/-- A cursor before the tokens of a text sees those before `eof`, and then `eof`. -/
theorem sights_ofTokens {text : String} {ts : List Token} (h : tokenize text = .ok ts) :
    ∃ v : Sight, (Cursor.ofTokens text ts).sights = sightsOf none ts.dropLast ++ [v] ∧
      v.kind = .eof ∧ ∀ u ∈ sightsOf none ts.dropLast, u.kind ≠ .eof := by
  obtain ⟨us, t, rfl, ht, hu⟩ := exists_eof_of_tokenize h
  obtain ⟨v, hv, hk⟩ := sightsOf_append none us t
  rw [List.dropLast_concat]
  refine ⟨v, ?_, hk.trans ht, fun w hw => ?_⟩
  · rw [← hv, Cursor.ofTokens, Cursor.sights, terminated_eq ⟨t, by simp, ht⟩]
    rfl
  · have hkind : w.kind ∈ us.map Token.kind := by
      rw [← sightsOf_kinds none]
      exact List.mem_map_of_mem hw
    obtain ⟨u, hu', he⟩ := List.mem_map.mp hkind
    exact he ▸ hu u hu'

/-- The sights of a text show the views it is cut into, before the last. -/
theorem sightsOf_dropLast_views {text : String} {ts : List Token} {us ws : List View} {v : View}
    (h : tokenize text = .ok ts) (hw : viewsOf none ts = unglued ws) (hu : unglued ws = us ++ [v]) :
    (sightsOf none ts.dropLast).map Sight.toView = us := by
  obtain ⟨ts, t, rfl, -, -⟩ := exists_eof_of_tokenize h
  obtain ⟨w, hv, -⟩ := sightsOf_append none ts t
  rw [List.dropLast_concat]
  rw [← sightsOf_views, hv, hu, List.map_append] at hw
  exact (List.append_inj' hw rfl).1

/-! ## Cutting in steps -/

theorem Lexes.trans {e e' e'' : Bool} {cs mid rest : List Char} {us vs : List View}
    (h : Lexes e cs us e' mid) (h' : Lexes e' mid vs e'' rest) : Lexes e cs (us ++ vs) e'' rest := by
  induction h with
  | nil => exact h'
  | cons hc hk _ ih => exact .cons hc hk (ih h')

theorem Lexes.of_append {e e' : Bool} {cs rest : List Char} {us vs : List View}
    (h : Lexes e cs (us ++ vs) e' rest) :
    ∃ e'' mid, Lexes e cs us e'' mid ∧ Lexes e'' mid vs e' rest := by
  induction us generalizing e cs with
  | nil => exact ⟨e, cs, .nil, h⟩
  | cons u us ih =>
    cases h with
    | cons hc hk h =>
      obtain ⟨e'', mid, h₁, h₂⟩ := ih h
      exact ⟨e'', mid, .cons hc hk h₁, h₂⟩

/-- What a text starts with is cut first. -/
theorem Lexes.all_iff {e e' : Bool} {cs rest : List Char} {us vs : List View}
    (h : Lexes e cs us e' rest) :
    LexesAll e cs vs ↔ ∃ ws, vs = us ++ ws ∧ LexesAll e' rest ws := by
  induction h generalizing vs with
  | nil => simp
  | @cons e e' cs mid rest v vs' hc hk _ ih =>
    constructor
    · intro h
      cases h with
      | last hc' hk' =>
        obtain ⟨rfl, rfl⟩ := Prod.mk.inj (Option.some.inj (hc.symm.trans hc'))
        exact absurd hk' hk
      | cons hc' hk' h =>
        obtain ⟨rfl, rfl⟩ := Prod.mk.inj (Option.some.inj (hc.symm.trans hc'))
        obtain ⟨ws, rfl, hw⟩ := ih.mp h
        exact ⟨ws, rfl, hw⟩
    · rintro ⟨ws, rfl, hw⟩
      exact .cons hc hk (ih.mpr ⟨ws, rfl, hw⟩)

theorem lexesAll_of_lexes {e : Bool} {cs : List Char} {vs : List View} (h : Lexes e cs vs false []) :
    LexesAll e cs (vs ++ [⟨.eof, true, false⟩]) :=
  h.all_iff.mpr ⟨_, rfl, .last rfl rfl⟩

end Pipework.Token
