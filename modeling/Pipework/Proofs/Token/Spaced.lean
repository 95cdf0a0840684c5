import Pipework.Proofs.Token.Boundary

/-! Two texts with a space between them are cut as each of them is by itself. At the space the reader
neither waits for a value nor looks back, so what the second text gives is only moved. -/

namespace Pipework.Token

open Text

/-- Where the given column of a line is when the text is put behind other characters of its first
line. -/
def shifted (columns line column : Nat) : Nat := if line = 1 then column + columns else column

/-- A token as it stands when its text is put behind another one, which has the given length, lines
before its last one, and length of that one. -/
def moved (offset lines columns : Nat) (t : Token) : Token :=
  ⟨t.kind, ⟨t.start + offset, t.stop + offset, t.span.line + lines,
    shifted columns t.span.line t.span.column⟩⟩

theorem shifted_add (columns line column n : Nat) :
    shifted columns line column + n = shifted columns line (column + n) := by
  unfold shifted
  split <;> omega

theorem columnAfter_shifted {columns line column : Nat} {cs : List Char} (h : 1 ≤ line) :
    columnAfter (shifted columns line column) cs =
      shifted columns (line + cs.count '\n') (columnAfter column cs) := by
  by_cases hn : '\n' ∈ cs
  · have hpos := List.count_pos_iff.mpr hn
    rw [shifted, shifted, if_neg (by omega : ¬ line + cs.count '\n' = 1)]
    exact columnAfter_congr hn
  · rw [List.count_eq_zero.mpr hn, Nat.add_zero, columnAfter_of_notMem hn,
      columnAfter_of_notMem hn, shifted_add]

namespace Reader

variable {r s : Reader} {l : Lexeme} {ts : List Token} {rest : List Char}

/-! ## The first text -/

theorem raw_rest (h : r.lexeme = .ok l) : l.raw ++ l.rest = r.rest.dropWhile isBlank := by
  have hrest := rest_of_lexeme h
  conv at hrest => lhs; rw [← List.takeWhile_append_dropWhile (p := isBlank) (l := r.rest)]
  exact (List.append_cancel_left hrest).symm

/-- The next token is read in the same way before any text that it ends before. -/
theorem lexeme_congr (h : r.lexeme = .ok l) (hk : l.kind ≠ .eof) (hr : EndsAlike l.kind l.rest rest)
    (hs : s.rest = r.gap ++ (l.raw ++ rest)) (he : s.expectsValue = r.expectsValue) :
    s.gap = r.gap ∧ s.lexeme = .ok { l with rest } := by
  obtain ⟨c, raw, hraw⟩ := List.exists_cons_of_ne_nil (raw_ne_nil h hk)
  have hblank : ∀ d ∈ (l.raw ++ rest).head?, isBlank d = false := by
    have hhead := List.head?_dropWhile_not isBlank r.rest
    rw [← raw_rest h, hraw] at hhead
    rw [hraw]
    simpa using hhead
  obtain ⟨hgap, hdrop⟩ := @takeWhile_gap r.gap _ List.all_takeWhile hblank
  have hstarts : s.startsValue = r.startsValue := by
    have hhead : s.rest.head? = r.rest.head? := by
      rw [hs, rest_of_lexeme h, hraw]
      cases r.gap <;> rfl
    rw [Reader.startsValue, Reader.startsValue, he, hhead]
  refine ⟨by rw [gap, hs, hgap], ?_⟩
  have hread := h
  rw [lexeme] at hread
  rw [lexeme, hstarts]
  split at hread
  · next hv =>
    rw [if_pos hv, hs, gap_of_startsValue hv, List.nil_append]
    exact scanValue_congr hread (hr.value (stopsValue_of_scanValue hread))
  · next hv =>
    rw [if_neg hv, hs, hdrop]
    exact scan_congr hread hk hr

/-! ## The second text -/

/-- White space that is not yet passed makes no difference. -/
theorem Reads.of_blank {gap : List Char} (hgap : gap.all isBlank = true) (hne : gap ≠ [])
    (hr : r.rest = gap ++ rest) (h : Reads ⟨rest, r.offset + byteLength gap, r.line + gap.count '\n',
      columnAfter r.column gap, false⟩ ts) : r.Reads ts := by
  generalize hs : (⟨rest, _, _, _, false⟩ : Reader) = s at h
  have hlexeme : r.lexeme = s.lexeme := by
    subst hs
    exact lexeme_of_blank hgap hne hr
  have htoken : ∀ l, s.token l = r.token l := fun l => by
    subst hs
    have hpassed : r.gap = gap ++ rest.takeWhile isBlank := by
      rw [Reader.gap, hr, List.takeWhile_append_of_pos (List.all_eq_true.mp hgap)]
    simp only [token, hpassed, byteLength_append, List.count_append, columnAfter_append,
      Nat.add_assoc]
    rfl
  have hbehind : ∀ l, s.behind l = r.behind l := fun l => by
    rw [behind, behind, htoken]
  cases h with
  | last hl hk => exact htoken _ ▸ .last (hlexeme.trans hl) hk
  | cons hl hk hus => exact htoken _ ▸ .cons (hlexeme.trans hl) hk (hbehind _ ▸ hus)

/-- A reader of a text that is put behind another one. -/
def moved (offset lines columns : Nat) (r : Reader) : Reader :=
  { r with offset := r.offset + offset, line := r.line + lines,
           column := shifted columns r.line r.column }

variable {offset lines columns : Nat}

theorem token_moved (h : 1 ≤ r.line) :
    (r.moved offset lines columns).token l = (r.token l).moved offset lines columns := by
  have hgap : (r.moved offset lines columns).gap = r.gap := rfl
  simp only [token, hgap, Token.moved, Token.start, Token.stop, ← columnAfter_shifted h]
  simp only [moved, Nat.add_right_comm _ offset, Nat.add_right_comm _ lines]

theorem behind_moved (h : 1 ≤ r.line) :
    (r.moved offset lines columns).behind l = (r.behind l).moved offset lines columns := by
  rw [behind, token_moved h]
  simp only [behind, Token.moved, moved, Token.stop, shifted_add]

theorem Reads.moved (h : r.Reads ts) (hline : 1 ≤ r.line) :
    (r.moved offset lines columns).Reads (ts.map (Token.moved offset lines columns)) := by
  induction h with
  | last hl hk =>
    rw [List.map_singleton, ← token_moved hline]
    exact .last hl hk
  | cons hl hk _ ih =>
    rw [List.map_cons, ← token_moved hline]
    exact .cons hl hk (behind_moved hline ▸ ih (Nat.le_add_right_of_le hline))

/-! ## Both texts -/

/-- What is read behind the space is what the second text gives, moved to where the first ends. -/
theorem Reads.seam {cs : List Char} {us : List Token} (h : r.Reads ts)
    (hus : Reads { rest := cs } us) (hline : 1 ≤ r.line) : ∃ front e, ts = front ++ [e] ∧
      e.kind = .eof ∧ (∀ t ∈ front, t.kind ≠ .eof) ∧ Reads { r with rest := r.rest ++ ' ' :: cs }
        (front ++ us.map (Token.moved (r.offset + byteLength r.rest + 1) (e.span.line - 1)
          e.span.column)) := by
  induction h with
  | @last r l hl hk =>
    obtain ⟨-, hgap, -⟩ := gap_of_eof hl hk
    have hblank : (r.rest ++ [' ']).all isBlank = true := by
      rw [← hgap, List.all_append, gap, List.all_takeWhile]
      rfl
    have hspace : ({ rest := cs } : Reader).moved (r.offset + byteLength r.rest + 1)
        ((r.token l).span.line - 1) (r.token l).span.column =
          ⟨cs, r.offset + byteLength (r.rest ++ [' ']), r.line + (r.rest ++ [' ']).count '\n',
            columnAfter r.column (r.rest ++ [' ']), false⟩ := by
      simp only [Reader.moved, token, hgap, shifted, if_true, byteLength_append, List.count_append,
        columnAfter_append, Reader.mk.injEq]
      exact ⟨trivial, (Nat.zero_add _).trans (Nat.add_assoc ..), by simp; omega,
        Nat.add_comm 1 _, trivial⟩
    refine ⟨[], r.token l, rfl, hk, by simp, ?_⟩
    exact .of_blank hblank (by simp) (by simp) (hspace ▸ hus.moved (Nat.le_refl 1))
  | @cons r l ts hl hk _ ih =>
    obtain ⟨front, e, rfl, he, hfront, hreads⟩ := ih (Nat.le_add_right_of_le hline)
    have honset : onset l.rest = onset (l.rest ++ ' ' :: cs) := by
      have := onset_append (a := []) (b := ' ' :: cs) (onset_of_blank rfl cs).symm l.rest
      rwa [List.append_nil] at this
    have hrest := rest_of_lexeme hl
    obtain ⟨hgap, hlexeme⟩ := lexeme_congr (s := { r with rest := r.rest ++ ' ' :: cs }) hl hk
      (endsAlike_of_onset honset) (by simp only [hrest, List.append_assoc]) rfl
    have htoken : ∀ m : List Char,
        token { r with rest := r.rest ++ ' ' :: cs } { l with rest := m } = r.token l := fun m => by
      simp only [token, hgap]
    have hlength : (r.behind l).offset + byteLength (r.behind l).rest =
        r.offset + byteLength r.rest := by
      simp only [behind, token, Token.stop, hrest, byteLength_append, Nat.add_assoc]
    refine ⟨r.token l :: front, e, rfl, he, List.forall_mem_cons.mpr ⟨hk, hfront⟩, ?_⟩
    rw [hlength] at hreads
    rw [List.cons_append, ← htoken (l.rest ++ ' ' :: cs)]
    refine .cons hlexeme hk ?_
    rw [behind, htoken]
    exact hreads

end Reader

theorem tokenize_append_space {a b : String} {as bs : List Token} (ha : tokenize a = .ok as)
    (hb : tokenize b = .ok bs) : ∃ front e, as = front ++ [e] ∧ e.kind = .eof ∧
      (∀ t ∈ front, t.kind ≠ .eof) ∧ tokenize (a ++ " " ++ b) = .ok (front ++
        bs.map (moved (a.utf8ByteSize + 1) (e.span.line - 1) e.span.column)) := by
  obtain ⟨front, e, has, he, hfront, hreads⟩ :=
    (tokenize_eq_ok.mp ha).seam (tokenize_eq_ok.mp hb) (Nat.le_refl 1)
  refine ⟨front, e, has, he, hfront, tokenize_eq_ok.mpr ?_⟩
  simpa [byteLength_toList] using hreads

/-- A first text that ends where a value can start, and a second one that would be one value there:
behind the space it is the name, the colon and the name that it is by itself. -/
theorem tokenize_append_space_equals : ∃ as bs, tokenize "é\n--k=" = .ok as ∧
    as.map Token.text = ["é", "--", "k", "=", ""] ∧ tokenize "x:y\n->" = .ok bs ∧
      bs.map Token.text = ["x", ":", "y", "->", ""] ∧
        tokenize "é\n--k= x:y\n->" = .ok (as.dropLast ++ bs.map (moved 8 1 5)) := by
  obtain ⟨as, ha, has, hend⟩ : ∃ as, (tokenize "é\n--k=").toOption = some as ∧
      as.map Token.text = ["é", "--", "k", "=", ""] ∧
        as.getLast?.map Token.span = some ⟨7, 7, 2, 5⟩ := by
    decide +kernel
  obtain ⟨bs, hb, hbs⟩ : ∃ bs, (tokenize "x:y\n->").toOption = some bs ∧
      bs.map Token.text = ["x", ":", "y", "->", ""] := by
    decide +kernel
  have ha := toOption_eq_some.mp ha
  have hb := toOption_eq_some.mp hb
  refine ⟨as, bs, ha, has, hb, hbs, ?_⟩
  obtain ⟨front, e, rfl, -, -, hspaced⟩ := tokenize_append_space ha hb
  obtain ⟨k, span⟩ := e
  obtain rfl : span = ⟨7, 7, 2, 5⟩ := by simpa using hend
  rw [List.dropLast_concat]
  exact hspaced

end Pipework.Token
