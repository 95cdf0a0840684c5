import Pipework.Proofs.Token.Tiling

/-! Lines are counted in the white space between tokens only, and columns within tokens as if there
were no newlines in them, while a fault is placed by all the newlines before it. So a token stands
where a fault at it is reported exactly if no token before it has a newline. -/

namespace Pipework.Token

open Text

/-- The newlines among the characters of a token. -/
def newlinesIn (text : String) (t : Token) : Nat :=
  ((slice? text.toList t.start t.stop).getD []).count '\n'

/-- What the line and the column of a reader say of the characters it has passed and of the tokens
that were cut from them. -/
structure Counts (text : String) (done : List Token) (passed : List Char) (line column : Nat) :
    Prop where
  lines : line + (done.map (newlinesIn text)).sum = passed.count '\n' + 1
  line_le : ∀ u ∈ done, u.span.line ≤ line
  column_le : columnAfter 1 passed ≤ column
  column_eq : column = columnAfter 1 passed ↔
    ∀ u ∈ done, u.span.line = line → newlinesIn text u = 0

namespace Counts

variable {text : String} {done : List Token} {passed : List Char} {line column : Nat}

theorem start : Counts text [] [] 1 1 := ⟨rfl, by simp, Nat.le_refl 1, by simp [columnAfter]⟩

/-- White space is counted as it is for a fault, and behind a newline the columns meet again. -/
theorem gap (h : Counts text done passed line column) (cs : List Char) :
    Counts text done (passed ++ cs) (line + cs.count '\n') (columnAfter column cs) := by
  have hlines := h.lines
  have hcolumns : columnAfter 1 (passed ++ cs) ≤ columnAfter column cs ∧
      (columnAfter column cs = columnAfter 1 (passed ++ cs) ↔
        ∀ u ∈ done, u.span.line = line + cs.count '\n' → newlinesIn text u = 0) := by
    rw [columnAfter_append]
    by_cases hn : '\n' ∈ cs
    · have hpos := List.count_pos_iff.mpr hn
      have hmeet : columnAfter column cs = columnAfter (columnAfter 1 passed) cs :=
        columnAfter_congr hn
      refine ⟨Nat.le_of_eq hmeet.symm, iff_of_true hmeet fun u hu hline => ?_⟩
      have := h.line_le u hu
      omega
    · rw [columnAfter_of_notMem hn, columnAfter_of_notMem hn, List.count_eq_zero.mpr hn,
        Nat.add_zero, Nat.add_left_inj]
      exact ⟨Nat.add_le_add_right h.column_le _, h.column_eq⟩
  exact ⟨by rw [List.count_append]; omega, fun u hu => Nat.le_add_right_of_le (h.line_le u hu),
    hcolumns.1, hcolumns.2⟩

/-- A token leaves the line as it is, and moves the column by its length whatever stands in it. -/
theorem token (h : Counts text done passed line column) {t : Token} {raw : List Char}
    (hline : t.span.line = line) (hraw : newlinesIn text t = raw.count '\n') :
    Counts text (done ++ [t]) (passed ++ raw) line (column + raw.length) := by
  have hlines := h.lines
  have hall : (∀ u ∈ done ++ [t], u.span.line = line → newlinesIn text u = 0) ↔
      column = columnAfter 1 passed ∧ '\n' ∉ raw := by
    rw [h.column_eq, List.forall_mem_append, List.forall_mem_singleton, hraw, List.count_eq_zero]
    exact and_congr_right fun _ => forall_prop_of_true hline
  have hcolumns : columnAfter 1 (passed ++ raw) ≤ column + raw.length ∧
      (column + raw.length = columnAfter 1 (passed ++ raw) ↔
        column = columnAfter 1 passed ∧ '\n' ∉ raw) := by
    have hle := h.column_le
    rw [columnAfter_append]
    by_cases hn : '\n' ∈ raw
    · have hbehind : columnAfter (columnAfter 1 passed) raw ≤ raw.length := columnAfter_le_length hn
      have hone : 1 ≤ columnAfter 1 passed := one_le_columnAfter (Nat.le_refl 1)
      exact ⟨by omega, iff_of_false (by omega) fun hboth => hboth.2 hn⟩
    · rw [columnAfter_of_notMem hn]
      exact ⟨by omega, by simp [hn]⟩
  refine ⟨?_, List.forall_mem_append.mpr ⟨h.line_le, by simp [hline]⟩, hcolumns.1,
    hcolumns.2.trans hall.symm⟩
  simp only [List.map_append, List.sum_append, List.map_cons, List.map_nil, List.sum_singleton,
    List.count_append, hraw]
  omega

end Counts

/-- The counts hold before each token that is read. -/
theorem Reader.Reads.counts {text : String} {r : Reader} {ts before after done : List Token}
    {passed : List Char} {t : Token} (h : r.Reads ts) (hc : Counts text done passed r.line r.column)
    (htext : text.toList = passed ++ r.rest) (hoffset : r.offset = byteLength passed)
    (hts : ts = before ++ t :: after) : ∃ front back, text.toList = front ++ back ∧
      byteLength front = t.start ∧ Counts text (done ++ before) front t.span.line t.span.column := by
  induction h generalizing done passed before with
  | @last r l hl _ =>
    obtain ⟨rfl, rfl, rfl⟩ : before = [] ∧ t = r.token l ∧ after = [] := by
      cases before <;> simp_all
    refine ⟨passed ++ r.gap, l.raw ++ l.rest, ?_, ?_, ?_⟩
    · rw [htext, rest_of_lexeme hl, List.append_assoc]
    · rw [byteLength_append, ← hoffset]; rfl
    · rw [List.append_nil]
      exact hc.gap r.gap
  | @cons r l us hl _ hus ih =>
    have hgap := hc.gap r.gap
    have hfront : text.toList = passed ++ r.gap ++ (l.raw ++ l.rest) := by
      rw [htext, rest_of_lexeme hl, List.append_assoc]
    have hstart : byteLength (passed ++ r.gap) = (r.token l).start := by
      rw [byteLength_append, ← hoffset]; rfl
    cases before with
    | nil =>
      obtain ⟨rfl, rfl⟩ := List.cons.inj hts
      refine ⟨passed ++ r.gap, l.raw ++ l.rest, hfront, hstart, ?_⟩
      rw [List.append_nil]
      exact hgap
    | cons u before =>
      obtain ⟨rfl, rfl⟩ := List.cons.inj hts
      have hraw : newlinesIn text (r.token l) = l.raw.count '\n' := by
        have := slice?_append (passed ++ r.gap) l.raw l.rest
        rw [← hfront, hstart] at this
        rw [newlinesIn, show (r.token l).stop = (r.token l).start + byteLength l.raw from rfl, this,
          Option.getD_some]
      have htoken : Counts text (done ++ [r.token l]) (passed ++ r.gap ++ l.raw) _ _ :=
        hgap.token rfl hraw
      have := ih htoken (by rw [hfront, List.append_assoc _ l.raw]; rfl)
        (by rw [byteLength_append, hstart]; rfl) rfl
      rwa [List.append_assoc, List.singleton_append] at this

/-- A token's line lacks the newlines in the tokens before it, and its column is too far to the right
if there are any in the tokens that stand on the same line. -/
theorem position_of_tokenize {text : String} {ts before after : List Token} {t : Token} {f : Fault}
    (h : tokenize text = .ok ts) (hts : ts = before ++ t :: after) (htext : f.expression = text)
    (hoffset : f.offset = t.start) :
    f.line = t.span.line + (before.map (newlinesIn text)).sum ∧
      f.column ≤ t.span.column ∧
      (f.column = t.span.column ↔
        ∀ u ∈ before, u.span.line = t.span.line → newlinesIn text u = 0) ∧
      (f.line = t.span.line ∧ f.column = t.span.column ↔ ∀ u ∈ before, newlinesIn text u = 0) := by
  obtain ⟨front, back, hfront, hstart, hcounts⟩ :=
    (tokenize_eq_ok.mp h).counts Counts.start rfl rfl hts
  rw [List.nil_append] at hcounts
  have hsplit : f.split = (front, back) := by
    rw [Fault.split, htext, hoffset, ← hstart, hfront, splitAtByte?_byteLength, Option.getD_some]
  have hline : f.line = t.span.line + (before.map (newlinesIn text)).sum := by
    rw [Fault.line, hsplit, hcounts.lines]
  have hcolumn : f.column = columnAfter 1 front := by
    rw [Fault.column, hsplit, columnAfter_one]
  have heq : f.column = t.span.column ↔
      ∀ u ∈ before, u.span.line = t.span.line → newlinesIn text u = 0 := by
    rw [hcolumn, eq_comm, hcounts.column_eq]
  refine ⟨hline, hcolumn ▸ hcounts.column_le, heq, ?_⟩
  rw [heq, hline, Nat.add_eq_left, List.sum_eq_zero_iff_forall_eq_nat, List.forall_mem_map]
  exact ⟨And.left, fun hall => ⟨hall, fun u hu _ => hall u hu⟩⟩

/-- A newline before an option and one in its value: the name behind them is on the third line, but
its token stands on the second. -/
theorem position_of_tokenize_value : ∃ ts t, tokenize "é\n--x='a\nb' c" = .ok ts ∧
    ts = ts.take 5 ++ t :: ts.drop 6 ∧ t.text = "c" ∧ t.span.line = 2 ∧
      ∀ f : Fault, f.expression = "é\n--x='a\nb' c" → f.offset = t.start →
        f.line = 3 ∧ f.column ≠ t.span.column := by
  obtain ⟨ts, hts, t, -, hsplit, htext, hline, hsum, hin⟩ : ∃ ts,
      (tokenize "é\n--x='a\nb' c").toOption = some ts ∧ ∃ t, ts[5]? = some t ∧
        ts = ts.take 5 ++ t :: ts.drop 6 ∧ t.text = "c" ∧ t.span.line = 2 ∧
        ((ts.take 5).map (newlinesIn "é\n--x='a\nb' c")).sum = 1 ∧
        ¬ ∀ u ∈ ts.take 5, u.span.line = t.span.line → newlinesIn "é\n--x='a\nb' c" u = 0 := by
    decide +kernel
  have hts := toOption_eq_some.mp hts
  refine ⟨ts, t, hts, hsplit, htext, hline, fun f hexpression hoffset => ?_⟩
  obtain ⟨hfault, -, hcolumn, -⟩ := position_of_tokenize hts hsplit hexpression hoffset
  exact ⟨by rw [hfault, hline, hsum], mt hcolumn.mp hin⟩

/-- Quoted text with a newline in it, and a name behind it. -/
theorem not_located_behind_newline : ∃ ts, tokenize "'a\nb' c" = .ok ts ∧ ∃ t ∈ ts, t.text = "c" ∧
    t.span.line = 1 ∧ t.span.column = 7 ∧ ∀ f : Fault, f.expression = "'a\nb' c" →
      f.offset = t.start → f.line = 2 ∧ f.column = 4 := by
  obtain ⟨ts, hts, t, ht, htext, hline, hcolumn, hsplit⟩ : ∃ ts,
      (tokenize "'a\nb' c").toOption = some ts ∧ ∃ t ∈ ts, t.text = "c" ∧ t.span.line = 1 ∧
        t.span.column = 7 ∧
        splitAtByte? t.start "'a\nb' c".toList = some ("'a\nb' ".toList, ['c']) := by
    decide +kernel
  refine ⟨ts, toOption_eq_some.mp hts, t, ht, htext, hline, hcolumn, fun f htext hoffset => ?_⟩
  have hbefore : f.split.1 = "'a\nb' ".toList := by
    rw [Fault.split, htext, hoffset, hsplit, Option.getD_some]
  rw [Fault.line, Fault.column, hbefore]
  decide +kernel

end Pipework.Token
