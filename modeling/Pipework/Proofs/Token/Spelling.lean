import Pipework.Proofs.Token.Lexing
import Pipework.Text.Quoted

/-! Texts that are cut into one token whatever white space stands before them, as long as the text
after them lets them end: names, operators, quoted texts and values. -/

namespace Pipework.Token

open Text

/-! ## Tokens after white space -/

section

variable {expects : Bool} {gap cs rest : List Char}

theorem takeWhile_gap (hg : gap.all isBlank = true) (hc : ∀ c ∈ cs.head?, isBlank c = false) :
    (gap ++ cs).takeWhile isBlank = gap ∧ (gap ++ cs).dropWhile isBlank = cs := by
  induction gap with
  | nil =>
    cases cs with
    | nil => simp
    | cons c cs => simp [hc c rfl]
  | cons g gap ih =>
    simp only [List.all_cons, Bool.and_eq_true] at hg
    simp [hg.1, ih hg.2]

/-- A token is cut off after white space, which after `=` must be there. -/
theorem cut_of_scan {l : Lexeme} (h : scan cs = .ok l) (hg : gap.all isBlank = true)
    (hc : ∀ c ∈ cs.head?, isBlank c = false) (he : expects = true → gap ≠ []) :
    cut expects (gap ++ cs) = some (⟨l.kind, gap.isEmpty, gap.contains '\n'⟩, l.rest) := by
  obtain ⟨ht, hd⟩ := takeWhile_gap hg hc
  refine cut_eq_some.mpr (.inr ⟨?_, l, by rwa [hd], by rw [ht], rfl⟩)
  cases expects with
  | false => rfl
  | true =>
    cases gap with
    | nil => exact absurd rfl (he rfl)
    | cons g gap =>
      simp only [List.all_cons, Bool.and_eq_true] at hg
      simp [startsValue, endsValue, hg.1]

/-! ## Names -/

theorem cut_name {name : List Char} (hn : isNameWord name = true) (hr : StopsName name rest)
    (hg : gap.all isBlank = true) (he : expects = true → gap ≠ []) :
    cut expects (gap ++ (name ++ rest)) =
      some (⟨.ofName name, gap.isEmpty, gap.contains '\n'⟩, rest) := by
  refine cut_of_scan (scan_of_scans (.name hn hr)) hg ?_ he
  obtain ⟨c, cs, rfl, hc, -⟩ := isNameWord_iff.mp hn
  simpa using isBlank_of_startsName hc

/-! ## Operators -/

theorem cut_operator {c : Char} {k : Kind} (h : operator? c = some k) (hg : gap.all isBlank = true)
    (he : expects = true → gap ≠ []) :
    cut expects (gap ++ c :: rest) = some (⟨k, gap.isEmpty, gap.contains '\n'⟩, rest) :=
  cut_of_scan (scan_of_operator? h) hg (by simpa using isBlank_of_operator? h) he

theorem cut_pipe (cs : List Char) :
    cut false (" | ".toList ++ cs) = some (⟨.pipe, false, false⟩, ' ' :: cs) :=
  @cut_of_scan false [' '] ('|' :: ' ' :: cs) ⟨.pipe, ['|'], ' ' :: cs⟩ rfl rfl (by simp; decide)
    (by simp)

theorem cut_doublePipe (cs : List Char) :
    cut false (" || ".toList ++ cs) = some (⟨.doublePipe, false, false⟩, ' ' :: cs) :=
  @cut_of_scan false [' '] ('|' :: '|' :: ' ' :: cs) ⟨.doublePipe, ['|', '|'], ' ' :: cs⟩ rfl rfl
    (by simp; decide) (by simp)

theorem cut_andAnd (cs : List Char) :
    cut false (" && ".toList ++ cs) = some (⟨.andAnd, false, false⟩, ' ' :: cs) :=
  @cut_of_scan false [' '] ('&' :: '&' :: ' ' :: cs) ⟨.andAnd, ['&', '&'], ' ' :: cs⟩ rfl rfl
    (by simp; decide) (by simp)

theorem cut_arrow (cs : List Char) :
    cut false ('-' :: '>' :: cs) = some (⟨.arrow, true, false⟩, cs) :=
  @cut_of_scan false [] ('-' :: '>' :: cs) ⟨.arrow, ['-', '>'], cs⟩ rfl rfl (by simp; decide) (by simp)

/-! ## Quoted texts -/

theorem quote_eq (value : List Char) : quote value = quotedBy '\'' value := rfl

theorem scan_quote (value : List Char) (hr : rest.head? ≠ some '\'') :
    scan (quote value ++ rest) = .ok ⟨.literal (String.ofList value), quote value, rest⟩ :=
  scan_of_scans (.quoted rfl hr)

theorem cut_quote (value : List Char) (hr : rest.head? ≠ some '\'') (hg : gap.all isBlank = true)
    (he : expects = true → gap ≠ []) : cut expects (gap ++ (quote value ++ rest)) =
      some (⟨.literal (String.ofList value), gap.isEmpty, gap.contains '\n'⟩, rest) :=
  cut_of_scan (scan_quote value hr) hg (by simp [quote_eq, quotedBy]; decide) he

/-! ## Values -/

theorem spans_quote (value : List Char) (hr : StopsValue rest) :
    Value.Spans ⟨quote value, rest, [value], false⟩ := by
  have hhead : rest.head? ≠ some '\'' := hr.head?_ne (by decide)
  have hspans := @Value.Spans.quoted '\'' value ⟨[], rest, [], false⟩ rfl hhead (.stop hr)
  rwa [List.append_nil] at hspans

theorem spans_bare (hr : StopsValue rest) (hc : cs.any needsQuotes = false) :
    Value.Spans ⟨cs, rest, [], !cs.isEmpty⟩ := by
  induction cs with
  | nil => exact .stop hr
  | cons c cs ih =>
    simp only [List.any_cons, Bool.or_eq_false_iff] at hc
    have hplain : endsValue c = false ∧ isQuote c = false := by
      have := hc.1
      simp_all [needsQuotes, endsValue, isQuote]
    exact .bare hplain.1 hplain.2 (ih hc.2)

theorem scanValue_quoteValue (value : String) (hr : StopsValue rest) :
    ∃ k raw, scanValue ((quoteValue value).toList ++ rest) = .ok ⟨k, raw, rest⟩ ∧
      (k = .literal value ∨ k = .identifier value) := by
  unfold quoteValue
  simp only
  split
  · have hscan := scanValue_eq_ok.mpr ⟨_, rfl, spans_quote value.toList hr, rfl⟩
    rw [String.toList_ofList]
    exact ⟨_, _, hscan, .inl (congrArg Kind.literal String.ofList_toList)⟩
  · next h =>
    simp only [Bool.or_eq_true, not_or, Bool.not_eq_true] at h
    have hscan := scanValue_eq_ok.mpr ⟨_, rfl, spans_bare hr h.2, rfl⟩
    exact ⟨_, _, hscan, .inr (congrArg Kind.identifier String.ofList_toList)⟩

theorem startsValue_quoteValue (value : String) :
    startsValue true ((quoteValue value).toList ++ rest) = true := by
  unfold quoteValue
  simp only
  split
  · rw [String.toList_ofList, quote_eq]
    simp [quotedBy, startsValue, endsValue_of_isQuote (c := '\'') rfl]
  · next h =>
    simp only [Bool.or_eq_true, not_or, Bool.not_eq_true] at h
    cases hv : value.toList with
    | nil => simp [hv] at h
    | cons c cs =>
      simp [hv] at h
      have := h.1
      simp_all [startsValue, needsQuotes, endsValue]

/-- What stands for a value after `=` is cut as a token with that value. -/
theorem cut_quoteValue (value : String) (hr : StopsValue rest) :
    ∃ k, cut true ((quoteValue value).toList ++ rest) = some (⟨k, true, false⟩, rest) ∧
      (k = .literal value ∨ k = .identifier value) := by
  obtain ⟨k, raw, hs, hk⟩ := scanValue_quoteValue value hr
  exact ⟨k, cut_eq_some.mpr (.inl ⟨startsValue_quoteValue value, _, hs, rfl, rfl⟩), hk⟩

/-! ## One token -/

theorem Lexes.one {v : View} (h : cut expects cs = some (v, rest)) (hv : v.kind ≠ .eof)
    (hq : v.kind ≠ .equals) : Lexes expects cs [v] false rest :=
  .cons h hv (by rw [beq_eq_false_iff_ne.mpr hq]; exact .nil)

theorem stopsName_of_ne {name : List Char} {c : Char} (hs : startsName c = false) (hm : c ≠ '-')
    (hgt : c ≠ '>') : StopsName name (c :: cs) :=
  ⟨hs, fun h => absurd h hm, fun h => absurd h hgt⟩

theorem lexes_name {name : List Char} (hn : isNameWord name = true) (hr : StopsName name rest)
    (hg : gap.all isBlank = true) (he : expects = true → gap ≠ []) :
    Lexes expects (gap ++ (name ++ rest))
      [⟨.ofName name, gap.isEmpty, gap.contains '\n'⟩] false rest :=
  .one (cut_name hn hr hg he) (Kind.ne_eof_of_isName (Kind.isName_ofName _))
    (Kind.ne_of_isName (Kind.isName_ofName _) rfl)

theorem lexes_glued_name {name : List Char} (hn : isNameWord name = true)
    (hr : StopsName name rest) : Lexes false (name ++ rest) [⟨.ofName name, true, false⟩] false rest :=
  @lexes_name false [] rest name hn hr rfl (by simp)

theorem lexes_operator {c : Char} {k : Kind} (h : operator? c = some k) (hk : k ≠ .eof)
    (hq : k ≠ .equals) (hg : gap.all isBlank = true) (he : expects = true → gap ≠ []) :
    Lexes expects (gap ++ c :: rest) [⟨k, gap.isEmpty, gap.contains '\n'⟩] false rest :=
  .one (cut_operator h hg he) hk hq

theorem lexes_glued_operator (c : Char) {k : Kind} (h : operator? c = some k) (hk : k ≠ .eof)
    (hq : k ≠ .equals) : Lexes false (c :: rest) [⟨k, true, false⟩] false rest :=
  @lexes_operator false [] rest c k h hk hq rfl (by simp)

/-- A name and the `=` behind it, after which a value can start. -/
theorem lexes_name_equals {name : List Char} (hn : isNameWord name = true)
    (hg : gap.all isBlank = true) (he : expects = true → gap ≠ []) :
    Lexes expects (gap ++ (name ++ ' ' :: '=' :: rest))
      [⟨.ofName name, gap.isEmpty, gap.contains '\n'⟩, ⟨.equals, false, false⟩] true rest := by
  have hstop : StopsName name (' ' :: '=' :: rest) :=
    stopsName_of_ne (by decide) (by decide) (by decide)
  have hequals : Lexes false (' ' :: '=' :: rest) [⟨.equals, false, false⟩] true rest :=
    .cons (@cut_operator false [' '] rest '=' .equals rfl rfl (by simp)) (by simp) .nil
  exact (lexes_name hn hstop hg he).trans hequals

end

end Pipework.Token
