import Pipework.Proofs.Token.Spelling

/-! The tokens of a text tile it: each stands on characters that say what it is, and between them is
nothing but white space. -/

namespace Pipework.Token

open Text

/-! ## Quoted text -/

variable {q : Char}

/-- There is one place only where a quoted text can end. -/
theorem doubledBy_append {a b rest : List Char} (hr : rest.head? ≠ some q)
    (h : doubledBy q a ++ q :: rest = doubledBy q b ++ [q]) : a = b ∧ rest = [] := by
  induction a generalizing b with
  | nil =>
    cases b with
    | nil => exact ⟨rfl, by simpa [doubledBy] using h⟩
    | cons d b =>
      by_cases hd : d = q
      · subst hd
        rw [doubledBy_quote] at h
        obtain rfl : rest = _ := (List.cons.inj h).2
        exact absurd rfl hr
      · rw [doubledBy_cons hd] at h
        exact absurd (List.cons.inj h).1.symm hd
  | cons c a ih =>
    cases b with
    | nil =>
      by_cases hc : c = q
      · subst hc
        rw [doubledBy_quote] at h
        cases (List.cons.inj h).2
      · rw [doubledBy_cons hc] at h
        exact absurd (List.cons.inj h).1 hc
    | cons d b =>
      by_cases hc : c = q <;> by_cases hd : d = q
      · subst hc hd
        rw [doubledBy_quote, doubledBy_quote] at h
        obtain ⟨rfl, hrest⟩ := ih (List.cons.inj (List.cons.inj h).2).2
        exact ⟨rfl, hrest⟩
      · rw [hc, doubledBy_quote, doubledBy_cons hd] at h
        exact absurd (List.cons.inj h).1.symm hd
      · rw [hd, doubledBy_quote, doubledBy_cons hc] at h
        exact absurd (List.cons.inj h).1 hc
      · rw [doubledBy_cons hc, doubledBy_cons hd] at h
        obtain ⟨rfl, hrest⟩ := ih (List.cons.inj h).2
        exact ⟨by rw [(List.cons.inj h).1], hrest⟩

theorem quotedBy_inj {r : Char} {a b : List Char} (h : quotedBy q a = quotedBy r b) :
    q = r ∧ a = b := by
  obtain ⟨rfl, h⟩ := List.cons.inj h
  exact ⟨rfl, (doubledBy_append (by simp) h).1⟩

/-! ## The characters of a token -/

/-- A token of this kind can stand on these characters: a literal on its text in quotes, any other
token on its symbol or text, which then is no text in quotes. -/
inductive Kind.StandsOn : Kind → List Char → Prop
  | literal {q : Char} {value : List Char} : isQuote q = true →
      StandsOn (.literal (String.ofList value)) (quotedBy q value)
  | plain {k : Kind} : (∀ text, k ≠ .literal text) →
      (∀ q value, isQuote q = true → k.symbol.toList ≠ quotedBy q value) → StandsOn k k.symbol.toList

/-- The characters determine what the token says. -/
theorem Kind.StandsOn.symbol_eq {k k' : Kind} {cs : List Char} (h : k.StandsOn cs)
    (h' : k'.StandsOn cs) : k.symbol = k'.symbol := by
  generalize hcs : cs = ds at h'
  cases h with
  | literal hq =>
    cases h' with
    | literal hq' => rw [(quotedBy_inj hcs).2]
    | plain _ hne => exact absurd hcs.symm (hne _ _ hq)
  | plain _ hne =>
    cases h' with
    | literal hq => exact absurd hcs (hne _ _ hq)
    | plain => exact String.toList_injective hcs

/-- Only a literal stands on more than its text. -/
theorem Kind.StandsOn.eq_symbol {k : Kind} {cs : List Char} (h : k.StandsOn cs)
    (hk : ∀ text, k ≠ .literal text) : cs = k.symbol.toList := by
  cases h with
  | literal => exact absurd rfl (hk _)
  | plain => rfl

theorem Kind.StandsOn.eq_name {k : Kind} {cs : List Char} (h : k.StandsOn cs)
    (hk : k.isName = true) : cs = k.symbol.toList :=
  h.eq_symbol fun _ => Kind.ne_of_isName hk rfl

theorem isQuote_of_eq_quotedBy {c : Char} {cs value : List Char} (hq : isQuote q = true)
    (h : c :: cs = quotedBy q value) : isQuote c = true := by
  rw [(List.cons.inj h).1, hq]

theorem Kind.standsOn_ofList {k : Kind} {c : Char} {cs : List Char} (hk : k.symbol.toList = c :: cs)
    (hl : ∀ text, k ≠ .literal text) (hc : isQuote c = false) : k.StandsOn (c :: cs) := by
  rw [← hk]
  refine .plain hl fun q value hq h => ?_
  rw [isQuote_of_eq_quotedBy hq (hk.symm.trans h)] at hc
  cases hc

theorem standsOn_eof : Kind.eof.StandsOn [] := by
  rw [show [] = Kind.eof.symbol.toList from rfl]
  exact .plain (by simp) (by simp [Kind.symbol, quotedBy])

theorem Kind.ofName_ne_literal (cs : List Char) (text : String) : Kind.ofName cs ≠ .literal text := by
  unfold Kind.ofName
  split <;> simp

theorem Kind.standsOn_symbol {k : Kind} (h : k.hasText = false) : k.StandsOn k.symbol.toList := by
  refine .plain (by rintro text rfl; cases h) fun q value hq heq => ?_
  have hhead : ∀ c ∈ k.symbol.toList.head?, isQuote c = false := by
    cases k <;> simp_all [symbol] <;> decide
  rw [hhead q (by rw [heq]; rfl)] at hq
  cases hq

/-- A token that is cut at the start of a text stands on what it takes. -/
theorem standsOn_of_scan {cs : List Char} {l : Lexeme} (h : scan cs = .ok l) :
    l.kind.StandsOn l.raw := by
  obtain ⟨-, hscans⟩ := scan_eq_ok.mp h
  cases hscans with
  | eof => exact Kind.standsOn_symbol rfl
  | operator hk => exact Kind.standsOn_symbol hk
  | quoted hq => exact .literal hq
  | @name name _ hn =>
    obtain ⟨c, cs, rfl, hc, -⟩ := isNameWord_iff.mp hn
    exact Kind.standsOn_ofList (by simp) (Kind.ofName_ne_literal _) (isQuote_of_startsName hc)

/-- A value has parts exactly if it has characters. -/
theorem Value.Spans.no_parts_iff {v : Value} (h : v.Spans) :
    (v.quoted = [] ∧ v.hasBare = false) ↔ v.raw = [] := by
  cases h <;> simp [quotedBy]

theorem Value.kind_identifier {v : Value} (h : ∀ value, v.quoted = [value] → v.hasBare = true) :
    v.kind = .identifier (String.ofList v.raw) := by
  unfold Value.kind
  split
  · next hq hb =>
    rw [h _ hq] at hb
    cases hb
  · rfl

/-- A text in quotes and what touches it are together no text in quotes. -/
theorem standsOn_of_parts {value raw : List Char} (hhead : raw.head? ≠ some q) (hne : raw ≠ []) :
    (Kind.identifier (String.ofList (quotedBy q value ++ raw))).StandsOn (quotedBy q value ++ raw) := by
  have hplain : ∀ r other, isQuote r = true → quotedBy q value ++ raw ≠ quotedBy r other := by
    intro r other _ h
    obtain ⟨rfl, h⟩ := List.cons.inj h
    rw [List.append_eq, List.append_assoc] at h
    exact hne (doubledBy_append hhead h).2
  have hstands := @Kind.StandsOn.plain (.identifier (String.ofList (quotedBy q value ++ raw))) (by simp)
  rw [Kind.symbol, String.toList_ofList] at hstands
  exact hstands hplain

/-- A value is a literal exactly if it is written as one text in quotes. -/
theorem Value.Spans.standsOn {v : Value} (h : v.Spans) (hr : v.raw ≠ []) : v.kind.StandsOn v.raw := by
  cases h with
  | stop => exact absurd rfl hr
  | @quoted q value v hq hhead hv =>
    by_cases hraw : v.raw = []
    · obtain ⟨hparts, hbare⟩ := hv.no_parts_iff.mpr hraw
      simpa [Value.kind, hparts, hbare, hraw] using @Kind.StandsOn.literal q value hq
    · have hbare : ∀ other, value :: v.quoted = [other] → v.hasBare = true := fun other hv' =>
        Bool.eq_true_of_not_eq_false fun hb => hraw (hv.no_parts_iff.mp ⟨(List.cons.inj hv').2, hb⟩)
      rw [@Value.kind_identifier ⟨quotedBy q value ++ v.raw, _, value :: v.quoted, _⟩ hbare]
      refine standsOn_of_parts ?_ hraw
      rwa [List.head?_append_of_ne_nil _ hraw] at hhead
  | bare _ hc =>
    rw [Value.kind_identifier fun _ _ => rfl]
    exact Kind.standsOn_ofList String.toList_ofList (by simp) hc

theorem standsOn_of_scanValue {cs : List Char} {l : Lexeme} (h : scanValue cs = .ok l)
    (hc : (cs.head?.any fun c => !endsValue c) = true) : l.kind.StandsOn l.raw := by
  have hne := (scanValue_append h).2 hc
  obtain ⟨v, -, hspans, rfl⟩ := scanValue_eq_ok.mp h
  exact hspans.standsOn hne

/-! ## Tokens in a row -/

/-- The tokens stand on the characters from an offset on, with white space before each. -/
inductive Tiles : Nat → List Char → List Token → Prop
  | last {gap : List Char} {t : Token} {offset : Nat} : gap.all isBlank = true → t.kind = .eof →
      t.start = offset + byteLength gap → t.stop = t.start → Tiles offset gap [t]
  | cons {gap raw rest : List Char} {t : Token} {ts : List Token} {offset : Nat} :
      gap.all isBlank = true → t.kind ≠ .eof → t.kind.StandsOn raw → raw ≠ [] →
      t.start = offset + byteLength gap → t.stop = t.start + byteLength raw →
      Tiles t.stop rest ts → Tiles offset (gap ++ (raw ++ rest)) (t :: ts)

theorem standsOn_of_lexeme {r : Reader} {l : Lexeme} (h : r.lexeme = .ok l) :
    l.kind.StandsOn l.raw := by
  unfold Reader.lexeme at h
  split at h
  · next hv => exact standsOn_of_scanValue h (Bool.and_eq_true_iff.mp hv).2
  · exact standsOn_of_scan h

theorem tiles_of_reads {r : Reader} {ts : List Token} (h : r.Reads ts) :
    Tiles r.offset r.rest ts := by
  induction h with
  | last hl hk =>
    obtain ⟨-, hgap, hraw⟩ := Reader.gap_of_eof hl hk
    rw [← hgap]
    exact .last List.all_takeWhile hk rfl (by simp [Reader.token, Token.start, Token.stop, hraw])
  | cons hl hk _ ih =>
    rw [Reader.rest_of_lexeme hl]
    exact .cons List.all_takeWhile hk (standsOn_of_lexeme hl) (Reader.raw_ne_nil hl hk) rfl rfl ih

theorem tiles_of_tokenize {text : String} {ts : List Token} (h : tokenize text = .ok ts) :
    Tiles 0 text.toList ts :=
  tiles_of_reads (tokenize_eq_ok.mp h)

/-! ## The whole text -/

/-- The characters between two byte offsets; there are none if one lies inside a character. -/
def slice? (cs : List Char) (start stop : Nat) : Option (List Char) := do
  let (_, rest) ← splitAtByte? start cs
  let (part, _) ← splitAtByte? (stop - start) rest
  return part

theorem slice?_append (before part after : List Char) :
    slice? (before ++ (part ++ after)) (byteLength before) (byteLength before + byteLength part) =
      some part := by
  unfold slice?
  simp only [splitAtByte?_byteLength, Option.bind_eq_bind, Option.bind_some, Nat.add_sub_cancel_left]
  rfl

theorem slice?_eq_some {cs part : List Char} {start stop : Nat}
    (h : slice? cs start stop = some part) :
    ∃ before after, cs = before ++ (part ++ after) ∧ byteLength before = start ∧
      byteLength part = stop - start := by
  unfold slice? at h
  obtain ⟨⟨before, rest⟩, hbefore, h⟩ := Option.bind_eq_some_iff.mp h
  obtain ⟨⟨_, after⟩, hpart, h⟩ := Option.bind_eq_some_iff.mp h
  obtain rfl := Option.some.inj h
  obtain ⟨rfl, hstart⟩ := splitAtByte?_eq_some hbefore
  obtain ⟨rfl, hstop⟩ := splitAtByte?_eq_some hpart
  exact ⟨before, after, rfl, hstart, hstop⟩

/-- Where the white space before each token starts and ends. -/
def gaps : Nat → List Token → List (Nat × Nat)
  | _, [] => []
  | offset, t :: ts => (offset, t.start) :: gaps t.stop ts

/-- The tokens and the white space between them are all that there is of the text. -/
structure IsLossless (text : String) (ts : List Token) : Prop where
  /-- The last token, and no other, is `eof`, at the end of the text. -/
  ends : ∃ us e, ts = us ++ [e] ∧ (∀ t ∈ us, t.kind ≠ .eof) ∧ e.kind = .eof ∧
    e.start = text.utf8ByteSize ∧ e.stop = text.utf8ByteSize
  nonempty : ∀ t ∈ ts, t.kind ≠ .eof → t.start < t.stop
  ordered : ts.Pairwise fun t u => t.stop ≤ u.start
  /-- The characters of a token say what it is. -/
  standing : ∀ t ∈ ts, ∃ raw, slice? text.toList t.start t.stop = some raw ∧ t.kind.StandsOn raw ∧
    ∀ k : Kind, k.StandsOn raw → k.symbol = t.text
  blank : ∀ g ∈ gaps 0 ts, ∃ gap, slice? text.toList g.1 g.2 = some gap ∧ gap.all isBlank = true

namespace Tiles

variable {offset : Nat} {before cs : List Char} {ts : List Token}

theorem ends (h : Tiles offset cs ts) : ∃ (us : List Token) (e : Token), ts = us ++ [e] ∧
    (∀ t ∈ us, t.kind ≠ .eof) ∧ e.kind = .eof ∧ e.start = offset + byteLength cs ∧
      e.stop = offset + byteLength cs := by
  induction h with
  | last _ hk hstart hstop => exact ⟨[], _, rfl, by simp, hk, hstart, by rw [hstop, hstart]⟩
  | cons _ hk _ _ hstart hstop _ ih =>
    obtain ⟨us, e, rfl, hus, he, hstart', hstop'⟩ := ih
    refine ⟨_ :: us, e, rfl, List.forall_mem_cons.mpr ⟨hk, hus⟩, he, ?_, ?_⟩ <;>
      simp only [byteLength_append] <;> omega

theorem offset_le (h : Tiles offset cs ts) : ∀ t ∈ ts, offset ≤ t.start ∧ t.start ≤ t.stop := by
  induction h with
  | last _ _ hstart hstop =>
    simp only [List.mem_singleton, forall_eq]
    omega
  | cons _ _ _ _ hstart hstop _ ih =>
    refine List.forall_mem_cons.mpr ⟨by omega, fun u hu => ?_⟩
    have := ih u hu
    omega

theorem ordered (h : Tiles offset cs ts) : ts.Pairwise fun t u => t.stop ≤ u.start := by
  induction h with
  | last => exact List.pairwise_singleton _ _
  | cons _ _ _ _ _ _ htiles ih => exact List.pairwise_cons.mpr ⟨fun u hu => (htiles.offset_le u hu).1, ih⟩

theorem nonempty (h : Tiles offset cs ts) : ∀ t ∈ ts, t.kind ≠ .eof → t.start < t.stop := by
  induction h with
  | last _ hk =>
    simp only [List.mem_singleton, forall_eq]
    exact fun hne => absurd hk hne
  | @cons _ raw _ t _ _ _ _ _ hraw _ hstop _ ih =>
    refine List.forall_mem_cons.mpr ⟨fun _ => ?_, ih⟩
    have := Nat.pos_of_ne_zero (mt byteLength_eq_zero.mp hraw)
    omega

theorem standing (h : Tiles offset cs ts) (hb : byteLength before = offset) :
    ∀ t ∈ ts, ∃ raw, slice? (before ++ cs) t.start t.stop = some raw ∧ t.kind.StandsOn raw := by
  induction h generalizing before with
  | @last gap t _ _ hk hstart hstop =>
    simp only [List.mem_singleton, forall_eq]
    have := slice?_append (before ++ gap) [] []
    simp only [List.append_nil, byteLength_append, hb, byteLength_nil, Nat.add_zero] at this
    exact ⟨[], by rw [hstop, hstart, this], hk ▸ standsOn_eof⟩
  | @cons gap raw rest t ts _ _ _ hstands _ hstart hstop _ ih =>
    have hstop' : byteLength (before ++ (gap ++ raw)) = t.stop := by
      simp only [byteLength_append]
      omega
    have ih := ih hstop'
    refine List.forall_mem_cons.mpr ⟨⟨raw, ?_, hstands⟩, by simpa using ih⟩
    have := slice?_append (before ++ gap) raw rest
    rw [byteLength_append, hb, ← hstart, ← hstop] at this
    rw [← List.append_assoc, this]

theorem blank (h : Tiles offset cs ts) (hb : byteLength before = offset) :
    ∀ g ∈ gaps offset ts, ∃ gap, slice? (before ++ cs) g.1 g.2 = some gap ∧ gap.all isBlank = true := by
  induction h generalizing before with
  | @last gap t _ hgap _ hstart =>
    simp only [gaps, List.mem_singleton, forall_eq]
    have := slice?_append before gap []
    rw [List.append_nil, hb, ← hstart] at this
    exact ⟨gap, this, hgap⟩
  | @cons gap raw rest t ts _ hgap _ _ _ hstart hstop _ ih =>
    have hstop' : byteLength (before ++ (gap ++ raw)) = t.stop := by
      simp only [byteLength_append]
      omega
    have ih := ih hstop'
    refine List.forall_mem_cons.mpr ⟨⟨gap, ?_, hgap⟩, by simpa using ih⟩
    have := slice?_append before gap (raw ++ rest)
    rwa [hb, ← hstart] at this

end Tiles

theorem tokenize_lossless {text : String} {ts : List Token} (h : tokenize text = .ok ts) :
    IsLossless text ts := by
  have htiles := tiles_of_tokenize h
  refine ⟨?_, htiles.nonempty, htiles.ordered, fun t ht => ?_, @Tiles.blank 0 [] _ _ htiles rfl⟩
  · rw [← byteLength_toList]
    simpa using htiles.ends
  · obtain ⟨raw, hslice, hstands⟩ := @Tiles.standing 0 [] _ _ htiles rfl t ht
    exact ⟨raw, hslice, hstands, fun k hk => hk.symbol_eq hstands⟩

/-- A value that begins in quotes and goes on without, and a status with a doubled quote. -/
theorem lossless_quoted : ∃ ts, tokenize "é --x='a'\"b\" \n 'c''d'->" = .ok ts ∧
    ts.map Token.kind = [.identifier "é", .doubleMinus, .identifier "x", .equals,
      .identifier "'a'\"b\"", .literal "c'd", .arrow, .eof] ∧
      IsLossless "é --x='a'\"b\" \n 'c''d'->" ts := by
  obtain ⟨ts, hts, hk⟩ : ∃ ts, (tokenize "é --x='a'\"b\" \n 'c''d'->").toOption = some ts ∧
      ts.map Token.kind = [.identifier "é", .doubleMinus, .identifier "x", .equals,
        .identifier "'a'\"b\"", .literal "c'd", .arrow, .eof] := by decide +kernel
  exact ⟨ts, toOption_eq_some.mp hts, hk, tokenize_lossless (toOption_eq_some.mp hts)⟩

end Pipework.Token
