import Pipework.Proofs.Argument.Grammar
import Pipework.Proofs.Token.Boundary
import Pipework.Proofs.Token.Breaking

/-! Hyphens that are no token. Two of them are one, and so is an arrow, but a single hyphen is read in
a name only. So what is typed of the name of an option is cut into tokens up to such a hyphen, if
there is one, and then the text cannot be read. -/

namespace Pipework.Token

open Text

/-- A hyphen at the start of a text that is not part of a token. -/
def StartsHyphen (cs : List Char) : Prop :=
  ∃ rest, cs = '-' :: rest ∧ rest.head? ≠ some '-' ∧ rest.head? ≠ some '>'

theorem scan_hyphen {cs : List Char} (h : StartsHyphen cs) :
    ∃ m, scan cs = .error m ∧ m.message = .missingCharacter := by
  obtain ⟨rest, rfl, hhyphen, hgt⟩ := h
  refine ⟨{ distance := 1, message := .missingCharacter, inserts := ["-"] }, ?_, rfl⟩
  match rest with
  | [] => rfl
  | c :: cs =>
    have hc : c ≠ '-' := fun h => hhyphen (by rw [h]; rfl)
    have hc' : c ≠ '>' := fun h => hgt (by rw [h]; rfl)
    simp [scan, hc, hc']

/-! ## Texts that cannot be read -/

theorem tokenize_error_of_lexes {text : String} {us : List View} {e : Bool} {rest : List Char}
    {m : Misread} (h : Lexes false text.toList us e rest) (hv : startsValue e rest = false)
    (hs : scan (rest.dropWhile isBlank) = .error m) :
    ∃ f, tokenize text = .error f ∧ f.message = m.message := by
  have hstarts : Reader.startsValue { rest, expectsValue := e } = false := hv
  have hlexeme : Reader.lexeme { rest, expectsValue := e } = .error m := by
    rw [Reader.lexeme, hstarts]
    exact hs
  exact exists_fault_iff.mpr ⟨us, e, rest, h, m, hlexeme, rfl⟩

/-! ## Names of options -/

/-- The characters of the names of options, as far as these are plain. -/
def isPlainOptionChar (c : Char) : Bool :=
  isAsciiDigit c || isAsciiLetter c || c == '_' || c == '.' || c == '-'

theorem isLetterOrNumber_of_ascii {c : Char} (h : isAsciiDigit c = true ∨ isAsciiLetter c = true) :
    c.toNat < 128 ∧ isLetterOrNumber c = true := by
  have hn : c.toNat < 128 := by
    simp only [isAsciiDigit, isAsciiLetter, Bool.or_eq_true, Bool.and_eq_true, decide_eq_true_eq,
      Char.le_def, UInt32.le_iff_toNat_le] at h
    have h9 : ('9' : Char).val.toNat < 128 := by decide
    have hz : ('z' : Char).val.toNat < 128 := by decide
    have hZ : ('Z' : Char).val.toNat < 128 := by decide
    change c.val.toNat < 128
    omega
  refine ⟨hn, ?_⟩
  rw [isLetterOrNumber, if_pos hn, Bool.or_eq_true]
  exact h

theorem startsName_of_isPlainOptionChar {c : Char} (h : isPlainOptionChar c = true) :
    startsName c = true ∨ c = '.' ∨ c = '-' := by
  simp only [isPlainOptionChar, Bool.or_eq_true, beq_iff_eq] at h
  rcases h with ((h | rfl) | h) | h
  · have hletter := isAlphanumeric_of_isLetterOrNumber (isLetterOrNumber_of_ascii h).2
    exact .inl (by simp [startsName, hletter])
  · exact .inl (by decide)
  · exact .inr (.inl h)
  · exact .inr (.inr h)

/-- A view of a part of an argument before its `=`, without white space before it. -/
structure IsPartOfName (v : View) : Prop where
  glued : v.glued = true
  inArgument : Argument.isInArgument v.kind = true
  ne_equals : v.kind ≠ .equals

/-- A plain text starts with a hyphen that is no token, or with a part of a name. -/
theorem startsHyphen_or_part {c : Char} {cs : List Char}
    (h : (c :: cs).all isPlainOptionChar = true) : StartsHyphen (c :: cs) ∨
      ∃ v rest, Lexes false (c :: cs) [v] false rest ∧ IsPartOfName v ∧ rest <:+ cs := by
  rw [List.all_cons, Bool.and_eq_true] at h
  rcases startsName_of_isPlainOptionChar h.1 with hc | rfl | rfl
  · right
    have hcut := @cut_of_scan false [] (c :: cs) _ (scan_of_startsName hc) rfl
      (by simpa using isBlank_of_startsName hc) (by simp)
    have hname := Kind.isName_ofName (spanName (c :: cs)).1
    refine ⟨_, _, .one hcut (Kind.ne_eof_of_isName hname) (Kind.ne_of_isName hname rfl),
      ⟨rfl, Argument.isInArgument_of_isName hname, Kind.ne_of_isName hname rfl⟩, ?_⟩
    have happend := spanName_append (c :: cs)
    rw [spanName, hc, Bool.true_or, if_pos rfl] at happend ⊢
    exact ⟨_, (List.cons.inj happend).2⟩
  · exact .inr ⟨_, cs, lexes_glued_operator '.' rfl (by simp) (by simp), ⟨rfl, rfl, by simp⟩,
      List.suffix_refl cs⟩
  · cases cs with
    | nil => exact .inl ⟨[], rfl, by simp, by simp⟩
    | cons d cs =>
      by_cases hd : d = '-'
      · subst hd
        have hcut := @cut_of_scan false [] ('-' :: '-' :: cs) ⟨.doubleMinus, ['-', '-'], cs⟩ rfl rfl
          (by simp; decide) (by simp)
        exact .inr ⟨_, cs, .one hcut (by simp) (by simp), ⟨rfl, rfl, by simp⟩, List.suffix_cons _ _⟩
      · refine .inl ⟨d :: cs, rfl, by simpa using hd, ?_⟩
        intro hgt
        obtain rfl : d = '>' := by simpa using hgt
        have hplain : isPlainOptionChar '>' = true := (List.all_eq_true.mp h.2) '>' List.mem_cons_self
        exact absurd hplain (by decide)

/-- A plain text is cut into parts of a name up to its end or up to a hyphen that is no token. -/
theorem exists_lexes_of_plain {cs : List Char} (h : cs.all isPlainOptionChar = true) :
    ∃ us rest, Lexes false cs us false rest ∧ (∀ v ∈ us, IsPartOfName v) ∧
      (rest = [] ∨ StartsHyphen rest) := by
  induction hn : cs.length using Nat.strong_induction_on generalizing cs with
  | _ n ih =>
    subst hn
    cases cs with
    | nil => exact ⟨[], [], .nil, by simp, .inl rfl⟩
    | cons c cs =>
      rcases startsHyphen_or_part h with hhyphen | ⟨v, mid, hlex, hpart, hsuffix⟩
      · exact ⟨[], _, .nil, by simp, .inr hhyphen⟩
      · have hmid : mid.all isPlainOptionChar = true := by
          rw [List.all_cons, Bool.and_eq_true] at h
          exact List.all_eq_true.mpr fun d hd => List.all_eq_true.mp h.2 d (hsuffix.subset hd)
        have hlength := hsuffix.length_le
        obtain ⟨us, rest, hus, hparts, hrest⟩ := ih mid.length (by simp; omega) hmid rfl
        exact ⟨v :: us, rest, hlex.trans hus, List.forall_mem_cons.mpr ⟨hpart, hparts⟩, hrest⟩

/-! ## White space in tokens -/

/-- White space among the characters has a quote behind it. -/
def QuotesBlanks (raw : List Char) : Prop :=
  ∀ front b back, raw = front ++ b :: back → isBlank b = true → ∃ q ∈ back, isQuote q = true

theorem quotesBlanks_of_notBlank {raw : List Char} (h : raw.any isBlank = false) :
    QuotesBlanks raw := by
  intro front b back hraw hb
  have hmem : b ∈ raw := by simp [hraw]
  exact absurd hb (List.any_eq_false.mp h b hmem)

theorem quotesBlanks_of_quote {q : Char} (front : List Char) (hq : isQuote q = true) :
    QuotesBlanks (front ++ [q]) := by
  intro before b back hraw hb
  rcases List.eq_nil_or_concat back with rfl | ⟨init, c, rfl⟩
  · obtain ⟨-, hlast⟩ := List.append_inj' hraw rfl
    obtain rfl := (List.cons.inj hlast).1
    rw [isBlank_of_isQuote hq] at hb
    cases hb
  · rw [List.concat_eq_append, ← List.cons_append, ← List.append_assoc] at hraw
    obtain ⟨-, hlast⟩ := List.append_inj' hraw rfl
    obtain rfl := (List.cons.inj hlast).1
    exact ⟨q, by simp, hq⟩

theorem QuotesBlanks.append {a b : List Char} (ha : QuotesBlanks a) (hb : QuotesBlanks b) :
    QuotesBlanks (a ++ b) := by
  intro front c back hraw hc
  rcases List.append_eq_append_iff.mp hraw with ⟨more, -, hmore⟩ | ⟨more, hfront, hmore⟩
  · exact hb more c back hmore hc
  · cases more with
    | nil => exact hb [] c back hmore.symm hc
    | cons d more =>
      obtain ⟨rfl, rfl⟩ := List.cons.inj hmore
      obtain ⟨q, hmem, hq⟩ := ha front c more hfront hc
      exact ⟨q, List.mem_append_left _ hmem, hq⟩

theorem quotesBlanks_quotedBy {q : Char} (hq : isQuote q = true) (value : List Char) :
    QuotesBlanks (quotedBy q value) := by
  rw [quotedBy, ← List.cons_append]
  exact quotesBlanks_of_quote _ hq

theorem Value.Spans.quotesBlanks {v : Value} (h : v.Spans) : QuotesBlanks v.raw := by
  induction h with
  | stop => exact quotesBlanks_of_notBlank rfl
  | quoted hq _ _ ih => exact (quotesBlanks_quotedBy hq _).append ih
  | @bare c v hc _ _ ih =>
    have hraw : [c].any isBlank = false := by simpa using isBlank_of_endsValue hc
    exact (quotesBlanks_of_notBlank hraw).append ih

theorem quotesBlanks_scan {cs : List Char} {l : Lexeme} (h : scan cs = .ok l) : QuotesBlanks l.raw := by
  obtain ⟨-, hscans⟩ := scan_eq_ok.mp h
  cases hscans with
  | eof => exact quotesBlanks_of_notBlank rfl
  | operator hk => exact quotesBlanks_of_notBlank (Kind.notBlank_symbol hk)
  | quoted hq => exact quotesBlanks_quotedBy hq _
  | name hn => exact quotesBlanks_of_notBlank (notBlank_of_isNameWord hn)

/-- A token behind white space, if any, is as `scan` reads it; white space in it is quoted. -/
theorem cut_quotesBlanks {e : Bool} {cs mid : List Char} {v : View}
    (h : cut e cs = some (v, mid)) : ∃ gap raw, cs = gap ++ (raw ++ mid) ∧ gap.all isBlank = true ∧
      QuotesBlanks raw ∧ (gap ≠ [] → ∃ l, scan (raw ++ mid) = .ok l) := by
  obtain ⟨-, l, hl, -, rfl⟩ | ⟨-, l, hl, -, rfl⟩ := cut_eq_some.mp h
  · obtain ⟨happend, -⟩ := scanValue_append hl
    obtain ⟨v, -, hspans, rfl⟩ := scanValue_eq_ok.mp hl
    exact ⟨[], _, happend.symm, rfl, hspans.quotesBlanks, fun hne => absurd rfl hne⟩
  · obtain ⟨happend, -⟩ := scan_append hl
    refine ⟨cs.takeWhile isBlank, l.raw, ?_, List.all_takeWhile, quotesBlanks_scan hl, fun _ => ?_⟩
    · rw [happend, List.takeWhile_append_dropWhile]
    · exact ⟨l, by rw [happend, hl]⟩

/-! ## Texts that end in a hyphen and a name -/

section

variable {e e' : Bool} {cs mid rest front name : List Char} {b : Char} {us : List View}
  (hb : isBlank b = true) (hhyphen : StartsHyphen ('-' :: name))
  (hquote : ∀ c ∈ name, isQuote c = false)

include hb hhyphen hquote

/-- No token goes on into a hyphen behind white space: white space in a token has a quote behind it,
and a token does not start with the hyphen. -/
theorem cut_before_hyphen {v : View} (h : cut e cs = some (v, mid))
    (hcs : cs = front ++ b :: '-' :: name) : ∃ front', mid = front' ++ b :: '-' :: name := by
  obtain ⟨gap, raw, hgap, hblank, hraw, hscan⟩ := cut_quotesBlanks h
  have hinside : ∀ as back, raw = as ++ b :: back → '-' :: name = back ++ mid → False := by
    intro as back has hback
    obtain ⟨q, hq, hisQuote⟩ := hraw as b back has hb
    have hmem : q ∈ '-' :: name := hback ▸ List.mem_append_left _ hq
    rcases List.mem_cons.mp hmem with rfl | hmem
    · cases hisQuote
    · rw [hquote q hmem] at hisQuote
      cases hisQuote
  rw [hcs, ← List.append_assoc] at hgap
  rcases List.append_eq_append_iff.mp hgap with ⟨more, hmore, htail⟩ | ⟨more, -, htail⟩
  case inr => exact ⟨more, htail⟩
  cases more with
  | nil => exact ⟨[], htail.symm⟩
  | cons d more =>
    obtain rfl : b = d := (List.cons.inj htail).1
    have hrest : '-' :: name = more ++ mid := (List.cons.inj htail).2
    exfalso
    rcases List.append_eq_append_iff.mp hmore with ⟨as, -, has⟩ | ⟨bs, hbs, has⟩
    · exact hinside as more has hrest
    · match bs, hbs, has with
      | [], _, has => exact hinside [] more has.symm hrest
      | d :: [], hbs, has =>
        obtain rfl : more = raw := (List.cons.inj has).2
        obtain ⟨l, hl⟩ := hscan (by simp [hbs])
        obtain ⟨m, hm, -⟩ := scan_hyphen hhyphen
        rw [← hrest, hm] at hl
        cases hl
      | d :: c :: bs, hbs, has =>
        obtain rfl : more = c :: bs ++ raw := (List.cons.inj has).2
        obtain rfl : '-' = c := (List.cons.inj hrest).1
        have hmem : '-' ∈ gap := by simp [hbs]
        exact absurd (List.all_eq_true.mp hblank '-' hmem) (by decide)

theorem lexes_before_hyphen (h : Lexes e cs us e' rest) (hcs : cs = front ++ b :: '-' :: name) :
    ∃ front', rest = front' ++ b :: '-' :: name := by
  induction h generalizing front with
  | nil => exact ⟨front, hcs⟩
  | cons hc _ _ ih =>
    obtain ⟨front', hmid⟩ := cut_before_hyphen hb hhyphen hquote hc hcs
    exact ih hmid

/-- A text that ends in white space, a hyphen and a name cannot be cut into tokens. -/
theorem tokenize_hyphen {text : String} (htext : text.toList = front ++ b :: '-' :: name) :
    ∃ f, tokenize text = .error f := by
  cases hts : tokenize text with
  | error f => exact ⟨f, rfl⟩
  | ok ts =>
    obtain ⟨vs, hlexes, -⟩ := lexesAll_of_tokenize hts
    obtain ⟨us, v, e, gap, -, -, hus, hgap⟩ := hlexes.exists_lexes
    obtain ⟨front', rfl⟩ := lexes_before_hyphen hb hhyphen hquote hus htext
    have hblank := List.all_eq_true.mp hgap '-' (by simp)
    exact absurd hblank (by decide)

end

end Pipework.Token
