import Pipework.Proofs.Token.View
import Pipework.Token.Lexer

/-! What the scanner finds at the start of a text. Names, quoted texts, values and tokens are told by
the characters that they take and by what they end before, and one equivalence says of each that it
is what is found. -/

namespace Pipework.Token

open Text

/-! ## Characters -/

theorem toNat_of_isBlank {c : Char} (h : isBlank c = true) : c.toNat ∈
    [0x9, 0xa, 0xb, 0xc, 0xd, 0x20, 0x85, 0xa0, 0x1680, 0x2000, 0x2001, 0x2002, 0x2003, 0x2004,
      0x2005, 0x2006, 0x2007, 0x2008, 0x2009, 0x200a, 0x2028, 0x2029, 0x202f, 0x205f, 0x3000] := by
  obtain ⟨r, hr, hl, hh⟩ := Ranges.exists_of_contains h
  simp only [blanks, List.mem_cons, List.not_mem_nil, or_false] at hr ⊢
  rcases hr with rfl | rfl | rfl | rfl | rfl | rfl | rfl | rfl | rfl | rfl <;> simp only at hl hh <;>
    omega

theorem startsName_of_isBlank {c : Char} (h : isBlank c = true) : startsName c = false := by
  have hc : c = Char.ofNat c.toNat := (Char.ofNat_toNat c).symm
  have hn := toNat_of_isBlank h
  generalize c.toNat = n at hc hn
  subst hc
  revert n
  decide +kernel

theorem isBlank_of_startsName {c : Char} (h : startsName c = true) : isBlank c = false :=
  Bool.eq_false_iff.mpr fun hb => by simp [startsName_of_isBlank hb] at h

theorem startsName_of_isAsciiDigit {c : Char} (h : isAsciiDigit c = true) : startsName c = true := by
  simp [startsName, isAlphanumeric_of_isAsciiDigit h]

theorem startsName_gt : startsName '>' = false := by decide

theorem startsName_hyphen : startsName '-' = false := by decide

theorem operator?_of_startsName {c : Char} (h : startsName c = true) : operator? c = none := by
  unfold operator?
  split <;> first | rfl | exact absurd h (by decide)

theorem isQuote_iff {c : Char} : isQuote c = true ↔ c = '\'' ∨ c = '"' := by simp [isQuote]

theorem isQuote_of_startsName {c : Char} (h : startsName c = true) : isQuote c = false := by
  refine Bool.eq_false_iff.mpr fun hq => ?_
  obtain rfl | rfl := isQuote_iff.mp hq <;> exact absurd h (by decide)

theorem isBlank_of_isQuote {c : Char} (h : isQuote c = true) : isBlank c = false := by
  obtain rfl | rfl := isQuote_iff.mp h <;> decide

theorem endsValue_of_isQuote {c : Char} (h : isQuote c = true) : endsValue c = false := by
  obtain rfl | rfl := isQuote_iff.mp h <;> decide

theorem isBlank_of_endsValue {c : Char} (h : endsValue c = false) : isBlank c = false := by
  simp only [endsValue, Bool.or_eq_false_iff] at h
  exact h.1.1.1

theorem isBlank_of_operator? {c : Char} {k : Kind} (h : operator? c = some k) : isBlank c = false := by
  unfold operator? at h
  split at h <;> first | rfl | cases h

variable {q : Char} {cs name rest value : List Char}

/-! ## Quoted texts -/

/-- The text between two quotes, with every quote in it doubled. -/
def doubledBy (q : Char) (value : List Char) : List Char :=
  value.flatMap fun c => if c = q then [c, c] else [c]

def quotedBy (q : Char) (value : List Char) : List Char := q :: (doubledBy q value ++ [q])

theorem doubledBy_quote (value : List Char) :
    doubledBy q (q :: value) = q :: q :: doubledBy q value := by simp [doubledBy]

theorem doubledBy_cons {c : Char} (h : c ≠ q) (value : List Char) :
    doubledBy q (c :: value) = c :: doubledBy q value := by simp [doubledBy, h]

theorem closeQuote_doubledBy (value : List Char) (hr : rest.head? ≠ some q) :
    closeQuote q (doubledBy q value ++ q :: rest) = some ⟨value, doubledBy q value ++ [q], rest⟩ := by
  induction value with
  | nil =>
    cases rest with
    | nil => simp [doubledBy, closeQuote]
    | cons d cs =>
      have hd : d ≠ q := fun h => hr (by rw [h]; rfl)
      simp [doubledBy, closeQuote, hd]
  | cons c value ih =>
    by_cases hc : c = q
    · subst hc
      simp [doubledBy_quote, closeQuote, ih]
    · have hne : doubledBy q value ++ q :: rest ≠ [] := by simp
      obtain ⟨d, ds, hds⟩ := List.exists_cons_of_ne_nil hne
      rw [doubledBy_cons hc, List.cons_append, hds, closeQuote, if_neg hc, ← hds, ih]
      rfl

/-- Quoted text ends at the first quote that is not doubled. -/
theorem closeQuote_eq_some {t : Quoted} : closeQuote q cs = some t ↔
    cs = t.raw ++ t.rest ∧ t.raw = doubledBy q t.value ++ [q] ∧ t.rest.head? ≠ some q := by
  constructor
  · intro h
    refine ⟨(closeQuote_append h).symm, ?_⟩
    fun_induction closeQuote q cs generalizing t with
    | case1 | case3 => cases h
    | case2 =>
      cases h
      simp [doubledBy]
    | case4 _ ih =>
      obtain ⟨u, hu, rfl⟩ := Option.map_eq_some_iff.mp h
      obtain ⟨hraw, hrest⟩ := ih hu
      exact ⟨by rw [doubledBy_quote, hraw]; rfl, hrest⟩
    | case5 _ _ hd =>
      cases h
      exact ⟨rfl, by simpa using hd⟩
    | case6 _ _ _ hc ih =>
      obtain ⟨u, hu, rfl⟩ := Option.map_eq_some_iff.mp h
      obtain ⟨hraw, hrest⟩ := ih hu
      exact ⟨by rw [doubledBy_cons hc, hraw]; rfl, hrest⟩
  · rintro ⟨rfl, hraw, hr⟩
    rw [hraw, List.append_assoc, List.singleton_append, closeQuote_doubledBy t.value hr, ← hraw]

/-! ## Names -/

/-- The words that can be names, whatever stands around them. -/
def isNameWord : List Char → Bool
  | [] => false
  | c :: cs => startsName c && cs.all fun d => startsName d || d == '-'

theorem isNameWord_iff : isNameWord name = true ↔
    ∃ c cs, name = c :: cs ∧ startsName c = true ∧ ∀ d ∈ cs, startsName d = true ∨ d = '-' := by
  cases name <;> simp [isNameWord]

theorem startsName_or_hyphen_of_mem (h : isNameWord name = true) :
    ∀ c ∈ name, startsName c = true ∨ c = '-' := by
  obtain ⟨c, cs, rfl, hc, hcs⟩ := isNameWord_iff.mp h
  exact List.forall_mem_cons.mpr ⟨.inl hc, hcs⟩

theorem notBlank_of_isNameWord (h : isNameWord name = true) : name.any isBlank = false :=
  List.any_eq_false.mpr fun c hc => by
    obtain hs | rfl := startsName_or_hyphen_of_mem h c hc
    · simp [isBlank_of_startsName hs]
    · decide

/-- The text is a name whatever stands around it. -/
def isWord (s : String) : Bool := isNameWord s.toList

/-- A name ends before the text: no character of it goes on with the name, and none makes an arrow
of the name's end. -/
def StopsName (name : List Char) : List Char → Prop
  | [] => True
  | c :: cs => startsName c = false ∧ (c = '-' → cs.head? = some '>') ∧
      (c = '>' → name.getLast? ≠ some '-')

theorem spanName_append_of_stops (hn : (name.all fun d => startsName d || d == '-') = true)
    (hr : StopsName name rest) : spanName (name ++ rest) = (name, rest) := by
  induction name with
  | nil =>
    cases rest with
    | nil => rfl
    | cons c cs =>
      obtain ⟨hs, hm, -⟩ := hr
      have : (startsName c || (c == '-' && cs.head? != some '>')) = false := by simpa [hs] using hm
      simp [spanName, this]
  | cons n name ih =>
    simp only [List.all_cons, Bool.and_eq_true] at hn
    have ih := ih hn.2 (by
      cases rest with
      | nil => trivial
      | cons c cs =>
        obtain ⟨hs, hm, hgt⟩ := hr
        refine ⟨hs, hm, fun hc hl => hgt hc ?_⟩
        rw [List.getLast?_cons, hl]
        rfl)
    have hn' : (startsName n || (n == '-' && (name ++ rest).head? != some '>')) = true := by
      cases hs : startsName n with
      | true => rfl
      | false =>
        obtain rfl : n = '-' := by simpa [hs] using hn.1
        -- a hyphen goes on unless `>` comes next, which neither a name nor what stops it allows
        rcases name with _ | ⟨d, ds⟩
        · rcases rest with _ | ⟨c, cs⟩
          · rfl
          · obtain ⟨-, -, hgt⟩ := hr
            have hc : c ≠ '>' := fun h => hgt h rfl
            simpa using hc
        · have hd : d ≠ '>' := by
            rintro rfl
            simp [startsName_gt] at hn
          simpa using hd
    rw [List.cons_append, spanName, if_pos hn', ih]

theorem spanName_word (cs : List Char) :
    ((spanName cs).1.all fun d => startsName d || d == '-') = true := by
  induction cs with
  | nil => rfl
  | cons c cs ih =>
    simp only [spanName]
    split
    · next h =>
      simp only [List.all_cons, ih, Bool.and_true]
      cases hs : startsName c <;> simp_all
    · rfl

theorem stopsName_spanName (cs : List Char) : StopsName (spanName cs).1 (spanName cs).2 := by
  induction cs with
  | nil => trivial
  | cons c cs ih =>
    rw [spanName]
    split
    · next hc =>
      have happend := spanName_append cs
      cases hspan : spanName cs with
      | mk name rest =>
        rw [hspan] at ih happend
        cases rest with
        | nil => trivial
        | cons d ds =>
          obtain ⟨hs, hm, hgt⟩ := ih
          refine ⟨hs, hm, fun hd hlast => ?_⟩
          cases name with
          | nil =>
            obtain rfl := happend
            obtain rfl : c = '-' := by simpa using hlast
            simp [startsName_hyphen, hd] at hc
          | cons e name => exact hgt hd hlast
    · next hc =>
      simp only [Bool.or_eq_true, not_or, Bool.not_eq_true, Bool.and_eq_false_iff] at hc
      exact ⟨hc.1, fun h => by simpa [h] using hc.2, by simp⟩

theorem spanName_eq (h : isNameWord name = true) (hr : StopsName name rest) :
    spanName (name ++ rest) = (name, rest) := by
  obtain ⟨c, cs, rfl, hc, hcs⟩ := isNameWord_iff.mp h
  refine spanName_append_of_stops ?_ hr
  simpa [hc] using hcs

theorem isNameWord_spanName {c : Char} (h : startsName c = true) (cs : List Char) :
    isNameWord (spanName (c :: cs)).1 = true := by
  have hword := spanName_word (c :: cs)
  simp only [spanName, h, Bool.true_or, if_true, List.all_cons] at hword ⊢
  simpa [isNameWord, h] using hword

theorem Kind.isName_ofName (cs : List Char) : (Kind.ofName cs).isName = true := by
  unfold Kind.ofName
  split <;> rfl

@[simp] theorem Kind.symbol_ofName (cs : List Char) : (Kind.ofName cs).symbol = String.ofList cs := by
  unfold Kind.ofName
  split <;> rfl

/-! ## Values -/

/-- What a value ends before. -/
def StopsValue (rest : List Char) : Prop := ∀ c ∈ rest.head?, endsValue c = true

theorem StopsValue.head?_ne (h : StopsValue rest) (hq : isQuote q = true) : rest.head? ≠ some q := by
  intro hr
  have hend := h q hr
  rw [endsValue_of_isQuote hq] at hend
  cases hend

/-- A value is made of quoted texts and of bare characters, up to what ends it. -/
inductive Value.Spans : Value → Prop
  | stop {rest : List Char} : StopsValue rest → Spans ⟨[], rest, [], false⟩
  | quoted {q : Char} {value : List Char} {v : Value} : isQuote q = true →
      (v.raw ++ v.rest).head? ≠ some q → Spans v →
      Spans ⟨quotedBy q value ++ v.raw, v.rest, value :: v.quoted, v.hasBare⟩
  | bare {c : Char} {v : Value} : endsValue c = false → isQuote c = false → Spans v →
      Spans ⟨c :: v.raw, v.rest, v.quoted, true⟩

theorem Value.Spans.stops {v : Value} (h : v.Spans) : StopsValue v.rest := by
  induction h with
  | stop hr => exact hr
  | quoted _ _ _ ih | bare _ _ _ ih => exact ih

/-- A value ends in the same way before whatever else a value ends before. -/
theorem Value.Spans.congr {v : Value} (h : v.Spans) (hr : StopsValue rest) :
    Spans { v with rest } := by
  induction h with
  | stop => exact .stop hr
  | @quoted q value v hq hhead _ ih =>
    refine .quoted hq ?_ ih
    cases hraw : v.raw with
    | nil => exact hr.head?_ne hq
    | cons c raw => rwa [hraw] at hhead
  | bare hc hq _ ih => exact .bare hc hq ih

theorem spans_of_spanValueWithin {n : Nat} {v : Value} (hn : cs.length ≤ n)
    (h : spanValueWithin n cs = .ok v) : cs = v.raw ++ v.rest ∧ v.Spans := by
  fun_induction spanValueWithin n cs generalizing v with
  | case1 =>
    cases h
    exact ⟨rfl, .stop (by simp [StopsValue])⟩
  | case2 cs hne => exact absurd (List.length_eq_zero_iff.mp (Nat.le_zero.mp hn)) hne
  | case3 fuel c cs hc =>
    cases h
    exact ⟨rfl, .stop (by simpa [StopsValue] using hc)⟩
  | case4 | case5 | case7 => cases h
  | case6 fuel c cs _ hq t ht u hu ih =>
    cases h
    obtain ⟨rfl, hraw, hhead⟩ := closeQuote_eq_some.mp ht
    simp only [List.length_cons, List.length_append] at hn
    obtain ⟨hrest, hspans⟩ := ih (by omega) hu
    rw [hrest] at hhead ⊢
    rw [hraw]
    exact ⟨by simp, .quoted hq hhead hspans⟩
  | case8 fuel c cs hc hq u hu ih =>
    cases h
    obtain ⟨rfl, hspans⟩ := ih (by simpa using hn) hu
    exact ⟨rfl, .bare (Bool.eq_false_iff.mpr hc) (Bool.eq_false_iff.mpr hq) hspans⟩

theorem spanValueWithin_of_spans {n : Nat} {v : Value} (h : v.Spans) (hn : v.raw.length ≤ n) :
    spanValueWithin n (v.raw ++ v.rest) = .ok v := by
  induction h generalizing n with
  | @stop rest hr =>
    cases rest with
    | nil => cases n <;> rfl
    | cons c cs =>
      have hc := hr c rfl
      cases n <;> simp [spanValueWithin, hc]
  | @quoted q value v hq hhead _ ih =>
    obtain ⟨n, rfl⟩ := Nat.exists_eq_add_one_of_ne_zero (n := n) (by rintro rfl; cases hn)
    simp only [quotedBy, List.length_append, List.length_cons] at hn
    have hclose := closeQuote_doubledBy value hhead
    simp [quotedBy, spanValueWithin, endsValue_of_isQuote hq, hq, hclose, ih (n := n) (by omega)]
  | @bare c v hc hq _ ih =>
    obtain ⟨n, rfl⟩ := Nat.exists_eq_add_one_of_ne_zero (n := n) (by rintro rfl; cases hn)
    simp [spanValueWithin, hc, hq, ih (n := n) (by simpa using hn)]

theorem spanValue_eq_ok {v : Value} : spanValue cs = .ok v ↔ cs = v.raw ++ v.rest ∧ v.Spans := by
  constructor
  · exact spans_of_spanValueWithin (Nat.le_refl _)
  · rintro ⟨rfl, hspans⟩
    exact spanValueWithin_of_spans hspans (by simp)

theorem scanValue_eq_ok {l : Lexeme} : scanValue cs = .ok l ↔
    ∃ v : Value, cs = v.raw ++ v.rest ∧ v.Spans ∧ l = ⟨v.kind, v.raw, v.rest⟩ := by
  have hspan : scanValue cs = .ok l ↔ ∃ v : Value, spanValue cs = .ok v ∧ l = ⟨v.kind, v.raw, v.rest⟩ := by
    rw [scanValue]
    cases spanValue cs with
    | error e => simp [bind, Except.bind]
    | ok v => simp [bind, Except.bind, pure, Except.pure, eq_comm]
  simp only [hspan, spanValue_eq_ok, and_assoc]

theorem scanValue_append {l : Lexeme} (h : scanValue cs = .ok l) :
    l.raw ++ l.rest = cs ∧ ((cs.head?.any fun c => !endsValue c) = true → l.raw ≠ []) := by
  obtain ⟨v, rfl, hspans, rfl⟩ := scanValue_eq_ok.mp h
  refine ⟨rfl, fun hc hraw => ?_⟩
  have hstops := hspans.stops
  rw [show v.raw = [] from hraw] at hc
  cases hrest : v.rest <;> simp_all [StopsValue]

theorem stopsValue_of_scanValue {l : Lexeme} (h : scanValue cs = .ok l) : StopsValue l.rest := by
  obtain ⟨v, -, hspans, rfl⟩ := scanValue_eq_ok.mp h
  exact hspans.stops

theorem scanValue_congr {l : Lexeme} (h : scanValue cs = .ok l) (hr : StopsValue rest) :
    scanValue (l.raw ++ rest) = .ok { l with rest } := by
  obtain ⟨v, -, hspans, rfl⟩ := scanValue_eq_ok.mp h
  exact scanValue_eq_ok.mpr ⟨{ v with rest }, rfl, hspans.congr hr, rfl⟩

theorem scanValue_kind {l : Lexeme} (h : scanValue cs = .ok l) : l.kind ≠ .eof ∧ l.kind ≠ .equals := by
  obtain ⟨v, -, -, rfl⟩ := scanValue_eq_ok.mp h
  show v.kind ≠ .eof ∧ v.kind ≠ .equals
  unfold Value.kind
  split <;> simp

/-! ## Tokens -/

/-- A token with what it takes and what it ends before, in its four forms. -/
inductive Lexeme.Scans : Lexeme → Prop
  | eof : Scans ⟨.eof, [], []⟩
  /-- Only `|` can be the start of another operator. -/
  | operator {k : Kind} {rest : List Char} : k.hasText = false → k ≠ .eof →
      (k = .pipe → rest.head? ≠ some '|') → Scans ⟨k, k.symbol.toList, rest⟩
  | quoted {q : Char} {value rest : List Char} : isQuote q = true → rest.head? ≠ some q →
      Scans ⟨.literal (String.ofList value), quotedBy q value, rest⟩
  | name {name rest : List Char} : isNameWord name = true → StopsName name rest →
      Scans ⟨.ofName name, name, rest⟩

theorem Kind.symbol_ne_nil {k : Kind} (h : k.hasText = false) (hk : k ≠ .eof) :
    k.symbol.toList ≠ [] := by
  cases k <;> simp_all [Kind.symbol]

theorem Kind.notBlank_symbol {k : Kind} (h : k.hasText = false) :
    k.symbol.toList.any isBlank = false := by
  cases k <;> first | rfl | cases h

theorem scans_of_operator? {c : Char} {k : Kind} (h : operator? c = some k) (rest : List Char) :
    Lexeme.Scans ⟨k, [c], rest⟩ := by
  unfold operator? at h
  split at h <;> cases h <;> exact .operator rfl (by simp) (by simp)

theorem scans_of_scan {l : Lexeme} (h : scan cs = .ok l) : cs = l.raw ++ l.rest ∧ l.Scans := by
  unfold scan at h
  split at h
  case h_1 =>
    cases h
    exact ⟨rfl, .eof⟩
  case h_3 cs hne =>
    cases h
    refine ⟨rfl, .operator rfl (by simp) fun _ hcs => ?_⟩
    obtain ⟨ds, rfl⟩ := List.head?_eq_some_iff.mp hcs
    exact hne ds rfl
  case h_10 c cs _ _ _ _ _ _ _ _ =>
    split at h
    · next ho =>
      cases h
      exact ⟨rfl, scans_of_operator? ho cs⟩
    · split at h
      · next hq =>
        split at h <;> cases h
        next t ht =>
        obtain ⟨rfl, hraw, hhead⟩ := closeQuote_eq_some.mp ht
        rw [hraw]
        exact ⟨rfl, .quoted hq hhead⟩
      · split at h <;> cases h
        next hs =>
        have happend := spanName_append (c :: cs)
        have hscans := Lexeme.Scans.name (isNameWord_spanName hs cs) (stopsName_spanName (c :: cs))
        exact ⟨happend.symm, hscans⟩
  all_goals cases h
  all_goals exact ⟨rfl, .operator rfl (by simp) (by simp)⟩

theorem scan_of_startsName {c : Char} (h : startsName c = true) :
    scan (c :: cs) =
      .ok ⟨.ofName (spanName (c :: cs)).1, (spanName (c :: cs)).1, (spanName (c :: cs)).2⟩ := by
  unfold scan
  split
  case h_10 heq =>
    obtain ⟨rfl, rfl⟩ := List.cons.inj heq
    simp [operator?_of_startsName h, isQuote_of_startsName h, h]
  all_goals
    rename_i heq
    cases heq <;> exact absurd h (by decide)

theorem scan_pipe (h : cs.head? ≠ some '|') : scan ('|' :: cs) = .ok ⟨.pipe, ['|'], cs⟩ := by
  rw [scan]
  rintro ds rfl
  exact h rfl

theorem scan_of_scans {l : Lexeme} (h : l.Scans) : scan (l.raw ++ l.rest) = .ok l := by
  cases h with
  | eof => rfl
  | @operator k rest hk he hpipe =>
    cases k
    case pipe => exact scan_pipe (hpipe rfl)
    case eof => exact absurd rfl he
    all_goals first | rfl | cases hk
  | @quoted q value rest hq hr =>
    have hclose := closeQuote_doubledBy value hr
    obtain rfl | rfl := isQuote_iff.mp hq <;> simp [quotedBy, scan, operator?, isQuote, hclose]
  | @name name rest hn hr =>
    obtain ⟨c, cs, rfl, hc, -⟩ := isNameWord_iff.mp hn
    have hscan := @scan_of_startsName (cs ++ rest) c hc
    rwa [← List.cons_append, spanName_eq hn hr] at hscan

theorem scan_eq_ok {l : Lexeme} : scan cs = .ok l ↔ cs = l.raw ++ l.rest ∧ l.Scans := by
  constructor
  · exact scans_of_scan
  · rintro ⟨rfl, hscans⟩
    exact scan_of_scans hscans

theorem scan_of_operator? {c : Char} {k : Kind} (h : operator? c = some k) :
    scan (c :: cs) = .ok ⟨k, [c], cs⟩ :=
  scan_of_scans (scans_of_operator? h cs)

theorem scan_append {l : Lexeme} (h : scan cs = .ok l) :
    l.raw ++ l.rest = cs ∧ (l.kind ≠ .eof → l.raw ≠ []) := by
  obtain ⟨rfl, hscans⟩ := scan_eq_ok.mp h
  refine ⟨rfl, fun hk => ?_⟩
  cases hscans with
  | eof => exact absurd rfl hk
  | operator hk' => exact Kind.symbol_ne_nil hk' hk
  | quoted => simp [quotedBy]
  | name hn =>
    obtain ⟨c, cs, rfl, -⟩ := isNameWord_iff.mp hn
    simp

theorem eq_eof_of_scan {l : Lexeme} (h : scan cs = .ok l) (hk : l.kind = .eof) :
    cs = [] ∧ l.raw = [] := by
  obtain ⟨rfl, hscans⟩ := scan_eq_ok.mp h
  cases hscans with
  | eof => exact ⟨rfl, rfl⟩
  | operator _ he => exact absurd hk he
  | quoted => cases hk
  | name => exact absurd hk (Kind.ne_eof_of_isName (Kind.isName_ofName _))

end Pipework.Token
