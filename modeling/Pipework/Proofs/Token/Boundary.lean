import Pipework.Proofs.Token.Lexed
import Pipework.Proofs.Token.Tiling

/-! Where a token ends depends on little of the text after it: on the next character, unless that is
white space, and on whether an arrow starts there. So the end of a text can be exchanged for another
one that starts alike, and the tokens before it stay as they are. -/

namespace Pipework.Token

open Text

/-- What a text shows of itself to a token that ends before it: its first character and whether `>`
comes second, but nothing of white space. -/
def onset : List Char → Option (Char × Bool)
  | [] => none
  | c :: cs => if isBlank c then none else some (c, cs.head? == some '>')

variable {a b cs mid rest : List Char}

theorem onset_of_blank {c : Char} (h : isBlank c = true) (cs : List Char) : onset (c :: cs) = none := by
  rw [onset, if_pos h]

theorem onset_of_gap {gap : List Char} (hg : gap.all isBlank = true) (hne : gap ≠ [])
    (cs : List Char) : onset (gap ++ cs) = none := by
  obtain ⟨c, gap, rfl⟩ := List.exists_cons_of_ne_nil hne
  simp only [List.all_cons, Bool.and_eq_true] at hg
  exact onset_of_blank hg.1 _

theorem head?_ne_of_onset {q : Char} (hq : isBlank q = false) (h : onset a = onset b)
    (ha : a.head? ≠ some q) : b.head? ≠ some q := by
  rintro hb
  obtain ⟨bs, rfl⟩ := List.head?_eq_some_iff.mp hb
  rw [onset.eq_def (q :: bs)] at h
  match a, h with
  | [], h => simp [onset, hq] at h
  | c :: as, h =>
    simp only [onset, hq, Bool.false_eq_true, if_false] at h
    split at h
    · cases h
    · obtain ⟨rfl, -⟩ := Prod.mk.inj (Option.some.inj h)
      exact ha rfl

theorem onset_append_of_ne_nil {front : List Char} (hne : front ≠ [])
    (hgt : a.head? = some '>' ↔ b.head? = some '>') : onset (front ++ a) = onset (front ++ b) := by
  match front with
  | [] => exact absurd rfl hne
  | c :: d :: front => rfl
  | [c] => simp only [List.singleton_append, onset, Bool.beq_eq_decide_eq, hgt]

theorem onset_append (h : onset a = onset b) (front : List Char) :
    onset (front ++ a) = onset (front ++ b) := by
  cases front with
  | nil => exact h
  | cons c front =>
    have hblank : isBlank '>' = false := by decide
    exact onset_append_of_ne_nil (by simp)
      ⟨fun ha => by_contra fun hb => head?_ne_of_onset hblank h.symm hb ha,
        fun hb => by_contra fun ha => head?_ne_of_onset hblank h ha hb⟩

theorem StopsName.congr {name : List Char} (ha : StopsName name a) (h : onset a = onset b) :
    StopsName name b := by
  match b with
  | [] => trivial
  | d :: ds =>
    cases hd : isBlank d with
    | true =>
      refine ⟨startsName_of_isBlank hd, ?_, ?_⟩ <;>
      · rintro rfl
        exact absurd hd (by decide)
    | false =>
      match a with
      | [] => simp [onset, hd] at h
      | c :: cs =>
        obtain ⟨hs, hm, hgt⟩ := ha
        cases hc : isBlank c with
        | true => simp [onset, hc, hd] at h
        | false =>
          simp only [onset, hc, hd, Bool.false_eq_true, if_false, Option.some.injEq,
            Prod.mk.injEq] at h
          obtain ⟨rfl, h⟩ := h
          refine ⟨hs, fun hcm => ?_, hgt⟩
          simpa [hm hcm] using h

theorem StopsValue.congr (ha : StopsValue a) (h : onset a = onset b) : StopsValue b := by
  intro d hd
  obtain ⟨ds, rfl⟩ := List.head?_eq_some_iff.mp hd
  cases hb : isBlank d with
  | true => simp [endsValue, hb]
  | false =>
    have hhead : a.head? = some d := by_contra fun ha => head?_ne_of_onset hb h ha rfl
    exact ha d hhead

/-- A token of the kind that ends before the one text ends before the other. -/
structure EndsAlike (k : Kind) (a b : List Char) : Prop where
  name : k.isName = true → ∀ {name}, StopsName name a → StopsName name b
  value : StopsValue a → StopsValue b
  head : ∀ {q}, isBlank q = false → a.head? ≠ some q → b.head? ≠ some q

theorem endsAlike_of_onset {k : Kind} (h : onset a = onset b) : EndsAlike k a b where
  name := fun _ _ ha => ha.congr h
  value := fun ha => ha.congr h
  head := fun hq => head?_ne_of_onset hq h

/-- A text can be cut off anywhere but behind a first hyphen, which alone goes on with a name. -/
theorem endsAlike_of_prefix {k : Kind} (h : b <+: a) (hk : k.isName = true → b ≠ ['-']) :
    EndsAlike k a b := by
  obtain ⟨rest, rfl⟩ := h
  have hhead : ∀ {c}, b.head? = some c → (b ++ rest).head? = some c := fun hc => by
    obtain ⟨bs, rfl⟩ := List.head?_eq_some_iff.mp hc
    rfl
  refine ⟨fun hname name ha => ?_, fun ha c hc => ha c (hhead hc), fun _ ha hb => ha (hhead hb)⟩
  match b with
  | [] => trivial
  | [c] =>
    obtain ⟨hs, -, hgt⟩ := ha
    exact ⟨hs, fun hc => absurd (congrArg (fun c => [c]) hc) (hk hname), hgt⟩
  | c :: d :: bs => exact ha

/-! ## One token -/

theorem Lexeme.Scans.congr {l : Lexeme} (h : l.Scans) (hk : l.kind ≠ .eof)
    (hr : EndsAlike l.kind l.rest rest) : Scans { l with rest } := by
  cases h with
  | eof => exact absurd rfl hk
  | operator hsymbol he hpipe =>
    exact .operator hsymbol he fun hk => hr.head (by decide) (hpipe hk)
  | quoted hq hhead => exact .quoted hq (hr.head (isBlank_of_isQuote hq) hhead)
  | name hn hstops => exact .name hn (hr.name (Kind.isName_ofName _) hstops)

theorem scan_congr {l : Lexeme} (h : scan cs = .ok l) (hk : l.kind ≠ .eof)
    (hr : EndsAlike l.kind l.rest rest) : scan (l.raw ++ rest) = .ok { l with rest } :=
  scan_of_scans ((scan_eq_ok.mp h).2.congr hk hr)

/-! ## The last character of a token -/

theorem endsBlank_append {raw : List Char} (front : List Char) (h : raw ≠ []) :
    endsBlank (front ++ raw) = endsBlank raw := by
  rw [endsBlank, endsBlank, List.getLast?_append_of_ne_nil front h]

theorem endsBlank_of_notBlank (h : cs.any isBlank = false) : endsBlank cs = false := by
  rw [endsBlank]
  cases hlast : cs.getLast? with
  | none => rfl
  | some c => simpa using List.any_eq_false.mp h c (List.mem_of_getLast? hlast)

theorem endsBlank_quotedBy {q : Char} (hq : isQuote q = true) (value : List Char) :
    endsBlank (quotedBy q value) = false := by
  rw [quotedBy, ← List.cons_append, endsBlank_append _ (by simp)]
  simp [endsBlank, isBlank_of_isQuote hq]

theorem Value.Spans.endsBlank {v : Value} (h : v.Spans) : endsBlank v.raw = false := by
  induction h with
  | stop => rfl
  | @quoted q value v hq _ _ ih =>
    show Text.endsBlank (quotedBy q value ++ v.raw) = false
    by_cases hraw : v.raw = []
    · rw [hraw, List.append_nil, endsBlank_quotedBy hq]
    · rw [endsBlank_append _ hraw, ih]
  | @bare c v hc _ _ ih =>
    show Text.endsBlank (c :: v.raw) = false
    by_cases hraw : v.raw = []
    · simp [hraw, Text.endsBlank, isBlank_of_endsValue hc]
    · rw [← List.singleton_append, endsBlank_append _ hraw, ih]

theorem endsBlank_scan {l : Lexeme} (h : scan cs = .ok l) : endsBlank l.raw = false := by
  obtain ⟨-, hscans⟩ := scan_eq_ok.mp h
  cases hscans with
  | eof => rfl
  | operator hk => exact endsBlank_of_notBlank (Kind.notBlank_symbol hk)
  | quoted hq => exact endsBlank_quotedBy hq _
  | name hn => exact endsBlank_of_notBlank (notBlank_of_isNameWord hn)

/-! ## Texts -/

/-- Behind white space, a token is cut in the same way before any text that leaves it as it is. -/
theorem cut_before {expects : Bool} {l : Lexeme} (hs : startsValue expects cs = false)
    (hl : scan (cs.dropWhile isBlank) = .ok l) (hne : l.raw ≠ [])
    (hr : scan (l.raw ++ rest) = .ok { l with rest }) :
    cut expects (cs.takeWhile isBlank ++ (l.raw ++ rest)) = some
      (⟨l.kind, (cs.takeWhile isBlank).isEmpty, (cs.takeWhile isBlank).contains '\n'⟩, rest) := by
  have hgap := List.takeWhile_append_dropWhile (p := isBlank) (l := cs)
  rw [← (scan_append hl).1] at hgap
  obtain ⟨c, raw, hraw⟩ := List.exists_cons_of_ne_nil hne
  have hblank : ∀ d ∈ (l.raw ++ rest).head?, isBlank d = false := by
    have hhead := List.head?_dropWhile_not isBlank cs
    rw [← (scan_append hl).1, hraw] at hhead
    rw [hraw]
    simpa using hhead
  obtain ⟨ht, hd⟩ := @takeWhile_gap (cs.takeWhile isBlank) _ List.all_takeWhile hblank
  refine cut_eq_some.mpr (.inr ⟨?_, _, by rw [hd]; exact hr, by rw [ht], rfl⟩)
  -- The text before the exchanged end is not empty, so it starts with the same character.
  have hhead : (cs.takeWhile isBlank ++ (l.raw ++ rest)).head? = cs.head? := by
    conv => rhs; rw [← hgap]
    cases cs.takeWhile isBlank <;> simp [hraw]
  rwa [startsValue, hhead]

/-- A token ends in no white space, and is cut in the same way before any text that starts alike. -/
theorem cut_congr {expects : Bool} {v : View} (h : cut expects cs = some (v, mid))
    (hk : v.kind ≠ .eof) : ∃ raw, cs = raw ++ mid ∧ raw ≠ [] ∧ endsBlank raw = false ∧
      ∀ rest, onset mid = onset rest → cut expects (raw ++ rest) = some (v, rest) := by
  obtain ⟨hs, l, hl, rfl, rfl⟩ | ⟨hs, l, hl, rfl, rfl⟩ := cut_eq_some.mp h
  · obtain ⟨happend, hne⟩ := scanValue_append hl
    have hne := hne (Bool.and_eq_true_iff.mp hs).2
    obtain ⟨v, -, hspans, rfl⟩ := scanValue_eq_ok.mp hl
    refine ⟨_, happend.symm, hne, hspans.endsBlank, fun rest hr => ?_⟩
    have hstops := (stopsValue_of_scanValue hl).congr hr
    refine cut_eq_some.mpr (.inl ⟨?_, _, scanValue_congr hl hstops, rfl, rfl⟩)
    obtain ⟨c, raw, hraw⟩ := List.exists_cons_of_ne_nil hne
    simp only at happend hraw
    rw [← happend, hraw] at hs
    rw [hraw]
    exact hs
  · obtain ⟨happend, hne⟩ := scan_append hl
    have hne := hne hk
    have hgap := List.takeWhile_append_dropWhile (p := isBlank) (l := cs)
    rw [← happend] at hgap
    refine ⟨cs.takeWhile isBlank ++ l.raw, by rw [List.append_assoc, hgap], by simp [hne],
      by rw [endsBlank_append _ hne, endsBlank_scan hl], fun rest hr => ?_⟩
    rw [List.append_assoc]
    exact cut_before hs hl hne (scan_congr hl hk (endsAlike_of_onset hr))

theorem Lexes.congr {e e' : Bool} {vs : List View} (h : Lexes e cs vs e' mid) :
    ∃ front, cs = front ++ mid ∧ (front = [] ↔ vs = []) ∧ endsBlank front = false ∧
      ∀ rest, onset mid = onset rest → Lexes e (front ++ rest) vs e' rest := by
  induction h with
  | nil => exact ⟨[], rfl, by simp, rfl, fun _ _ => .nil⟩
  | @cons e e' cs mid last v vs hc hk _ ih =>
    obtain ⟨front, rfl, hfront, hblank, hlexes⟩ := ih
    obtain ⟨raw, rfl, hne, hraw, hcut⟩ := cut_congr hc hk
    refine ⟨raw ++ front, by rw [List.append_assoc], by simp [hne], ?_, fun rest hr => ?_⟩
    · cases hf : front with
      | nil => rwa [List.append_nil]
      | cons c cs => rw [endsBlank_append _ (by simp), ← hf, hblank]
    · rw [List.append_assoc]
      exact .cons (hcut _ (onset_append hr front)) hk (hlexes rest hr)

theorem trimEnd_append {front gap : List Char} (hf : endsBlank front = false)
    (hg : gap.all isBlank = true) : trimEnd (front ++ gap) = front := by
  have hgap : ∀ c ∈ gap.reverse, isBlank c = true := by simpa using hg
  have hfront : front.reverse.dropWhile isBlank = front.reverse := by
    rw [endsBlank, ← List.head?_reverse] at hf
    cases h : front.reverse with
    | nil => rfl
    | cons c cs =>
      rw [h] at hf
      exact List.dropWhile_cons_of_neg (by simpa using hf)
  rw [trimEnd, List.reverse_append, List.dropWhile_append_of_pos hgap, hfront, List.reverse_reverse]

theorem trimEnd_eq_self {cs : List Char} (h : endsBlank cs = false) : trimEnd cs = cs := by
  have htrim := @trimEnd_append cs [] h rfl
  rwa [List.append_nil] at htrim

/-- A text is what is left without the white space at its end, and that white space. -/
theorem exists_gap (cs : List Char) : ∃ gap, cs = trimEnd cs ++ gap ∧ gap.all isBlank = true := by
  refine ⟨(cs.reverse.takeWhile isBlank).reverse, ?_, ?_⟩
  · rw [trimEnd, ← List.reverse_append, List.takeWhile_append_dropWhile, List.reverse_reverse]
  · rw [List.all_reverse]
    exact List.all_takeWhile

theorem onset_eq_none_of_all (h : cs.all isBlank = true) : onset cs = none := by
  cases cs with
  | nil => rfl
  | cons c cs =>
    simp only [List.all_cons, Bool.and_eq_true] at h
    exact onset_of_blank h.1 cs

/-- Behind the last token of a text is white space only. -/
theorem LexesAll.exists_lexes {e : Bool} {vs : List View} (h : LexesAll e cs vs) :
    ∃ (us : List View) (v : View) (e' : Bool) (gap : List Char), vs = us ++ [v] ∧ v.kind = .eof ∧
      Lexes e cs us e' gap ∧ gap.all isBlank = true := by
  induction h with
  | @last e cs rest v hc hk =>
    refine ⟨[], v, e, cs, rfl, hk, .nil, ?_⟩
    obtain ⟨-, l, hl, rfl, -⟩ | ⟨-, l, hl, rfl, -⟩ := cut_eq_some.mp hc
    · exact absurd hk (scanValue_kind hl).1
    · have hnil := (eq_eof_of_scan hl hk).1
      rw [List.dropWhile_eq_nil_iff] at hnil
      simpa using hnil
  | cons hc hk _ ih =>
    obtain ⟨us, v, e', gap, rfl, hv, hlexes, hgap⟩ := ih
    exact ⟨_ :: us, v, e', gap, rfl, hv, .cons hc hk hlexes, hgap⟩

/-- A text without the white space at its end is cut into the same tokens, and so it is before any
text that starts with white space. -/
theorem LexesAll.trimmed {e : Bool} {vs : List View} (h : LexesAll e cs vs) :
    ∃ (us : List View) (v : View) (e' : Bool), vs = us ++ [v] ∧ v.kind = .eof ∧
      ∀ rest, onset rest = none → Lexes e (trimEnd cs ++ rest) us e' rest := by
  obtain ⟨us, v, e', gap, rfl, hv, hlexes, hgap⟩ := h.exists_lexes
  obtain ⟨front, rfl, -, hblank, hlexes⟩ := hlexes.congr
  refine ⟨us, v, e', rfl, hv, fun rest hr => ?_⟩
  rw [trimEnd_append hblank hgap]
  exact hlexes rest ((onset_eq_none_of_all hgap).trans hr.symm)

end Pipework.Token
