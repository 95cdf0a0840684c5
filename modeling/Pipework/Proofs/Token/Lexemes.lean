import Pipework.Proofs.Token.Scanning

/-! A text read a token at a time: what is read next does not depend on where the reader stands, and
where it stands is told by the characters behind it. Reading comes to `eof` or to a fault. -/

namespace Pipework.Token

open Text

/-! ## Columns -/

/-- The column behind some characters, of which the first is at the given column. -/
def columnAfter (column : Nat) (cs : List Char) : Nat :=
  cs.foldl (fun column c => if c = '\n' then 1 else column + 1) column

section

variable {column column' : Nat} {a b cs : List Char}

theorem columnAfter_append : columnAfter column (a ++ b) = columnAfter (columnAfter column a) b :=
  List.foldl_append

theorem columnAfter_newline : columnAfter column ('\n' :: cs) = columnAfter 1 cs := rfl

theorem columnAfter_cons {c : Char} (h : c ≠ '\n') :
    columnAfter column (c :: cs) = columnAfter (column + 1) cs := by
  rw [columnAfter, List.foldl_cons, if_neg h, columnAfter]

theorem columnAfter_of_notMem (h : '\n' ∉ cs) : columnAfter column cs = column + cs.length := by
  induction cs generalizing column with
  | nil => rfl
  | cons c cs ih =>
    rw [List.mem_cons, not_or] at h
    rw [columnAfter_cons (Ne.symm h.1), ih h.2, List.length_cons]
    omega

theorem columnAfter_le : columnAfter column cs ≤ column + cs.length := by
  induction cs generalizing column with
  | nil => exact Nat.le_refl _
  | cons c cs ih =>
    rw [List.length_cons]
    by_cases hc : c = '\n'
    · subst hc
      have := @ih 1
      rw [columnAfter_newline]
      omega
    · have := @ih (column + 1)
      rw [columnAfter_cons hc]
      omega

/-- Behind a newline the column does not depend on where the text starts. -/
theorem columnAfter_congr (h : '\n' ∈ cs) : columnAfter column cs = columnAfter column' cs := by
  induction cs generalizing column column' with
  | nil => cases h
  | cons c cs ih =>
    by_cases hc : c = '\n'
    · subst hc
      rfl
    · rw [columnAfter_cons hc, columnAfter_cons hc]
      exact ih ((List.mem_cons.mp h).resolve_left (Ne.symm hc))

theorem columnAfter_le_length (h : '\n' ∈ cs) : columnAfter column cs ≤ cs.length := by
  rw [@columnAfter_congr column 0 cs h]
  simpa using @columnAfter_le 0 cs

theorem one_le_columnAfter (h : 1 ≤ column) : 1 ≤ columnAfter column cs := by
  induction cs generalizing column with
  | nil => exact h
  | cons c cs ih =>
    by_cases hc : c = '\n'
    · subst hc
      exact ih (Nat.le_refl 1)
    · rw [columnAfter_cons hc]
      exact ih (Nat.le_add_left 1 column)

/-- From the start of a text, the column is that behind its last line. -/
theorem columnAfter_one (cs : List Char) : columnAfter 1 cs = (lastLine cs).length + 1 := by
  induction cs using List.reverseRecOn with
  | nil => rfl
  | append_singleton cs c ih =>
    rw [columnAfter_append, ih]
    by_cases hc : c = '\n' <;> simp [columnAfter, lastLine, untilNewline, hc]

end

/-! ## The next token -/

namespace Reader

variable {r r' : Reader} {source : String} {t : Token} {l : Lexeme}

/-- The white space before the next token. -/
def gap (r : Reader) : List Char := r.rest.takeWhile isBlank

/-- The next token without its position. -/
def lexeme (r : Reader) : Except Misread Lexeme :=
  if r.startsValue then scanValue r.rest else scan (r.rest.dropWhile isBlank)

/-- The next token behind the white space before it. -/
def token (r : Reader) (l : Lexeme) : Token :=
  ⟨l.kind, ⟨r.offset + byteLength r.gap, r.offset + byteLength r.gap + byteLength l.raw,
    r.line + r.gap.count '\n', columnAfter r.column r.gap⟩⟩

/-- What is left behind the next token. -/
def behind (r : Reader) (l : Lexeme) : Reader :=
  { rest := l.rest, offset := (r.token l).stop, line := (r.token l).span.line,
    column := (r.token l).span.column + l.raw.length, expectsValue := l.kind == .equals }

/-- The fault where no token is next, behind the white space. -/
def fault (source : String) (r : Reader) (x : Misread) : Fault :=
  { expression := source, offset := r.offset + byteLength r.gap + x.distance, message := x.message,
    inserts := x.inserts }

theorem go_eq (cs : List Char) (r : Reader) : skipBlanks.go cs r =
    { r with rest := cs.dropWhile isBlank, offset := r.offset + byteLength (cs.takeWhile isBlank),
             line := r.line + (cs.takeWhile isBlank).count '\n',
             column := columnAfter r.column (cs.takeWhile isBlank) } := by
  induction cs generalizing r with
  | nil => rfl
  | cons c cs ih =>
    rw [skipBlanks.go, List.takeWhile_cons, List.dropWhile_cons]
    by_cases hn : c = '\n'
    · subst hn
      simp [ih, show isBlank '\n' = true by decide, show '\n'.utf8Size = 1 from rfl,
        columnAfter_newline, Nat.add_assoc, Nat.add_comm 1]
    · by_cases hb : isBlank c = true
      · simp [ih, hn, hb, columnAfter_cons hn, Nat.add_assoc]
      · simp [hn, hb, columnAfter]

/-- A value starts with no white space. -/
theorem gap_of_startsValue (h : r.startsValue = true) : r.gap = [] := by
  obtain ⟨-, hhead⟩ := Bool.and_eq_true_iff.mp h
  rw [gap]
  cases hrest : r.rest with
  | nil => rfl
  | cons c cs =>
    rw [hrest] at hhead
    have hc : isBlank c = false := by
      simp only [List.head?_cons, Option.any_some, endsValue, Bool.not_eq_true', Bool.or_eq_false_iff]
        at hhead
      exact hhead.1.1.1
    rw [List.takeWhile_cons, if_neg (by simp [hc])]

theorem next_eq (source : String) (r : Reader) : r.next source = match r.lexeme with
    | .error x => .error (r.fault source x)
    | .ok l => .ok (r.token l, r.behind l) := by
  unfold next lexeme
  by_cases hv : r.startsValue = true
  · simp only [hv, if_true]
    cases scanValue r.rest with
    | error x => simp [fault, gap_of_startsValue hv]
    | ok l => simp [behind, token, gap_of_startsValue hv, columnAfter, Token.stop]
  · simp only [hv, if_false, Bool.false_eq_true, skipBlanks, go_eq]
    cases scan (r.rest.dropWhile isBlank) with
    | error x => simp [fault, gap]
    | ok l => simp [behind, token, gap, Token.stop]

theorem next_eq_ok : r.next source = .ok (t, r') ↔
    ∃ l, r.lexeme = .ok l ∧ t = r.token l ∧ r' = r.behind l := by
  rw [next_eq]
  cases r.lexeme <;> simp [eq_comm]

/-- White space that is not yet passed makes no difference, nor then that a value can start. -/
theorem lexeme_of_blank {gap cs : List Char} (hgap : gap.all isBlank = true) (hne : gap ≠ [])
    (hr : r.rest = gap ++ cs) : r.lexeme = lexeme { rest := cs } := by
  have hall : ∀ c ∈ gap, isBlank c = true := List.all_eq_true.mp hgap
  have hstarts : r.startsValue = false := by
    obtain ⟨c, gap, rfl⟩ := List.exists_cons_of_ne_nil hne
    rw [startsValue, hr]
    simp [endsValue, hall c (List.mem_cons_self ..)]
  rw [lexeme, lexeme, hstarts, show startsValue _ = false from rfl, hr,
    List.dropWhile_append_of_pos hall]
  rfl

/-- The next token stands on characters behind the white space. -/
theorem rest_of_lexeme (h : r.lexeme = .ok l) : r.rest = r.gap ++ (l.raw ++ l.rest) := by
  unfold lexeme at h
  split at h
  · next hv => rw [gap_of_startsValue hv, (scanValue_append h).1, List.nil_append]
  · rw [(scan_append h).1, gap, List.takeWhile_append_dropWhile]

theorem raw_ne_nil (h : r.lexeme = .ok l) (hk : l.kind ≠ .eof) : l.raw ≠ [] := by
  unfold lexeme at h
  split at h
  · next hv => exact (scanValue_append h).2 (Bool.and_eq_true_iff.mp hv).2
  · exact (scan_append h).2 hk

/-- Where a text ends there is nothing but white space. -/
theorem gap_of_eof (h : r.lexeme = .ok l) (hk : l.kind = .eof) :
    r.startsValue = false ∧ r.gap = r.rest ∧ l.raw = [] := by
  unfold lexeme at h
  split at h
  · exact absurd hk (scanValue_kind h).1
  · next hv =>
    obtain ⟨hdrop, hraw⟩ := eq_eof_of_scan h hk
    refine ⟨by simpa using hv, ?_, hraw⟩
    exact List.takeWhile_eq_self_iff.mpr (List.dropWhile_eq_nil_iff.mp hdrop)

/-- A token that is not `eof` takes a character. -/
theorem length_behind (h : r.lexeme = .ok l) (hk : l.kind ≠ .eof) :
    (r.behind l).rest.length < r.rest.length := by
  have hrest := congrArg List.length (rest_of_lexeme h)
  have := List.length_pos_iff.mpr (raw_ne_nil h hk)
  simp only [List.length_append] at hrest
  simp only [behind]
  omega

/-- The tokens that are read up to `eof`. -/
inductive Reads : Reader → List Token → Prop
  | last {r : Reader} {l : Lexeme} : r.lexeme = .ok l → l.kind = .eof → Reads r [r.token l]
  | cons {r : Reader} {l : Lexeme} {ts : List Token} : r.lexeme = .ok l → l.kind ≠ .eof →
      Reads (r.behind l) ts → Reads r (r.token l :: ts)

/-- A fault that comes behind any number of tokens. -/
inductive Fails (source : String) : Reader → Fault → Prop
  | here {r : Reader} {x : Misread} : r.lexeme = .error x → Fails source r (r.fault source x)
  | behind {r : Reader} {l : Lexeme} {f : Fault} : r.lexeme = .ok l → l.kind ≠ .eof →
      Fails source (r.behind l) f → Fails source r f

/-- Every reading comes to an end, since no token but the last takes nothing. -/
theorem reads_or_fails (source : String) (r : Reader) :
    (∃ ts, r.Reads ts) ∨ ∃ f, r.Fails source f := by
  induction hn : r.rest.length using Nat.strong_induction_on generalizing r with
  | _ n ih =>
    subst hn
    cases hl : r.lexeme with
    | error x => exact .inr ⟨_, .here hl⟩
    | ok l =>
      by_cases hk : l.kind = .eof
      · exact .inl ⟨_, .last hl hk⟩
      · obtain ⟨ts, hts⟩ | ⟨f, hf⟩ := ih _ (length_behind hl hk) (r.behind l) rfl
        · exact .inl ⟨_, .cons hl hk hts⟩
        · exact .inr ⟨f, .behind hl hk hf⟩

theorem tokensWithin_succ {fuel : Nat} (h : r.lexeme = .ok l) : r.tokensWithin source (fuel + 1) =
    if l.kind = .eof then .ok [r.token l]
    else (tokensWithin source fuel (r.behind l)).map (r.token l :: ·) := by
  simp only [tokensWithin, next_eq_ok.mpr ⟨l, h, rfl, rfl⟩, bind, Except.bind]
  rw [show (r.token l).kind = l.kind from rfl]
  cases tokensWithin source fuel (r.behind l) <;> rfl

theorem tokensWithin_of_reads {fuel : Nat} {ts : List Token} (h : r.Reads ts)
    (hf : r.rest.length < fuel) : r.tokensWithin source fuel = .ok ts := by
  induction h generalizing fuel with
  | last hl hk =>
    obtain ⟨fuel, rfl⟩ := Nat.exists_eq_add_one_of_ne_zero (Nat.ne_zero_of_lt hf)
    rw [tokensWithin_succ hl, if_pos hk]
  | cons hl hk _ ih =>
    obtain ⟨fuel, rfl⟩ := Nat.exists_eq_add_one_of_ne_zero (Nat.ne_zero_of_lt hf)
    have hlength := length_behind hl hk
    rw [tokensWithin_succ hl, if_neg hk, ih (by omega)]
    rfl

theorem tokensWithin_of_fails {fuel : Nat} {f : Fault} (h : r.Fails source f)
    (hf : r.rest.length < fuel) : r.tokensWithin source fuel = .error f := by
  induction h generalizing fuel with
  | here hl =>
    obtain ⟨fuel, rfl⟩ := Nat.exists_eq_add_one_of_ne_zero (Nat.ne_zero_of_lt hf)
    simp only [tokensWithin, next_eq, hl, bind, Except.bind]
  | behind hl hk _ ih =>
    obtain ⟨fuel, rfl⟩ := Nat.exists_eq_add_one_of_ne_zero (Nat.ne_zero_of_lt hf)
    have hlength := length_behind hl hk
    rw [tokensWithin_succ hl, if_neg hk, ih (by omega)]
    rfl

end Reader

variable {text : String}

theorem tokenize_of_reads {ts : List Token} (h : Reader.Reads { rest := text.toList } ts) :
    tokenize text = .ok ts :=
  Reader.tokensWithin_of_reads h (by simp [String.length])

theorem tokenize_of_fails {f : Fault} (h : Reader.Fails text { rest := text.toList } f) :
    tokenize text = .error f :=
  Reader.tokensWithin_of_fails h (by simp [String.length])

theorem tokenize_eq_ok {ts : List Token} :
    tokenize text = .ok ts ↔ Reader.Reads { rest := text.toList } ts := by
  refine ⟨fun h => ?_, tokenize_of_reads⟩
  obtain ⟨us, hus⟩ | ⟨f, hf⟩ := Reader.reads_or_fails text { rest := text.toList }
  · obtain rfl := Except.ok.inj (h.symm.trans (tokenize_of_reads hus))
    exact hus
  · rw [tokenize_of_fails hf] at h
    cases h

theorem tokenize_eq_error {f : Fault} :
    tokenize text = .error f ↔ Reader.Fails text { rest := text.toList } f := by
  refine ⟨fun h => ?_, tokenize_of_fails⟩
  obtain ⟨us, hus⟩ | ⟨g, hg⟩ := Reader.reads_or_fails text { rest := text.toList }
  · rw [tokenize_of_reads hus] at h
    cases h
  · obtain rfl := Except.error.inj (h.symm.trans (tokenize_of_fails hg))
    exact hg

end Pipework.Token
