import Pipework.Proofs.Token.Spelling
import Pipework.Task.Printer

/-! Values and statuses are read back as what they were before they were quoted. A value has quotes
exactly where it would not be read whole without them, and reading takes no others off. -/

namespace Pipework.Token

open Text

namespace Reader

variable {source v : String} {r r' : Reader} {gap cs raw rest : List Char} {l : Lexeme} {t : Token}

/-- The next token is the only one on the characters behind the white space, and takes all of them. -/
structure Takes (source : String) (r : Reader) (gap raw rest : List Char) (t : Token)
    (r' : Reader) : Prop where
  next : r.next source = .ok (t, r')
  start : t.start = r.offset + byteLength gap
  stop : t.stop = t.start + byteLength raw
  offset : r'.offset = t.stop
  rest : r'.rest = rest
  expects : r'.expectsValue = (t.kind == .equals)

theorem takes_of_lexeme (h : r.lexeme = .ok l) :
    r.Takes source r.gap l.raw l.rest (r.token l) (r.behind l) :=
  ⟨next_eq_ok.mpr ⟨l, h, rfl, rfl⟩, rfl, rfl, rfl, rfl, rfl⟩

/-- Where no value starts, the next token is the one behind the white space. -/
theorem takes_of_scan (h : scan cs = .ok l) (hstarts : r.startsValue = false)
    (hgap : gap.all isBlank = true) (hcs : ∀ c ∈ cs.head?, isBlank c = false)
    (hr : r.rest = gap ++ cs) : ∃ t r', r.Takes source gap l.raw l.rest t r' ∧ t.kind = l.kind := by
  obtain ⟨htake, hdrop⟩ := takeWhile_gap hgap hcs
  have hlexeme : r.lexeme = .ok l := by
    rw [lexeme, if_neg (by simp [hstarts]), hr, hdrop, h]
  have htakes := @takes_of_lexeme source r l hlexeme
  rw [Reader.gap, hr, htake] at htakes
  exact ⟨_, _, htakes, rfl⟩

/-! ## Values -/

theorem takes_quoteValue (hexpects : r.expectsValue = true)
    (hr : r.rest = (quoteValue v).toList ++ rest) (hrest : StopsValue rest) :
    ∃ t r', r.Takes source [] (quoteValue v).toList rest t r' ∧
      (t.kind = .literal v ∨ t.kind = .identifier v) := by
  obtain ⟨k, raw, hscan, hk⟩ := scanValue_quoteValue v hrest
  obtain rfl : raw = (quoteValue v).toList := List.append_cancel_right (scanValue_append hscan).1
  have hstarts : r.startsValue = true := by
    rw [show r.startsValue = Token.startsValue r.expectsValue r.rest from rfl, hexpects, hr]
    exact startsValue_quoteValue v
  have hlexeme : r.lexeme = .ok ⟨k, (quoteValue v).toList, rest⟩ := by
    rw [lexeme, if_pos hstarts, hr, hscan]
  have htakes := @takes_of_lexeme source r _ hlexeme
  rw [gap_of_startsValue hstarts] at htakes
  exact ⟨_, _, htakes, hk⟩

/-! ## Statuses -/

/-- White space is no part of a value, so none starts behind it. -/
theorem startsValue_of_gap (hexpects : r.expectsValue = true → gap ≠ [])
    (hgap : gap.all isBlank = true) (hr : r.rest = gap ++ rest) : r.startsValue = false := by
  cases gap with
  | nil =>
    have hexpects : r.expectsValue = false := by simpa using hexpects
    rw [startsValue, hexpects]
    rfl
  | cons c gap =>
    have hc : isBlank c = true := by simp_all
    rw [startsValue, hr]
    simp [endsValue, hc]

theorem takes_quoteStatus (hexpects : r.expectsValue = true → gap ≠ []) (hgap : gap.all isBlank = true)
    (hrest : rest.head? ≠ some '\'') (hr : r.rest = gap ++ ((quoteStatus v).toList ++ rest)) :
    ∃ t r', r.Takes source gap (quoteStatus v).toList rest t r' ∧ t.kind = .literal v := by
  have hstarts := startsValue_of_gap hexpects hgap hr
  have hquote : (quoteStatus v).toList = quote v.toList := String.toList_ofList
  rw [hquote] at hr ⊢
  have hscan := scan_quote v.toList hrest
  rw [String.ofList_toList] at hscan
  have hhead : ∀ c ∈ (quote v.toList ++ rest).head?, isBlank c = false := by
    simp [quote_eq, quotedBy]
    decide
  exact takes_of_scan hscan hstarts hgap hhead hr

theorem takes_arrow (hexpects : r.expectsValue = false) (hr : r.rest = '-' :: '>' :: rest) :
    ∃ t r', r.Takes source [] ['-', '>'] rest t r' ∧ t.kind = .arrow := by
  have hstarts := @startsValue_of_gap r [] _ (by simp [hexpects]) rfl hr
  exact @takes_of_scan source r [] _ ⟨.arrow, ['-', '>'], rest⟩ rfl hstarts rfl (by simp; decide) hr

end Reader

/-- What is written for a value is read right behind `=` as one token with the text of the value, up
to whatever ends a value. What is written for a status is read before an arrow as one literal,
wherever a token may start but right behind `=`, where a value does. -/
theorem next_undoes_quoting (source v : String) :
    (∀ before equals r rest, Reader.next source before = .ok (equals, r) → equals.kind = .equals →
        r.rest = (quoteValue v).toList ++ rest →
        (∀ c ∈ rest.head?, isBlank c = true ∨ c = '|' ∨ c = ';' ∨ c = '>') →
      ∃ t r', r.Takes source [] (quoteValue v).toList rest t r' ∧ t.start = equals.stop ∧
        t.text = v ∧ (t.kind = .literal v ∨ t.kind = .identifier v)) ∧
    ∀ (r : Reader) gap rest, (r.expectsValue = true → gap ≠ []) → gap.all isBlank = true →
        r.rest = gap ++ ((Task.Condition.exitStatus v).render.toList ++ '-' :: '>' :: rest) →
      ∃ t r' arrow r'', r.Takes source gap (Task.Condition.exitStatus v).render.toList
          ('-' :: '>' :: rest) t r' ∧ t.kind = .literal v ∧
        r'.Takes source [] ['-', '>'] rest arrow r'' ∧ arrow.kind = .arrow := by
  constructor
  · intro before equals r rest hbefore hequals hr hrest
    obtain ⟨hoffset, -, hexpects⟩ := next_reader hbefore
    rw [hequals] at hexpects
    have hstops : StopsValue rest := fun c hc => by
      simpa [endsValue, or_assoc] using hrest c hc
    obtain ⟨t, r', htakes, hk⟩ := @Reader.takes_quoteValue source v r rest hexpects hr hstops
    refine ⟨t, r', htakes, by rw [htakes.start, hoffset]; rfl, ?_, hk⟩
    obtain hk | hk := hk <;> rw [Token.text, hk] <;> rfl
  · intro r gap rest hexpects hgap hr
    obtain ⟨t, r', htakes, hk⟩ :=
      @Reader.takes_quoteStatus source v r gap _ hexpects hgap (by simp) hr
    have hbehind : r'.expectsValue = false := by
      rw [htakes.expects, hk]
      rfl
    obtain ⟨arrow, r'', harrow, ha⟩ := @Reader.takes_arrow source r' rest hbehind htakes.rest
    exact ⟨t, r', arrow, r'', htakes, hk, harrow, ha⟩

/-- A value that is quoted for its quote and its bar, and a status behind a name and white space. -/
theorem next_undoes_quoting_bar :
    (∃ equals r t r', Reader.next "k='it''s |'; x" ⟨"='it''s |'; x".toList, 1, 1, 2, false⟩ =
        .ok (equals, r) ∧ equals.kind = .equals ∧
      r.Takes "k='it''s |'; x" [] "'it''s |'".toList "; x".toList t r' ∧ t.text = "it's |") ∧
    ∃ t r', Reader.Takes "a 'it''s |'->b" ⟨" 'it''s |'->b".toList, 1, 1, 2, false⟩ [' ']
      "'it''s |'".toList ['-', '>', 'b'] t r' ∧ t.kind = .literal "it's |" := by
  have hvalue : (quoteValue "it's |").toList = "'it''s |'".toList := by decide +kernel
  have hstatus : (Task.Condition.exitStatus "it's |").render.toList = "'it''s |'".toList := by
    decide +kernel
  constructor
  · have hequals := (@Reader.next_eq_ok ⟨"='it''s |'; x".toList, 1, 1, 2, false⟩ _
      "k='it''s |'; x" _).mpr ⟨⟨.equals, ['='], "'it''s |'; x".toList⟩, rfl, rfl, rfl⟩
    obtain ⟨t, r', htakes, -, htext, -⟩ := (next_undoes_quoting "k='it''s |'; x" "it's |").1 _ _ _
      "; x".toList hequals rfl (by rw [hvalue]; rfl)
      fun c hc => .inr (.inr (.inl (Option.some.inj hc).symm))
    rw [hvalue] at htakes
    exact ⟨_, _, t, r', hequals, rfl, htakes, htext⟩
  · obtain ⟨t, r', -, -, htakes, hk, -⟩ := (next_undoes_quoting "a 'it''s |'->b" "it's |").2
      ⟨" 'it''s |'->b".toList, 1, 1, 2, false⟩ [' '] ['b'] (by simp) rfl (by rw [hstatus]; rfl)
    rw [hstatus] at htakes
    exact ⟨t, r', htakes, hk⟩

/-- Right behind `=` the quotes do not close a value, and the hyphen of the arrow goes with it. -/
theorem not_literal_behind_equals : ∃ equals r t r' u r'',
    Reader.next "='a'->b" { rest := "='a'->b".toList } = .ok (equals, r) ∧ equals.kind = .equals ∧
      r.rest = (Task.Condition.exitStatus "a").render.toList ++ '-' :: '>' :: ['b'] ∧
      r.next "='a'->b" = .ok (t, r') ∧ t.kind = .identifier "'a'-" ∧
      r'.next "='a'->b" = .ok (u, r'') ∧ u.kind = .gt := by
  have hequals := (@Reader.next_eq_ok { rest := "='a'->b".toList } _ "='a'->b" _).mpr
    ⟨⟨.equals, ['='], "'a'->b".toList⟩, rfl, rfl, rfl⟩
  have hvalue := (@Reader.next_eq_ok ⟨"'a'->b".toList, 1, 1, 2, true⟩ _ "='a'->b" _).mpr
    ⟨⟨.identifier "'a'-", "'a'-".toList, ['>', 'b']⟩, rfl, rfl, rfl⟩
  have hgt := (@Reader.next_eq_ok ⟨['>', 'b'], 5, 1, 6, false⟩ _ "='a'->b" _).mpr
    ⟨⟨.gt, ['>'], ['b']⟩, rfl, rfl, rfl⟩
  exact ⟨_, _, _, _, _, _, hequals, rfl, by decide +kernel, hvalue, rfl, hgt, rfl⟩

end Pipework.Token
