import Pipework.Proofs.Parser.Refuses
import Pipework.Proofs.Stream.Printing
import Pipework.Proofs.Token.Boundary
import Pipework.Text.Affix

/-! What can be done to the end of a text that is a stream: white space there can be left out, and an
app that is piped behind the last one is added to the stream. -/

namespace Pipework.Stream

open Token Pipework.Parser

variable {text : String} {s t : Stream}

/-! ## Texts and their views -/

/-- Whatever white space ends the text of a stream, its views are there before any text that starts
with white space. -/
theorem exists_spells_of_parse (h : parse text = .ok s) :
    ∃ us e, us ≠ [] ∧ Spells (unglued us) s.withoutPositions ∧
      ∀ rest, onset rest = none → Lexes false (Text.trimEnd text.toList ++ rest) us e rest := by
  obtain ⟨ws, us, v, t, hl, hu, hv, hs, ht, -, -⟩ := spells_of_parseNamed h
  obtain ⟨vs, w, e, rfl, hw, hl⟩ := hl.trimmed
  have ht : s.withoutPositions = t := by simpa using ht
  have hne : vs ≠ [] := by
    rintro rfl
    obtain ⟨rfl, -⟩ := @List.append_inj' _ [] _ _ _ hu rfl
    exact hs.ne_nil rfl
  rw [unglued_append hne] at hu
  obtain ⟨rfl, -⟩ := List.append_inj' hu rfl
  exact ⟨vs, e, hne, ht ▸ hs, hl⟩

theorem isLegalName_of_parse (h : parse text = .ok s) :
    ∀ n ∈ s.withoutPositions.name, Text.isLegalName n = true := by
  obtain ⟨-, -, -, -, -, -, -, -, -, hlegal, -⟩ := spells_of_parseNamed h
  exact hlegal

theorem nodup_of_parse (h : parse text = .ok s) : s.labelNames.Nodup := by
  obtain ⟨-, -, -, -, -, -, -, -, -, -, hn⟩ := spells_of_parseNamed h
  exact hn

theorem parse_eq_error {ts : List Token} {f : Fault} (hts : tokenize text = .ok ts)
    (h : Refuses (Read.definition none) (.ofTokens text ts) f) : parse text = .error f := by
  unfold Refuses at h
  simp [parse, parseNamed, hts, h, bind, Except.bind, StateT.run]

theorem parse_eq_error_of_tokenize {text : String} {f : Fault} (h : tokenize text = .error f) :
    parse text = .error f := by
  simp [parse, parseNamed, h, bind, Except.bind]

/-- A body that is read is refused for the clashes of its labels, at the first of them. -/
theorem parseNamed_of_clash {name : Option String} {ts : List Token} {d : Cursor}
    {clash : LabelClash} {rest : List LabelClash} (hts : tokenize text = .ok ts)
    (h : Reads Read.body (.ofTokens text ts) s d)
    (hlegal : ∀ n ∈ s.name <|> name, Text.isLegalName n = true)
    (hclash : s.clashes = clash :: rest) :
    parseNamed name text = .error { d.fault clash.secondOffset .duplicateLabel clash.inserts with
      clashes := clash :: rest } := by
  have hname : Reads (Read.requireLegalName (s.name <|> name)) d () d :=
    reads_requireLegalName.mpr ⟨hlegal, rfl⟩
  have hlabels : Refuses (Read.requireUniqueLabels { s with name := s.name <|> name }) d
      { d.fault clash.secondOffset .duplicateLabel clash.inserts with clashes := clash :: rest } := by
    have hclash : ({ s with name := s.name <|> name } : Stream).clashes = clash :: rest := hclash
    rw [Refuses, Read.requireUniqueLabels, hclash]
  have hdef : Refuses (Read.definition name) (.ofTokens text ts) _ :=
    h.refuses (hname.refuses hlabels.bind)
  unfold Refuses at hdef
  simp [parseNamed, hts, hdef, bind, Except.bind, StateT.run]

section

variable {us : List View} {e : Bool} (hl : Lexes false text.toList us e []) (hne : us ≠ [])
  (ht : Spells (unglued us) t) (hlegal : ∀ n ∈ t.name, Text.isLegalName n = true)

include hl hne in
theorem lexesAll_of_text : ∃ (ws : List View) (v : View), LexesAll false text.toList ws ∧
    unglued ws = unglued us ++ [v] ∧ v = ⟨.eof, true, false⟩ :=
  ⟨us ++ [⟨.eof, true, false⟩], ⟨.eof, true, false⟩,
    hl.all_iff.mpr ⟨_, rfl, .last (by cases e <;> rfl) rfl⟩, unglued_append hne _, rfl⟩

include hl hne ht hlegal

theorem parse_of_lexes (hn : t.labelNames.Nodup) :
    ∃ m, parse text = .ok m ∧ m.withoutPositions = t := by
  obtain ⟨ws, v, hws, hu, -⟩ := lexesAll_of_text hl hne
  obtain ⟨m, hm, hs⟩ := @parseNamed_of_spells none _ _ _ _ _ hws hu ht (by simpa using hlegal) hn
  exact ⟨m, hm, by simpa using hs⟩

/-- What is written like a stream is refused if two of its labels are one. -/
theorem parse_of_clash (hn : ¬ t.labelNames.Nodup) :
    ∃ f, parse text = .error f ∧ f.message = .duplicateLabel := by
  obtain ⟨ws, v, hws, hu, -⟩ := lexesAll_of_text hl hne
  obtain ⟨ts, hts, hv⟩ := tokenize_of_lexesAll hws
  rw [← sightsOf_dropLast_views hts hv hu] at ht
  obtain ⟨b, hb, rfl⟩ := ht.exists_derives text
  rw [labelNames_withoutPositions] at hn
  obtain ⟨w, hc, hw, -⟩ := sights_ofTokens hts
  obtain ⟨d, hd, -⟩ := hb.reads rfl hc ⟨w.toView, [], rfl, hw⟩
  rw [← clashes_eq_nil] at hn
  obtain ⟨clash, rest, hclash⟩ := List.exists_cons_of_ne_nil hn
  change ∀ n ∈ b.name, _ at hlegal
  exact ⟨_, parseNamed_of_clash hts hd (by simpa using hlegal) hclash, rfl⟩

end

/-! ## White space at the end -/

/-- The end of a text behind white space. -/
theorem cut_end {gap : List Char} (hg : gap.all Text.isBlank = true) (e : Bool) :
    cut e gap = some (⟨.eof, gap.isEmpty, gap.contains '\n'⟩, []) := by
  cases gap with
  | nil => cases e <;> rfl
  | cons c gap =>
    have := @cut_of_scan e (c :: gap) [] ⟨.eof, [], []⟩ rfl hg (by simp) (by simp)
    rwa [List.append_nil] at this

/-- Whatever white space the text of a stream ends in, a stream of that shape is read from it. -/
theorem parse_before_blank (h : parse text = .ok s) {gap : List Char} {next : String}
    (hg : gap.all Text.isBlank = true) (hnext : next.toList = Text.trimEnd text.toList ++ gap) :
    ∃ m, parse next = .ok m ∧ m.withoutPositions = s.withoutPositions := by
  obtain ⟨us, e, hne, hs, hl⟩ := exists_spells_of_parse h
  have hlex := hl gap (onset_eq_none_of_all hg)
  rw [← hnext] at hlex
  have hall := hlex.all_iff.mpr ⟨_, rfl, .last (cut_end hg e) rfl⟩
  have hlabels : s.withoutPositions.labelNames.Nodup := by
    rw [labelNames_withoutPositions]
    exact nodup_of_parse h
  obtain ⟨m, hm, hshape⟩ := @parseNamed_of_spells none _ _ _ _ _ hall (unglued_append hne _) hs
    (by simpa using isLegalName_of_parse h) hlabels
  exact ⟨m, hm, by simpa using hshape⟩

/-- A stream is read from its text without the white space at the end too. -/
theorem parse_trimmed (h : parse text = .ok s) : ∃ m,
    parse (Text.withoutTrailingBlanks text) = .ok m ∧ m.withoutPositions = s.withoutPositions :=
  @parse_before_blank _ _ h [] _ rfl (by simp [Text.withoutTrailingBlanks])

/-! ## One more app -/

section

variable {us vs : List View} {pipe : View} {a : App} (hp : pipe.kind = .pipe) (ha : a.Spells vs)

include hp ha

theorem Row.append {as : List App} (h : Row us as false) :
    Row (us ++ pipe :: vs) (as ++ [a]) false := by
  cases h with
  | bound hb hm =>
    have hlast : Many (After .pipe App.Spells) (pipe :: vs) [a] := by
      simpa using Many.cons (After.mk hp ha) .nil
    rw [List.append_assoc]
    exact .bound hb (hm.append hlast)

theorem Body.append (h : Body us t) (hsink : t.sink = none) (hbound : t.unbound = false) :
    Body (us ++ pipe :: vs) { t with apps := t.apps ++ [a] } := by
  cases h with
  | bridge => cases hsink
  | apart => cases hbound
  | @row vs' us' _ apps source _ hs hrow hk hopen =>
    obtain rfl := hsink
    cases hk
    have := Body.row hs (hrow.append hp ha) .none fun ho => ?_
    · simpa using this
    · rw [opensKeyword_append hrow.ne_nil (by simp [hp])] at ho
      exact ⟨(hopen ho).1, .inl rfl⟩

theorem Spells.append (h : Spells us t) (hsink : t.sink = none) (hbound : t.unbound = false) :
    Spells (us ++ pipe :: vs) { t with apps := t.apps ++ [a] } := by
  cases h with
  | unnamed hb => exact .unnamed (hb.append hp ha hsink hbound)
  | named hn hk hb => exact .named hn hk (hb.append hp ha hsink hbound)

end

theorem exists_lexes_piped {a : App} (ha : a.IsWritable) {gap : List Char}
    (hg : gap.all Text.isBlank = true) (hne : gap ≠ []) (e : Bool) :
    ∃ pipe vs, pipe.kind = .pipe ∧ a.withoutPosition.Spells vs ∧
      Lexes e (gap ++ '|' :: ' ' :: a.render.toList) (pipe :: vs) false [] := by
  obtain ⟨k, vs, hs, hl⟩ := @prints_app [] a ha (by simp [Ends])
  have hpipe := @cut_of_scan e gap ('|' :: ' ' :: a.render.toList) _ (scan_pipe (by simp)) hg
    (by simp; decide) (fun _ => hne)
  have happ := hl false [' '] rfl (by simp)
  rw [List.append_nil] at happ
  exact ⟨_, _, rfl, hs false false, .cons hpipe (by simp) happ⟩

/-- An app behind a pipe is added to a stream that goes on, if it is called something new. -/
theorem parse_piped (h : parse text = .ok s) (hsink : s.sink = none) (hbound : s.unbound = false)
    {a : App} (ha : a.IsWritable) (hnew : a.labelName ∉ s.labelNames) {gap : List Char}
    (hg : gap.all Text.isBlank = true) (hne : gap ≠ []) {next : String}
    (hnext : next.toList = Text.trimEnd text.toList ++ (gap ++ '|' :: ' ' :: a.render.toList)) :
    ∃ m, parse next = .ok m ∧ m.withoutPositions =
      { s.withoutPositions with apps := s.withoutPositions.apps ++ [a.withoutPosition] } := by
  obtain ⟨us, e, hus, hs, hl⟩ := exists_spells_of_parse h
  obtain ⟨pipe, vs, hp, hvs, hl'⟩ := exists_lexes_piped ha hg hne e
  have hlex := (hl _ (onset_of_gap hg hne _)).trans hl'
  rw [← hnext] at hlex
  refine parse_of_lexes hlex (by simp) ?_ (fun n hn => isLegalName_of_parse h n hn) ?_
  · rw [unglued_append hus]
    exact hs.append hp hvs (by simp [withoutPositions, hsink]) hbound
  · have hn := nodup_of_parse h
    rw [← labelNames_withoutPositions] at hn hnew
    simp only [labelNames, List.map_append, List.map_singleton, labelName_withoutPosition,
      List.nodup_append, List.mem_singleton] at hn hnew ⊢
    exact ⟨hn, List.nodup_singleton _, fun b hb c hc he => hnew (hc ▸ he ▸ hb)⟩

end Pipework.Stream
