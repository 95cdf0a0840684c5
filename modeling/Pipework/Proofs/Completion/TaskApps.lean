import Pipework.Proofs.Completion.Continuation
import Pipework.Proofs.Token.Operators

/-! Proposals for a task are the tokens that were typed and one app more, or with an app's name in place
of one that has been begun; and the app stands where the grammar of tasks takes one. -/

namespace Pipework.Completion.Task

open Text Token

/-! ## Places of apps -/

/-- An app can stand behind tokens of these kinds. -/
inductive TakesApp : List Kind → Prop
  | start : TakesApp []
  | operator {ks : List Kind} {k : Kind} :
      k ∈ [Kind.andAnd, .doublePipe, .lt, .lparen, .arrow] → TakesApp (ks ++ [k])
  /-- Behind a label, but not behind the colon of a jump. -/
  | label {ks : List Kind} : ks.getLast? ≠ some .arrow → TakesApp (ks ++ [.colon])

theorem gapAfter_eq_some {k : Kind} {gap : String} (h : gapAfter k = some gap) :
    k ∈ [Kind.andAnd, .doublePipe, .lt, .lparen, .arrow] ∧ gap.toList.all isBlank = true := by
  unfold gapAfter at h
  split at h <;> cases h <;> exact ⟨by decide, by decide⟩

theorem takesApp_of_startsApp {ks : List Kind} (h : startsApp ks = true) : TakesApp ks.reverse := by
  unfold startsApp at h
  split at h
  · exact .start
  · next before =>
    rw [List.reverse_cons]
    refine .label ?_
    rw [List.getLast?_reverse]
    simpa using h
  · next k before _ =>
    obtain ⟨gap, hgap⟩ := Option.isSome_iff_exists.mp h
    rw [List.reverse_cons]
    exact .operator (gapAfter_eq_some hgap).1

/-- An app stands behind nothing, or behind an operator that its name does not go on with. -/
theorem TakesApp.last {ks : List Kind} (h : TakesApp ks) :
    ks = [] ∨ ∃ init k, ks = init ++ [k] ∧ k.isClosed = true ∧ k ≠ .equals := by
  cases h with
  | start => exact .inl rfl
  | operator hk =>
    refine .inr ⟨_, _, rfl, ?_⟩
    fin_cases hk <;> decide
  | label => exact .inr ⟨_, _, rfl, by decide⟩

/-! ## Tokens of a text -/

/-- The kinds of the tokens before `eof`. -/
def kindsOf (ts : List Token) : List Kind := (ts.filter fun t => t.kind != .eof).map Token.kind

theorem kindsOf_eq {text : String} {ts : List Token} {us : List View} {v : View}
    (h : tokenize text = .ok ts) (hv : viewsOf none ts = unglued (us ++ [v])) :
    kindsOf ts = us.map View.kind := by
  obtain ⟨front, t, rfl, ht, hfront⟩ := exists_eof_of_tokenize h
  have hkinds : (front ++ [t]).map Token.kind = (us ++ [v]).map View.kind := by
    rw [← viewsOf_kinds none, hv, unglued_kinds]
  rw [List.map_append, List.map_append] at hkinds
  have hshown : (front ++ [t]).filter (fun t => t.kind != .eof) = front := by
    rw [List.filter_append, List.filter_eq_self.mpr (by simpa using hfront)]
    simp [ht]
  rw [kindsOf, hshown]
  exact (List.append_inj' hkinds rfl).1

/-- A text is cut into its tokens up to the white space at its end. -/
theorem exists_lexes {text : String} {ts : List Token} (h : tokenize text = .ok ts) :
    ∃ us e gap, Lexes false text.toList us e gap ∧ gap.all isBlank = true ∧
      kindsOf ts = us.map View.kind := by
  obtain ⟨vs, hvs, hv⟩ := lexesAll_of_tokenize h
  obtain ⟨us, v, e, gap, rfl, -, hlex, hgap⟩ := hvs.exists_lexes
  exact ⟨us, e, gap, hlex, hgap, kindsOf_eq h hv⟩

section

variable {e : Bool} {cs mid : List Char} {us : List View} {v : View}

theorem head?_ne_gt {gap name : List Char} (hgap : gap.all isBlank = true)
    (hname : ∀ c ∈ name.head?, startsName c = true) : (gap ++ name).head? ≠ some '>' := by
  cases gap with
  | nil =>
    intro h
    exact absurd (hname _ h) (by decide)
  | cons c gap =>
    simp only [List.all_cons, Bool.and_eq_true] at hgap
    rintro ⟨⟩
    exact absurd hgap.1 (by decide)

/-- A name behind white space, where no value starts. -/
theorem exists_name_of_cut {text : String} (h : cut false cs = some (v, mid))
    (hk : v.kind = .identifier text) : ∃ gap, cs = gap ++ (text.toList ++ mid) ∧
      gap.all isBlank = true ∧ isNameWord text.toList = true ∧ endsBlank text.toList = false := by
  obtain ⟨hs, -⟩ | ⟨-, l, hl, rfl, rfl⟩ := cut_eq_some.mp h
  · cases hs
  · have hk : l.kind = .identifier text := hk
    have hname : l.kind.isName = true := by
      rw [hk]
      rfl
    have hraw : l.raw = text.toList := by
      rw [(standsOn_of_scan hl).eq_name hname, hk]
      rfl
    have hword := (isWord_of_scan hl hname).symbol
    rw [hk] at hword
    refine ⟨cs.takeWhile isBlank, ?_, List.all_takeWhile, hword, hraw ▸ endsBlank_scan hl⟩
    rw [← hraw, (scan_append hl).1, List.takeWhile_append_dropWhile]

/-- What comes where an app can stand can be exchanged. -/
theorem lexes_takesApp (h : Lexes false cs us e mid) (hus : TakesApp (us.map View.kind)) :
    e = false ∧ ∃ front, cs = front ++ mid ∧ endsBlank front = false ∧ ∀ rest,
      (mid.head? = some '>' ↔ rest.head? = some '>') → Lexes false (front ++ rest) us false rest := by
  obtain hnil | ⟨init, k, hk, hclosed, hequals⟩ := hus.last
  · obtain rfl := List.map_eq_nil_iff.mp hnil
    cases h
    exact ⟨rfl, [], rfl, rfl, fun _ _ => .nil⟩
  · obtain ⟨init, ws, rfl, -, hws⟩ := List.map_eq_append_iff.mp hk
    obtain ⟨v, rfl, rfl⟩ := List.map_eq_singleton_iff.mp hws
    obtain rfl : e = false := by
      obtain ⟨_, _, -, hlast⟩ := h.of_append
      cases hlast with
      | cons _ _ hnil =>
        cases hnil
        exact beq_eq_false_iff_ne.mpr hequals
    exact ⟨rfl, h.exchange hclosed⟩

/-- Where an app can stand, its name is the last token of the text that goes on with it. -/
theorem tokenize_takesApp (h : Lexes false cs us e mid) (hus : TakesApp (us.map View.kind))
    (hmid : mid.head? ≠ some '>') : ∃ front, cs = front ++ mid ∧ endsBlank front = false ∧
      ∀ gap name : String, gap.toList.all isBlank = true → isWord name = true →
        ∃ ts, tokenize (String.ofList front ++ gap ++ name) = .ok ts ∧
          kindsOf ts = us.map View.kind ++ [.ofName name.toList] := by
  obtain ⟨-, front, hcs, hblank, hlex⟩ := lexes_takesApp h hus
  refine ⟨front, hcs, hblank, fun gap name hgap hname => ?_⟩
  have hgt : (gap.toList ++ name.toList).head? ≠ some '>' := by
    obtain ⟨c, cs, hword, hc, -⟩ := isNameWord_iff.mp hname
    exact head?_ne_gt hgap (by simpa [hword] using hc)
  have hfront := hlex (gap.toList ++ name.toList) (iff_of_false hmid hgt)
  have hlast := @lexes_name false gap.toList [] name.toList hname trivial hgap (by simp)
  rw [List.append_nil] at hlast
  have hall := lexesAll_of_lexes (hfront.trans hlast)
  have htext : (String.ofList front ++ gap ++ name).toList = front ++ (gap.toList ++ name.toList) := by
    simp
  rw [← htext] at hall
  obtain ⟨ts, hts, hv⟩ := tokenize_of_lexesAll hall
  refine ⟨ts, hts, ?_⟩
  rw [kindsOf_eq hts hv, List.map_append]
  rfl

end

/-! ## Proposals -/

/-- The kinds of the tokens of a proposal, beside those of what was typed: one app's name more, or the
name in place of one that it goes on from. -/
inductive Extends (name : String) : List Kind → List Kind → Prop
  | appended {ks : List Kind} : TakesApp ks → Extends name ks (ks ++ [.ofName name.toList])
  | finished {ks : List Kind} {text : String} : TakesApp ks → startsWith name text = true →
      Extends name (ks ++ [.identifier text]) (ks ++ [.ofName name.toList])

/-- The proposal adds one of the apps where an app can stand. -/
def AddsApp (apps : List Registration) (ks : List Kind) (p : Proposal) : Prop :=
  ∃ us, tokenize p.text = .ok us ∧ ∃ r ∈ apps, Extends r.name ks (kindsOf us)

section

variable {ctx : Context} {apps : List Registration} {typed : String} {ts : List Token}
  (hts : tokenize typed = .ok ts) (hw : ∀ r ∈ apps, isWord r.name = true)

include hts hw

/-- All apps behind an operator, or where nothing was typed. -/
theorem proposeAll_addsApp {gap : String} (hks : TakesApp (kindsOf ts))
    (hgap : gap.toList.all isBlank = true) :
    ∀ p ∈ proposeAll ctx apps (withoutTrailingBlanks typed ++ gap), AddsApp apps (kindsOf ts) p := by
  obtain ⟨us, e, blank, hlex, hblank, hkinds⟩ := exists_lexes hts
  rw [hkinds] at hks ⊢
  have hgt : blank.head? ≠ some '>' := by
    simpa using @head?_ne_gt blank [] hblank (by simp)
  obtain ⟨front, hfront, hends, hname⟩ := tokenize_takesApp hlex hks hgt
  have htrimmed : withoutTrailingBlanks typed = String.ofList front := by
    rw [withoutTrailingBlanks, hfront, trimEnd_append hends hblank]
  intro p hp
  obtain ⟨r, hr, rfl⟩ := List.mem_map.mp hp
  obtain ⟨us', hus', hkinds'⟩ := hname gap r.name hgap (hw r hr)
  refine ⟨us', ?_, r, hr, hkinds' ▸ .appended hks⟩
  rw [htrimmed]
  exact hus'

omit hw in
/-- Where an app can stand, any name can stand in place of the one that the text ends in. -/
theorem tokenize_renamed {lead : List Char} {text : String} {before : List Kind}
    (hks : kindsOf ts = before ++ [.identifier text]) (hbefore : TakesApp before)
    (htyped : typed = String.ofList lead ++ text) {name : String} (hname : isWord name = true) :
    ∃ us, tokenize (String.ofList lead ++ name) = .ok us ∧
      kindsOf us = before ++ [.ofName name.toList] := by
  obtain ⟨us, e, blank, hlex, hblank, hkinds⟩ := exists_lexes hts
  rw [hks] at hkinds
  obtain ⟨init, ws, rfl, rfl, hws⟩ := List.map_eq_append_iff.mp hkinds.symm
  obtain ⟨w, rfl, hw⟩ := List.map_eq_singleton_iff.mp hws
  obtain ⟨e', mid, hlex, hlast⟩ := hlex.of_append
  obtain rfl := (lexes_takesApp hlex hbefore).1
  cases hlast with
  | cons hcut _ hnil =>
    cases hnil
    obtain ⟨gap, rfl, hgap, hword, hends⟩ := exists_name_of_cut hcut hw
    obtain ⟨c, cs, htext, hc, -⟩ := isNameWord_iff.mp hword
    have hgt : (gap ++ (text.toList ++ blank)).head? ≠ some '>' :=
      head?_ne_gt hgap (by simpa [htext] using hc)
    obtain ⟨front, hfront, -, hrenamed⟩ := tokenize_takesApp hlex hbefore hgt
    -- What stands before the name that was begun is the same by its offset and by its tokens.
    have hends : ∀ before, endsBlank (before ++ text.toList) = false := fun before => by
      rw [endsBlank_append _ (by simp [htext]), hends]
    have hoffset : trimEnd typed.toList = lead ++ text.toList := by
      rw [htyped, String.toList_append, String.toList_ofList]
      exact trimEnd_eq_self (hends lead)
    have htokens : trimEnd typed.toList = front ++ gap ++ text.toList := by
      rw [hfront, ← List.append_assoc, ← List.append_assoc]
      exact trimEnd_append (hends _) hblank
    obtain rfl : lead = front ++ gap := List.append_cancel_right (hoffset.symm.trans htokens)
    have hall := hrenamed (String.ofList gap) name (by simpa using hgap) hname
    rwa [← String.ofList_append] at hall

/-- Apps whose names go on from the name at the end. -/
theorem finishName_addsApp {last : Token} {before : List Kind} (hmem : last ∈ ts)
    (hks : kindsOf ts = before.reverse ++ [last.kind]) :
    ∀ p ∈ finishName ctx apps typed last before, AddsApp apps (kindsOf ts) p := by
  unfold finishName
  split
  case h_2 => simp
  next text lead rest hkind hsplit =>
  split
  case isFalse => simp
  next hlast =>
  obtain ⟨hstop, hstarts⟩ := Bool.and_eq_true_iff.mp hlast
  have htyped := eq_append_of_lastName hts hmem hkind (by simpa using hstop) hsplit
  have htakes := takesApp_of_startsApp hstarts
  rw [hkind] at hks
  intro p hp
  obtain ⟨r, hr, rfl⟩ := List.mem_map.mp hp
  obtain ⟨hr, hprefix⟩ := List.mem_filter.mp hr
  obtain ⟨us, hus, hkinds⟩ := tokenize_renamed hts hks htakes htyped (hw r hr)
  rw [hks]
  exact ⟨us, hus, r, hr, hkinds ▸ .finished htakes hprefix⟩

theorem proposeAfter_addsApp :
    ∀ p ∈ proposeAfter ctx apps typed (ts.filter fun t => t.kind != .eof).reverse,
      AddsApp apps (kindsOf ts) p := by
  unfold proposeAfter
  split
  · next hnil =>
    have hks : kindsOf ts = [] := by
      rw [kindsOf, List.reverse_eq_nil_iff.mp hnil]
      rfl
    have heof : ∀ t ∈ ts, t.kind = .eof := by simpa using hnil
    have htrimmed : withoutTrailingBlanks typed = "" := by
      have htrim := @trimEnd_append [] _ rfl (blank_of_tiles (tiles_of_tokenize hts) heof)
      rw [withoutTrailingBlanks, show trimEnd typed.toList = [] from htrim]
    have hall := @proposeAll_addsApp ctx apps typed ts hts hw "" (hks ▸ .start) rfl
    rwa [htrimmed] at hall
  · next last before hlast =>
    have hshown : ts.filter (fun t => t.kind != .eof) = before.reverse ++ [last] := by
      rw [← List.reverse_reverse (ts.filter _), hlast, List.reverse_cons]
    have hks : kindsOf ts = (before.map Token.kind).reverse ++ [last.kind] := by
      rw [kindsOf, hshown, List.map_append, List.map_reverse]
      rfl
    split
    · next gap hgap =>
      obtain ⟨hk, hblank⟩ := gapAfter_eq_some hgap
      exact proposeAll_addsApp hts hw (hks ▸ .operator hk) hblank
    · have hmem : last ∈ ts.filter fun t => t.kind != .eof := by simp [hshown]
      exact finishName_addsApp hts hw (List.mem_filter.mp hmem).1 hks

end

/-- Every proposal for a text that can be cut into tokens is itself such a text: it has one app's name
more than was typed, or an app's name in place of the beginning of it that was typed last. -/
theorem gather_addsApp {ctx : Context} {registrations : List Registration}
    (hreg : ctx.registry = .ofList registrations)
    (hnames : ∀ r ∈ registrations, r.role = .task → IsNameToken r.name) {typed : String}
    {ts : List Token} (hts : tokenize typed = .ok ts) :
    ∃ proposals, gather ctx typed = .ok proposals ∧ ∀ p ∈ proposals,
      ∃ us, tokenize p.text = .ok us ∧ ∃ r ∈ registrations, r.role = .task ∧
        Extends r.name (kindsOf ts) (kindsOf us) := by
  have htask : ∀ r, r ∈ registrations.filter (fun r => [Role.task].contains r.role) ↔
      r ∈ registrations ∧ r.role = .task := fun r => by simp
  refine ⟨proposeAfter ctx (registrations.filter fun r => [Role.task].contains r.role) typed
    (ts.filter fun t => t.kind != .eof).reverse, ?_, fun p hp => ?_⟩
  · simp only [gather, hts, hreg]
    rfl
  · have hw : ∀ r ∈ registrations.filter (fun r => [Role.task].contains r.role),
        isWord r.name = true := fun r hr =>
      isNameToken_iff.mp (hnames r ((htask r).mp hr).1 ((htask r).mp hr).2)
    obtain ⟨us, hus, r, hr, hextends⟩ := proposeAfter_addsApp hts hw p hp
    exact ⟨us, hus, r, ((htask r).mp hr).1, ((htask r).mp hr).2, hextends⟩

theorem isNameToken_sample :
    ∀ r ∈ Sample.registrations, r.role = .task → IsNameToken r.name := by
  simp only [isNameToken_iff]
  decide +kernel

/-- A name is begun behind a value with operators in it, a hyphen before an arrow, and a label. -/
theorem gather_addsApp_begun : ∃ ts proposals,
    tokenize "<a- --k='&&' 0->b || c: ti" = .ok ts ∧
    gather sampleContext "<a- --k='&&' 0->b || c: ti" = .ok proposals ∧
    proposals.map Proposal.text =
      ["<a- --k='&&' 0->b || c: timestamp", "<a- --k='&&' 0->b || c: timestamp-batch"] ∧
    ∀ p ∈ proposals, ∃ us, tokenize p.text = .ok us ∧ ∃ r ∈ Sample.registrations, r.role = .task ∧
      Extends r.name (kindsOf ts) (kindsOf us) := by
  have hsome : (tokenize "<a- --k='&&' 0->b || c: ti").toOption.isSome = true := by decide +kernel
  obtain ⟨ts, hts⟩ := Option.isSome_iff_exists.mp hsome
  have hts := toOption_eq_some.mp hts
  obtain ⟨proposals, hgather, hadds⟩ :=
    @gather_addsApp sampleContext _ rfl isNameToken_sample _ _ hts
  refine ⟨ts, proposals, hts, hgather, ?_, hadds⟩
  have htexts : (gather sampleContext "<a- --k='&&' 0->b || c: ti").toOption.map
      (fun proposals => proposals.map Proposal.text) =
        some ["<a- --k='&&' 0->b || c: timestamp", "<a- --k='&&' 0->b || c: timestamp-batch"] := by
    decide +kernel
  rw [hgather] at htexts
  exact Option.some.inj htexts

end Pipework.Completion.Task
