import Pipework.Completion.Task
import Pipework.Proofs.Completion.OptionNames
import Pipework.Proofs.Completion.Ranking
import Pipework.Proofs.Token.Misreading

/-! Proposals go on from what was typed, white space aside. Every strategy keeps what was typed in its
own way; only where an option has been begun with one dash, the proposals have two. -/

namespace Pipework.Completion

open Text Token

/-- The characters of a text that are not white space. -/
def inked (cs : List Char) : List Char := cs.filter fun c => !isBlank c

/-- White space aside, the text starts with what was typed. -/
def Continues (typed text : String) : Prop := inked typed.toList <+: inked text.toList

instance (typed text : String) : Decidable (Continues typed text) := by
  unfold Continues
  infer_instance

/-! ## White space -/

theorem inked_append (a b : List Char) : inked (a ++ b) = inked a ++ inked b := List.filter_append ..

theorem inked_of_blank {gap : List Char} (h : gap.all isBlank = true) : inked gap = [] := by
  refine List.filter_eq_nil_iff.mpr fun c hc => ?_
  rw [List.all_eq_true.mp h c hc]
  decide

theorem inked_of_notBlank {cs : List Char} (h : ∀ c ∈ cs, isBlank c = false) : inked cs = cs := by
  refine List.filter_eq_self.mpr fun c hc => ?_
  rw [h c hc]
  rfl

theorem inked_trimEnd (cs : List Char) : inked (trimEnd cs) = inked cs := by
  obtain ⟨gap, hgap, hblank⟩ := exists_gap cs
  conv => rhs; rw [hgap, inked_append, inked_of_blank hblank, List.append_nil]

section

variable {typed text lead tail name : String}

theorem continues_of_prefix (h : typed.toList <+: text.toList) : Continues typed text := h.filter _

theorem continues_append (typed more : String) : Continues typed (typed ++ more) :=
  continues_of_prefix (by simp)

/-- White space at the end is not kept. -/
theorem continues_trimmed (typed more : String) :
    Continues typed (withoutTrailingBlanks typed ++ more) := by
  unfold Continues withoutTrailingBlanks
  rw [String.toList_append, String.toList_ofList, inked_append, inked_trimEnd]
  exact List.prefix_append _ _

theorem continues_of_blank (h : typed.toList.all isBlank = true) : Continues typed text := by
  unfold Continues
  rw [inked_of_blank h]
  exact List.nil_prefix

/-- The last part is exchanged for one that goes on from it. -/
theorem continues_of_startsWith (htyped : typed = lead ++ tail) (h : startsWith name tail = true) :
    Continues typed (lead ++ name) := by
  refine continues_of_prefix ?_
  rw [htyped, String.toList_append, String.toList_append]
  exact (List.prefix_append_right_inj _).mpr (startsWith_iff.mp h)

end

/-! ## Look-ups -/

section

variable {α β : Type} {P : β → Prop}

/-- What is found, if nothing fails, has the property. -/
def Gives (x : Except LookupFault β) (P : β → Prop) : Prop := ∀ b, x = .ok b → P b

theorem gives_pure {b : β} (h : P b) : Gives (pure b) P := by
  intro a ha
  obtain rfl := Except.ok.inj ha
  exact h

theorem Gives.bind {x : Except LookupFault α} {k : α → Except LookupFault β}
    (h : ∀ a, x = .ok a → Gives (k a) P) : Gives (x >>= k) P := by
  intro b hb
  cases hx : x with
  | error fault =>
    rw [hx] at hb
    cases hb
  | ok a =>
    rw [hx] at hb
    exact h a hx b hb

end

/-- Every proposal continues what was typed. -/
def AllContinue (typed : String) (proposals : List Proposal) : Prop :=
  ∀ p ∈ proposals, Continues typed p.text

theorem allContinue_nil (typed : String) : AllContinue typed [] := nofun

theorem allContinue_map {α : Type} {typed : String} {as : List α} {f : α → Proposal}
    (h : ∀ a ∈ as, Continues typed (f a).text) : AllContinue typed (as.map f) := by
  intro p hp
  obtain ⟨a, ha, rfl⟩ := List.mem_map.mp hp
  exact h a ha

/-! ## Expansions -/

section

variable (ctx : Context) (typed : String) (stream : Stream) (last : Stream.App)

theorem finishName_continues :
    Gives (Expansion.finishName ctx typed stream last) (AllContinue typed) := by
  unfold Expansion.finishName
  split
  · exact gives_pure (allContinue_nil typed)
  split
  · next lead hlead =>
    refine Gives.bind fun registrations _ => gives_pure (allContinue_map fun r hr => ?_)
    exact continues_of_startsWith (dropEnd?_eq_some hlead) (List.mem_filter.mp hr).2
  · exact gives_pure (allContinue_nil typed)

theorem addOption_continues :
    Gives (Expansion.addOption ctx typed stream last) (AllContinue typed) := by
  unfold Expansion.addOption
  refine Gives.bind fun r? _ => ?_
  split
  · refine gives_pure (allContinue_map fun o _ => ?_)
    simp only [Context.proposal, String.append_assoc]
    exact continues_trimmed typed _
  · exact gives_pure (allContinue_nil typed)

theorem pipe_continues : Gives (Expansion.pipe ctx typed stream last) (AllContinue typed) := by
  unfold Expansion.pipe
  split
  · exact gives_pure (allContinue_nil typed)
  refine Gives.bind fun feeds _ => ?_
  split
  · exact gives_pure (allContinue_nil typed)
  refine Gives.bind fun registrations _ => gives_pure fun p hp => ?_
  obtain ⟨r, -, hp⟩ := List.mem_filterMap.mp hp
  obtain ⟨app, -, rfl⟩ := Option.map_eq_some_iff.mp hp
  simp only [Context.proposal, String.append_assoc]
  exact continues_trimmed typed _

theorem finishValue_continues :
    Gives (Expansion.finishValue ctx typed stream last) (AllContinue typed) := by
  unfold Expansion.finishValue
  split
  · exact gives_pure (allContinue_nil typed)
  split
  case h_2 => exact gives_pure (allContinue_nil typed)
  dsimp only
  split
  case h_2 => exact gives_pure (allContinue_nil typed)
  next before hbefore =>
  refine Gives.bind fun r? _ => ?_
  split
  case h_2 => exact gives_pure (allContinue_nil typed)
  split
  case h_2 => exact gives_pure (allContinue_nil typed)
  refine gives_pure (allContinue_map fun h hh => ?_)
  have htyped := dropEnd?_eq_some hbefore
  rw [← String.append_assoc] at htyped
  exact continues_of_startsWith htyped (List.mem_filter.mp hh).2

theorem expansion_continues (e : Expansion) :
    Gives (e.propose ctx typed stream) (AllContinue typed) := by
  unfold Expansion.propose
  split
  · exact gives_pure (allContinue_nil typed)
  · next last _ =>
    cases e with
    | unfinishedAppName => exact finishName_continues ctx typed stream last
    | appOptions => exact addOption_continues ctx typed stream last
    | pipeIntoOtherApps => exact pipe_continues ctx typed stream last
    | valueHint => exact finishValue_continues ctx typed stream last

end

/-! ## Taps -/

section

variable {ctx : Context} {lead typed : String} {cs : List Char} {shape : TapShape}
  (htyped : typed.toList = lead.toList ++ cs) (hshape : tapShape? cs = some shape)

include htyped hshape

theorem tapStreams_continues : Gives (Recovery.tapStreams ctx lead shape) (AllContinue typed) := by
  unfold Recovery.tapStreams
  split
  · exact gives_pure (allContinue_nil typed)
  next hlabel =>
  refine Gives.bind fun streams _ => gives_pure (allContinue_map fun s hs => ?_)
  rcases toList_of_tapShape? hshape with ⟨-, rfl⟩ | ⟨label, h, -⟩
  · refine continues_of_startsWith (String.toList_injective ?_) (List.mem_filter.mp hs).2
    rw [htyped, String.toList_append]
  · rw [h] at hlabel
    exact absurd rfl hlabel

theorem tapApps_continues {streams : List StoredStream} (hstore : ctx.store = .ofList streams) :
    Gives (Recovery.tapApps ctx lead shape) (AllContinue typed) := by
  unfold Recovery.tapApps
  split
  · exact gives_pure (allContinue_nil typed)
  refine Gives.bind fun stream? hfind => ?_
  split
  case h_2 => exact gives_pure (allContinue_nil typed)
  next stream =>
  refine Gives.bind fun apps _ => gives_pure (allContinue_map fun a ha => ?_)
  have hname : stream.name = shape.stream := by
    rw [hstore] at hfind
    simpa using List.find?_some (Except.ok.inj hfind)
  have hstarts := (List.mem_filter.mp ha).2
  rcases toList_of_tapShape? hshape with ⟨-, rfl⟩ | ⟨label, hlabel, rfl⟩
  · refine continues_of_prefix ?_
    simp only [Context.proposal, hname, htyped, String.toList_append, List.append_assoc]
    exact (List.prefix_append_right_inj _).mpr (List.prefix_append _ _)
  · rw [hlabel] at hstarts
    have happ : typed = lead ++ stream.name ++ "." ++ label := by
      refine String.toList_injective ?_
      simp [htyped, hname]
    exact continues_of_startsWith happ hstarts

theorem tap_continues {streams : List StoredStream} (hstore : ctx.store = .ofList streams) :
    Gives (Recovery.tap ctx lead shape).found (AllContinue typed) := by
  have hstreams := @tapStreams_continues ctx _ _ _ _ htyped hshape
  have happs := tapApps_continues htyped hshape hstore
  unfold Recovery.tap
  intro ps hps
  cases hfirst : Recovery.tapStreams ctx lead shape with
  | error fault =>
    rw [hfirst] at hps
    cases hps
  | ok qs =>
    cases hsecond : Recovery.tapApps ctx lead shape with
    | error fault =>
      rw [hfirst, hsecond] at hps
      cases hps
    | ok rs =>
      rw [hfirst, hsecond] at hps
      obtain rfl := Except.ok.inj hps
      exact List.forall_mem_append.mpr ⟨hstreams qs hfirst, happs rs hsecond⟩

end

/-! ## One dash -/

/-- The text ends in white space, one dash and the start of a name. -/
def EndsInOneDash (typed : String) : Prop := ∃ front b name, typed.toList = front ++ b :: '-' :: name ∧
  isBlank b = true ∧ name ≠ [] ∧ name.head? ≠ some '-' ∧ name.all isOptionChar = true

/-- The text cannot be cut into tokens, so its fault is lexical. -/
theorem parse_of_oneDash {typed : String} (h : EndsInOneDash typed) :
    ∃ f, Stream.parse typed = .error f ∧ f.message.kind = .lexical := by
  obtain ⟨front, b, name, htyped, hb, -, hhyphen, hname⟩ := h
  have hoption : ∀ c ∈ name, isOptionChar c = true := List.all_eq_true.mp hname
  have hgt : name.head? ≠ some '>' := by
    intro hhead
    have := hoption '>' (List.mem_of_head? hhead)
    exact absurd this (by decide)
  have hquote : ∀ c ∈ name, isQuote c = false := by
    intro c hc
    by_contra hq
    have hoption := hoption c hc
    simp only [isQuote, Bool.not_eq_false, Bool.or_eq_true, beq_iff_eq] at hq
    rcases hq with rfl | rfl <;> exact absurd hoption (by decide)
  obtain ⟨f, hf⟩ := tokenize_hyphen hb ⟨name, rfl, hhyphen, hgt⟩ hquote htyped
  exact ⟨f, Stream.parse_eq_error_of_tokenize hf, beq_iff_eq.mp (lexicalAt_of_tokenize hf).lexical⟩

section

variable {ask : Strategy → Collaborators} {config : Config} {detail : Nat} {typed : String}
  {strategy : Strategy} {search : Search} {p : Proposal}

/-- Behind one dash, only names of options are proposed. -/
theorem strategy_of_oneDash (h : EndsInOneDash typed)
    (hs : Searches ask config detail typed strategy search) (hp : p ∈ search.added) :
    strategy = .recovery .unfinishedOptionName := by
  obtain ⟨f, hf, hlexical⟩ := parse_of_oneDash h
  cases hs with
  | expansion hparse => cases hf.symm.trans hparse
  | @recovery fault r before after hparse hall hbefore htriggers =>
    obtain rfl := Except.error.inj (hf.symm.trans hparse)
    have hreasons := (Bool.and_eq_true_iff.mp htriggers.2).1
    rw [List.contains_iff_mem] at hreasons
    have hgrammar : ∀ q : Recovery, q ≠ .unfinishedOptionName →
        ∀ m ∈ q.reasons, m.kind ≠ .lexical := by
      intro q hq
      cases q <;> first | exact absurd rfl hq | decide
    by_contra hne
    exact hgrammar r (fun h => hne (h ▸ rfl)) _ hreasons hlexical
  | missingApp hparse =>
    obtain rfl := Except.error.inj (hf.symm.trans hparse)
    have hmessage : f.message ≠ .expectedAppname := by
      intro hm
      rw [hm] at hlexical
      cases hlexical
    simp [Recovery.missingApp, hmessage, Search.ofFound, pure, Except.pure] at hp

end

theorem endsInOneDash_iff {typed : String} {before name : List Char}
    (htyped : typed.toList = before ++ '-' :: name) (hb : endsBlank before = true)
    (hname : name.all isOptionChar = true) :
    EndsInOneDash typed ↔ name ≠ [] ∧ name.head? ≠ some '-' := by
  have hpart : ∀ {name : List Char}, name.all isOptionChar = true →
      ∀ c ∈ '-' :: name, isBlank c = false := fun hname =>
    List.forall_mem_cons.mpr ⟨by decide, notBlank_of_isOptionChar hname⟩
  constructor
  · intro h
    obtain ⟨front, b, name', htyped', hblank, hne, hhyphen, hname'⟩ := h
    have hsame : before ++ '-' :: name = front ++ [b] ++ '-' :: name' := by
      rw [← htyped, htyped', List.append_assoc, List.singleton_append]
    have hb' : endsBlank (front ++ [b]) = true := by simpa [endsBlank] using hblank
    obtain ⟨-, hpart⟩ := append_inj_of_blank hsame hb hb' (hpart hname) (hpart hname')
    obtain rfl := (List.cons.inj hpart).2
    exact ⟨hne, hhyphen⟩
  · intro h
    rcases List.eq_nil_or_concat before with rfl | ⟨front, b, rfl⟩
    · cases hb
    · rw [List.concat_eq_append] at hb htyped
      refine ⟨front, b, name, by simpa using htyped, by simpa [endsBlank] using hb, h.1, h.2, hname⟩

/-! ## Options -/

theorem inked_optionText (head name : String) :
    inked (head ++ " --" ++ name ++ "=").toList =
      inked head.toList ++ '-' :: '-' :: (inked name.toList ++ ['=']) := by
  have hdashes : inked " --".toList = ['-', '-'] := by decide
  have hequals : inked "=".toList = ['='] := by decide
  simp only [String.toList_append, inked_append, hdashes, hequals, List.append_assoc,
    List.cons_append, List.nil_append]

/-- A name behind one dash is not continued by two dashes. -/
theorem hyphen_prefix_iff {front name more : List Char} (hhyphen : name.head? ≠ some '-') :
    front ++ '-' :: name <+: front ++ '-' :: '-' :: more ↔ name = [] := by
  rw [List.prefix_append_right_inj, List.cons_prefix_cons]
  constructor
  · intro h
    cases name with
    | nil => rfl
    | cons c name =>
      obtain rfl := (List.cons_prefix_cons.mp h.2).1
      exact absurd rfl hhyphen
  · rintro rfl
    exact ⟨rfl, List.nil_prefix⟩

theorem finishOption_continues {ctx : Context} {typed : String} {shape : OptionShape}
    (hshape : unfinishedOption? typed.toList = some shape) :
    Gives (Recovery.finishOption ctx shape) fun ps =>
      ∀ p ∈ ps, Continues typed p.text ↔ ¬ EndsInOneDash typed := by
  unfold Recovery.finishOption
  refine Gives.bind fun last? _ => ?_
  split
  case h_2 => exact gives_pure nofun
  refine gives_pure fun p hp => ?_
  obtain ⟨o, ho, rfl⟩ := List.mem_map.mp hp
  have hstarts := (Bool.and_eq_true_iff.mp (List.mem_filter.mp ho).2).1
  obtain ⟨before, hb, hhead, hname, htyped⟩ := unfinishedOption?_eq_some hshape
  have hinked : inked shape.option.toList = shape.option.toList :=
    inked_of_notBlank (notBlank_of_isOptionChar hname)
  have hprefix : shape.option.toList <+: inked o.name.toList :=
    hinked ▸ (startsWith_iff.mp hstarts).filter _
  unfold Continues Context.proposal
  rw [inked_optionText, hhead, inked_trimEnd]
  rcases htyped with htyped | ⟨htyped, hhyphen⟩
  · have hdashed : ('-' :: shape.option.toList).all isOptionChar = true := by
      rw [List.all_cons, hname]
      decide
    rw [endsInOneDash_iff htyped hb hdashed, htyped, inked_append,
      inked_of_notBlank (List.forall_mem_cons.mpr ⟨by decide, notBlank_of_isOptionChar hdashed⟩)]
    refine ⟨fun _ h => h.2 rfl, fun _ => (List.prefix_append_right_inj _).mpr ?_⟩
    exact List.cons_prefix_cons.mpr ⟨rfl, List.cons_prefix_cons.mpr
      ⟨rfl, hprefix.trans (List.prefix_append _ _)⟩⟩
  · rw [endsInOneDash_iff htyped hb hname, htyped, inked_append,
      inked_of_notBlank (List.forall_mem_cons.mpr ⟨by decide, notBlank_of_isOptionChar hname⟩),
      hyphen_prefix_iff hhyphen]
    exact ⟨fun hnil h => h.1 hnil, fun h => by_contra fun hne => h ⟨hne, hhyphen⟩⟩

/-! ## Recoveries -/

section

variable {ctx : Context} {streams : List StoredStream} (hstore : ctx.store = .ofList streams)
  {typed : String}

include hstore

theorem tapOnDestination_continues :
    Gives (Recovery.tapOnDestination.search ctx typed).found (AllContinue typed) := by
  unfold Recovery.search
  dsimp only
  split
  · next shape hshape =>
    obtain ⟨rest, htyped, htap⟩ := exists_of_destinationTap? hshape
    exact tap_continues htyped htap hstore
  · exact gives_pure (allContinue_nil typed)

theorem tapOnStream_continues (hfits : Recovery.tapOnStream.fits typed.toList = true) :
    Gives (Recovery.tapOnStream.search ctx typed).found (AllContinue typed) := by
  unfold Recovery.search
  dsimp only
  split
  · next shape hshape =>
    obtain ⟨rest, htyped, htap⟩ := exists_of_longTap? hshape
    exact tap_continues htyped htap hstore
  · next hshape =>
    have hstarts : startsLongTap typed.toList = true := by
      simpa [Recovery.fits, hshape] using hfits
    refine gives_pure fun p hp => ?_
    obtain rfl := List.mem_singleton.mp hp
    exact continues_of_prefix (List.isPrefixOf_iff_prefix.mp (Bool.and_eq_true_iff.mp hstarts).2)

omit hstore

theorem optionValueHint_continues :
    Gives (Recovery.optionValueHint.search ctx typed).found (AllContinue typed) := by
  unfold Recovery.search
  dsimp only
  split
  case h_2 => exact gives_pure (allContinue_nil typed)
  rw [Search.found_ofFound]
  unfold Recovery.addValue
  refine Gives.bind fun last? _ => ?_
  split
  case h_2 => exact gives_pure (allContinue_nil typed)
  split
  case h_2 => exact gives_pure (allContinue_nil typed)
  exact gives_pure (allContinue_map fun h _ => continues_append typed h)

theorem missingApp_continues (fault : Pipework.Fault) :
    Gives (Recovery.missingApp ctx typed fault) (AllContinue typed) := by
  unfold Recovery.missingApp
  split
  · exact gives_pure (allContinue_nil typed)
  dsimp only
  split
  case h_2 => exact gives_pure (allContinue_nil typed)
  refine Gives.bind fun registrations _ => gives_pure fun p hp => ?_
  obtain ⟨r, -, hp⟩ := List.mem_filterMap.mp hp
  obtain ⟨app, -, rfl⟩ := Option.map_eq_some_iff.mp hp
  unfold Context.proposal
  split
  · next hempty =>
    have hcontinues := continues_trimmed typed app
    rwa [String.isEmpty_iff.mp hempty, String.empty_append] at hcontinues
  · simp only [String.append_assoc]
    exact continues_trimmed typed _

end

/-! ## Streams -/

section

variable {ctx : Context} {streams : List StoredStream} (hstore : ctx.store = .ofList streams)
  {typed : String} {strategy : Strategy} {search : Search}

include hstore

/-- All strategies but one continue what was typed. -/
theorem search_continues
    (hs : Searches (fun _ => ctx.toCollaborators) ctx.config ctx.detail typed strategy search)
    (hne : strategy ≠ .recovery .unfinishedOptionName) : Gives search.found (AllContinue typed) := by
  cases hs with
  | @expansion stream e =>
    rw [Search.found_ofFound]
    exact expansion_continues _ typed stream e
  | @recovery fault r before after _ _ _ htriggers =>
    cases r with
    | tapOnDestination => exact tapOnDestination_continues hstore
    | tapOnStream => exact tapOnStream_continues hstore (Bool.and_eq_true_iff.mp htriggers.2).2
    | unfinishedOptionName => exact absurd rfl hne
    | optionValueHint => exact optionValueHint_continues
  | @missingApp fault =>
    rw [Search.found_ofFound]
    exact missingApp_continues fault

theorem gather_continues {p : Proposal} (hp : p ∈ gather ctx typed) :
    Continues typed p.text ↔ ¬ EndsInOneDash typed := by
  obtain ⟨strategy, search, hs, hfound⟩ := proposes_iff.mp (mem_gatherWith.mp hp)
  obtain ⟨ps, hps, hmem⟩ := mem_found.mp hfound
  by_cases hstrategy : strategy = .recovery .unfinishedOptionName
  · subst hstrategy
    cases hs with
    | recovery _ _ _ htriggers =>
      have hfits := (Bool.and_eq_true_iff.mp htriggers.2).2
      obtain ⟨shape, hshape⟩ := Option.isSome_iff_exists.mp hfits
      simp only [Recovery.search, hshape, Search.found_ofFound] at hps
      exact finishOption_continues hshape ps hps p hmem
  · have hadded : p ∈ search.added := (Search.found_eq_ok.mp hps).2 ▸ hmem
    refine ⟨fun _ hdash => hstrategy (strategy_of_oneDash hdash hs hadded), fun _ => ?_⟩
    exact search_continues hstore hs hstrategy ps hps p hmem

end

/-! ## Tasks -/

namespace Task

section

variable {ctx : Context} {apps : List Registration} {typed : String}

theorem proposeAll_continues {lead : String}
    (h : ∀ r ∈ apps, Continues typed (lead ++ r.name)) :
    AllContinue typed (proposeAll ctx apps lead) :=
  allContinue_map fun r hr => h r hr

theorem blank_of_tiles {offset : Nat} {cs : List Char} {ts : List Token} (h : Tiles offset cs ts)
    (heof : ∀ t ∈ ts, t.kind = .eof) : cs.all isBlank = true := by
  cases h with
  | last hgap => exact hgap
  | cons _ hk => exact absurd (heof _ List.mem_cons_self) hk

/-- A name at the end of the text is what stands behind its offset. -/
theorem eq_append_of_lastName {ts : List Token} {name : Token} {text : String}
    {lead rest : List Char} (ht : tokenize typed = .ok ts) (hmem : name ∈ ts)
    (hkind : name.kind = .identifier text) (hstop : name.stop = typed.utf8ByteSize)
    (hsplit : splitAtByte? name.start typed.toList = some (lead, rest)) :
    typed = String.ofList lead ++ text := by
  obtain ⟨raw, hslice, hstands⟩ := @Tiles.standing 0 [] _ _ (tiles_of_tokenize ht) rfl name hmem
  obtain ⟨before, after, htyped, hbefore, hraw⟩ := slice?_eq_some hslice
  rw [List.nil_append] at htyped
  have hafter : after = [] := by
    have hle := ((tiles_of_tokenize ht).offset_le name hmem).2
    have hlength : byteLength typed.toList = _ := congrArg byteLength htyped
    rw [byteLength_toList, byteLength_append, byteLength_append] at hlength
    refine byteLength_eq_zero.mp ?_
    omega
  rw [htyped, ← hbefore, splitAtByte?_byteLength] at hsplit
  obtain ⟨rfl, -⟩ := Prod.mk.inj (Option.some.inj hsplit)
  have htext : raw = text.toList := by
    rw [hkind] at hstands
    cases hstands
    rfl
  refine String.toList_injective ?_
  rw [htyped, hafter, htext, String.toList_append, String.toList_ofList, List.append_nil]

theorem finishName_continues {ts : List Token} {name : Token} {before : List Token.Kind}
    (ht : tokenize typed = .ok ts) (hmem : name ∈ ts) :
    AllContinue typed (finishName ctx apps typed name before) := by
  unfold finishName
  split
  case h_2 => exact allContinue_nil typed
  next text lead rest hkind hsplit =>
  split
  · next hlast =>
    have hstop : name.stop = typed.utf8ByteSize := by
      simpa using (Bool.and_eq_true_iff.mp hlast).1
    have htyped := eq_append_of_lastName ht hmem hkind hstop hsplit
    exact proposeAll_continues fun r hr => continues_of_startsWith htyped (List.mem_filter.mp hr).2
  · exact allContinue_nil typed

theorem gather_continues : Gives (gather ctx typed) (AllContinue typed) := by
  unfold gather
  split
  · exact gives_pure (allContinue_nil typed)
  next ts ht =>
  refine Gives.bind fun apps _ => gives_pure ?_
  unfold proposeAfter
  split
  · next hnil =>
    have heof : ∀ t ∈ ts, t.kind = .eof := by simpa using hnil
    have hblank := blank_of_tiles (tiles_of_tokenize ht) heof
    exact proposeAll_continues fun r _ => continues_of_blank hblank
  · next last before hlast =>
    split
    · refine proposeAll_continues fun r _ => ?_
      rw [String.append_assoc]
      exact continues_trimmed typed _
    · have hmem : last ∈ (ts.filter fun t => t.kind != .eof).reverse := hlast ▸ List.mem_cons_self
      exact finishName_continues ht (List.mem_filter.mp (List.mem_reverse.mp hmem)).1

end

end Task

/-! ## All proposals -/

/-- Proposals go on from what was typed, white space aside. Those for a stream do so except exactly
where the text ends in white space, one dash and the start of a name. -/
theorem proposals_continue {ctx : Context} {streams : List StoredStream}
    (hstore : ctx.store = .ofList streams) (typed : String) :
    (∀ p ∈ complete ctx typed, Continues typed p.text ↔ ¬ EndsInOneDash typed) ∧
      ∀ p ∈ Task.complete ctx typed, Continues typed p.text := by
  constructor
  · intro p hp
    obtain ⟨q, hq, htext⟩ := exists_of_mem_rank hp
    rw [← htext]
    exact gather_continues hstore hq
  · intro p hp
    unfold Task.complete at hp
    split at hp
    · next proposals hgather =>
      obtain ⟨q, hq, htext⟩ := exists_of_mem_rank hp
      rw [← htext]
      exact Task.gather_continues proposals hgather q hq
    · cases hp

/-- An option begun with two dashes, and the second app of a task. -/
theorem proposals_continue_port :
    (∃ p ∈ complete sampleContext "http --po", p.text = "http --port=" ∧
      Continues "http --po" p.text) ∧
    ∃ p ∈ Task.complete sampleContext "extract && lo", p.text = "extract && load" ∧
      Continues "extract && lo" p.text := by
  have hdashes : ¬ EndsInOneDash "http --po" := by
    rw [@endsInOneDash_iff _ "http ".toList "-po".toList (by decide) (by decide) (by decide)]
    decide
  have hoption : ∃ p ∈ complete sampleContext "http --po", p.text = "http --port=" := by
    decide +kernel
  have happ : ∃ p ∈ Task.complete sampleContext "extract && lo", p.text = "extract && load" := by
    decide +kernel
  obtain ⟨p, hp, hport⟩ := hoption
  obtain ⟨q, hq, hload⟩ := happ
  exact ⟨⟨p, hp, hport, ((proposals_continue rfl _).1 p hp).mpr hdashes⟩,
    q, hq, hload, (proposals_continue rfl _).2 q hq⟩

/-- One dash and a name are answered with two dashes. -/
theorem not_continued_dash : ∃ p ∈ complete sampleContext "http -p", p.text = "http --port=" ∧
    ¬ Continues "http -p" p.text := by
  decide +kernel

end Pipework.Completion
