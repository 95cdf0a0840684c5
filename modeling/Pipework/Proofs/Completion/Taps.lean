import Pipework.Proofs.Completion.Shapes
import Pipework.Proofs.Completion.Strategies
import Pipework.Proofs.Stream.Tapping

/-! Which stored streams are offered for a tap. Names are lexed, and checked when they are stored, as
letters and numbers of any kind, while the shapes of taps know the characters of words only: a
stream is offered up to the first character of its name that is none. -/

namespace Pipework.Completion

open Token

/-! ## Names that are typed in part -/

/-- What is typed of a word is a word, if it is anything. -/
theorem isWord_of_append {p rest : String} (h : isWord (p ++ rest) = true) :
    p = "" ∨ isWord p = true := by
  unfold isWord at h ⊢
  rw [String.toList_append] at h
  cases hp : p.toList with
  | nil => exact .inl (String.toList_injective hp)
  | cons c cs =>
    rw [hp] at h
    simp only [List.cons_append, isNameWord, List.all_append, Bool.and_eq_true] at h ⊢
    exact .inr ⟨h.1, h.2.1⟩

/-- What a word is made of is not white space, and none of it ends the name of a stream in a tap. -/
theorem notMem_of_isWord {p : String} (h : p = "" ∨ isWord p = true) {c : Char}
    (hs : Text.startsName c = false) (hm : c ≠ '-') : c ∉ p.toList := by
  intro hc
  rcases h with rfl | h
  · cases hc
  · obtain ⟨d, ds, hcs, hd, hds⟩ := isNameWord_iff.mp h
    rw [hcs] at hc
    rcases List.mem_cons.mp hc with rfl | hc
    · rw [hs] at hd
      cases hd
    · rcases hds c hc with h | h
      · rw [hs] at h
        cases h
      · exact hm h

/-- A part of a word that has characters that taps do not know is no tap. -/
theorem tapShape?_eq_none_of_word {p : String} (h : p = "" ∨ isWord p = true)
    (ht : ¬ p.toList.all isTapChar = true) : tapShape? p.toList = none := by
  simp only [List.all_eq_true, not_forall, Bool.not_eq_true] at ht
  obtain ⟨c, hc, hnone⟩ := ht
  refine tapShape?_eq_none hc hnone ?_
  rintro rfl
  exact notMem_of_isWord h (by decide) (by decide) hc

/-! ## Streams -/

variable {ctx : Context} {streams : List StoredStream} (hstore : ctx.store = .ofList streams)
  (hread : ∀ s ∈ streams, ∃ m, Stream.parseNamed (some s.name) s.text = .ok m)

include hstore hread

/-- A tap on what is typed of a stream finds all streams whose names go on from it. -/
theorem tap_found (lead p : String) : ∃ ps, (Recovery.tap ctx lead ⟨p, none⟩).found = .ok ps ∧
    ∀ s ∈ streams, Text.startsWith s.name p = true → ∃ q ∈ ps, q.text = lead ++ s.name := by
  obtain ⟨as, has⟩ : ∃ as, Recovery.tapApps ctx lead ⟨p, none⟩ = .ok as := by
    unfold Recovery.tapApps
    by_cases hp : p.isEmpty = true
    · exact ⟨[], by simp [hp, pure, Except.pure]⟩
    · cases hfind : streams.find? fun s => s.name == p with
      | none => exact ⟨[], by simp [hp, hstore, Store.ofList, hfind, bind, Except.bind, pure, Except.pure]⟩
      | some s =>
        obtain ⟨m, hm⟩ := hread s (List.mem_of_find?_eq_some hfind)
        exact ⟨_, by simp [hp, hstore, Store.ofList, hfind, StoredStream.apps, hm, bind, Except.bind,
          pure, Except.pure]; rfl⟩
  have hstreams : Recovery.tapStreams ctx lead ⟨p, none⟩ =
      .ok ((streams.filter fun s => Text.startsWith s.name p).map fun s =>
        ctx.proposal (lead ++ s.name) (s.description.getD s.text)) := by
    simp [Recovery.tapStreams, hstore, Store.ofList, bind, Except.bind, pure, Except.pure]
  refine ⟨_, by simp [Recovery.tap, hstreams, has, Search.ofFound, Search.andThen, Search.found]; rfl, ?_⟩
  intro s hs hstarts
  refine ⟨_, List.mem_append_left _ (List.mem_map_of_mem (List.mem_filter.mpr ⟨hs, hstarts⟩)), rfl⟩

omit hstore hread

/-! ## Refusals -/

section

variable {p : String} (hp : p = "" ∨ isWord p = true)

include hp

theorem notMem_blank : ∀ c ∈ p.toList, Text.isBlank c = false := by
  intro c hc
  by_contra hb
  have hb : Text.isBlank c = true := by simpa using hb
  refine notMem_of_isWord hp (startsName_of_isBlank hb) ?_ hc
  rintro rfl
  exact absurd hb (by decide)

theorem parse_shortTap : ∃ f, Stream.parse (":" ++ p) = .error f ∧
    (f.message = .expectedStreamNameAfterLabelColon ∨ f.message = .outOfData) := by
  rcases hp with rfl | hp
  · obtain ⟨f, hf, hmessage⟩ : ∃ f, faultOf (Stream.parse (":" ++ "")) = some f ∧
        f.message = .expectedStreamNameAfterLabelColon := by decide
    exact ⟨f, faultOf_eq_some.mp hf, .inl hmessage⟩
  · obtain ⟨f, hf, hmessage⟩ := Stream.parse_tap hp
    exact ⟨f, hf, .inr hmessage⟩

theorem gather_shortTap {ctx : Context} (hconfig : ctx.config = {}) :
    gather ctx (":" ++ p) = if p.toList.all isTapChar = true then
      found (Recovery.tap ctx ":" ⟨p, none⟩).found else [] := by
  obtain ⟨f, hf, hmessage⟩ := parse_shortTap hp
  have htyped : (":" ++ p).toList = ':' :: p.toList := by simp
  generalize ":" ++ p = typed at *
  split
  · next hall =>
    have hshape : destinationTap? typed.toList = some ⟨p, none⟩ := by
      rw [htyped, destinationTap?, tapShape?_of_all hall, String.ofList_toList]
    have happlies : Recovery.tapOnDestination.applies typed f = true := by
      rcases hmessage with h | h <;>
        simp [Recovery.applies, Recovery.reasons, Recovery.fits, hshape, h]
    rw [gather_recovery (r := .tapOnDestination) hf, Recovery.propose, Recovery.search, hshape]
    simp [Recovery.all, hconfig, Config.isDisabled, happlies]
  · next hall =>
    have hshape : destinationTap? typed.toList = none := by
      rw [htyped, destinationTap?]
      exact tapShape?_eq_none_of_word hp hall
    have hoption : unfinishedOption? typed.toList = none := by
      rw [htyped]
      exact unfinishedOption?_eq_none (List.forall_mem_cons.mpr ⟨by decide, notMem_blank hp⟩)
    refine gather_eq_nil hf (fun r => ?_) ?_
    · cases r <;> rcases hmessage with h | h <;>
        simp [Recovery.applies, Recovery.reasons, Recovery.fits, h, hshape, hoption]
    · rcases hmessage with h | h <;> simp [h]

theorem gather_longTap {ctx : Context} (hconfig : ctx.config = {}) :
    gather ctx (longTapLead ++ p) = if p.toList.all isTapChar = true then
      found (Recovery.tap ctx longTapLead ⟨p, none⟩).found else [] := by
  obtain ⟨f, hf, hmessage⟩ := Stream.parse_longTap hp
  have htyped : (longTapLead ++ p).toList = longTapLead.toList ++ p.toList := String.toList_append
  change Stream.parse (longTapLead ++ p) = .error f at hf
  generalize longTapLead ++ p = typed at *
  have hprefix : longTapLead.toList.isPrefixOf typed.toList = true := by
    rw [htyped, List.isPrefixOf_iff_prefix]
    exact List.prefix_append _ _
  have hlong : longTap? typed.toList = tapShape? p.toList := by
    rw [longTap?, if_pos hprefix, htyped, List.drop_left]
  split
  · next hall =>
    rw [tapShape?_of_all hall, String.ofList_toList] at hlong
    rw [gather_recovery (r := .tapOnStream) hf, Recovery.propose, Recovery.search, hlong]
    simp [Recovery.all, hconfig, Config.isDisabled, Recovery.applies, Recovery.reasons,
      Recovery.fits, hlong, hmessage]
  · next hall =>
    rw [tapShape?_eq_none_of_word hp hall] at hlong
    have hstarts : startsLongTap typed.toList = false := by
      refine Bool.eq_false_iff.mpr fun hstarts => hall ?_
      simp only [startsLongTap, Bool.and_eq_true, List.isPrefixOf_iff_prefix, htyped] at hstarts
      have hlength := hstarts.2.length_le
      rw [List.length_append] at hlength
      obtain hnil : p.toList = [] := List.length_eq_zero_iff.mp (by omega)
      rw [hnil]
      rfl
    refine gather_eq_nil hf (fun r => ?_) (by simp [hmessage])
    cases r <;> simp [Recovery.applies, Recovery.reasons, Recovery.fits, hmessage, hlong, hstarts]

end

/-! ## Candidates -/

/-- What is offered for a tap contains a stream exactly if the shape of a tap knows what was typed of
its name. -/
theorem offered_iff {ctx : Context} {streams : List StoredStream} (hstore : ctx.store = .ofList streams)
    (hread : ∀ s ∈ streams, ∃ m, Stream.parseNamed (some s.name) s.text = .ok m)
    {s : StoredStream} (hs : s ∈ streams) {p rest : String} (hp : s.name = p ++ rest)
    {lead typed : String} (hgather : gather ctx typed = if p.toList.all isTapChar = true then
      found (Recovery.tap ctx lead ⟨p, none⟩).found else []) :
    (∃ q ∈ gather ctx typed, q.text = lead ++ s.name) ↔ p.toList.all isTapChar = true := by
  rw [hgather]
  split
  · next hall =>
    refine ⟨fun _ => hall, fun _ => ?_⟩
    obtain ⟨ps, hps, hoffered⟩ := tap_found hstore hread lead p
    rw [hps]
    refine hoffered s hs (startsWith_iff.mpr ?_)
    rw [hp, String.toList_append]
    exact List.prefix_append _ _
  · next hall =>
    refine ⟨fun h => ?_, fun h => absurd h hall⟩
    obtain ⟨q, hq, -⟩ := h
    cases hq

/-- With streams that are stored under legal names and can be read, a stream is offered for a tap on
the first part of its name exactly if that consists of the characters that the shapes of taps know,
in the short form and in the long one. -/
theorem tap_candidates {ctx : Context} {streams : List StoredStream}
    (hstore : ctx.store = .ofList streams) (hconfig : ctx.config = {})
    (hlegal : ∀ s ∈ streams, Text.isLegalName s.name = true)
    (hread : ∀ s ∈ streams, ∃ m, Stream.parseNamed (some s.name) s.text = .ok m)
    {s : StoredStream} (hs : s ∈ streams) {p rest : String} (hp : s.name = p ++ rest) :
    ((∃ q ∈ gather ctx (":" ++ p), q.text = ":" ++ s.name) ↔ p.toList.all isTapChar = true) ∧
      ((∃ q ∈ gather ctx ("tap:stream:" ++ p), q.text = "tap:stream:" ++ s.name) ↔
        p.toList.all isTapChar = true) := by
  have hword : p = "" ∨ isWord p = true :=
    isWord_of_append (hp ▸ Stream.isWord_of_isLegalName (hlegal s hs))
  exact ⟨offered_iff hstore hread hs hp (gather_shortTap hword hconfig),
    offered_iff hstore hread hs hp (gather_longTap hword hconfig)⟩

/-! A superscript is a number of another kind than the digits that words know. -/

def squares : List StoredStream := [⟨"x²y", "time | log", none⟩]

def squaresContext : Context := { store := .ofList squares, registry := .ofList [] }

theorem isLegalName_squares : ∀ s ∈ squares, Text.isLegalName s.name = true := by decide

theorem parseNamed_squares :
    ∀ s ∈ squares, ∃ m, Stream.parseNamed (some s.name) s.text = .ok m := by
  intro s hs
  obtain rfl := List.mem_singleton.mp hs
  obtain ⟨m, hm⟩ : ∃ m, (Stream.parseNamed (some "x²y") "time | log").toOption = some m :=
    Option.isSome_iff_exists.mp (by decide +kernel)
  exact ⟨m, toOption_eq_some.mp hm⟩

theorem not_isTapChar_squared : ¬ "x²".toList.all isTapChar = true := by decide

theorem tap_candidates_squares :
    (∃ q ∈ gather squaresContext (":" ++ "x"), q.text = ":" ++ "x²y") ∧
      ¬ ∃ q ∈ gather squaresContext (":" ++ "x²"), q.text = ":" ++ "x²y" := by
  have hone := @tap_candidates squaresContext squares rfl rfl isLegalName_squares parseNamed_squares
    _ (List.mem_singleton.mpr rfl) "x" "²y" rfl
  have htwo := @tap_candidates squaresContext squares rfl rfl isLegalName_squares parseNamed_squares
    _ (List.mem_singleton.mpr rfl) "x²" "y" rfl
  exact ⟨hone.1.mpr (by decide), fun h => not_isTapChar_squared (htwo.1.mp h)⟩

/-- A stream that is stored under a legal name, and can be read, is not offered. -/
theorem not_offered_superscript : ∃ s ∈ squares, s.name = "x²" ++ "y" ∧
    Text.isLegalName s.name = true ∧ (∃ m, Stream.parseNamed (some s.name) s.text = .ok m) ∧
    gather squaresContext (":" ++ "x²") = [] ∧ gather squaresContext ("tap:stream:" ++ "x²") = [] := by
  have hword : "x²" = "" ∨ isWord "x²" = true := by decide
  have hshort := @gather_shortTap _ hword squaresContext rfl
  have hlong := @gather_longTap _ hword squaresContext rfl
  rw [if_neg not_isTapChar_squared] at hshort hlong
  exact ⟨_, List.mem_singleton.mpr rfl, rfl, isLegalName_squares _ (List.mem_singleton.mpr rfl),
    parseNamed_squares _ (List.mem_singleton.mpr rfl), hshort, hlong⟩

end Pipework.Completion
