import Pipework.Proofs.Completion.Shapes
import Pipework.Proofs.Completion.Strategies
import Pipework.Proofs.Stream.Unfinished
import Pipework.Sample

/-! Which options are offered for the last app of a stream, once their names have been begun. -/

namespace Pipework.Completion

open Token

/-- The registration that the last app of a stream is looked up under: that of its role, or else the
first of its name. -/
def registered? (registrations : List Registration) (name : String) (role : Role) :
    Option Registration :=
  (registrations.find? fun r => r.name == name && r.role == role).or
    (registrations.find? fun r => r.name == name)

theorem registration_ofList {ctx : Context} {registrations : List Registration}
    (hregistry : ctx.registry = .ofList registrations) (name : String) (role : Role) :
    ctx.registration name role = .ok (registered? registrations name role) := by
  unfold Context.registration registered?
  rw [hregistry]
  cases hfind : registrations.find? fun r => r.name == name && r.role == role with
  | none => simp [Registry.ofList, hfind, bind, Except.bind, pure, Except.pure]
  | some r => simp [Registry.ofList, hfind, bind, Except.bind, pure, Except.pure]

/-! ## Refusals -/

theorem isWord_of_ascii {c : Char}
    (h : Text.isAsciiDigit c = true ∨ Text.isAsciiLetter c = true) : Text.isWord c = true := by
  obtain ⟨hn, hletter⟩ := isLetterOrNumber_of_ascii h
  have hsymbol : Text.numericSymbols.contains c.toNat = false := by
    refine Bool.eq_false_iff.mpr fun hc => ?_
    obtain ⟨r, hr, hl, -⟩ := Text.Ranges.exists_of_contains hc
    have hlow : ∀ r ∈ Text.numericSymbols, 128 ≤ r.1 := by decide
    have := hlow r hr
    omega
  simp [Text.isWord, hletter, hsymbol]

theorem isOptionChar_of_plain {c : Char} (h : isPlainOptionChar c = true) : isOptionChar c = true := by
  simp only [isPlainOptionChar, Bool.or_eq_true, beq_iff_eq] at h
  rcases h with ((h | rfl) | rfl) | rfl
  · simp [isOptionChar, isWord_of_ascii h]
  · decide
  · decide
  · decide

theorem isBlank_of_plain {c : Char} (h : isPlainOptionChar c = true) : Text.isBlank c = false := by
  rcases startsName_of_isPlainOptionChar h with h | rfl | rfl
  · exact isBlank_of_startsName h
  · decide
  · decide

theorem ne_nil_of_parse {u : String} {stream : Stream} (hs : Stream.parse u = .ok stream) :
    u.toList ≠ [] := by
  intro hnil
  obtain rfl := String.toList_injective (hnil.trans rfl : u.toList = "".toList)
  have hrefused : (faultOf (Stream.parse "")).isSome = true := by decide
  rw [hs] at hrefused
  cases hrefused

section

variable {ctx : Context} {u p : String} {stream : Stream} {last : Stream.App}
  (hs : Stream.parse u = .ok stream) (hlast : openLast? stream = some last)
  (hu : Text.endsBlank u.toList = false) (hp : p.toList.all isPlainOptionChar = true)

include hs hu hp

theorem unfinishedOption?_of_parse : unfinishedOption? (u ++ " --" ++ p).toList =
    if '\n' ∈ u.toList then none else some ⟨u, p⟩ := by
  have hplain : ∀ c ∈ p.toList, isPlainOptionChar c = true := List.all_eq_true.mp hp
  have hname : p.toList.all isOptionChar = true :=
    List.all_eq_true.mpr fun c hc => isOptionChar_of_plain (hplain c hc)
  have hblank : ∀ c ∈ p.toList, Text.isBlank c = false := fun c hc => isBlank_of_plain (hplain c hc)
  rw [Stream.toList_dashes, unfinishedOption?_of_dashes hu (ne_nil_of_parse hs) hname hblank,
    String.ofList_toList, String.ofList_toList]

include hlast

/-- Behind a stream on one line, the options of its last app are looked for; behind a stream that
has a line break, nothing is. -/
theorem gather_optionName (hconfig : ctx.config = {}) : gather ctx (u ++ " --" ++ p) =
    if '\n' ∈ u.toList then [] else found (Recovery.finishOption ctx ⟨u, p⟩) := by
  have hsink : stream.sink = none := by
    unfold openLast? at hlast
    cases hsink : stream.sink with
    | none => rfl
    | some e => simp [hsink] at hlast
  obtain ⟨f, hf, hmessage⟩ := Stream.parse_unfinished hs hsink hu hp
  have hreason : f.message = .missingCharacter ∨ f.message = .outOfData ∨
      f.message = .notExpectedToken := hmessage
  have htap : destinationTap? (u ++ " --" ++ p).toList = none := by
    rw [Stream.toList_dashes]
    exact destinationTap?_eq_none (by simp)
  have hoption := unfinishedOption?_of_parse hs hu hp
  generalize u ++ " --" ++ p = typed at *
  split
  · next hline =>
    rw [if_pos hline] at hoption
    refine gather_eq_nil hf (fun r => ?_) ?_
    · cases r <;> rcases hreason with h | h | h <;>
        simp [Recovery.applies, Recovery.reasons, Recovery.fits, h, htap, hoption]
    · rcases hreason with h | h | h <;> simp [h]
  · next hline =>
    rw [if_neg hline] at hoption
    have happlies : Recovery.unfinishedOptionName.applies typed f = true := by
      rcases hreason with h | h | h <;>
        simp [Recovery.applies, Recovery.reasons, Recovery.fits, h, hoption]
    have hdestination : Recovery.tapOnDestination.applies typed f = false := by
      simp [Recovery.applies, Recovery.fits, htap]
    have hstream : Recovery.tapOnStream.applies typed f = false := by
      rcases hreason with h | h | h <;> simp [Recovery.applies, Recovery.reasons, h]
    rw [gather_recovery (r := .unfinishedOptionName) hf, Recovery.propose, Recovery.search, hoption]
    · simp
    · simp [Recovery.all, hconfig, Config.isDisabled, happlies, hdestination, hstream]

end

/-! ## Candidates -/

theorem finishOption_eq {ctx : Context} {registrations : List Registration}
    (hregistry : ctx.registry = .ofList registrations) {u p : String} {stream : Stream}
    {last : Stream.App} (hs : Stream.parse u = .ok stream) (hlast : openLast? stream = some last) :
    Recovery.finishOption ctx ⟨u, p⟩ =
      .ok (match registered? registrations last.name (lastRole stream) with
        | none => []
        | some r =>
          (r.options.filter fun o =>
            Text.startsWith o.name p && (last.argument? o.name).isNone).map fun o =>
              ctx.proposal (u ++ " --" ++ o.name ++ "=") o.description) := by
  have hlookup : Recovery.lastRegistration ctx u =
      .ok ((registered? registrations last.name (lastRole stream)).map fun r => (last, r)) := by
    simp [Recovery.lastRegistration, hs, hlast, registration_ofList hregistry, bind, Except.bind,
      pure, Except.pure]
  unfold Recovery.finishOption
  simp only [hlookup]
  cases registered? registrations last.name (lastRole stream) <;> rfl

/-- With a registry in memory, what is offered once an option is begun behind a stream that is open,
and on one line, are the options of its last app that go on from what was typed and are not set. -/
theorem option_candidates {ctx : Context} {registrations : List Registration}
    (hregistry : ctx.registry = .ofList registrations) (hconfig : ctx.config = {})
    {u p t : String} {stream : Stream} {last : Stream.App} (hs : Stream.parse u = .ok stream)
    (hlast : openLast? stream = some last) (hu : Text.endsBlank u.toList = false)
    (hp : p.toList.all isPlainOptionChar = true) :
    (∃ q ∈ gather ctx (u ++ " --" ++ p), q.text = t) ↔ '\n' ∉ u.toList ∧
      ∃ r ∈ registered? registrations last.name (lastRole stream), ∃ o ∈ r.options,
        Text.startsWith o.name p = true ∧ last.argument? o.name = none ∧
          t = u ++ " --" ++ o.name ++ "=" := by
  rw [gather_optionName hs hlast hu hp hconfig]
  by_cases hline : '\n' ∈ u.toList
  · simp [hline]
  · rw [if_neg hline, finishOption_eq hregistry hs hlast]
    cases registered? registrations last.name (lastRole stream) with
    | none => simp [found]
    | some r =>
      constructor
      · intro h
        obtain ⟨q, hq, rfl⟩ := h
        obtain ⟨o, ho, rfl⟩ := List.mem_map.mp hq
        obtain ⟨ho, hfits⟩ := List.mem_filter.mp ho
        rw [Bool.and_eq_true, Option.isNone_iff_eq_none] at hfits
        exact ⟨hline, r, rfl, o, ho, hfits.1, hfits.2, rfl⟩
      · intro h
        obtain ⟨-, _, hr, o, ho, hstarts, hunset, rfl⟩ := h
        obtain rfl := Option.some.inj hr
        refine ⟨_, List.mem_map_of_mem (List.mem_filter.mpr ⟨ho, ?_⟩), rfl⟩
        rw [Bool.and_eq_true, Option.isNone_iff_eq_none]
        exact ⟨hstarts, hunset⟩

def sampleContext : Context := { store := Sample.store, registry := Sample.registry }

/-- The option is one of the last app of the stream, goes on from `exp`, and is not set. -/
def IsOpenOption (u name : String) : Prop :=
  ∃ stream, (Stream.parse u).toOption = some stream ∧ ∃ last, openLast? stream = some last ∧
    ∃ r, registered? Sample.registrations last.name (lastRole stream) = some r ∧ ∃ o ∈ r.options,
      Text.startsWith o.name "exp" = true ∧ last.argument? o.name = none ∧ o.name = name

instance (u name : String) : Decidable (IsOpenOption u name) := by
  unfold IsOpenOption
  infer_instance

theorem option_candidates_filter :
    (∃ q ∈ gather sampleContext ("http | filter" ++ " --" ++ "exp"),
      q.text = "http | filter --expresso=") := by
  obtain ⟨stream, hs, last, hlast, r, hr, o, ho, hstarts, hunset, hname⟩ :
    IsOpenOption "http | filter" "expresso" := by decide +kernel
  refine (option_candidates rfl rfl (toOption_eq_some.mp hs) hlast (by decide) (by decide)).mpr
    ⟨by decide, r, hr, o, ho, hstarts, hunset, ?_⟩
  rw [hname]
  rfl

/-- On several lines, an option is missing that is one of the last app, goes on from what was typed,
and is not set. -/
theorem not_offered_lines : IsOpenOption "http\n| filter" "expresso" ∧
    Text.endsBlank "http\n| filter".toList = false ∧
    gather sampleContext ("http\n| filter" ++ " --" ++ "exp") = [] := by
  refine ⟨?_, ?_, ?_⟩ <;> decide +kernel

end Pipework.Completion
