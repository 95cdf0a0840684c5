import Pipework.Proofs.Completion.Shapes
import Pipework.Proofs.Completion.Strategies
import Pipework.Proofs.Parser.Refuses

/-! At most one recovery strategy is for a text and the reason of its refusal. Only one reason is that
of two strategies: a text that ends too early may lack the name of a tap or an option. These two have
no text in common, since a tap has no white space and an option stands behind some. So no other
strategy steps in for one that is switched off, whatever the order in which they are tried. -/

namespace Pipework.Completion

open Text

/-! ## Shapes -/

theorem isTapChar_of_isBlank {c : Char} (h : isBlank c = true) : isTapChar c = false := by
  have hword : isWord c = false := by
    have hoption := isOptionChar_of_isBlank h
    simp only [isOptionChar, Bool.or_eq_false_iff] at hoption
    exact hoption.1.1
  have hne : ∀ d, isBlank d = false → (c == d) = false := by
    intro d hd
    refine beq_eq_false_iff_ne.mpr ?_
    rintro rfl
    rw [h] at hd
    cases hd
  simp only [isTapChar, hword, hne '$' (by decide), hne '-' (by decide), Bool.or_false]

/-- A tap has no white space in it. -/
theorem notBlank_of_destinationTap? {cs : List Char} {shape : TapShape}
    (h : destinationTap? cs = some shape) : ∀ c ∈ cs, isBlank c = false := by
  obtain ⟨rest, rfl, htap⟩ := exists_of_destinationTap? h
  refine List.forall_mem_append.mpr ⟨by simp; decide, ?_⟩
  intro c hc
  by_contra hblank
  rw [Bool.not_eq_false] at hblank
  rcases isTapChar_of_tapShape? htap hc with hchar | rfl
  · rw [isTapChar_of_isBlank hblank] at hchar
    cases hchar
  · exact absurd hblank (by decide)

/-- What is a tap is no option that has been begun. -/
theorem not_fits_of_tap {cs : List Char} (h : Recovery.tapOnDestination.fits cs = true) :
    Recovery.unfinishedOptionName.fits cs = false := by
  obtain ⟨shape, hshape⟩ := Option.isSome_iff_exists.mp h
  rw [Recovery.fits, unfinishedOption?_eq_none (notBlank_of_destinationTap? hshape)]
  rfl

/-! ## Reasons -/

/-- No two strategies are for one reason, unless the text ends too early. -/
theorem eq_of_mem_reasons {r q : Recovery} {m : Message} (hr : m ∈ r.reasons) (hq : m ∈ q.reasons)
    (hm : m ≠ .outOfData) : r = q := by
  cases r <;> cases q <;> grind [Recovery.reasons]

theorem outOfData_mem_reasons {r : Recovery} :
    .outOfData ∈ r.reasons ↔ r = .tapOnDestination ∨ r = .unfinishedOptionName := by
  cases r <;> decide

/-! ## Strategies -/

variable {typed : String} {fault : Pipework.Fault} {config : Config}

theorem eq_of_applies {r q : Recovery} (hr : r.applies typed fault = true)
    (hq : q.applies typed fault = true) : r = q := by
  simp only [Recovery.applies, Bool.and_eq_true, List.contains_iff_mem] at hr hq
  obtain ⟨hreason, hfits⟩ := hr
  obtain ⟨hreason', hfits'⟩ := hq
  by_cases hm : fault.message = .outOfData
  · rw [hm, outOfData_mem_reasons] at hreason hreason'
    rcases hreason with rfl | rfl <;> rcases hreason' with rfl | rfl
    · rfl
    · rw [not_fits_of_tap hfits] at hfits'
      cases hfits'
    · rw [not_fits_of_tap hfits'] at hfits
      cases hfits
    · rfl
  · exact eq_of_mem_reasons hreason hreason' hm

/-- The first strategy, of those to be tried, that is not switched off and is for the text. -/
def choose (order : List Recovery) (config : Config) (typed : String) (fault : Pipework.Fault) :
    Option Recovery :=
  order.find? fun r => !config.isDisabled r.name && r.applies typed fault

/-- The proposals of a strategy that was chosen; if none was, those for a missing app name. -/
def recoverBy (ask : Strategy → Collaborators) (config : Config) (detail : Nat) (typed : String)
    (fault : Pipework.Fault) : Option Recovery → List Proposal
  | some r => found (r.propose (contextOf ask config detail (.recovery r)) typed)
  | none => found (Recovery.missingApp (contextOf ask config detail .missingApp) typed fault)

theorem recoverWith_eq (ask : Strategy → Collaborators) (detail : Nat) :
    recoverWith ask config detail typed fault =
      recoverBy ask config detail typed fault (choose Recovery.all config typed fault) := by
  rw [recoverWith]
  cases hchoice : choose Recovery.all config typed fault <;> rw [choose] at hchoice <;>
    simp only [hchoice, recoverBy]

theorem triggers_of_choose {order : List Recovery} {r : Recovery}
    (h : choose order config typed fault = some r) : Triggers config typed fault r := by
  rw [choose] at h
  simpa [Triggers] using List.find?_some h

/-- What is chosen is what triggers, wherever it stands in the order. -/
theorem choose_eq_some {order : List Recovery} (horder : ∀ r, r ∈ order) {r : Recovery} :
    choose order config typed fault = some r ↔ Triggers config typed fault r := by
  refine ⟨triggers_of_choose, fun h => ?_⟩
  cases hchoice : choose order config typed fault with
  | none =>
    rw [choose, List.find?_eq_none] at hchoice
    exact absurd (by simpa [Triggers] using h) (hchoice r (horder r))
  | some q => rw [eq_of_applies (triggers_of_choose hchoice).2 h.2]

theorem choose_perm {order : List Recovery} (h : order.Perm Recovery.all) :
    choose order config typed fault = choose Recovery.all config typed fault := by
  have horder : ∀ r, r ∈ order := fun r => h.mem_iff.mpr r.mem_all
  ext r
  rw [choose_eq_some horder, choose_eq_some Recovery.mem_all]

theorem choose_disabled {r : Recovery} (h : r.applies typed fault = true)
    (hdisabled : config.isDisabled r.name = true) :
    choose Recovery.all config typed fault = none := by
  refine Option.eq_none_iff_forall_not_mem.mpr fun q hq => ?_
  obtain ⟨henabled, happlies⟩ := (choose_eq_some Recovery.mem_all).mp hq
  obtain rfl := eq_of_applies happlies h
  rw [hdisabled] at henabled
  cases henabled

/-- Of the recovery strategies at most one is for a text and a fault. The order in which they are tried
does not matter, and if the one that is for the text is switched off, none is chosen and the missing
app name is all that is looked for. -/
theorem recovery_exclusive (typed : String) (fault : Pipework.Fault) :
    (∀ r q : Recovery, r.applies typed fault = true → q.applies typed fault = true → r = q) ∧
    (∀ order : List Recovery, order.Perm Recovery.all → ∀ ask config detail,
      recoverWith ask config detail typed fault =
        recoverBy ask config detail typed fault (choose order config typed fault)) ∧
    ∀ r : Recovery, r.applies typed fault = true → ∀ config, config.isDisabled r.name = true →
      choose Recovery.all config typed fault = none ∧ ∀ ask detail,
        recoverWith ask config detail typed fault =
          found (Recovery.missingApp (contextOf ask config detail .missingApp) typed fault) := by
  refine ⟨fun r q => eq_of_applies, fun order horder ask config detail => ?_,
    fun r hr config hdisabled => ?_⟩
  · rw [recoverWith_eq, choose_perm horder]
  · have hnone := choose_disabled hr hdisabled
    refine ⟨hnone, fun ask detail => ?_⟩
    rw [recoverWith_eq, hnone, recoverBy]

/-- A text that ends too early, which is for the options and not for the taps. -/
theorem recovery_exclusive_begun : ∃ fault, Stream.parse "http --" = .error fault ∧
    fault.message = .outOfData ∧ Recovery.unfinishedOptionName.applies "http --" fault = true ∧
    (∀ q : Recovery, q.applies "http --" fault = true → q = .unfinishedOptionName) ∧
    (∀ ask config detail, recoverWith ask config detail "http --" fault = recoverBy ask config detail
      "http --" fault (choose Recovery.all.reverse config "http --" fault)) ∧
    choose Recovery.all { disabled := ["unfinished-option-name"] } "http --" fault = none ∧
    ∀ ask detail, recoverWith ask { disabled := ["unfinished-option-name"] } detail "http --" fault =
      found (Recovery.missingApp
        (contextOf ask { disabled := ["unfinished-option-name"] } detail .missingApp) "http --" fault) := by
  obtain ⟨fault, hf, hmessage, happlies⟩ : ∃ fault, faultOf (Stream.parse "http --") = some fault ∧
      fault.message = .outOfData ∧
      Recovery.unfinishedOptionName.applies "http --" fault = true := by decide +kernel
  obtain ⟨hunique, horder, hdisabled⟩ := recovery_exclusive "http --" fault
  exact ⟨fault, faultOf_eq_some.mp hf, hmessage, happlies, fun q hq => hunique q _ hq happlies,
    horder _ (List.reverse_perm _), hdisabled _ happlies _ (by decide)⟩

end Pipework.Completion
