import Pipework.Completion.Basic
import Pipework.Proofs.Completion.Ranking

/-! Which strategies are asked for proposals, and what becomes of what they find. A strategy may add
proposals before a look-up fails; these are lost with the rest of its search. -/

namespace Pipework.Completion

/-! ## Searches -/

@[simp] theorem Search.found_ofFound (f : Found) : (Search.ofFound f).found = f := by
  cases f <;> rfl

theorem mem_found {f : Found} {p : Proposal} : p ∈ found f ↔ ∃ ps, f = .ok ps ∧ p ∈ ps := by
  cases f <;> simp [found]

/-- What counts of a search was added before the search ended well. -/
theorem Search.found_eq_ok {s : Search} {ps : List Proposal} :
    s.found = .ok ps ↔ s.failure = none ∧ s.added = ps := by
  cases h : s.failure <;> simp [Search.found, h]

/-! ## Strategies -/

variable (ask : Strategy → Collaborators) (config : Config) (detail : Nat) (typed : String)

/-- A recovery strategy is not switched off, and meant for the text and the reason of its refusal. -/
def Triggers (fault : Pipework.Fault) (r : Recovery) : Prop :=
  config.isDisabled r.name = false ∧ r.applies typed fault = true

/-- The strategies that are asked, each with the search that it makes: every expansion that is not
switched off if the text is a stream, and else the first recovery that triggers. -/
inductive Searches : Strategy → Search → Prop
  | expansion {stream : Stream} {e : Expansion} : Stream.parse typed = .ok stream →
      config.isDisabled e.name = false →
      Searches (.expansion e)
        (.ofFound (e.propose (contextOf ask config detail (.expansion e)) typed stream))
  | recovery {fault : Pipework.Fault} {r : Recovery} {before after : List Recovery} :
      Stream.parse typed = .error fault → Recovery.all = before ++ r :: after →
      (∀ q ∈ before, ¬ Triggers config typed fault q) → Triggers config typed fault r →
      Searches (.recovery r) (r.search (contextOf ask config detail (.recovery r)) typed)
  | missingApp {fault : Pipework.Fault} : Stream.parse typed = .error fault →
      (∀ r, ¬ Triggers config typed fault r) →
      Searches .missingApp
        (.ofFound (Recovery.missingApp (contextOf ask config detail .missingApp) typed fault))

/-- A strategy that is asked adds the proposal, and none of its look-ups fails. -/
def Proposes (p : Proposal) : Prop :=
  ∃ strategy search, Searches ask config detail typed strategy search ∧ search.failure = none ∧
    p ∈ search.added

variable {ask config detail typed} {p : Proposal}

theorem Expansion.mem_all (e : Expansion) : e ∈ Expansion.all := by
  cases e <;> decide

theorem Recovery.mem_all (r : Recovery) : r ∈ Recovery.all := by
  cases r <;> decide

theorem proposes_iff : Proposes ask config detail typed p ↔ ∃ strategy search,
    Searches ask config detail typed strategy search ∧ p ∈ Completion.found search.found := by
  simp only [Proposes, mem_found, Search.found_eq_ok]
  grind

theorem mem_expandWith {stream : Stream} (hs : Stream.parse typed = .ok stream) :
    p ∈ expandWith ask config detail typed stream ↔ Proposes ask config detail typed p := by
  rw [proposes_iff, expandWith, List.mem_flatMap]
  simp only [List.mem_filter, Bool.not_eq_true']
  constructor
  · rintro ⟨e, ⟨-, hd⟩, hp⟩
    exact ⟨_, _, .expansion hs hd, by rwa [Search.found_ofFound]⟩
  · rintro ⟨strategy, search, hsearch, hp⟩
    cases hsearch with
    | @expansion stream' e hs' hd =>
      obtain rfl := Except.ok.inj (hs.symm.trans hs')
      exact ⟨e, ⟨e.mem_all, hd⟩, by rwa [Search.found_ofFound] at hp⟩
    | recovery he | missingApp he => cases hs.symm.trans he

theorem find?_triggers_eq_some {fault : Pipework.Fault} {r : Recovery} :
    (Recovery.all.find? fun r => !config.isDisabled r.name && r.applies typed fault) = some r ↔
      Triggers config typed fault r ∧ ∃ before after, Recovery.all = before ++ r :: after ∧
        ∀ q ∈ before, ¬ Triggers config typed fault q := by
  simp only [List.find?_eq_some_iff_append, Triggers, Bool.and_eq_true, Bool.not_eq_true',
    Bool.and_eq_false_iff, Bool.not_eq_false', not_and, Bool.not_eq_true]
  grind

theorem find?_triggers_eq_none {fault : Pipework.Fault} :
    (Recovery.all.find? fun r => !config.isDisabled r.name && r.applies typed fault) = none ↔
      ∀ r, ¬ Triggers config typed fault r := by
  simp only [List.find?_eq_none, Recovery.mem_all, Triggers, Bool.and_eq_true, Bool.not_eq_true',
    true_implies]

section

variable {fault : Pipework.Fault} (hf : Stream.parse typed = .error fault) {strategy : Strategy}
  {search : Search}

include hf

/-- Of the recovery strategies, the one that triggers first is asked, and nothing else. -/
theorem searches_recovery {r : Recovery}
    (hr : (Recovery.all.find? fun r => !config.isDisabled r.name && r.applies typed fault) = some r) :
    Searches ask config detail typed strategy search ↔
      strategy = .recovery r ∧ search = r.search (contextOf ask config detail (.recovery r)) typed := by
  obtain ⟨htriggers, before, after, hall, hbefore⟩ := find?_triggers_eq_some.mp hr
  constructor
  · intro hsearch
    cases hsearch with
    | expansion hs => cases hf.symm.trans hs
    | @recovery fault' q before' after' hf' hall' hbefore' htriggers' =>
      obtain rfl := Except.error.inj (hf.symm.trans hf')
      have hq := find?_triggers_eq_some.mpr ⟨htriggers', before', after', hall', hbefore'⟩
      obtain rfl := Option.some.inj (hr.symm.trans hq)
      exact ⟨rfl, rfl⟩
    | missingApp hf' hnone =>
      obtain rfl := Except.error.inj (hf.symm.trans hf')
      exact absurd htriggers (hnone r)
  · rintro ⟨rfl, rfl⟩
    exact .recovery hf hall hbefore htriggers

/-- If no recovery strategy triggers, the missing app is all that is asked for. -/
theorem searches_missingApp
    (hr : (Recovery.all.find? fun r => !config.isDisabled r.name && r.applies typed fault) = none) :
    Searches ask config detail typed strategy search ↔ strategy = .missingApp ∧
      search = .ofFound (Recovery.missingApp (contextOf ask config detail .missingApp) typed fault) := by
  have hnone := find?_triggers_eq_none.mp hr
  constructor
  · intro hsearch
    cases hsearch with
    | expansion hs => cases hf.symm.trans hs
    | recovery hf' _ _ htriggers =>
      obtain rfl := Except.error.inj (hf.symm.trans hf')
      exact absurd htriggers (hnone _)
    | missingApp hf' _ =>
      obtain rfl := Except.error.inj (hf.symm.trans hf')
      exact ⟨rfl, rfl⟩
  · rintro ⟨rfl, rfl⟩
    exact .missingApp hf hnone

theorem mem_recoverWith :
    p ∈ recoverWith ask config detail typed fault ↔ Proposes ask config detail typed p := by
  rw [proposes_iff, recoverWith]
  cases hr : Recovery.all.find? fun r => !config.isDisabled r.name && r.applies typed fault with
  | some r => simp [searches_recovery hf hr, Recovery.propose]
  | none => simp [searches_missingApp hf hr]

end

theorem mem_gatherWith :
    p ∈ gatherWith ask config detail typed ↔ Proposes ask config detail typed p := by
  unfold gatherWith
  split
  · next hs => exact mem_expandWith hs
  · next hf => exact mem_recoverWith hf

/-- What is gathered for a text that is refused, from the strategy that triggers first. -/
theorem gather_recovery {ctx : Context} {typed : String} {fault : Pipework.Fault} {r : Recovery}
    (hf : Stream.parse typed = .error fault)
    (hr : (Recovery.all.find? fun r => !ctx.config.isDisabled r.name && r.applies typed fault) = some r) :
    gather ctx typed = found (r.propose ctx typed) := by
  rw [gather, gatherWith, hf]
  simp only [recoverWith, hr]
  rfl

theorem gather_missingApp {ctx : Context} {typed : String} {fault : Pipework.Fault}
    (hf : Stream.parse typed = .error fault) (hr : ∀ r, ¬ Triggers ctx.config typed fault r) :
    gather ctx typed = found (Recovery.missingApp ctx typed fault) := by
  rw [gather, gatherWith, hf]
  simp only [recoverWith, find?_triggers_eq_none.mpr hr]
  rfl

/-- Nothing is gathered for a text that no strategy is for and that lacks no app. -/
theorem gather_eq_nil {ctx : Context} {typed : String} {fault : Pipework.Fault}
    (hf : Stream.parse typed = .error fault) (hr : ∀ r : Recovery, r.applies typed fault = false)
    (hm : fault.message ≠ .expectedAppname) : gather ctx typed = [] := by
  have hnone : ∀ r, ¬ Triggers ctx.config typed fault r := by
    intro r htriggers
    rw [Triggers, hr r] at htriggers
    cases htriggers.2
  rw [gather_missingApp hf hnone]
  simp [Recovery.missingApp, hm, found, pure, Except.pure]

/-- Completion gives the first texts, in order, of those that the strategies asked have found, without
the text that was typed and without anything that a failed search had added. -/
theorem completeWith_isRanked (ask : Strategy → Collaborators) (config : Config) (detail : Nat)
    (typed : String) :
    IsRanked typed (fun t => ∃ p, Proposes ask config detail typed p ∧ p.text = t)
      config.maxProposals ((completeWith ask config detail typed).map Proposal.text) :=
  (rank_isRanked typed _ config.maxProposals).congr fun t => by
    simp only [List.mem_map, mem_gatherWith]

/-- A tap adds streams before it looks up the one that was typed. -/
example :
    let store : Store := { Store.unreachable with all := .ok [⟨"ticks", "time | log", none⟩] }
    let ctx : Context := { store, registry := .unreachable }
    ((Recovery.tapOnDestination.search ctx ":t").added.map Proposal.text = [":ticks"]) ∧
      complete ctx ":t" = [] := by decide +kernel

end Pipework.Completion
