import Pipework.Completion.Basic
import Pipework.Completion.Task
import Pipework.Proofs.Completion.Ranking

/-! What the detail of a completion changes: the explanations, and nothing else. Every strategy makes
up its proposals as texts with descriptions, without a look at the detail; the detail only says how
much of each description is shown. -/

namespace Pipework.Completion

/-! ## Explanations -/

theorem firstSentence_isPrefix (cs : List Char) : firstSentence cs <+: cs := by
  fun_induction firstSentence cs with
  | case1 => exact List.prefix_rfl
  | case2 c => exact List.prefix_rfl
  | case3 c d cs h => exact ⟨_, rfl⟩
  | case4 c d cs h ih => exact (List.prefix_cons_inj c).mpr ih

theorem firstSentence_ne_nil {cs : List Char} (h : cs ≠ []) : firstSentence cs ≠ [] := by
  fun_induction firstSentence cs <;> simp_all

theorem explain_zero (description : String) : explain description 0 = none := by
  simp [explain]

theorem explain_eq_none {description : String} (h : explain description 1 = none) (n : Nat) :
    explain description n = none := by
  have hcs : Text.trim description.toList = [] := by simpa [explain] using h
  simp [explain, hcs]

theorem explain_of_two_le {description : String} {n : Nat} (hn : 2 ≤ n) :
    explain description n = explain description 2 := by
  have hn₀ : n ≠ 0 := by omega
  have hn₁ : n ≠ 1 := by omega
  simp [explain, hn₀, hn₁]

/-- A first sentence is not empty, and the whole description goes on from it. -/
theorem explain_one {description e : String} (h : explain description 1 = some e) {n : Nat}
    (hn : 2 ≤ n) :
    e ≠ "" ∧ ∃ whole, explain description n = some whole ∧ e.toList <+: whole.toList := by
  rw [explain_of_two_le hn]
  obtain hcs | hcs := eq_or_ne (Text.trim description.toList) []
  · simp [explain, hcs] at h
  · obtain rfl : String.ofList (firstSentence (Text.trim description.toList)) = e := by
      simpa [explain, hcs] using h
    refine ⟨?_, String.ofList (Text.trim description.toList), by simp [explain, hcs], ?_⟩
    · simpa [← String.toList_inj] using firstSentence_ne_nil hcs
    · simpa using firstSentence_isPrefix _

/-! ## Drafts -/

/-- A proposal whose description is not cut yet. -/
structure Draft where
  text : String
  description : String

def Draft.proposal (detail : Nat) (d : Draft) : Proposal := ⟨d.text, explain d.description detail⟩

/-- At each detail, the proposals are those of the same drafts. -/
def IsDrafted (f : Nat → List Proposal) : Prop :=
  ∃ ds : List Draft, f = fun n => ds.map (Draft.proposal n)

/-- What is found at each detail is of the same drafts, or fails for the same reason. -/
def FindsDrafts (f : Nat → Found) : Prop :=
  ∃ r : Except LookupFault (List Draft), f = fun n => r.map (List.map (Draft.proposal n))

/-- A search takes the same course at each detail. -/
def SearchesDrafts (f : Nat → Search) : Prop :=
  ∃ (ds : List Draft) (failure : Option LookupFault),
    f = fun n => ⟨ds.map (Draft.proposal n), failure⟩

section

variable {α : Type}

theorem IsDrafted.flatMap {f : α → Nat → List Proposal} (h : ∀ x, IsDrafted (f x)) (xs : List α) :
    IsDrafted fun n => xs.flatMap (f · n) := by
  induction xs with
  | nil => exact ⟨[], rfl⟩
  | cons x xs ih =>
    obtain ⟨ds, hds⟩ := h x
    obtain ⟨es, hes⟩ := ih
    refine ⟨ds ++ es, funext fun n => ?_⟩
    rw [List.flatMap_cons, congrFun hds n, congrFun hes n, List.map_append]

/-- Where a draft goes does not depend on the detail, and neither does whether it is kept. -/
theorem exists_insert (ds : List Draft) (d : Draft) : ∃ es : List Draft,
    ∀ n, insert (ds.map (Draft.proposal n)) (d.proposal n) = es.map (Draft.proposal n) := by
  induction ds with
  | nil => exact ⟨[d], fun _ => rfl⟩
  | cons c ds ih =>
    obtain ⟨es, hes⟩ := ih
    have hinsert (n : Nat) : insert ((c :: ds).map (Draft.proposal n)) (d.proposal n) =
        if d.text = c.text then (c :: ds).map (Draft.proposal n)
        else if before d.text c.text then (d :: c :: ds).map (Draft.proposal n)
        else (c :: es).map (Draft.proposal n) := by
      rw [List.map_cons, insert, hes]
      rfl
    refine ⟨if d.text = c.text then c :: ds else if before d.text c.text then d :: c :: ds
      else c :: es, fun n => ?_⟩
    rw [hinsert]
    split_ifs <;> rfl

theorem exists_foldl_insert (ds es : List Draft) : ∃ fs : List Draft, ∀ n,
    (ds.map (Draft.proposal n)).foldl insert (es.map (Draft.proposal n)) =
      fs.map (Draft.proposal n) := by
  induction ds generalizing es with
  | nil => exact ⟨es, fun _ => rfl⟩
  | cons d ds ih =>
    obtain ⟨gs, hgs⟩ := exists_insert es d
    obtain ⟨fs, hfs⟩ := ih gs
    exact ⟨fs, fun n => by rw [List.map_cons, List.foldl_cons, hgs, hfs]⟩

theorem IsDrafted.ranked {f : Nat → List Proposal} (h : IsDrafted f) (typed : String) (limit : Nat) :
    IsDrafted fun n => rank typed (f n) limit := by
  obtain ⟨ds, rfl⟩ := h
  obtain ⟨es, hes⟩ := exists_foldl_insert (ds.filter fun d => d.text != typed) []
  refine ⟨es.take limit, funext fun n => ?_⟩
  -- What was typed is left out by its text, which a draft has already.
  have hfilter : (ds.map (Draft.proposal n)).filter (fun p => p.text != typed) =
      (ds.filter fun d => d.text != typed).map (Draft.proposal n) := List.filter_map
  rw [rank, hfilter, List.map_take, ← hes]
  rfl

end

section

variable {α : Type} {f g : Nat → Found}

theorem FindsDrafts.nil : FindsDrafts fun _ => pure [] := ⟨.ok [], rfl⟩

theorem FindsDrafts.ite {c : Prop} [Decidable c] (hf : FindsDrafts f) (hg : FindsDrafts g) :
    FindsDrafts fun n => if c then f n else g n := by
  split
  · exact hf
  · exact hg

/-- What is looked up is the same at each detail, and comes before what is made of it. -/
theorem FindsDrafts.bind {x : Except LookupFault α} {f : Nat → α → Found}
    (h : ∀ a, FindsDrafts (f · a)) : FindsDrafts fun n => x >>= f n := by
  cases x with
  | error fault => exact ⟨.error fault, rfl⟩
  | ok a => exact h a

theorem FindsDrafts.found (h : FindsDrafts f) : IsDrafted fun n => found (f n) := by
  obtain ⟨r, rfl⟩ := h
  cases r with
  | error fault => exact ⟨[], rfl⟩
  | ok ds => exact ⟨ds, rfl⟩

theorem FindsDrafts.search (h : FindsDrafts f) : SearchesDrafts fun n => .ofFound (f n) := by
  obtain ⟨r, rfl⟩ := h
  cases r with
  | error fault => exact ⟨[], some fault, rfl⟩
  | ok ds => exact ⟨ds, none, rfl⟩

end

section

variable {f g : Nat → Search}

theorem SearchesDrafts.andThen (hf : SearchesDrafts f) (hg : SearchesDrafts g) :
    SearchesDrafts fun n => (f n).andThen (g n) := by
  obtain ⟨ds, failure, rfl⟩ := hf
  obtain ⟨es, failure', rfl⟩ := hg
  cases failure with
  | some fault => exact ⟨ds, some fault, rfl⟩
  | none => exact ⟨ds ++ es, failure', by simp [Search.andThen]⟩

theorem SearchesDrafts.found (h : SearchesDrafts f) : FindsDrafts fun n => (f n).found := by
  obtain ⟨ds, failure, rfl⟩ := h
  cases failure with
  | some fault => exact ⟨.error fault, rfl⟩
  | none => exact ⟨.ok ds, rfl⟩

end

/-! ## Strategies -/

def Context.withDetail (ctx : Context) (n : Nat) : Context := { ctx with detail := n }

section

variable (ctx : Context) (n : Nat)

@[simp] theorem Context.withDetail_store : (ctx.withDetail n).store = ctx.store := rfl

@[simp] theorem Context.withDetail_registry : (ctx.withDetail n).registry = ctx.registry := rfl

@[simp] theorem Context.withDetail_registration (name : String) (role : Role) :
    (ctx.withDetail n).registration name role = ctx.registration name role := rfl

@[simp] theorem Context.withDetail_autoLabel (name : String) (used : List String) :
    (ctx.withDetail n).autoLabel name used = ctx.autoLabel name used := rfl

@[simp] theorem Expansion.canFeed_withDetail (stream : Stream) (last : Stream.App) :
    canFeed (ctx.withDetail n) stream last = canFeed ctx stream last := rfl

@[simp] theorem Recovery.lastRegistration_withDetail (head : String) :
    lastRegistration (ctx.withDetail n) head = lastRegistration ctx head := rfl

end

section

variable {α : Type} {ctx : Context} {text description : α → String} {xs : List α}

theorem FindsDrafts.map :
    FindsDrafts fun n => pure (xs.map fun x => (ctx.withDetail n).proposal (text x) (description x)) :=
  ⟨.ok (xs.map fun x => ⟨text x, description x⟩), funext fun n => by
    simp [pure, Except.pure, Except.map, Draft.proposal, Context.proposal, Context.withDetail]⟩

/-- Of some, nothing may be proposed. -/
theorem FindsDrafts.filterMap {word? : α → Option String} {text : α → String → String} :
    FindsDrafts fun n => pure (xs.filterMap fun x =>
      (word? x).map fun word => (ctx.withDetail n).proposal (text x word) (description x)) :=
  ⟨.ok (xs.filterMap fun x => (word? x).map fun word => ⟨text x word, description x⟩),
    funext fun n => by
      simp [pure, Except.pure, Except.map, List.map_filterMap, Function.comp_def, Draft.proposal, Context.proposal,
        Context.withDetail]⟩

end

variable (ctx : Context) (typed : String) (stream : Stream) (last : Stream.App)

theorem Expansion.finishName_drafts :
    FindsDrafts fun n => finishName (ctx.withDetail n) typed stream last := by
  simp only [finishName, Context.withDetail_registry]
  refine .ite .nil ?_
  cases Text.dropEnd? typed last.name with
  | none => exact .nil
  | some lead => exact .bind fun rs => .map

theorem Expansion.addOption_drafts :
    FindsDrafts fun n => addOption (ctx.withDetail n) typed stream last := by
  simp only [addOption, Context.withDetail_registration]
  refine .bind fun r => ?_
  cases r with
  | none => exact .nil
  | some r => exact .map

theorem Expansion.pipe_drafts : FindsDrafts fun n => pipe (ctx.withDetail n) typed stream last := by
  simp only [pipe, canFeed_withDetail, Context.withDetail_registry, Context.withDetail_autoLabel]
  exact .ite .nil (.bind fun feeds => .ite .nil (.bind fun rs => .filterMap))

theorem Expansion.finishValue_drafts :
    FindsDrafts fun n => finishValue (ctx.withDetail n) typed stream last := by
  simp only [finishValue, Context.withDetail_registration]
  refine .ite .nil ?_
  cases last.arguments.getLast? with
  | none => exact .nil
  | some argument =>
    cases hlead : Text.dropEnd? typed ("--" ++ argument.name ++ "=" ++ argument.value) with
    | none => simpa only [hlead] using .nil
    | some lead =>
      simp only [hlead]
      refine .bind fun r => ?_
      cases r with
      | none => exact .nil
      | some r =>
        cases h : r.option? argument.name with
        | none => simpa only [h] using .nil
        | some option => simpa only [h] using .map

theorem Expansion.propose_drafts (e : Expansion) :
    FindsDrafts fun n => e.propose (ctx.withDetail n) typed stream := by
  unfold Expansion.propose
  cases openLast? stream with
  | none => exact .nil
  | some last =>
    cases e with
    | unfinishedAppName => exact finishName_drafts ..
    | appOptions => exact addOption_drafts ..
    | pipeIntoOtherApps => exact pipe_drafts ..
    | valueHint => exact finishValue_drafts ..

theorem Recovery.tapStreams_drafts (lead : String) (shape : TapShape) :
    FindsDrafts fun n => tapStreams (ctx.withDetail n) lead shape := by
  simp only [tapStreams, Context.withDetail_store]
  exact .ite .nil (.bind fun streams => .map)

theorem Recovery.tapApps_drafts (lead : String) (shape : TapShape) :
    FindsDrafts fun n => tapApps (ctx.withDetail n) lead shape := by
  simp only [tapApps, Context.withDetail_store]
  refine .ite .nil (.bind fun stream => ?_)
  cases stream with
  | none => exact .nil
  | some stream => exact .bind fun apps => .map

theorem Recovery.tap_drafts (lead : String) (shape : TapShape) :
    SearchesDrafts fun n => tap (ctx.withDetail n) lead shape :=
  .andThen (tapStreams_drafts ctx lead shape).search (tapApps_drafts ctx lead shape).search

theorem Recovery.finishOption_drafts (shape : OptionShape) :
    FindsDrafts fun n => finishOption (ctx.withDetail n) shape := by
  simp only [finishOption, lastRegistration_withDetail]
  refine .bind fun r => ?_
  cases r with
  | none => exact .nil
  | some r => exact .map

theorem Recovery.addValue_drafts (shape : OptionShape) :
    FindsDrafts fun n => addValue (ctx.withDetail n) typed shape := by
  simp only [addValue, lastRegistration_withDetail]
  refine .bind fun r => ?_
  cases r with
  | none => exact .nil
  | some r =>
    cases h : r.2.option? shape.option with
    | none => simpa only [h] using .nil
    | some option => simpa only [h] using .map

theorem Recovery.search_drafts (r : Recovery) :
    SearchesDrafts fun n => r.search (ctx.withDetail n) typed := by
  have hnone : SearchesDrafts fun _ => { added := [] } := ⟨[], none, rfl⟩
  cases r with
  | tapOnDestination =>
    simp only [search]
    cases destinationTap? typed.toList with
    | none => exact hnone
    | some shape => exact tap_drafts ..
  | tapOnStream =>
    simp only [search]
    cases longTap? typed.toList with
    | none => exact ⟨[⟨longTapLead, _⟩], none, rfl⟩
    | some shape => exact tap_drafts ..
  | unfinishedOptionName =>
    simp only [search]
    cases unfinishedOption? typed.toList with
    | none => exact hnone
    | some shape => exact (finishOption_drafts ctx shape).search
  | optionValueHint =>
    simp only [search]
    cases optionWithoutValue? typed.toList with
    | none => exact hnone
    | some shape => exact (addValue_drafts ctx typed shape).search

theorem Recovery.missingApp_drafts (fault : Pipework.Fault) :
    FindsDrafts fun n => missingApp (ctx.withDetail n) typed fault := by
  simp only [missingApp, Context.withDetail_registry, Context.withDetail_autoLabel]
  refine .ite .nil ?_
  cases expectedAfter (Text.withoutTrailingBlanks typed) with
  | none => exact .nil
  | some expected => exact .bind fun rs => .filterMap

/-! ## Completion -/

theorem gatherWith_drafts (ask : Strategy → Collaborators) (config : Config) :
    IsDrafted fun n => gatherWith ask config n typed := by
  unfold gatherWith
  cases Stream.parse typed with
  | ok stream =>
    refine .flatMap (fun e => ?_) _
    exact (e.propose_drafts (contextOf ask config 0 (.expansion e)) typed stream).found
  | error fault =>
    simp only [recoverWith]
    cases Recovery.all.find? fun r => !config.isDisabled r.name && r.applies typed fault with
    | some r => exact (r.search_drafts (contextOf ask config 0 (.recovery r)) typed).found.found
    | none => exact (Recovery.missingApp_drafts (contextOf ask config 0 .missingApp) typed fault).found

theorem Task.finishName_drafts (apps : List Registration) (name : Token) (before : List Token.Kind) :
    FindsDrafts fun n => pure (finishName (ctx.withDetail n) apps typed name before) := by
  unfold Task.finishName
  split
  · split
    · exact .map
    · exact .nil
  · exact .nil

theorem Task.proposeAfter_drafts (apps : List Registration) (ts : List Token) :
    FindsDrafts fun n => pure (proposeAfter (ctx.withDetail n) apps typed ts) := by
  cases ts with
  | nil => exact .map
  | cons last before =>
    simp only [proposeAfter]
    cases gapAfter last.kind with
    | none => exact finishName_drafts ..
    | some gap => exact .map

theorem Task.gather_drafts : FindsDrafts fun n => gather (ctx.withDetail n) typed := by
  simp only [gather, Context.withDetail_registry]
  cases Token.tokenize typed with
  | error fault => exact .nil
  | ok tokens => exact .bind fun apps => proposeAfter_drafts ..

theorem Task.complete_drafts : IsDrafted fun n => complete (ctx.withDetail n) typed := by
  obtain ⟨r, hr⟩ := gather_drafts ctx typed
  simp only [complete, congrFun hr]
  cases r with
  | error fault => exact ⟨[], rfl⟩
  | ok ds => exact IsDrafted.ranked ⟨ds, rfl⟩ typed ctx.config.maxProposals

/-- How the proposals at different details compare. -/
structure ExplainsAlone (f : Nat → List Proposal) : Prop where
  texts : ∀ m n, (f m).map Proposal.text = (f n).map Proposal.text
  hidden : ∀ p ∈ f 0, p.explanation = none
  /-- Where there is an explanation at detail 1, it opens those at all details from 2 on. -/
  opening : ∀ n, 2 ≤ n → List.Forall₂ (fun p q => ∀ e, p.explanation = some e →
    e ≠ "" ∧ ∃ whole, q.explanation = some whole ∧ e.toList <+: whole.toList) (f 1) (f n)
  /-- What is not explained at detail 1 is not at any other. -/
  silent : ∀ n, List.Forall₂ (fun p q => p.explanation = none → q.explanation = none) (f 1) (f n)
  /-- From detail 2 on there is no more to show. -/
  full : ∀ n, 2 ≤ n → f n = f 2

theorem IsDrafted.explainsAlone {f : Nat → List Proposal} (h : IsDrafted f) : ExplainsAlone f := by
  obtain ⟨ds, rfl⟩ := h
  refine ⟨fun m n => ?_, fun p hp => ?_, fun n hn => ?_, fun n => ?_, fun n hn => ?_⟩
  · simp [Draft.proposal, Function.comp_def]
  · obtain ⟨d, -, rfl⟩ := List.mem_map.mp hp
    exact explain_zero d.description
  · rw [List.forall₂_map_left_iff, List.forall₂_map_right_iff]
    exact List.forall₂_same.mpr fun d _ e he => explain_one he hn
  · rw [List.forall₂_map_left_iff, List.forall₂_map_right_iff]
    exact List.forall₂_same.mpr fun d _ h => explain_eq_none h n
  · exact List.map_congr_left fun d _ => congrArg (Proposal.mk d.text) (explain_of_two_le hn)

/-- The detail changes explanations alone, for streams and for tasks, whatever is typed, configured
and looked up: the texts stay the same, in the same order. -/
theorem complete_explainsAlone (ask : Strategy → Collaborators) (tasks : Collaborators)
    (config : Config) (typed : String) :
    ExplainsAlone (completeWith ask config · typed) ∧
      ExplainsAlone fun n => Task.complete { tasks with config, detail := n } typed :=
  ⟨((gatherWith_drafts typed ask config).ranked typed _).explainsAlone,
    (Task.complete_drafts { tasks with config } typed).explainsAlone⟩

/-- A first sentence and all sentences, for streams and for tasks, and an app without a description. -/
theorem complete_explainsAlone_tick :
    let registry := Registry.ofList [⟨"time", .source, "Ticks at v1.2 pace. Stops never.", []⟩,
      ⟨"tick", .source, "", []⟩, ⟨"tidy", .task, "Sweeps. Then rests.", []⟩]
    let tools : Collaborators := { store := .unreachable, registry }
    let ofStream := fun n => complete { tools with detail := n } "ti"
    let ofTask := fun n => Task.complete { tools with detail := n } "a && ti"
    (ofStream 0 = [⟨"tick", none⟩, ⟨"time", none⟩] ∧
      ofStream 1 = [⟨"tick", none⟩, ⟨"time", some "Ticks at v1.2 pace."⟩] ∧
      ofStream 2 = [⟨"tick", none⟩, ⟨"time", some "Ticks at v1.2 pace. Stops never."⟩]) ∧
    (ofTask 0 = [⟨"a && tidy", none⟩] ∧ ofTask 1 = [⟨"a && tidy", some "Sweeps."⟩] ∧
      ofTask 2 = [⟨"a && tidy", some "Sweeps. Then rests."⟩]) ∧
    ExplainsAlone ofStream ∧ ExplainsAlone ofTask := by
  intro registry tools ofStream ofTask
  obtain ⟨hstream, htask⟩ := complete_explainsAlone (fun _ => tools) tools {} "ti"
  obtain ⟨-, htask⟩ := complete_explainsAlone (fun _ => tools) tools {} "a && ti"
  exact ⟨by decide +kernel, by decide +kernel, hstream, htask⟩

end Pipework.Completion
