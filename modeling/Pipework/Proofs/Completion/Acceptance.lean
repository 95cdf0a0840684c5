import Pipework.Completion.Expansion
import Pipework.Proofs.Completion.Labels
import Pipework.Proofs.Parser.Alike
import Pipework.Proofs.Stream.Renaming

/-! Which proposals for a stream are streams. An app that is piped behind the last one gets a label if
its name is taken, so that all these proposals are streams. An app name that is finished gets none:
the proposal is refused where the app has no label of its own and its name is taken. -/

namespace Pipework.Completion

open Token Pipework.Parser

variable {ctx : Context} {registrations : List Registration}
  (hreg : ctx.registry = .ofList registrations) {typed : String} {stream : Stream} {last : Stream.App}

/-! ## Look-ups -/

include hreg

theorem allOf_eq (roles : List Role) :
    ctx.registry.allOf roles = .ok (registrations.filter fun r => roles.contains r.role) := by
  rw [hreg]
  rfl

theorem find_eq (name : String) (role : Role) : ctx.registry.find name role =
    .ok (registrations.find? fun r => r.name == name && r.role == role) := by
  rw [hreg]
  rfl

theorem exists_canFeed : ∃ feeds, Expansion.canFeed ctx stream last = .ok feeds := by
  simp only [Expansion.canFeed, find_eq hreg, bind, Except.bind, pure, Except.pure]
  split
  · exact ⟨_, rfl⟩
  · split <;> exact ⟨_, rfl⟩

omit hreg

/-- The last app of a stream that is open. -/
theorem exists_openLast (h : openLast? stream = some last) :
    stream.sink = none ∧ ∃ init, stream.apps = init ++ [last] := by
  rw [openLast?] at h
  split at h
  · cases h
  · next hclosed =>
    simp only [Bool.or_eq_true, not_or, Option.not_isSome_iff_eq_none] at hclosed
    obtain ⟨init, hinit⟩ := List.getLast?_eq_some_iff.mp h
    exact ⟨hclosed.1, init, hinit⟩

/-! ## Apps to pipe into -/

/-- An app that is offered behind a pipe is added to the stream. -/
theorem parse_offered {name app next : String} {gap : List Char}
    (h : Stream.parse typed = .ok stream) (hsink : stream.sink = none)
    (hbound : stream.unbound = false) (hw : isWord name = true)
    (ho : Offers stream.labelNames name app) (hg : gap.all Text.isBlank = true) (hne : gap ≠ [])
    (hnext : next.toList = Text.trimEnd typed.toList ++ (gap ++ '|' :: ' ' :: app.toList)) :
    ∃ m a, Stream.parse next = .ok m ∧ m.withoutPositions = { stream.withoutPositions with
      apps := stream.withoutPositions.apps ++ [a] } ∧ a.name = name ∧ a.arguments = [] := by
  obtain ⟨a, ha, rfl, hpos, hname, harg, hnew⟩ := ho.exists_app hw
  obtain ⟨m, hm, hshape⟩ := Stream.parse_piped h hsink hbound ha hnew hg hne hnext
  exact ⟨m, a, hm, hpos ▸ hshape, hname, harg⟩

include hreg in
theorem pipe_accepted (hw : ∀ r ∈ registrations, isWord r.name = true)
    (h : Stream.parse typed = .ok stream) (hsink : stream.sink = none) :
    ∃ ps, Expansion.pipe ctx typed stream last = .ok ps ∧
      ∀ p ∈ ps, ∃ m, Stream.parse p.text = .ok m := by
  obtain ⟨feeds, hfeeds⟩ := @exists_canFeed _ _ hreg stream last
  unfold Expansion.pipe
  simp only [hfeeds, allOf_eq hreg, bind, Except.bind, pure, Except.pure]
  split
  · exact ⟨[], rfl, by simp⟩
  next hskip =>
    have hbound : stream.unbound = false := by simp_all
    cases feeds with
    | false => exact ⟨[], rfl, by simp⟩
    | true =>
      refine ⟨_, rfl, fun p hp => ?_⟩
      obtain ⟨r, hr, hp⟩ := List.mem_filterMap.mp hp
      obtain ⟨app, happ, rfl⟩ := Option.map_eq_some_iff.mp hp
      have hgap : [' '].all Text.isBlank = true := rfl
      have hnext : (Text.withoutTrailingBlanks typed ++ " | " ++ app).toList =
          Text.trimEnd typed.toList ++ ([' '] ++ '|' :: ' ' :: app.toList) := by
        simp [Text.withoutTrailingBlanks]
      obtain ⟨m, a, hm, -⟩ := parse_offered h hsink hbound (hw r (List.mem_filter.mp hr).1)
        (offers_of_autoLabel happ) hgap (by simp) hnext
      exact ⟨m, hm⟩

/-! ## Finished names -/

/-- Where the name of the last app is finished, a name under which the text is a stream: the app has
a label, or no app before it is called by the name. -/
def IsFree (stream : Stream) (name : String) : Prop :=
  (∃ last ∈ stream.apps.getLast?, last.label.isSome = true) ∨
    name ∉ stream.apps.dropLast.map Stream.App.labelName

theorem nodup_named_iff {init : List Stream.App} {name : String}
    (h : stream.labelNames.Nodup) (happs : stream.apps = init ++ [last]) :
    (init.map Stream.App.labelName ++ [(last.named name).labelName]).Nodup ↔ IsFree stream name := by
  have hinit : (init.map Stream.App.labelName ++ [last.labelName]).Nodup := by
    simpa [Stream.labelNames, happs] using h
  rw [IsFree, happs, List.dropLast_concat, List.getLast?_concat]
  cases hlabel : last.label with
  | some l =>
    have hname : (last.named name).labelName = last.labelName := by
      simp [Stream.App.labelName, Stream.App.named, hlabel]
    simp [hname, hinit, hlabel]
  | none =>
    have hname : (last.named name).labelName = name := by
      simp [Stream.App.labelName, Stream.App.named, hlabel]
    rw [List.nodup_append] at hinit ⊢
    simp [hname, hinit.1, hlabel]

include hreg in
theorem finishName_accepted_iff (hw : ∀ r ∈ registrations, isWord r.name = true)
    (h : Stream.parse typed = .ok stream) (hopen : openLast? stream = some last) :
    ∃ ps, Expansion.finishName ctx typed stream last = .ok ps ∧ ∀ p ∈ ps, ∃ lead, ∃ r ∈ registrations,
      typed = lead ++ last.name ∧ p.text = lead ++ r.name ∧
        ((∃ m, Stream.parse p.text = .ok m) ↔ IsFree stream r.name) ∧
        ∀ f, Stream.parse p.text = .error f → f.message = .duplicateLabel := by
  obtain ⟨hsink, init, happs⟩ := exists_openLast hopen
  unfold Expansion.finishName
  simp only [allOf_eq hreg, bind, Except.bind, pure, Except.pure]
  split
  · exact ⟨[], rfl, by simp⟩
  next hskip =>
  simp only [Bool.or_eq_true, not_or, Bool.not_eq_true, Bool.not_eq_false', List.isEmpty_iff] at hskip
  split
  next lead hlead =>
    have htext := Text.dropEnd?_eq_some hlead
    refine ⟨_, rfl, fun p hp => ?_⟩
    obtain ⟨r, hr, rfl⟩ := List.mem_map.mp hp
    obtain ⟨hr, hlonger⟩ := List.mem_filter.mp hr
    have hr := (List.mem_filter.mp hr).1
    obtain ⟨accepted, refused⟩ := Stream.parse_longer h hsink happs hskip.2 hskip.1 htext
      (hw r hr) hlonger
    rw [nodup_named_iff (Stream.nodup_of_parse h) happs] at accepted refused
    refine ⟨lead, r, hr, htext, rfl, ⟨fun ⟨m, hm⟩ => ?_, fun hfree => ?_⟩, fun f hf => ?_⟩
    · by_contra hfree
      obtain ⟨f, hf, -⟩ := refused hfree
      cases hm.symm.trans hf
    · obtain ⟨m, hm, -⟩ := accepted hfree
      exact ⟨m, hm⟩
    · by_cases hfree : IsFree stream r.name
      · obtain ⟨m, hm, -⟩ := accepted hfree
        cases hf.symm.trans hm
      · obtain ⟨f', hf', hmessage⟩ := refused hfree
        obtain rfl := Except.error.inj (hf.symm.trans hf')
        exact hmessage
  · exact ⟨[], rfl, by simp⟩

/-! ## Proposals that name an app -/

include hreg in
/-- With apps that are registered under names, every proposal to pipe into an app is a stream, and a
proposal that finishes the name of the last app is one exactly if the name is free; it is refused
for a label that is there twice, and for nothing else. -/
theorem named_proposals_accepted (hnames : ∀ r ∈ registrations, IsNameToken r.name)
    (h : Stream.parse typed = .ok stream) :
    (∃ ps, Expansion.pipeIntoOtherApps.propose ctx typed stream = .ok ps ∧
      ∀ p ∈ ps, ∃ m, Stream.parse p.text = .ok m) ∧
    ∃ ps, Expansion.unfinishedAppName.propose ctx typed stream = .ok ps ∧
      ∀ p ∈ ps, ∃ last ∈ openLast? stream, ∃ lead, ∃ r ∈ registrations,
        typed = lead ++ last.name ∧ p.text = lead ++ r.name ∧
          ((∃ m, Stream.parse p.text = .ok m) ↔ IsFree stream r.name) ∧
          ∀ f, Stream.parse p.text = .error f → f.message = .duplicateLabel := by
  have hw : ∀ r ∈ registrations, isWord r.name = true := fun r hr => isNameToken_iff.mp (hnames r hr)
  unfold Expansion.propose
  cases hopen : openLast? stream with
  | none => exact ⟨⟨[], rfl, by simp⟩, [], rfl, by simp⟩
  | some last =>
    refine ⟨pipe_accepted hreg hw h (exists_openLast hopen).1, ?_⟩
    obtain ⟨ps, hps, hall⟩ := finishName_accepted_iff hreg hw h hopen
    exact ⟨ps, hps, fun p hp => ⟨last, rfl, hall p hp⟩⟩

/-- A registry of two processors, one of whose names goes on from the other's. -/
def filters : List Registration :=
  [{ name := "filter", role := .processor, description := "Drops messages." },
    { name := "filter-all", role := .processor, description := "Drops every message." }]

def filterContext : Context := { store := .unreachable, registry := .ofList filters }

theorem isNameToken_filters : ∀ r ∈ filters, IsNameToken r.name := by
  simp only [isNameToken_iff]
  decide +kernel

/-- The first proposal for `filter | filt` is refused, the second is a stream. -/
theorem named_proposals_accepted_filters : ∃ stream, Stream.parse "filter | filt" = .ok stream ∧
    (∃ ps, Expansion.pipeIntoOtherApps.propose filterContext "filter | filt" stream = .ok ps ∧
      ∀ p ∈ ps, ∃ m, Stream.parse p.text = .ok m) ∧
    ∃ ps, Expansion.unfinishedAppName.propose filterContext "filter | filt" stream = .ok ps ∧
      ps.map Proposal.text = ["filter | filter", "filter | filter-all"] ∧
      ¬ IsFree stream "filter" ∧ IsFree stream "filter-all" ∧
      ∀ p ∈ ps, ∃ last ∈ openLast? stream, ∃ lead, ∃ r ∈ filters,
        "filter | filt" = lead ++ last.name ∧ p.text = lead ++ r.name ∧
          ((∃ m, Stream.parse p.text = .ok m) ↔ IsFree stream r.name) ∧
          ∀ f, Stream.parse p.text = .error f → f.message = .duplicateLabel := by
  obtain ⟨stream, hs, htexts, hlast, hlabels⟩ :
      ∃ stream, (Stream.parse "filter | filt").toOption = some stream ∧
        (Expansion.unfinishedAppName.propose filterContext "filter | filt" stream).toOption.map
          (List.map Proposal.text) = some ["filter | filter", "filter | filter-all"] ∧
        (stream.apps.getLast?.any fun a => a.label.isSome) = false ∧
        stream.apps.dropLast.map Stream.App.labelName = ["filter"] := by decide +kernel
  have hs := toOption_eq_some.mp hs
  have hreg : filterContext.registry = .ofList filters := rfl
  obtain ⟨hpipe, ps, hps, hall⟩ := named_proposals_accepted hreg isNameToken_filters hs
  refine ⟨stream, hs, hpipe, ps, hps, ?_, ?_, ?_, hall⟩
  · rw [hps] at htexts
    exact Option.some.inj htexts
  · rintro (⟨last, hmem, hlabel⟩ | hfree)
    · simp [Option.mem_def.mp hmem, hlabel] at hlast
    · simp [hlabels] at hfree
  · exact .inr (by simp [hlabels])

/-- A name is finished as one that is taken, and the text is no stream any more. -/
theorem not_accepted_repeated : (∀ r ∈ filters, IsNameToken r.name) ∧
    ∃ stream, Stream.parse "filter | filt" = .ok stream ∧
    (∃ ps, Expansion.unfinishedAppName.propose filterContext "filter | filt" stream = .ok ps ∧
      ∃ p ∈ ps, p.text = "filter | filter") ∧
    ∃ f, Stream.parse "filter | filter" = .error f ∧ f.message = .duplicateLabel := by
  obtain ⟨stream, hs, ps, hps, hp⟩ : ∃ stream, (Stream.parse "filter | filt").toOption = some stream ∧
      ∃ ps, (Expansion.unfinishedAppName.propose filterContext "filter | filt" stream).toOption =
        some ps ∧ ∃ p ∈ ps, p.text = "filter | filter" := by decide +kernel
  refine ⟨isNameToken_filters, stream, toOption_eq_some.mp hs, ⟨ps, toOption_eq_some.mp hps, hp⟩, ?_⟩
  have hrefused : shown Stream.labelNames (Stream.parse "filter | filter") =
      .error .duplicateLabel := by decide +kernel
  cases hf : Stream.parse "filter | filter" with
  | ok m =>
    rw [hf] at hrefused
    cases hrefused
  | error f =>
    rw [hf] at hrefused
    exact ⟨f, rfl, Except.error.inj hrefused⟩

end Pipework.Completion
