import Pipework.Proofs.Completion.Acceptance
import Pipework.Proofs.Completion.Shapes
import Pipework.Proofs.Completion.Strategies
import Pipework.Proofs.Stream.Dangling

/-! What is proposed behind a pipe: with apps that are registered under names, one proposal for each
processor and each sink, and every one of them adds that app to the stream before the pipe. -/

namespace Pipework.Completion

open Token

/-! ## Texts that end in a pipe -/

/-- No recovery strategy is for a text with a pipe that lacks an app. -/
theorem not_applies_of_pipe {typed : String} {fault : Pipework.Fault} (h : '|' ∈ typed.toList)
    (hf : fault.message = .expectedAppname) (r : Recovery) : r.applies typed fault = false := by
  have hlead : '|' ∉ longTapLead.toList := by decide
  cases r with
  | tapOnDestination | unfinishedOptionName | optionValueHint =>
    simp [Recovery.applies, Recovery.reasons, hf]
  | tapOnStream =>
    have hlong : longTap? typed.toList = none := by
      cases hshape : longTap? typed.toList with
      | none => rfl
      | some shape =>
        obtain ⟨rest, hrest, htap⟩ := exists_of_longTap? hshape
        rw [hrest, List.mem_append] at h
        have hnone := tapShape?_eq_none (h.resolve_left hlead) (by decide) (by decide)
        rw [hnone] at htap
        cases htap
    have hstart : startsLongTap typed.toList = false := by
      refine Bool.eq_false_iff.mpr fun hstart => hlead ?_
      simp only [startsLongTap, Bool.and_eq_true, List.isPrefixOf_iff_prefix] at hstart
      exact hstart.2.subset h
    simp [Recovery.applies, Recovery.fits, hlong, hstart]

theorem withoutTrailingBlanks_pipe (text : String) :
    Text.withoutTrailingBlanks (text ++ " |") = text ++ " |" := by
  apply String.toList_injective
  have hends : Text.endsBlank (text.toList ++ [' ', '|']) = false := by
    rw [endsBlank_append _ (by simp)]
    decide
  have := @trimEnd_append (text.toList ++ [' ', '|']) [] hends rfl
  rw [List.append_nil] at this
  simpa [Text.withoutTrailingBlanks] using this

/-- A blank behind a text is white space, with what white space the text ends in. -/
theorem exists_gap_blank (text : String) : ∃ gap, gap ≠ [] ∧ gap.all Text.isBlank = true ∧
    (text ++ " ").toList = Text.trimEnd text.toList ++ gap := by
  obtain ⟨gap, hgap, hblank⟩ := exists_gap text.toList
  refine ⟨gap ++ [' '], by simp, by rw [List.all_append, hblank]; rfl, ?_⟩
  rw [String.toList_append, ← List.append_assoc, ← hgap]
  rfl

/-- Behind a pipe that white space stands before, processors and sinks are expected. -/
theorem expectedAfter_pipe (text : String) :
    Recovery.expectedAfter (text ++ " |") = some (downstreamRoles, text ++ " ") := by
  have hempty : (text ++ " |").isEmpty = false := by
    simp [String.isEmpty]
  have hdouble : Text.dropEnd? (text ++ " |") "||" = none := by
    refine Option.eq_none_iff_forall_not_mem.mpr fun lead hlead => ?_
    have := congrArg (fun s : String => s.toList.reverse) (Text.dropEnd?_eq_some hlead)
    simp at this
  have hsingle : Text.dropEnd? (text ++ " |") "|" = some (text ++ " ") := by
    rw [show text ++ " |" = (text ++ " ") ++ "|" by rw [String.append_assoc]; rfl]
    exact Text.dropEnd?_append _ _
  simp [Recovery.expectedAfter, hempty, hdouble, hsingle]

/-! ## The stream before the pipe -/

variable {text : String} {stream : Stream} (h : Stream.parse text = .ok stream)

include h

theorem labelsOf_blank : Recovery.labelsOf (text ++ " ") = stream.labelNames := by
  have htrim : Text.withoutTrailingBlanks (text ++ " ") = Text.withoutTrailingBlanks text := by
    simp [Text.withoutTrailingBlanks, Text.trimEnd, show Text.isBlank ' ' = true by decide]
  obtain ⟨m, hm, hshape⟩ := Stream.parse_trimmed h
  have hlabels : m.labelNames = stream.labelNames := by
    rw [← Stream.labelNames_withoutPositions m, hshape, Stream.labelNames_withoutPositions]
  rw [Recovery.labelsOf, htrim, hm]
  exact hlabels

/-- A missing app name behind a pipe calls for the processors and the sinks. -/
theorem missingApp_pipe {ctx : Context} {registrations : List Registration} {f : Pipework.Fault}
    (hf : Stream.LacksApp (text ++ " |").utf8ByteSize f)
    (hreg : ctx.registry = .ofList registrations) :
    Recovery.missingApp ctx (text ++ " |") f =
      .ok ((registrations.filter fun r => downstreamRoles.contains r.role).filterMap fun r =>
        (ctx.autoLabel r.name stream.labelNames).map fun app =>
          ctx.proposal (text ++ " |" ++ " " ++ app) r.description) := by
  have hhead : (text ++ " |").isEmpty = false := by simp [String.isEmpty]
  simp [Recovery.missingApp, hf.message, hf.offset, withoutTrailingBlanks_pipe, expectedAfter_pipe,
    labelsOf_blank h, hhead, allOf_eq hreg, bind, Except.bind, pure, Except.pure]

section

variable (hsink : stream.sink = none) (hbound : stream.unbound = false) {ctx : Context}
  {registrations : List Registration}

include hsink hbound

theorem parse_pipe : ∃ f, Stream.parse (text ++ " |") = .error f ∧
    Stream.LacksApp (text ++ " |").utf8ByteSize f := by
  obtain ⟨gap, hne, hblank, hgap⟩ := exists_gap_blank text
  have hpipe : (text ++ " |").toList = Text.trimEnd text.toList ++ (gap ++ ['|']) := by
    rw [← List.append_assoc, ← hgap]
    simp
  exact Stream.parse_dangling h hsink hbound hblank hne hpipe

/-- What is gathered behind a pipe is what the missing app name calls for. -/
theorem gather_pipe (hreg : ctx.registry = .ofList registrations) :
    gather ctx (text ++ " |") =
      (registrations.filter fun r => downstreamRoles.contains r.role).filterMap fun r =>
        (ctx.autoLabel r.name stream.labelNames).map fun app =>
          ctx.proposal (text ++ " |" ++ " " ++ app) r.description := by
  obtain ⟨f, hf, hlacks⟩ := parse_pipe h hsink hbound
  have hnone : ∀ r, ¬ Triggers ctx.config (text ++ " |") f r := by
    intro r htriggers
    rw [Triggers, not_applies_of_pipe (by simp) hlacks.message r] at htriggers
    cases htriggers.2
  rw [gather_missingApp hf hnone, missingApp_pipe h hlacks hreg]
  rfl

/-- The text is read as the stream with one more app, which has the name and no arguments, and the
labels are all different. -/
def Adds (stream : Stream) (name text : String) : Prop :=
  ∃ m a, Stream.parse text = .ok m ∧ m.withoutPositions = { stream.withoutPositions with
    apps := stream.withoutPositions.apps ++ [a] } ∧ a.name = name ∧ a.arguments = [] ∧
    m.labelNames.Nodup

/-- An app is offered behind the pipe while there are numbers for labels, and it is added. -/
theorem exists_adds (hcount : stream.apps.length < maxSuffix + 1 - ctx.config.labelSuffixStart)
    {name : String} (hw : isWord name = true) : ∃ app,
      ctx.autoLabel name stream.labelNames = some app ∧
        Adds stream name (text ++ " |" ++ " " ++ app) := by
  have hused : stream.labelNames.length < maxSuffix + 1 - ctx.config.labelSuffixStart := by
    rwa [Stream.labelNames, List.length_map]
  obtain ⟨app, happ⟩ := exists_autoLabel hused name
  obtain ⟨gap, hne, hblank, hgap⟩ := exists_gap_blank text
  have hnext : (text ++ " |" ++ " " ++ app).toList =
      Text.trimEnd text.toList ++ (gap ++ '|' :: ' ' :: app.toList) := by
    rw [← List.append_assoc, ← hgap]
    simp
  obtain ⟨m, a, hm, hshape, hname, harg⟩ := parse_offered h hsink hbound hw
    (offers_of_autoLabel happ) hblank hne hnext
  exact ⟨app, happ, m, a, hm, hshape, hname, harg, Stream.nodup_of_parse hm⟩

end

omit h

theorem forall₂_filterMap {α β : Type} {R : α → β → Prop} {f : α → Option β} {as : List α}
    (hf : ∀ a ∈ as, ∃ b, f a = some b ∧ R a b) : List.Forall₂ R as (as.filterMap f) := by
  induction as with
  | nil => exact .nil
  | cons a as ih =>
    rw [List.forall_mem_cons] at hf
    obtain ⟨⟨b, hb, hr⟩, has⟩ := hf
    rw [List.filterMap_cons_some hb]
    exact .cons hr (ih has)

/-- Behind a pipe, every processor and every sink is proposed once, in the order of the registry, and
the text that is proposed adds that app to the stream. -/
theorem gather_adds {ctx : Context} {registrations : List Registration}
    (hreg : ctx.registry = .ofList registrations) (hconfig : ctx.config = {})
    (hnames : ∀ r ∈ registrations, IsNameToken r.name) (h : Stream.parse text = .ok stream)
    (hsink : stream.sink = none) (hbound : stream.unbound = false)
    (hcount : stream.apps.length < 2 ^ 32 - 2) :
    List.Forall₂ (fun r p => Adds stream r.name p.text)
      (registrations.filter fun r => r.role = .processor ∨ r.role = .sink)
      (gather ctx (text ++ " |")) := by
  have hroles : (registrations.filter fun r => downstreamRoles.contains r.role) =
      registrations.filter fun r => r.role = .processor ∨ r.role = .sink :=
    List.filter_congr fun r _ => by simp [downstreamRoles]
  rw [gather_pipe h hsink hbound hreg, hroles]
  refine forall₂_filterMap fun r hr => ?_
  have hcount : stream.apps.length < maxSuffix + 1 - ctx.config.labelSuffixStart := by
    simpa [hconfig, maxSuffix] using hcount
  have hw := isNameToken_iff.mp (hnames r (List.mem_filter.mp hr).1)
  obtain ⟨app, happ, hadds⟩ := exists_adds h hsink hbound hcount hw
  exact ⟨ctx.proposal (text ++ " |" ++ " " ++ app) r.description, by rw [happ, Option.map_some], hadds⟩

/-- A source, which cannot follow, a processor and a sink. -/
def clock : List Registration :=
  [{ name := "time", role := .source, description := "Emits the time." },
    { name := "filter", role := .processor, description := "Drops messages." },
    { name := "log", role := .sink, description := "Writes messages." }]

theorem isNameToken_clock : ∀ r ∈ clock, IsNameToken r.name := by
  simp only [isNameToken_iff]
  decide +kernel

/-- A tap, a label that looks like one made up, a pipe within a value and white space at the end. -/
theorem gather_adds_tapped : ∃ stream,
    Stream.parse ":a.b > filter | filter2: x --k='|' " = .ok stream ∧ stream.sink = none ∧
    stream.unbound = false ∧ stream.apps.length < 2 ^ 32 - 2 ∧
    (gather { store := .unreachable, registry := .ofList clock }
      (":a.b > filter | filter2: x --k='|' " ++ " |")).map Proposal.text =
        [":a.b > filter | filter2: x --k='|'  | filter3: filter",
          ":a.b > filter | filter2: x --k='|'  | log"] ∧
    List.Forall₂ (fun r p => Adds stream r.name p.text)
      (clock.filter fun r => r.role = .processor ∨ r.role = .sink)
      (gather { store := .unreachable, registry := .ofList clock }
        (":a.b > filter | filter2: x --k='|' " ++ " |")) := by
  obtain ⟨stream, hs, hsink, hbound, hlength⟩ :
      ∃ stream, (Stream.parse ":a.b > filter | filter2: x --k='|' ").toOption = some stream ∧
        stream.sink = none ∧ stream.unbound = false ∧ stream.apps.length = 2 := by decide +kernel
  have hs := toOption_eq_some.mp hs
  have hcount : stream.apps.length < 2 ^ 32 - 2 := by
    rw [hlength]
    decide
  exact ⟨stream, hs, hsink, hbound, hcount, by decide +kernel,
    gather_adds rfl rfl isNameToken_clock hs hsink hbound hcount⟩

end Pipework.Completion
