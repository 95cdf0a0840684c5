import Pipework.Proofs.Completion.NextApp

/-! The apps that can follow a stream are proposed in two ways: a space behind the stream expands it,
and a pipe there, with which the text is no stream any more, lacks an app name. The first looks at the
stream that is read, the second cuts the pipe off the text and reads what is left; both come to the
same proposals. -/

namespace Pipework.Completion

open Token

variable {ctx : Context} {registrations : List Registration} {text : String} {stream : Stream}

/-- The last app is registered as a processor, or is all that there is and registered as a source. -/
def Feeds (registrations : List Registration) (stream : Stream) : Prop :=
  ∃ last ∈ stream.apps.getLast?, ∃ r ∈ registrations, r.name = last.name ∧
    (r.role = .processor ∨ r.role = .source ∧ stream.apps.length = 1 ∧ stream.source = none)

/-- The apps of a registry that can follow, piped behind a text under labels that are not used. -/
def piped (ctx : Context) (registrations : List Registration) (text : String) (used : List String) :
    List Proposal :=
  (registrations.filter fun r => downstreamRoles.contains r.role).filterMap fun r =>
    (ctx.autoLabel r.name used).map fun app => ctx.proposal (text ++ " | " ++ app) r.description

/-! ## The space behind a stream -/

theorem feeds_withoutPositions :
    Feeds registrations stream.withoutPositions ↔ Feeds registrations stream := by
  simp [Feeds, Stream.withoutPositions, List.getLast?_map, Stream.App.withoutPosition]

theorem canFeed_of_feeds {last : Stream.App} (hreg : ctx.registry = .ofList registrations)
    (hfeeds : Feeds registrations stream) (hlast : stream.apps.getLast? = some last) :
    Expansion.canFeed ctx stream last = .ok true := by
  obtain ⟨_, hmem, r, hr, hname, hrole⟩ := hfeeds
  obtain rfl := Option.some.inj (hlast.symm.trans hmem)
  have hfound : ∀ role, r.role = role →
      (registrations.find? fun r => r.name == last.name && r.role == role).isSome = true := by
    intro role hrole
    rw [List.find?_isSome]
    exact ⟨r, hr, by simp [hname, hrole]⟩
  simp only [Expansion.canFeed, find_eq hreg, bind, Except.bind, pure, Except.pure]
  rcases hrole with hprocessor | ⟨hsource, hlength, hfirst⟩
  · rw [if_pos (hfound .processor hprocessor)]
  · have hstart : startsWithLast stream = true := by simp [startsWithLast, hlength, hfirst]
    rw [if_pos hstart, hfound .source hsource]
    split <;> rfl

/-- An open stream with white space behind it is expanded by every app that can follow. -/
theorem propose_pipe {typed : String} (hreg : ctx.registry = .ofList registrations)
    (hfeeds : Feeds registrations stream) (hsink : stream.sink = none)
    (hbound : stream.unbound = false) (hends : Expansion.endsBlank typed = true) :
    Expansion.pipeIntoOtherApps.propose ctx typed stream =
      .ok (piped ctx registrations (Text.withoutTrailingBlanks typed) stream.labelNames) := by
  obtain ⟨last, hlast, -⟩ := id hfeeds
  have hopen : openLast? stream = some last := by
    simpa [openLast?, Stream.isBridge, hsink] using hlast
  simp [Expansion.propose, hopen, Expansion.pipe, hends, hbound, canFeed_of_feeds hreg hfeeds hlast,
    allOf_eq hreg, nextRoles, piped, bind, Except.bind, pure, Except.pure]

section

variable (hreg : ctx.registry = .ofList registrations) (h : Stream.parse text = .ok stream)
  (hink : Text.endsBlank text.toList = false) (hsink : stream.sink = none)
  (hbound : stream.unbound = false) (hfeeds : Feeds registrations stream)

include hreg h hsink hbound

include hink hfeeds in
theorem propose_space : ∃ m, Stream.parse (text ++ " ") = .ok m ∧
    Expansion.pipeIntoOtherApps.propose ctx (text ++ " ") m =
      .ok (piped ctx registrations text stream.labelNames) := by
  obtain ⟨gap, -, hblank, hgap⟩ := exists_gap_blank text
  obtain ⟨m, hm, hshape⟩ := Stream.parse_before_blank h hblank hgap
  -- What is read with the space is the stream that is read without it, but for its positions.
  have hfeeds : Feeds registrations m := by
    rwa [← feeds_withoutPositions, hshape, feeds_withoutPositions]
  have hsink : m.sink = none := by
    have := congrArg Stream.sink hshape
    simpa [Stream.withoutPositions, hsink] using this
  have hbound : m.unbound = false := (congrArg Stream.unbound hshape).trans hbound
  have hlabels : m.labelNames = stream.labelNames := by
    rw [← Stream.labelNames_withoutPositions m, hshape, Stream.labelNames_withoutPositions]
  have hends : Expansion.endsBlank (text ++ " ") = true := by
    have hblank : Text.isBlank ' ' = true := by decide
    simp [Expansion.endsBlank, Text.endsBlank, hblank]
  have hhead : Text.withoutTrailingBlanks (text ++ " ") = text := by
    apply String.toList_injective
    have := @trimEnd_append _ [' '] hink rfl
    simpa [Text.withoutTrailingBlanks] using this
  exact ⟨m, hm, by rw [propose_pipe hreg hfeeds hsink hbound hends, hhead, hlabels]⟩

/-! ## The pipe behind a stream -/

theorem recover_pipe : ∃ fault, Stream.parse (text ++ " |") = .error fault ∧
    Recovery.missingApp ctx (text ++ " |") fault =
      .ok (piped ctx registrations text stream.labelNames) ∧
    gather ctx (text ++ " |") = piped ctx registrations text stream.labelNames := by
  obtain ⟨fault, hfault, hlacks⟩ := parse_pipe h hsink hbound
  have hpiped : ∀ app, text ++ " |" ++ " " ++ app = text ++ " | " ++ app := fun app => by
    rw [@String.append_assoc text " |" " "]
    rfl
  have hmissing := missingApp_pipe h hlacks hreg
  have hgather := gather_pipe h hsink hbound hreg
  simp only [hpiped] at hmissing hgather
  exact ⟨fault, hfault, hmissing, hgather⟩

end

/-! ## Both ways -/

/-- Behind a stream that has no sink, and whose last app is registered with an output, a space and a
pipe bring up the same proposals in the same order. -/
theorem space_proposes_like_pipe (hreg : ctx.registry = .ofList registrations)
    (h : Stream.parse text = .ok stream) (hink : Text.endsBlank text.toList = false)
    (hsink : stream.sink = none) (hbound : stream.unbound = false)
    (hfeeds : Feeds registrations stream) : ∃ m fault,
    Stream.parse (text ++ " ") = .ok m ∧ Stream.parse (text ++ " |") = .error fault ∧
    Expansion.pipeIntoOtherApps.propose ctx (text ++ " ") m =
      .ok (piped ctx registrations text stream.labelNames) ∧
    Recovery.missingApp ctx (text ++ " |") fault =
      .ok (piped ctx registrations text stream.labelNames) ∧
    gather ctx (text ++ " |") = piped ctx registrations text stream.labelNames := by
  obtain ⟨m, hm, hspace⟩ := propose_space hreg h hink hsink hbound hfeeds
  obtain ⟨fault, hfault, hpipe, hgather⟩ := recover_pipe hreg h hsink hbound
  exact ⟨m, fault, hm, hfault, hspace, hpipe, hgather⟩

def clockContext : Context := { store := .unreachable, registry := .ofList clock }

/-- A source that has taken the name of a processor for its label. -/
theorem space_proposes_like_pipe_clock : ∃ m fault ps,
    Stream.parse ("filter: time --zone='u t'" ++ " ") = .ok m ∧
    Stream.parse ("filter: time --zone='u t'" ++ " |") = .error fault ∧
    Expansion.pipeIntoOtherApps.propose clockContext ("filter: time --zone='u t'" ++ " ") m = .ok ps ∧
    Recovery.missingApp clockContext ("filter: time --zone='u t'" ++ " |") fault = .ok ps ∧
    ps.map Proposal.text = ["filter: time --zone='u t' | filter2: filter",
      "filter: time --zone='u t' | log"] := by
  obtain ⟨stream, hs, hsink, hbound, hlabels, last, hlast, hname, hlength, hsource⟩ :
      ∃ stream, (Stream.parse "filter: time --zone='u t'").toOption = some stream ∧
        stream.sink = none ∧ stream.unbound = false ∧ stream.labelNames = ["filter"] ∧
        ∃ last, stream.apps.getLast? = some last ∧ "time" = last.name ∧ stream.apps.length = 1 ∧
          stream.source = none := by decide +kernel
  have hfeeds : Feeds clock stream :=
    ⟨last, hlast, _, .head _, hname, .inr ⟨rfl, hlength, hsource⟩⟩
  obtain ⟨m, fault, hm, hfault, hspace, hpipe, -⟩ := @space_proposes_like_pipe clockContext _ _ _ rfl
    (toOption_eq_some.mp hs) (by decide) hsink hbound hfeeds
  exact ⟨m, fault, _, hm, hfault, hspace, hpipe, by rw [hlabels]; decide +kernel⟩

end Pipework.Completion
