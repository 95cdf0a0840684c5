import Pipework.Proofs.Argument.Marks
import Pipework.Proofs.Task.Validity

/-! Tasks are refused at their tokens, while they are read and when they are checked as a whole:
what the check looks at was placed at tokens when it was read. -/

namespace Pipework.Task

open Token Pipework.Parser

variable {ts : List Token}

/-- What a check can name of a node lies at the tokens. -/
def Node.IsMarked (ts : List Token) : Node → Prop
  | .task _ => True
  | .sequence s _ => IsMark ts s.start
  | .split s => IsMark ts s.start ∧ ∀ l, s.label = some l → IsMark ts l.start
  | .app a => IsMark ts a.start ∧ ∀ l, a.label = some l → IsMark ts l.start
  | .transition t => IsMark ts t.start

/-- A sequence and all that lies below it. -/
structure Sequence.IsMarked (ts : List Token) (s : Sequence) : Prop where
  start : IsMark ts s.start
  nodes : ∀ n ∈ nodesOf s.elements, n.IsMarked ts

/-- An app and its transitions. -/
structure App.IsMarked (ts : List Token) (a : App) : Prop where
  node : (Node.app a).IsMarked ts
  transitions : ∀ t ∈ a.transitions, IsMark ts t.start

theorem App.IsMarked.nodes {a : App} (h : a.IsMarked ts) : ∀ n ∈ nodesOf [.app a], n.IsMarked ts := by
  rw [nodesOf_app, nodesOf_nil, List.append_nil]
  exact List.forall_mem_cons.mpr ⟨h.node, List.forall_mem_map.mpr h.transitions⟩

theorem nodes_marked_of_branches {label : Option Label} {bs : List Sequence} {start stop : Nat}
    (hs : (Node.split ⟨label, bs, start, stop⟩).IsMarked ts) (hb : ∀ b ∈ bs, b.IsMarked ts) :
    ∀ n ∈ nodesOf [.split ⟨label, bs, start, stop⟩], n.IsMarked ts := by
  rw [nodesOf_split, nodesOf_nil, List.append_nil, nodesOfBranches_eq_flatMap]
  refine List.forall_mem_cons.mpr ⟨hs, fun n hn => ?_⟩
  obtain ⟨b, hmem, hn⟩ := List.mem_flatMap.mp hn
  obtain ⟨hstart, hnodes⟩ := hb b hmem
  cases b
  rw [nodes_sequence] at hn
  rcases List.mem_cons.mp hn with rfl | hn
  · exact hstart
  · exact hnodes n hn

theorem nodes_marked_append {es fs : List Element} (he : ∀ n ∈ nodesOf es, n.IsMarked ts)
    (hf : ∀ n ∈ nodesOf fs, n.IsMarked ts) : ∀ n ∈ nodesOf (es ++ fs), n.IsMarked ts := by
  rw [nodesOf_eq_flatMap, List.flatMap_append, ← nodesOf_eq_flatMap, ← nodesOf_eq_flatMap]
  exact List.forall_mem_append.mpr ⟨he, hf⟩

theorem nodes_marked_flatten {ess : List (List Element)}
    (h : ∀ es ∈ ess, ∀ n ∈ nodesOf es, n.IsMarked ts) : ∀ n ∈ nodesOf ess.flatten, n.IsMarked ts := by
  induction ess with
  | nil => exact nofun
  | cons es ess ih =>
    obtain ⟨hes, hess⟩ := List.forall_mem_cons.mp h
    exact nodes_marked_append hes (ih hess)

namespace Read

variable {appMode : Bool}

/-! ## Apps and transitions -/

theorem keeps_label? : Keeps ts label? fun l? => ∀ l, l? = some l → IsMark ts l.start := by
  refine keeps_peek.bind fun _ _ => carries_secondKind.bind fun _ _ => ?_
  refine .ite (carries_pure nofun) <| keeps_next.bind fun name hname => ?_
  refine (keeps_requireAdjacent rfl).bind fun _ _ => keeps_next.bind fun _ _ => ?_
  refine carries_pure fun l hl => ?_
  cases hl
  exact isMark_start hname

theorem keeps_appName : Keeps ts appName (· ∈ ts) :=
  keeps_peek.bind fun _ _ => .ite keeps_next <| .ite (keeps_refuseHere rfl) (keeps_refuseHere rfl)

theorem keeps_arguments : Keeps ts (arguments appMode) fun _ => True := by
  refine carries_peekKind.bind fun _ _ => .ite (carries_pure trivial) ?_
  exact (keeps_refuseHere rfl).guard Argument.keeps_arguments

/-- An app starts at its label, or else at its name. -/
theorem keeps_plainApp {label : Option Label} (hl : ∀ l, label = some l → IsMark ts l.start) :
    Keeps ts (plainApp appMode label) (App.IsMarked ts) := by
  refine keeps_appName.bind fun name hname => keeps_arguments.bind fun _ _ => ?_
  refine keeps_previousStop.bind fun _ _ => carries_pure ⟨⟨?_, hl⟩, nofun⟩
  cases label with
  | none => exact isMark_start hname
  | some label => exact hl label rfl

theorem keeps_missingArrow {token : Token} (ht : token ∈ ts) :
    Keeps ts (condition?.missingArrow token) fun _ => True := by
  refine carries_get.bind fun c hc => keeps_refuse ?_ rfl
  cases h : c.peekAt 1 with
  | none => exact isMark_stop ht
  | some second => exact isMark_start (hc.peekAt_mem h)

theorem keeps_condition? : Keeps ts condition? fun _ => True := by
  refine keeps_peek.bind fun token ht => carries_secondKind.bind fun _ _ => ?_
  split
  · exact keeps_refuseHere rfl
  · exact carries_pure trivial
  · exact (keeps_refuseHere rfl).guard (carries_pure trivial)
  · exact .ite (carries_pure trivial) (keeps_missingArrow ht)
  · exact .ite (carries_pure trivial) (keeps_missingArrow ht)
  · exact carries_pure trivial

theorem keeps_target : Keeps ts (target appMode) fun _ => True := by
  refine keeps_eatIf.bind fun _ _ => .ite ?_ ?_
  · refine keeps_peek.bind fun _ _ => keeps_unexpected.guard ?_
    exact keeps_next.bind fun _ _ => carries_pure trivial
  · exact keeps_label?.bind fun _ hl => (keeps_plainApp hl).bind fun _ _ => carries_pure trivial

theorem keeps_transition? : Keeps ts (transition? appMode) fun t? =>
    ∀ t, t? = some t → IsMark ts t.start := by
  refine keeps_peek.bind fun first hfirst => keeps_condition?.bind fun condition _ => ?_
  cases condition with
  | none => exact carries_pure nofun
  | some condition =>
    refine keeps_next.bind fun _ _ => keeps_next.bind fun _ _ => keeps_target.bind fun _ _ => ?_
    refine keeps_previousStop.bind fun _ _ => carries_pure fun t ht => ?_
    cases ht
    exact isMark_start hfirst

theorem keeps_app {label : Option Label} (hl : ∀ l, label = some l → IsMark ts l.start) :
    Keeps ts (app appMode label) (App.IsMarked ts) := by
  refine (keeps_plainApp hl).bind fun a ha => (carries_many keeps_transition?).bind fun trs htrs => ?_
  exact carries_pure ⟨ha.node, htrs⟩

/-! ## Sequences

`inner` reads a sequence one level further down. -/

section

variable {inner : Parser Sequence} (hinner : Keeps ts inner (Sequence.IsMarked ts))

include hinner

theorem keeps_branch? : Keeps ts (branch? inner) fun s? => ∀ s, s? = some s → s.IsMarked ts := by
  refine keeps_eatIf.bind fun _ _ => .ite (hinner.bind fun s hs => carries_pure ?_) (carries_pure nofun)
  intro s' hs'
  cases hs'
  exact hs

theorem keeps_split {label : Option Label} (hl : ∀ l, label = some l → IsMark ts l.start) :
    Keeps ts (split inner label) fun s => ∀ n ∈ nodesOf [.split s], n.IsMarked ts := by
  refine keeps_eat.bind fun lt hlt => hinner.bind fun first hfirst => ?_
  refine (carries_many (keeps_branch? hinner)).bind fun rest hrest => keeps_peek.bind fun _ _ => ?_
  have hstart : IsMark ts ((label.map Label.start).getD lt.start) := by
    cases label with
    | none => exact isMark_start hlt
    | some label => exact hl label rfl
  split
  · refine keeps_next.bind fun _ _ => carries_pure ?_
    exact nodes_marked_of_branches ⟨hstart, hl⟩ (List.forall_mem_cons.mpr ⟨hfirst, hrest⟩)
  · exact keeps_refuseHere rfl
  · exact keeps_refuseHere rfl

omit hinner in
theorem keeps_elementLabel : Keeps ts elementLabel fun l? =>
    ∀ l, l? = some l → IsMark ts l.start := by
  refine keeps_label?.bind fun label hl => ?_
  cases label with
  | none => exact carries_pure nofun
  | some label =>
    refine keeps_label?.bind fun second hs => ?_
    cases second with
    | some second => exact keeps_refuse_bind (hs second rfl) rfl
    | none =>
      exact carries_peekKind.bind fun _ _ => (keeps_refuse (hl label rfl) rfl).guard <| carries_pure hl

theorem keeps_elements : Keeps ts (elements appMode inner) fun es =>
    ∀ n ∈ nodesOf es, n.IsMarked ts := by
  refine keeps_eatIf.bind fun _ _ => .ite ?_ ?_
  · exact hinner.bind fun group hg => keeps_eat.bind fun _ _ => carries_pure hg.nodes
  · refine keeps_elementLabel.bind fun label hl => carries_peekKind.bind fun _ _ => .ite ?_ ?_
    · exact (keeps_split hinner hl).bind fun _ hs => carries_pure hs
    · exact (keeps_app hl).bind fun _ ha => carries_pure ha.nodes

theorem keeps_joinedElements? : Keeps ts (joinedElements? appMode inner) fun es? =>
    ∀ es, es? = some es → ∀ n ∈ nodesOf es, n.IsMarked ts := by
  refine keeps_eatIf.bind fun _ _ => .ite ?_ (carries_pure nofun)
  refine (keeps_elements hinner).bind fun es hes => carries_pure fun es' hes' => ?_
  cases hes'
  exact hes

theorem keeps_sequenceWith : Keeps ts (sequenceWith appMode inner) (Sequence.IsMarked ts) := by
  refine keeps_peek.bind fun token ht => (keeps_elements hinner).bind fun first hfirst => ?_
  refine (carries_many (keeps_joinedElements? hinner)).bind fun rest hrest => ?_
  refine keeps_previousStop.bind fun _ _ => carries_pure ⟨isMark_start ht, ?_⟩
  exact nodes_marked_append hfirst (nodes_marked_flatten hrest)

end

theorem keeps_sequence (levels : Nat) :
    Keeps ts (sequence appMode levels) (Sequence.IsMarked ts) := by
  induction levels with
  | zero => exact keeps_refuseHere rfl
  | succ levels ih => exact keeps_sequenceWith ih

/-! ## Tasks -/

theorem keeps_separator? : Keeps ts separator? fun _ => True := by
  refine carries_hasNext.bind fun _ _ => .ite (carries_pure trivial) ?_
  refine keeps_eatIf.bind fun _ _ => .ite carries_hasNext <| carries_get.bind fun _ _ => ?_
  exact .ite (carries_pure trivial) <| carries_get.bind fun _ _ => keeps_refuseHere rfl

theorem keeps_topSequence : Keeps ts (topSequence appMode) (Sequence.IsMarked ts) :=
  (keeps_sequence _).bind fun _ hs => keeps_checkpoint.bind fun _ _ => carries_pure hs

theorem keeps_nextSequence? : Keeps ts (nextSequence? appMode) fun s? =>
    ∀ s, s? = some s → s.IsMarked ts := by
  refine keeps_separator?.bind fun _ _ => .ite ?_ (carries_pure nofun)
  refine keeps_topSequence.bind fun s hs => carries_pure fun s' hs' => ?_
  cases hs'
  exact hs

theorem keeps_requireLegalName (name : Option String) :
    Keeps ts (requireLegalName name) fun _ => True := by
  cases name with
  | none => exact carries_pure trivial
  | some name => exact .ite (carries_pure trivial) (keeps_refuse (isMark_zero ts) rfl)

theorem keeps_definition (name : Option String) :
    Keeps ts (definition name appMode) fun t => ∀ s ∈ t.sequences, s.IsMarked ts := by
  refine (keeps_requireLegalName name).bind fun _ _ => keeps_topSequence.bind fun first hfirst => ?_
  refine (carries_many keeps_nextSequence?).bind fun rest hrest => carries_get.bind fun _ _ => ?_
  exact carries_pure (List.forall_mem_cons.mpr ⟨hfirst, hrest⟩)

end Read

/-! ## The check as a whole -/

/-- Every node of a task is the task, one of its sequences or below one. -/
theorem forall_mem_nodes {Q : Node → Prop} {t : Task} (htask : Q (.task t))
    (hsequence : ∀ s ∈ t.sequences, ∀ index, Q (.sequence s index))
    (hbelow : ∀ s ∈ t.sequences, ∀ n ∈ nodesOf s.elements, Q n) : ∀ n ∈ t.nodes, Q n := by
  have hwalk : ∀ (ss : List Sequence) (i : Nat), (∀ s ∈ ss, s ∈ t.sequences) →
      ∀ n ∈ Event.entered (walkSequences (fun _ => true) i ss), Q n := by
    intro ss
    induction ss with
    | nil => exact fun _ _ => nofun
    | cons s ss ih =>
      intro i hss n hn
      obtain ⟨hs, hrest⟩ := List.forall_mem_cons.mp hss
      have hself := hsequence s hs (some i)
      have hnodes := hbelow s hs
      cases s
      rw [walkSequences, entered_append, Sequence.walk, entered_around, List.mem_append] at hn
      rcases hn with hn | hn
      · rcases List.mem_cons.mp hn with rfl | hn
        · exact hself
        · exact hnodes n hn
      · exact ih _ hrest n hn
  rw [nodes, events, walk, entered_around]
  exact List.forall_mem_cons.mpr ⟨htask, hwalk t.sequences 0 fun _ h => h⟩

/-- A fault of the check as a whole. It does not say how far the text was good. -/
structure IsCheckedAt (ts : List Token) (f : Fault) : Prop where
  offset : IsMark ts f.offset
  grammar : f.message.kind = .grammar
  checkpoint : f.checkpoint = none

theorem KeyKind.clash_kind (first second : KeyKind) : (first.clash second).kind = .grammar := by
  cases first <;> cases second <;> rfl

namespace Survey

variable {s : Survey}

/-- What a survey has noted lies at the tokens. -/
structure IsMarked (ts : List Token) (s : Survey) : Prop where
  jumps : ∀ j ∈ s.jumps, IsMark ts j.2
  fault : ∀ f, s.fault = some f → IsCheckedAt ts f

/-- Only the first fault is kept. -/
theorem IsMarked.fail (h : s.IsMarked ts) {offset : Nat} (ho : IsMark ts offset) {message : Message}
    (hm : message.kind = .grammar) (inserts : List String) :
    (s.fail offset message inserts).IsMarked ts := by
  refine ⟨h.jumps, fun f hf => ?_⟩
  unfold Survey.fail at hf
  cases hs : s.fault with
  | some e =>
    obtain rfl : e = f := by simpa [hs] using hf
    exact h.fault e hs
  | none =>
    obtain rfl : _ = f := by simpa [hs] using hf
    exact ⟨ho, hm, rfl⟩

theorem IsMarked.register (h : s.IsMarked ts) {offset : Nat} (ho : IsMark ts offset) (key : String)
    (kind : KeyKind) : (s.register key kind offset).IsMarked ts := by
  unfold Survey.register
  split
  · exact ⟨h.jumps, h.fault⟩
  · exact h.fail ho (KeyKind.clash_kind _ _) _

theorem IsMarked.step (h : s.IsMarked ts) {n : Node} (hn : n.IsMarked ts) :
    (s.step n).IsMarked ts := by
  cases n with
  | task => exact h
  | sequence sequence index =>
    simp only [Survey.step, enterSequence]
    split
    · split
      · exact h.fail hn rfl _
      · exact h
    · exact h
  | split p =>
    have hfew : (if p.branches.length < 2 then s.fail p.start .taskValidationSplitWithOneFlow []
        else s).IsMarked ts := by
      split
      · exact h.fail hn.1 rfl _
      · exact h
    simp only [Survey.step, enterSplit]
    split
    · next label hl => exact hfew.register (hn.2 label hl) _ _
    · exact hfew
  | app a =>
    simp only [Survey.step, enterApp]
    split
    · next label hl => exact h.register (hn.2 label hl) _ _
    · exact h.register hn.1 _ _
  | transition t =>
    simp only [Survey.step, enterTransition]
    split
    · next label _ =>
      refine ⟨List.forall_mem_append.mpr ⟨h.jumps, fun j hj => ?_⟩, h.fault⟩
      obtain rfl := List.mem_singleton.mp hj
      exact hn
    · exact h

theorem IsMarked.run {ns : List Node} (h : s.IsMarked ts) (hns : ∀ n ∈ ns, n.IsMarked ts) :
    (ns.foldl Survey.step s).IsMarked ts := by
  induction ns generalizing s with
  | nil => exact h
  | cons n ns ih =>
    obtain ⟨hn, hns⟩ := List.forall_mem_cons.mp hns
    exact ih (h.step hn) hns

theorem IsMarked.finish (h : s.IsMarked ts) : s.finish.IsMarked ts := by
  unfold Survey.finish
  split
  · next label offset hj => exact h.fail (h.jumps _ (List.mem_of_find?_eq_some hj)) rfl _
  · exact h

end Survey

/-- A task whose parts lie at tokens is found invalid at one of them. -/
theorem checkedAt_of_validate {t : Task} {f : Fault} (ht : ∀ s ∈ t.sequences, s.IsMarked ts)
    (h : t.validate = .error f) : IsCheckedAt ts f := by
  have hnodes : ∀ n ∈ t.nodes, n.IsMarked ts :=
    forall_mem_nodes trivial (fun s hs _ => (ht s hs).start) fun s hs => (ht s hs).nodes
  have hstart : ({ text := t.text } : Survey).IsMarked ts := ⟨nofun, nofun⟩
  have hsurvey : t.survey.IsMarked ts := (hstart.run hnodes).finish
  unfold validate at h
  cases he : t.survey.fault with
  | none =>
    rw [he] at h
    cases h
  | some e =>
    rw [he] at h
    cases h
    exact hsurvey.fault f he

end Pipework.Task
