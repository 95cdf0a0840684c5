import Pipework.Proofs.Task.RoundTrip

/-! What holds of a task that is read: its sequences have elements, its splits branches, and target
apps lead nowhere; if it is valid, splits have two branches or more and jumps lead to labels. -/

namespace Pipework.Task

open Token Pipework.Parser

/-! ## The nodes of a walk -/

/-- An app of a flow. -/
def Node.app? : Node → Option App
  | .app a => some a
  | _ => none

/-- The label of an app or split of a flow. -/
def Node.label? : Node → Option String
  | .app a => a.label.map Label.name
  | .split s => s.label.map Label.name
  | _ => none

/-- The label that a transition leads to. -/
def Node.jump? : Node → Option String
  | .transition t => t.target.label?
  | _ => none

def Sequence.nodes (s : Sequence) : List Node := Event.entered (s.walk (fun _ => true) none)

def nodesOf (es : List Element) : List Node := Event.entered (walkElements (fun _ => true) es)

def nodesOfBranches (bs : List Sequence) : List Node :=
  Event.entered (walkBranches (fun _ => true) bs)

@[simp] theorem nodes_sequence (es : List Element) (start stop : Nat) :
    Sequence.nodes ⟨es, start, stop⟩ = .sequence ⟨es, start, stop⟩ none :: nodesOf es := by
  simp [Sequence.nodes, Sequence.walk, nodesOf]

@[simp] theorem nodesOf_nil : nodesOf [] = [] := rfl

@[simp] theorem nodesOf_app (a : App) (es : List Element) :
    nodesOf (.app a :: es) = .app a :: (a.transitions.map Node.transition ++ nodesOf es) := by
  simp [nodesOf, walkElements, Element.walk, App.walk, entered_transitions]

@[simp] theorem nodesOf_split (label : Option Label) (bs : List Sequence) (start stop : Nat)
    (es : List Element) : nodesOf (.split ⟨label, bs, start, stop⟩ :: es) =
      .split ⟨label, bs, start, stop⟩ :: (nodesOfBranches bs ++ nodesOf es) := by
  simp [nodesOf, nodesOfBranches, walkElements, Element.walk, Split.walk]

theorem nodesOf_cons (e : Element) (es : List Element) :
    nodesOf (e :: es) = nodesOf [e] ++ nodesOf es := by
  simp [nodesOf, walkElements]

@[simp] theorem nodesOfBranches_nil : nodesOfBranches [] = [] := rfl

@[simp] theorem nodesOfBranches_cons (b : Sequence) (bs : List Sequence) :
    nodesOfBranches (b :: bs) = b.nodes ++ nodesOfBranches bs := by
  simp [nodesOfBranches, walkBranches, Sequence.nodes]

theorem nodesOf_eq_flatMap (es : List Element) : nodesOf es = es.flatMap fun e => nodesOf [e] := by
  induction es with
  | nil => rfl
  | cons e es ih => rw [nodesOf_cons, ih, List.flatMap_cons]

theorem nodesOfBranches_eq_flatMap (bs : List Sequence) :
    nodesOfBranches bs = bs.flatMap Sequence.nodes := by
  induction bs with
  | nil => rfl
  | cons b bs ih => rw [nodesOfBranches_cons, ih, List.flatMap_cons]

def nodes (t : Task) : List Node := Event.entered t.events

def flowApps (t : Task) : List App := t.nodes.filterMap Node.app?

theorem mem_nodes {t : Task} {n : Node} (h : ∃ s ∈ t.sequences, n ∈ nodesOf s.elements) :
    n ∈ t.nodes := by
  have hwalk : ∀ (ss : List Sequence) (i : Nat), (∃ s ∈ ss, n ∈ nodesOf s.elements) →
      n ∈ Event.entered (walkSequences (fun _ => true) i ss) := by
    intro ss
    induction ss with
    | nil => simp
    | cons s ss ih =>
      rintro i ⟨r, hr, hn⟩
      rw [walkSequences, entered_append, List.mem_append]
      obtain rfl | hr := List.mem_cons.mp hr
      · cases r
        simp only [Sequence.walk, entered_around]
        exact .inl (List.mem_cons_of_mem _ hn)
      · exact .inr (ih _ ⟨r, hr, hn⟩)
  rw [nodes, events, walk, entered_around]
  exact List.mem_cons_of_mem _ (hwalk _ _ h)

/-- A jump or a label of a task is one of a sequence of it. -/
theorem filterMap_nodes {α : Type} (f : Node → Option α) (htask : ∀ t, f (.task t) = none)
    (hsequence : ∀ s i, f (.sequence s i) = none) (t : Task) :
    t.nodes.filterMap f = t.sequences.flatMap fun s => (nodesOf s.elements).filterMap f := by
  have hwalk : ∀ (ss : List Sequence) (i : Nat),
      (Event.entered (walkSequences (fun _ => true) i ss)).filterMap f =
        ss.flatMap fun s => (nodesOf s.elements).filterMap f := by
    intro ss
    induction ss with
    | nil => intro i; rfl
    | cons s ss ih =>
      intro i
      cases s
      simp [walkSequences, Sequence.walk, ih, hsequence, nodesOf]
  simp [nodes, events, walk, hwalk, htask]

/-! ## Validation -/

/-- How an app or split of a flow is known, if it is. -/
def Node.key? : Node → Option (String × KeyKind)
  | .app ⟨some label, _, _, _, _, _⟩ => some (label.name, .label)
  | .app ⟨none, name, _, _, _, _⟩ => some (name, .appName)
  | .split s => s.label.map fun label => (label.name, .label)
  | _ => none

/-- What is asked of a part of a task whatever the other parts are. -/
def Node.IsSound : Node → Prop
  | .sequence s (some (_ + 1)) => s.label?.isSome = true
  | .split s => 2 ≤ s.branches.length
  | _ => True

namespace Survey

variable {s : Survey} {n : Node} {ns : List Node} {key : String} {kind : KeyKind} {offset : Nat}

theorem fail_fault (offset : Nat) (message : Message) (inserts : List String) :
    (s.fail offset message inserts).fault ≠ none := by
  cases h : s.fault <;> simp [fail, h]

theorem ite_fail_fault {c : Prop} [Decidable c] {message : Message} {inserts : List String} :
    (if c then s.fail offset message inserts else s).fault = none ↔ ¬ c ∧ s.fault = none := by
  split
  · next hc => simp [hc, fail_fault]
  · next hc => simp [hc]

theorem ite_fail_keys {c : Prop} [Decidable c] {message : Message} {inserts : List String} :
    (if c then s.fail offset message inserts else s).keys = s.keys := by
  split <;> rfl

/-- A key is registered without a fault exactly if it was not there before. -/
theorem register_fault : (s.register key kind offset).fault = none ↔
    s.fault = none ∧ key ∉ s.keys.map Prod.fst := by
  unfold register
  split
  · next h =>
    have hkey : key ∉ s.keys.map Prod.fst := by
      rintro hmem
      obtain ⟨p, hp, rfl⟩ := List.mem_map.mp hmem
      simpa using List.lookup_eq_none_iff.mp h p hp
    simp [hkey]
  · next k h =>
    obtain ⟨l, r, hkeys, -⟩ := List.lookup_eq_some_iff.mp h
    simp [fail_fault, hkeys]

theorem register_keys (h : (s.register key kind offset).fault = none) :
    (s.register key kind offset).keys = (key, kind) :: s.keys := by
  unfold register at h ⊢
  split
  · rfl
  · next hk =>
    simp only [hk] at h
    exact absurd h (fail_fault _ _ _)

theorem step_fault : (s.step n).fault = none ↔
    s.fault = none ∧ n.IsSound ∧ ∀ k ∈ n.key?, k.1 ∉ s.keys.map Prod.fst := by
  cases n with
  | task => simp [step, Node.IsSound, Node.key?]
  | sequence sequence index =>
    obtain - | - | i := index
    · simp [step, enterSequence, Node.IsSound, Node.key?]
    · simp [step, enterSequence, Node.IsSound, Node.key?]
    · cases h : sequence.label? <;>
        simp [step, enterSequence, fail_fault, Node.IsSound, Node.key?, h]
  | split p =>
    cases h : p.label with
    | none =>
      simp [step, enterSplit, h, ite_fail_fault, Node.IsSound, Node.key?, and_comm, Nat.succ_le_iff]
    | some label =>
      simp only [step, enterSplit, h, register_fault, ite_fail_fault, ite_fail_keys, Node.IsSound,
        Node.key?, Option.map_some, Option.mem_def, Option.some.injEq, forall_eq', not_lt]
      rw [and_comm (a := 2 ≤ _), and_assoc]
  | app a =>
    obtain ⟨label, name, arguments, transitions, start, stop⟩ := a
    cases label <;> simp [step, enterApp, register_fault, Node.IsSound, Node.key?]
  | transition t =>
    cases h : t.target.label? <;> simp [step, enterTransition, h, Node.IsSound, Node.key?]

theorem step_keys (h : (s.step n).fault = none) : (s.step n).keys = n.key?.toList ++ s.keys := by
  cases n with
  | task => rfl
  | sequence sequence index =>
    simp only [step, enterSequence]
    split
    · exact ite_fail_keys
    · rfl
  | split p =>
    cases hl : p.label with
    | none => simp [step, enterSplit, hl, ite_fail_keys, Node.key?]
    | some label =>
      simp only [step, enterSplit, hl] at h ⊢
      rw [register_keys h, ite_fail_keys]
      simp [Node.key?, hl]
  | app a =>
    obtain ⟨label, name, arguments, transitions, start, stop⟩ := a
    cases label <;> exact register_keys h
  | transition t =>
    simp only [step, enterTransition]
    split <;> rfl

@[simp] theorem register_jumps (key : String) (kind : KeyKind) (offset : Nat) :
    (s.register key kind offset).jumps = s.jumps := by
  unfold register
  split <;> rfl

theorem step_jumps (n : Node) :
    (s.step n).jumps.map Prod.fst = s.jumps.map Prod.fst ++ n.jump?.toList := by
  cases n with
  | task => simp [step, Node.jump?]
  | sequence sequence index =>
    simp only [step, enterSequence, Node.jump?]
    split
    · split <;> simp [fail]
    · simp
  | split p =>
    simp only [step, enterSplit, Node.jump?]
    split <;> split <;> simp [fail]
  | app a =>
    simp only [step, enterApp, Node.jump?]
    split <;> simp
  | transition t =>
    simp only [step, enterTransition, Node.jump?]
    split <;> simp_all

/-- A survey goes without a fault exactly if each part is sound and no key is given twice. -/
theorem run_fault : (ns.foldl step s).fault = none ↔ s.fault = none ∧ (∀ n ∈ ns, n.IsSound) ∧
    ((ns.filterMap Node.key?).map Prod.fst).Nodup ∧
      ∀ k ∈ ns.filterMap Node.key?, k.1 ∉ s.keys.map Prod.fst := by
  induction ns generalizing s with
  | nil => simp
  | cons n ns ih =>
    rw [List.foldl_cons, ih]
    by_cases hf : (s.step n).fault = none
    · obtain ⟨hs, hn, hkey⟩ := step_fault.mp hf
      rw [step_keys hf]
      cases hk : n.key? with
      | none => simp [hf, hs, hn, List.filterMap_cons_none hk]
      | some k =>
        have hk' := hkey k hk
        simp only [hf, hs, true_and, List.filterMap_cons_some hk, List.map_cons, List.nodup_cons,
          Option.toList_some, List.singleton_append, List.mem_cons, not_or, List.mem_map]
        grind
    · simp only [hf, false_and, false_iff]
      rintro ⟨hs, hsound, -, hkeys⟩
      refine hf (step_fault.mpr ⟨hs, hsound n (by simp), fun k hk => hkeys k ?_⟩)
      rw [List.filterMap_cons_some hk]
      exact List.mem_cons_self

theorem run_keys (h : (ns.foldl step s).fault = none) :
    (ns.foldl step s).keys = (ns.filterMap Node.key?).reverse ++ s.keys := by
  induction ns generalizing s with
  | nil => rfl
  | cons n ns ih =>
    rw [List.foldl_cons] at h ⊢
    rw [ih h, step_keys (run_fault.mp h).1, List.filterMap_cons]
    cases n.key? <;> simp

theorem run_jumps (ns : List Node) :
    (ns.foldl step s).jumps.map Prod.fst = s.jumps.map Prod.fst ++ ns.filterMap Node.jump? := by
  induction ns generalizing s with
  | nil => simp
  | cons n ns ih =>
    rw [List.foldl_cons, ih, step_jumps, List.filterMap_cons]
    cases n.jump? <;> simp

theorem finish_fault : s.finish.fault = none ↔
    s.fault = none ∧ ∀ j ∈ s.jumps, s.keys.lookup j.1 = some .label := by
  unfold finish
  split
  · next label offset h =>
    have hlost := List.find?_some h
    simp only [fail_fault, false_iff]
    rintro ⟨-, hjumps⟩
    simp [hjumps _ (List.mem_of_find?_eq_some h)] at hlost
  · next h =>
    have hjumps : ∀ j ∈ s.jumps, s.keys.lookup j.1 = some .label := fun j hj => by
      simpa using List.find?_eq_none.mp h j hj
    exact (and_iff_left hjumps).symm

end Survey

/-- Where keys are different, a key is looked up as it was given. -/
theorem lookup_eq_some_of_nodup {α : Type} {ps : List (String × α)} (h : (ps.map Prod.fst).Nodup)
    {key : String} {a : α} : ps.lookup key = some a ↔ (key, a) ∈ ps := by
  induction ps with
  | nil => simp
  | cons p ps ih =>
    obtain ⟨k, b⟩ := p
    obtain ⟨hk, hps⟩ := List.nodup_cons.mp h
    rw [List.lookup_cons, List.mem_cons]
    split
    · next he =>
      obtain rfl : key = k := by simpa using he
      have hno : (key, a) ∉ ps := fun hm => hk (List.mem_map.mpr ⟨_, hm, rfl⟩)
      simp [hno, eq_comm]
    · next he =>
      have hne : key ≠ k := by simpa using he
      simp [ih hps, hne]

variable {t : Task}

/-- A task is valid exactly if its parts are sound, its keys are different, and its jumps lead to
labels among them. -/
theorem validate_iff : t.validate = .ok () ↔ (∀ n ∈ t.nodes, n.IsSound) ∧
    ((t.nodes.filterMap Node.key?).map Prod.fst).Nodup ∧
      ∀ l ∈ t.nodes.filterMap Node.jump?, (l, KeyKind.label) ∈ t.nodes.filterMap Node.key? := by
  have hfault := @Survey.run_fault { text := t.text } t.nodes
  have hjumps := @Survey.run_jumps { text := t.text } t.nodes
  have hkeys := @Survey.run_keys { text := t.text } t.nodes
  have hsurvey : t.survey = (t.nodes.foldl Survey.step { text := t.text }).finish := rfl
  rw [validate_eq_ok, hsurvey]
  generalize t.nodes.foldl Survey.step { text := t.text } = s at hfault hjumps hkeys ⊢
  simp only [List.map_nil, List.not_mem_nil, not_false_eq_true, implies_true, and_true, true_and,
    List.nil_append, List.append_nil] at hfault hjumps hkeys
  rw [← and_assoc, ← hfault]
  -- The keys of a survey with a fault lack the one that clashed, so they say nothing.
  by_cases hs : s.fault = none
  · have hnodup : (s.keys.map Prod.fst).Nodup := by
      rw [hkeys hs, List.map_reverse, List.nodup_reverse]
      exact (hfault.mp hs).2
    have hjump : ∀ l, s.keys.lookup l = some .label ↔
        (l, KeyKind.label) ∈ t.nodes.filterMap Node.key? := fun l => by
      rw [lookup_eq_some_of_nodup hnodup, hkeys hs, List.mem_reverse]
    simp only [hs, true_and, ← hjump, ← hjumps, List.forall_mem_map, Survey.finish_fault]
  · simp [hs, Survey.finish_fault]

theorem two_le_branches (h : t.validate = .ok ()) {s : Split} (hs : .split s ∈ t.nodes) :
    2 ≤ s.branches.length := (validate_iff.mp h).1 _ hs

/-- The labels are the keys that are labels. -/
theorem Node.label?_eq_filter (n : Node) :
    n.label? = (n.key?.filter fun k => k.2 = .label).map Prod.fst := by
  cases n with
  | task | sequence | transition => rfl
  | split s => cases h : s.label <;> simp [key?, label?, h, Option.filter]
  | app a =>
    obtain ⟨label, name, arguments, transitions, start, stop⟩ := a
    cases label <;> simp [key?, label?, Option.filter]

theorem Node.key?_eq_label {n : Node} {l : String} :
    n.key? = some (l, .label) ↔ n.label? = some l := by
  simp [label?_eq_filter]

/-- A label of a valid task is given once. -/
theorem nodup_labels (h : t.validate = .ok ()) : (t.nodes.filterMap Node.label?).Nodup := by
  have hlabels : t.nodes.filterMap Node.label? =
      ((t.nodes.filterMap Node.key?).filter fun k => k.2 = .label).map Prod.fst := by
    rw [List.filter_filterMap, List.map_filterMap]
    exact List.filterMap_congr fun n _ => n.label?_eq_filter
  rw [hlabels]
  exact (validate_iff.mp h).2.1.sublist (List.filter_sublist.map _)

/-- All jumps of a valid task lead to labels of it. -/
theorem mem_labels_of_mem_jumps (h : t.validate = .ok ()) {l : String}
    (hl : l ∈ t.nodes.filterMap Node.jump?) : l ∈ t.nodes.filterMap Node.label? := by
  obtain ⟨n, hn, hk⟩ := List.mem_filterMap.mp ((validate_iff.mp h).2.2 l hl)
  exact List.mem_filterMap.mpr ⟨n, hn, Node.key?_eq_label.mp hk⟩

/-! ## Tasks that are read -/

/-- A target app leads nowhere. -/
def Transition.IsProper (t : Transition) : Prop := ∀ a, t.target = .app a → a.transitions = []

theorem Transition.isProper_withoutPositions {t : Transition} :
    t.withoutPositions.IsProper ↔ t.IsProper := by
  obtain ⟨condition, target, start, stop⟩ := t
  cases target with
  | label => simp [IsProper, Transition.withoutPositions, Target.withoutPositions]
  | app a =>
    cases a
    simp [IsProper, Transition.withoutPositions, Target.withoutPositions, App.withoutPositions,
      transitionsWithoutPositions_eq_map]

/-- What every part of a task that is read satisfies. -/
def Node.IsProper : Node → Prop
  | .sequence s _ => s.elements ≠ []
  | .split s => s.branches ≠ []
  | .app a => ∀ t ∈ a.transitions, t.IsProper
  | _ => True

theorem Node.isProper_withoutPositions {n : Node} : n.withoutPositions.IsProper ↔ n.IsProper := by
  cases n with
  | task | transition => exact Iff.rfl
  | sequence s =>
    cases s
    simp [withoutPositions, IsProper, Sequence.withoutPositions, elementsWithoutPositions_eq_map]
  | split s =>
    cases s
    simp [withoutPositions, IsProper, Split.withoutPositions, sequencesWithoutPositions_eq_map]
  | app a =>
    cases a
    simp [withoutPositions, IsProper, App.withoutPositions, transitionsWithoutPositions_eq_map,
      Transition.isProper_withoutPositions]

/-- A sequence has elements, and every part of it is proper. -/
def Sequence.IsProper (s : Sequence) : Prop :=
  s.elements ≠ [] ∧ ∀ n ∈ nodesOf s.elements, n.IsProper

theorem Sequence.isProper_withoutPositions {s : Sequence} :
    s.withoutPositions.IsProper ↔ s.IsProper := by
  obtain ⟨es, start, stop⟩ := s
  have hnodes : nodesOf (elementsWithoutPositions es) = (nodesOf es).map Node.withoutPositions :=
    entered_walkElements es
  rw [IsProper, IsProper, Sequence.withoutPositions, hnodes, List.forall_mem_map]
  refine and_congr ?_ (forall₂_congr fun n _ => Node.isProper_withoutPositions)
  simp [elementsWithoutPositions_eq_map]

section

variable {appMode : Bool} {vs : List View}

theorem SpellsApp.proper {a : App} (h : SpellsApp appMode vs a) : ∀ n ∈ nodesOf [.app a], n.IsProper := by
  obtain ⟨-, hm⟩ := h
  rw [nodesOf_app, nodesOf_nil, List.append_nil]
  refine List.forall_mem_cons.mpr ⟨hm.forall_item fun h => ?_, List.forall_mem_map.mpr fun _ _ => trivial⟩
  obtain ⟨-, -, ht⟩ := h
  rintro b rfl
  cases ht with
  | app hp =>
    cases hp
    rfl

theorem SpellsElements.proper {Inner : List View → Sequence → Prop}
    (hi : ∀ {vs s}, Inner vs s → s.IsProper) {es : List Element} (h : SpellsElements appMode Inner vs es) :
    es ≠ [] ∧ ∀ n ∈ nodesOf es, n.IsProper := by
  cases h with
  | group _ h => exact hi h
  | app h => exact ⟨by simp, h.proper⟩
  | @split lt gt us vs ws label first rest _ _ hf hm =>
    have hbs : ∀ b ∈ first :: rest, b.IsProper :=
      List.forall_mem_cons.mpr ⟨hi hf, hm.forall_item fun h => by
        obtain ⟨-, h⟩ := h
        exact hi h⟩
    refine ⟨by simp, ?_⟩
    rw [nodesOf_split, nodesOf_nil, List.append_nil, nodesOfBranches_eq_flatMap]
    refine List.forall_mem_cons.mpr ⟨by simp [Node.IsProper], fun n hn => ?_⟩
    obtain ⟨b, hb, hn⟩ := List.mem_flatMap.mp hn
    obtain ⟨hne, hes⟩ := hbs b hb
    cases b
    rw [nodes_sequence] at hn
    obtain rfl | hn := List.mem_cons.mp hn
    · exact hne
    · exact hes n hn

theorem SpellsSequence.proper {levels : Nat} {s : Sequence} (h : SpellsSequence appMode levels vs s) :
    s.IsProper := by
  induction levels generalizing vs s with
  | zero => cases h
  | succ levels ih =>
    obtain ⟨us, ws, first, rest, rfl, hf, hm, rfl⟩ := h
    obtain ⟨hne, hf⟩ := hf.proper ih
    have hrest : ∀ es ∈ rest, ∀ n ∈ nodesOf es, n.IsProper := hm.forall_item fun h => by
      obtain ⟨-, h⟩ := h
      exact (h.proper ih).2
    refine ⟨by simp [hne], fun n hn => ?_⟩
    rw [nodesOf_eq_flatMap] at hn
    obtain ⟨e, he, hn⟩ := List.mem_flatMap.mp hn
    obtain he | he := List.mem_append.mp he
    · exact hf n (by rw [nodesOf_eq_flatMap]; exact List.mem_flatMap.mpr ⟨e, he, hn⟩)
    · obtain ⟨es, hes, he⟩ := List.mem_flatten.mp he
      exact hrest es hes n (by rw [nodesOf_eq_flatMap]; exact List.mem_flatMap.mpr ⟨e, he, hn⟩)

end

theorem parseUnchecked_of_parseWith {options : Options} {text : String}
    (h : parseWith options text = .ok t) : parseUnchecked options.name options.appMode text = .ok t := by
  unfold parseWith at h
  cases hp : parseUnchecked options.name options.appMode text with
  | error e => simp [hp, bind, Except.bind] at h
  | ok u =>
    cases hv : u.validate <;> cases ho : options.validate <;>
      simp_all [bind, Except.bind, pure, Except.pure]

theorem proper_of_parse {options : Options} {text : String} (h : parseWith options text = .ok t) :
    t.sequences ≠ [] ∧ ∀ s ∈ t.sequences, s.IsProper := by
  obtain ⟨_, _, _, -, -, -, hs, -⟩ := spells_of_parseUnchecked (parseUnchecked_of_parseWith h)
  generalize hss : t.sequences.map Sequence.withoutPositions = ss at hs
  obtain @⟨_, _, _, first, rest, hf, hm, -⟩ := hs
  have hnext : ∀ {vs : List View} {s : Sequence}, SpellsNext options.appMode vs s → s.IsProper :=
    fun h => by
      cases h with
      | semicolon _ hs => exact hs.proper
      | line _ hs => exact hs.proper
  have hall : ∀ s ∈ first :: rest, s.IsProper :=
    List.forall_mem_cons.mpr ⟨hf.proper, hm.forall_item hnext⟩
  rw [← hss] at hall
  exact ⟨by rintro ht; simp [ht] at hss, fun s hs =>
    Sequence.isProper_withoutPositions.mp (hall _ (List.mem_map_of_mem hs))⟩

end Pipework.Task
