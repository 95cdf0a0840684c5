import Pipework.Proofs.Argument.Printing
import Pipework.Proofs.Task.Grammar
import Pipework.Task.Printer

/-! Printed tasks are cut into views that spell them, as long as no split ends in a hyphen. -/

namespace Pipework.Task

open Token Pipework.Parser Read

/-! ## Where a text ends in a name

A hyphen before the `>` that ends a split makes an arrow of it. -/

/-- The name that the text of an app ends in, but for its transitions. -/
def App.plainName? (a : App) : Option String := if a.arguments.isEmpty then some a.name else none

def Target.lastName? : Target → Option String
  | .label name => some name
  | .app a => a.plainName?

def App.lastName? (a : App) : Option String :=
  match a.transitions.getLast? with
  | none => a.plainName?
  | some t => t.target.lastName?

def Element.lastName? : Element → Option String
  | .app a => a.lastName?
  | .split _ => none

/-- The name that the text of a sequence ends in, if it does. -/
def Sequence.lastName? (s : Sequence) : Option String := s.elements.getLast?.bind Element.lastName?

def endsHyphen (name : Option String) : Bool := name.any fun n => n.toList.getLast? == some '-'

mutual

/-- No split ends in a hyphen. -/
def Sequence.closes : Sequence → Bool
  | ⟨elements, _, _⟩ => elementsClose elements

def Element.closes : Element → Bool
  | .app _ => true
  | .split s => s.closes

def Split.closes : Split → Bool
  | ⟨_, branches, _, _⟩ =>
    branchesClose branches && branches.getLast?.all fun b => !endsHyphen b.lastName?

def elementsClose : List Element → Bool
  | [] => true
  | e :: es => e.closes && elementsClose es

def branchesClose : List Sequence → Bool
  | [] => true
  | b :: bs => b.closes && branchesClose bs

end

def closes (t : Task) : Bool := branchesClose t.sequences

/-! ## What can be printed -/

structure App.IsPlain (a : App) : Prop where
  label : ∀ l ∈ a.label, isWord l.name = true
  name : isWord a.name = true
  arguments : ∀ x ∈ a.arguments, Argument.IsDottedWord x.name

def Condition.IsWritable : Condition → Prop
  | .exitCode text => text = "*" ∨ (isWord text = true ∧ text.toList.all Text.isAsciiDigit = true)
  | .exitStatus _ => True

def Target.IsWritable : Target → Prop
  | .label name => isWord name = true
  | .app a => a.IsPlain ∧ a.transitions = []

structure App.IsWritable (a : App) : Prop where
  plain : a.IsPlain
  transitions : ∀ t ∈ a.transitions, t.condition.IsWritable ∧ t.target.IsWritable

structure Split.IsWritable (Branch : Sequence → Prop) (s : Split) : Prop where
  label : ∀ l ∈ s.label, isWord l.name = true
  nonempty : s.branches ≠ []
  branches : ∀ b ∈ s.branches, Branch b

def Element.IsWritable (Branch : Sequence → Prop) : Element → Prop
  | .app a => a.IsWritable
  | .split s => s.IsWritable Branch

/-- A sequence whose parts can be written, within which `levels - 1` more can be open. -/
def Sequence.IsWritable : Nat → Sequence → Prop
  | 0, _ => False
  | levels + 1, s => s.elements ≠ [] ∧ ∀ e ∈ s.elements, e.IsWritable (Sequence.IsWritable levels)

/-! ## What can come after a text -/

/-- The text can go on like this after what ends in the name. -/
def Admits (name : Option String) (rest : List Char) : Prop :=
  ∀ c ∈ rest.head?, c = ' ' ∨ c = '\n' ∨ (c = '>' ∧ endsHyphen name = false)

variable {name : Option String} {rest : List Char}

theorem Admits.nil : Admits name [] := by simp [Admits]

theorem Admits.blank (cs : List Char) : Admits name (' ' :: cs) := fun c hc => .inl (by simpa using hc.symm)

theorem Admits.stopsValue (h : Admits name rest) : StopsValue rest := fun c hc => by
  obtain rfl | rfl | ⟨rfl, -⟩ := h c hc <;> decide

theorem Admits.stopsName {n : String} (h : Admits (some n) rest) : StopsName n.toList rest := by
  cases rest with
  | nil => trivial
  | cons c cs =>
    obtain rfl | rfl | ⟨rfl, hn⟩ := h c rfl
    · exact stopsName_of_ne (by decide) (by decide) (by decide)
    · exact stopsName_of_ne (by decide) (by decide) (by decide)
    · exact ⟨startsName_gt, by simp, fun _ => by simpa [endsHyphen] using hn⟩

/-! ## Apps -/

theorem stopsName_arguments {a : App} (h : Admits a.plainName? rest) :
    StopsName a.name.toList ((Argument.renderAll a.arguments).toList ++ rest) := by
  cases ha : a.arguments with
  | nil =>
    rw [App.plainName?, ha] at h
    exact h.stopsName
  | cons x xs =>
    rw [show (Argument.renderAll (x :: xs)).toList ++ rest = ' ' :: ('-' :: '-' :: (x.name.toList ++
      '=' :: ((Text.quoteValue x.value).toList ++ ((Argument.renderAll xs).toList ++ rest)))) by
        simp [Argument.renderAll, Argument.render]]
    exact stopsName_of_ne (by decide) (by decide) (by decide)

def App.renderPlain (a : App) : String :=
  Label.render a.label ++ a.name ++ Argument.renderAll a.arguments

/-- The app without positions and transitions. -/
def App.plain (a : App) : App :=
  ⟨a.label.map Label.withoutPosition, a.name, a.arguments.map Argument.withoutPosition, [], 0, 0⟩

/-- A label before what has a label. -/
theorem prints_labelled {label : Option Label} {text : List Char} {G : List View → Prop}
    (hl : ∀ l ∈ label, isWord l.name = true) (h : Prints text rest G) :
    Prints ((Label.render label).toList ++ text) rest fun vs => ∃ us ws, vs = us ++ ws ∧
      SpellsLabel us (label.map Label.withoutPosition) ∧ G ws := by
  obtain ⟨k, vs, hG, hv⟩ := h
  cases label with
  | none => exact ⟨k, vs, fun g b => ⟨[], _, rfl, .none, hG g b⟩, hv⟩
  | some l =>
    refine ⟨.ofName l.name.toList, ⟨.colon, true, false⟩ :: ⟨k, false, false⟩ :: vs,
      fun glued breaks => ⟨[_, _], _, rfl, ?_, hG _ _⟩, fun e gap hg he => ?_⟩
    · have := @SpellsLabel.some ⟨.ofName l.name.toList, glued, breaks⟩ ⟨.colon, true, false⟩
        (Kind.isName_ofName _) rfl rfl
      simp only [Kind.symbol_ofName, String.ofList_toList] at this
      exact this
    · have := (Label.lexes (hl l rfl) hg he).trans (hv false [' '] rfl (by simp))
      simpa [Label.render] using this

theorem prints_plain {a : App} (h : a.IsPlain) (hr : Admits a.plainName? rest) :
    Prints a.renderPlain.toList rest fun vs => SpellsPlain true vs a.plain := by
  have hs := stopsName_arguments hr
  obtain ⟨ws, hm, hl⟩ := Argument.lexes_renderAll h.arguments hr.stopsValue
  have hname : Prints (a.name ++ Argument.renderAll a.arguments).toList rest fun vs =>
      ∃ g b, vs = ⟨.ofName a.name.toList, g, b⟩ :: ws := by
    refine ⟨_, ws, fun g b => ⟨g, b, rfl⟩, fun e gap hg he => ?_⟩
    simpa using (lexes_name h.name hs hg he).trans hl
  have htext : a.renderPlain.toList =
      (Label.render a.label).toList ++ (a.name ++ Argument.renderAll a.arguments).toList := by
    simp [App.renderPlain]
  rw [htext]
  refine (prints_labelled h.label hname).imp ?_
  rintro _ ⟨us, _, rfl, hlabel, g, b, rfl⟩
  have := @SpellsPlain.mk true ⟨.ofName a.name.toList, g, b⟩ us ws _ _ hlabel (Kind.isName_ofName _) hm
    fun _ => rfl
  simp only [Kind.symbol_ofName, String.ofList_toList] at this
  exact this

theorem prints_sign {c : Condition} (h : c.IsWritable) :
    Prints (c.render.toList ++ ['-', '>']) rest fun vs => ∃ sign arrow, vs = [sign, arrow] ∧
      conditionOf? sign.kind = some c ∧ arrow.kind = .arrow := by
  have harrow : Lexes false ('-' :: '>' :: rest) [⟨.arrow, true, false⟩] false rest :=
    .one (cut_arrow rest) (by simp) (by simp)
  suffices hsign : ∃ k, conditionOf? k = some c ∧ ∀ e gap, gap.all Text.isBlank = true →
      (e = true → gap ≠ []) → Lexes e (gap ++ (c.render.toList ++ '-' :: '>' :: rest))
        [⟨k, gap.isEmpty, gap.contains '\n'⟩] false ('-' :: '>' :: rest) by
    obtain ⟨k, hk, hl⟩ := hsign
    refine ⟨k, [⟨.arrow, true, false⟩], fun g b => ⟨_, _, rfl, hk, rfl⟩, fun e gap hg he => ?_⟩
    simpa using (hl e gap hg he).trans harrow
  cases c with
  | exitStatus text =>
    refine ⟨.literal text, rfl, fun e gap hg he => ?_⟩
    have := @cut_quote e gap ('-' :: '>' :: rest) text.toList (by simp) hg he
    rw [String.ofList_toList] at this
    simpa [Condition.render, Text.quoteStatus] using Lexes.one this (by simp) (by simp)
  | exitCode text =>
    obtain rfl | ⟨hw, hd⟩ := h
    · exact ⟨.star, rfl, fun e gap hg he => lexes_operator (c := '*') rfl (by simp) (by simp) hg he⟩
    · have hk : Kind.ofName text.toList = .number text := by
        rw [Kind.ofName, if_pos hd, String.ofList_toList]
      have hs : StopsName text.toList ('-' :: '>' :: rest) :=
        ⟨startsName_hyphen, fun _ => rfl, by simp⟩
      exact ⟨.number text, rfl, fun e gap hg he => hk ▸ lexes_name hw hs hg he⟩

theorem App.withoutPositions_of_nil {a : App} (h : a.transitions = []) :
    a.withoutPositions = a.plain := by
  cases a
  cases h
  rfl

theorem App.render_of_nil {a : App} (h : a.transitions = []) : a.render = a.renderPlain := by
  cases a
  cases h
  simp [App.render, renderPlain, renderTransitions]

theorem lexes_target {t : Target} (h : t.IsWritable) (hr : Admits t.lastName? rest) :
    ∃ vs, SpellsTarget true vs t.withoutPositions ∧
      Lexes false (t.render.toList ++ rest) vs false rest := by
  cases t with
  | label n =>
    refine ⟨[⟨.colon, true, false⟩, ⟨.ofName n.toList, true, false⟩], ?_, ?_⟩
    · have := @SpellsTarget.label true ⟨.colon, true, false⟩ ⟨.ofName n.toList, true, false⟩ rfl
        (Kind.isName_ofName _)
      simp only [Kind.symbol_ofName, String.ofList_toList] at this
      exact this
    · have := (lexes_glued_operator ':' rfl (by simp) (by simp)).trans
        (lexes_glued_name h hr.stopsName)
      simpa [Target.render] using this
  | app a =>
    obtain ⟨vs, hs, hl⟩ := @(prints_plain h.1 hr).lexes _ _ [] _ rfl
    rw [← App.withoutPositions_of_nil h.2] at hs
    rw [← App.render_of_nil h.2] at hl
    exact ⟨vs, .app hs, hl⟩

theorem lexes_transition {t : Transition} (h : t.condition.IsWritable ∧ t.target.IsWritable)
    (hr : Admits t.target.lastName? rest) : ∃ vs, SpellsTransition true vs t.withoutPositions ∧
      Lexes false (t.render.toList ++ rest) vs false rest := by
  obtain ⟨condition, target, start, stop⟩ := t
  obtain ⟨_, ⟨sign, arrow, rfl, hs, ha⟩, hl⟩ :=
    @(@prints_sign (target.render.toList ++ rest) condition h.1).lexes _ _ [' '] _ rfl
  obtain ⟨vs, ht, hl'⟩ := lexes_target h.2 hr
  exact ⟨_, .mk hs ha ht, by simpa [Transition.render] using hl.trans hl'⟩

theorem toList_renderTransitions (ts : List Transition) :
    (renderTransitions ts).toList = ts.flatMap fun t => t.render.toList := by
  induction ts with
  | nil => rfl
  | cons t ts ih => simp [renderTransitions, ih]

theorem exists_render_cons (t : Transition) : ∃ cs, t.render.toList = ' ' :: cs := by
  cases t
  simp [Transition.render]

theorem admits_render (t : Transition) (cs : List Char) : Admits name (t.render.toList ++ cs) := by
  obtain ⟨ds, hd⟩ := exists_render_cons t
  rw [hd]
  exact .blank _

theorem lexes_transitions {ts : List Transition}
    (h : ∀ t ∈ ts, t.condition.IsWritable ∧ t.target.IsWritable)
    (hr : ∀ t ∈ ts.getLast?, Admits t.target.lastName? rest) :
    ∃ vs, Many (SpellsTransition true) vs (transitionsWithoutPositions ts) ∧
      Lexes false ((renderTransitions ts).toList ++ rest) vs false rest := by
  rw [transitionsWithoutPositions_eq_map, toList_renderTransitions]
  exact lexes_parts (fun t : Transition => t.render.toList) Transition.withoutPositions
    (SpellsTransition true) (fun t => Admits t.target.lastName?)
    (fun t ht _ hr => lexes_transition (h t ht) hr) (fun _ _ t _ => admits_render t) hr

theorem prints_app {a : App} (h : a.IsWritable) (hr : Admits a.lastName? rest) :
    Prints a.render.toList rest fun vs => SpellsApp true vs a.withoutPositions := by
  have hlast : ∀ t ∈ a.transitions.getLast?, Admits t.target.lastName? rest := fun t ht => by
    rwa [App.lastName?, Option.mem_def.mp ht] at hr
  have hplain : Admits a.plainName? ((renderTransitions a.transitions).toList ++ rest) := by
    rw [toList_renderTransitions]
    cases hts : a.transitions with
    | nil => rwa [App.lastName?, hts] at hr
    | cons t ts =>
      rw [List.flatMap_cons, List.append_assoc]
      exact admits_render t _
  obtain ⟨ws, hm, hl⟩ := lexes_transitions h.transitions hlast
  have hmk : ∀ vs, SpellsPlain true vs a.plain → SpellsApp true (vs ++ ws) a.withoutPositions := by
    cases a
    exact fun vs hv => .mk hv hm
  have hp : Prints _ rest fun vs => SpellsApp true vs a.withoutPositions :=
    (prints_plain h.plain hplain).append hl hmk
  cases a
  simpa [App.render, App.renderPlain] using hp

/-! ## Sequences -/

theorem renderElements_eq_map (es : List Element) : renderElements es = es.map Element.render := by
  induction es with
  | nil => rfl
  | cons e es ih => simp [renderElements, ih]

theorem renderBranches_eq_map (bs : List Sequence) :
    renderBranches bs = bs.map Sequence.render := by
  induction bs with
  | nil => rfl
  | cons b bs ih => simp [renderBranches, ih]

theorem elementsClose_iff {es : List Element} :
    elementsClose es = true ↔ ∀ e ∈ es, e.closes = true := by
  induction es with
  | nil => simp [elementsClose]
  | cons e es ih => simp [elementsClose, ih]

theorem branchesClose_iff {bs : List Sequence} :
    branchesClose bs = true ↔ ∀ b ∈ bs, b.closes = true := by
  induction bs with
  | nil => simp [branchesClose]
  | cons b bs ih => simp [branchesClose, ih]

theorem closes_split {s : Split} : s.closes = true ↔ (∀ b ∈ s.branches, b.closes = true) ∧
    ∀ b ∈ s.branches.getLast?, endsHyphen b.lastName? = false := by
  cases s
  simp [Split.closes, branchesClose_iff, Option.all_eq_true]

/-! ### One level -/

section

variable {Inner : List View → Sequence → Prop} {Branch : Sequence → Prop}

theorem prints_split {s : Split} (h : s.IsWritable Branch) (hc : s.closes = true)
    (hinner : ∀ b ∈ s.branches, b.closes = true → ∀ rest, Admits b.lastName? rest →
      Prints b.render.toList rest fun vs => Inner vs b.withoutPositions) :
    Prints s.render.toList rest fun vs =>
      SpellsElements true Inner vs [.split s.withoutPositions] := by
  obtain ⟨label, branches, start, stop⟩ := s
  obtain ⟨hlabel, hne, hb⟩ := h
  obtain ⟨hcb, hlast⟩ := closes_split.mp hc
  match branches, hne with
  | b :: bs, _ =>
    have hbody : Prints (" || ".intercalate ((b :: bs).map Sequence.render)).toList ('>' :: rest) _ :=
      prints_separated Sequence.render Sequence.withoutPositions Inner (fun b => Admits b.lastName?)
        cut_doublePipe (by simp) (fun b hb rest hr => hinner b hb (hcb b hb) rest hr)
        (fun _ _ => .blank _) fun b hb c hc => .inr (.inr ⟨by simpa using hc.symm, hlast b hb⟩)
    obtain ⟨_, ⟨us, ws, rfl, hu, hw⟩, hl⟩ := @hbody.lexes _ _ [] _ rfl
    have hangles : Prints ('<' :: ((" || ".intercalate ((b :: bs).map Sequence.render)).toList ++ ['>']))
        rest fun vs => ∃ lt, lt.kind = .lt ∧ vs = lt :: (us ++ (ws ++ [⟨.gt, true, false⟩])) := by
      refine ⟨.lt, us ++ (ws ++ [⟨.gt, true, false⟩]), fun g b => ⟨_, rfl, rfl⟩, fun e gap hg he => ?_⟩
      have := ((lexes_operator (show operator? '<' = some .lt from rfl) (by simp) (by simp) hg he).trans
        hl).trans (lexes_glued_operator '>' rfl (by simp) (by simp))
      simpa using this
    have htext : (Split.mk label (b :: bs) start stop).render.toList = (Label.render label).toList ++
        '<' :: ((" || ".intercalate ((b :: bs).map Sequence.render)).toList ++ ['>']) := by
      simp [Split.render, renderBranches_eq_map]
    rw [htext]
    refine (prints_labelled hlabel hangles).imp ?_
    rintro _ ⟨vs, _, rfl, hl, lt, hlt, rfl⟩
    rw [Split.withoutPositions, sequencesWithoutPositions_eq_map]
    exact .split hl hlt hu hw rfl

theorem prints_element {e : Element} (h : e.IsWritable Branch) (hc : e.closes = true)
    (hinner : ∀ {b}, Branch b → b.closes = true → ∀ rest, Admits b.lastName? rest →
      Prints b.render.toList rest fun vs => Inner vs b.withoutPositions)
    (hr : Admits e.lastName? rest) :
    Prints e.render.toList rest fun vs => SpellsElements true Inner vs [e.withoutPositions] := by
  cases e with
  | app a => exact (prints_app h hr).imp fun _ ha => .app ha
  | split s => exact prints_split h hc fun b hb => hinner (h.branches b hb)

end

/-- A printed sequence is cut into views that spell it, as long as what follows lets it end. -/
theorem prints_sequence {levels : Nat} {s : Sequence} (h : s.IsWritable levels)
    (hc : s.closes = true) (hr : Admits s.lastName? rest) :
    Prints s.render.toList rest fun vs => SpellsSequence true levels vs s.withoutPositions := by
  induction levels generalizing s rest with
  | zero => cases h
  | succ levels ih =>
    obtain ⟨es, start, stop⟩ := s
    obtain ⟨hne, he⟩ := h
    have hc : ∀ e ∈ es, e.closes = true := elementsClose_iff.mp hc
    match es, hne with
    | e :: es, _ =>
      have hp := @prints_separated _ _ Element.render (fun e => [e.withoutPositions])
        (SpellsElements true (SpellsSequence true levels)) (fun e => Admits e.lastName?) _ _ e es rest
        cut_andAnd (by simp)
        (fun e hm _ hr => prints_element (he e hm) (hc e hm) (fun h hc _ hr => ih h hc hr) hr)
        (fun _ _ => .blank _)
        fun e hm => by rwa [Sequence.lastName?, Option.mem_def.mp hm] at hr
      rw [Sequence.render, renderElements_eq_map]
      refine hp.imp ?_
      rintro _ ⟨us, ws, rfl, hu, hw⟩
      refine ⟨us, ws, _, _, rfl, hu, hw, ?_⟩
      rw [Sequence.withoutPositions, elementsWithoutPositions_eq_map, ← List.flatMap_def,
        ← List.map_eq_flatMap]
      rfl

/-! ## Tasks -/

/-- A line after the first. -/
theorem lexes_line {s : Sequence} (h : s.IsWritable maxDepth) (hc : s.closes = true)
    (hr : Admits s.lastName? rest) : ∃ vs, SpellsNext true vs s.withoutPositions ∧
      Lexes false ('\n' :: s.render.toList ++ rest) vs false rest := by
  obtain ⟨k, vs, hG, hl⟩ := prints_sequence h hc hr
  exact ⟨⟨k, false, true⟩ :: vs, .line rfl (hG false true), hl false ['\n'] rfl (by simp)⟩

theorem prints_render {t : Task} (hne : t.sequences ≠ [])
    (h : ∀ s ∈ t.sequences, s.IsWritable maxDepth) (hc : t.closes = true)
    (hr : ∀ name, Admits name rest) : Prints t.render.toList rest fun vs =>
      Spells true vs (t.sequences.map Sequence.withoutPositions) := by
  obtain ⟨name, text, sequences⟩ := t
  have hc : ∀ s ∈ sequences, s.closes = true := branchesClose_iff.mp hc
  match sequences, hne with
  | s :: ss, _ =>
    rw [List.forall_mem_cons] at h hc
    obtain ⟨ws, hm, hl⟩ := lexes_parts (fun s : Sequence => '\n' :: s.render.toList)
      Sequence.withoutPositions (SpellsNext true) (fun s => Admits s.lastName?)
      (fun s hs _ hr => lexes_line (h.2 s hs) (hc.2 s hs) hr)
      (fun _ _ _ _ _ c hc => .inr (.inl (by simpa using hc.symm)))
      (fun s _ => hr s.lastName?)
    have hs : Admits s.lastName? (ss.flatMap (fun s => '\n' :: s.render.toList) ++ rest) := by
      cases ss with
      | nil => exact hr _
      | cons r rs => exact fun c hc => .inr (.inl (by simpa using hc.symm))
    have htext : (Task.mk name text (s :: ss)).render.toList =
        s.render.toList ++ ss.flatMap fun s => '\n' :: s.render.toList := by
      rw [Task.render, List.map_cons, toList_intercalate_cons, List.flatMap_map]
      rfl
    rw [htext]
    refine (prints_sequence h.1 hc.1 hs).append hl fun us hu => ?_
    rw [List.map_cons, ← List.append_nil ws]
    exact .mk hu hm (.inl rfl)

end Pipework.Task
