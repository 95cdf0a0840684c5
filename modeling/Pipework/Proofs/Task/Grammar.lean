import Pipework.Proofs.Argument.Grammar
import Pipework.Task.Parser
import Pipework.Task.Shape

/-! How tasks are written, as a grammar over views, and when each parser of tasks succeeds. -/

namespace Pipework.Task

open Token Pipework.Parser Read

/-! ## The grammar -/

inductive SpellsLabel : List View → Option Label → Prop
  | none : SpellsLabel [] none
  | some {name colon : View} : name.kind.isName = true → colon.kind = .colon → colon.glued = true →
      SpellsLabel [name, colon] (some ⟨name.kind.symbol, 0, 0⟩)

/-- An app without transitions. -/
inductive SpellsPlain (appMode : Bool) : List View → App → Prop
  | mk {name : View} {us ws : List View} {label : Option Label} {arguments : List Argument} :
      SpellsLabel us label → name.kind.isName = true → Many Argument.Spells ws arguments →
      (arguments ≠ [] → appMode = true) →
      SpellsPlain appMode (us ++ name :: ws) ⟨label, name.kind.symbol, arguments, [], 0, 0⟩

/-- What a token before an arrow asks for. -/
def conditionOf? : Kind → Option Condition
  | .number code => some (.exitCode code)
  | .star => some (.exitCode "*")
  | .literal status => some (.exitStatus status)
  | _ => none

inductive SpellsTarget (appMode : Bool) : List View → Target → Prop
  | label {colon name : View} : colon.kind = .colon → name.kind.isName = true →
      SpellsTarget appMode [colon, name] (.label name.kind.symbol)
  | app {vs : List View} {a : App} : SpellsPlain appMode vs a → SpellsTarget appMode vs (.app a)

inductive SpellsTransition (appMode : Bool) : List View → Transition → Prop
  | mk {sign arrow : View} {vs : List View} {condition : Condition} {target : Target} :
      conditionOf? sign.kind = some condition → arrow.kind = .arrow →
      SpellsTarget appMode vs target →
      SpellsTransition appMode (sign :: arrow :: vs) ⟨condition, target, 0, 0⟩

inductive SpellsApp (appMode : Bool) : List View → App → Prop
  | mk {us ws : List View} {a : App} {transitions : List Transition} : SpellsPlain appMode us a →
      Many (SpellsTransition appMode) ws transitions →
      SpellsApp appMode (us ++ ws) { a with transitions }

/-- An element, or the elements of a group; `Inner` writes a sequence one level further down. -/
inductive SpellsElements (appMode : Bool) (Inner : List View → Sequence → Prop) :
    List View → List Element → Prop
  | group {lparen rparen : View} {vs : List View} {s : Sequence} : lparen.kind = .lparen →
      Inner vs s → rparen.kind = .rparen →
      SpellsElements appMode Inner (lparen :: vs ++ [rparen]) s.elements
  | split {lt gt : View} {us vs ws : List View} {label : Option Label} {first : Sequence}
      {rest : List Sequence} : SpellsLabel us label → lt.kind = .lt → Inner vs first →
      Many (After .doublePipe Inner) ws rest → gt.kind = .gt →
      SpellsElements appMode Inner (us ++ lt :: (vs ++ (ws ++ [gt])))
        [.split ⟨label, first :: rest, 0, 0⟩]
  | app {vs : List View} {a : App} : SpellsApp appMode vs a →
      SpellsElements appMode Inner vs [.app a]

/-- A sequence within which `levels - 1` more can be open. -/
def SpellsSequence (appMode : Bool) : Nat → List View → Sequence → Prop
  | 0, _, _ => False
  | levels + 1, vs, s => ∃ us ws first rest, vs = us ++ ws ∧
      SpellsElements appMode (SpellsSequence appMode levels) us first ∧
      Many (After .andAnd (SpellsElements appMode (SpellsSequence appMode levels))) ws rest ∧
      s = ⟨first ++ rest.flatten, 0, 0⟩

/-- A sequence after a semicolon or on a new line. -/
inductive SpellsNext (appMode : Bool) : List View → Sequence → Prop
  | semicolon {v : View} {vs : List View} {s : Sequence} : v.kind = .semicolon →
      SpellsSequence appMode maxDepth vs s → SpellsNext appMode (v :: vs) s
  | line {v : View} {vs : List View} {s : Sequence} : v.breaks = true →
      SpellsSequence appMode maxDepth (v :: vs) s → SpellsNext appMode (v :: vs) s

/-- The sequences of a task, the last of which a semicolon can end. -/
inductive Spells (appMode : Bool) : List View → List Sequence → Prop
  | mk {us ws zs : List View} {s : Sequence} {ss : List Sequence} :
      SpellsSequence appMode maxDepth us s → Many (SpellsNext appMode) ws ss →
      (zs = [] ∨ ∃ v, zs = [v] ∧ v.kind = .semicolon) →
      Spells appMode (us ++ (ws ++ zs)) (s :: ss)

/-! ## Apps -/

variable {c d : Cursor} {appMode : Bool}

theorem reads_label? {l : Option Label} : Reads label? c l d ↔
    (¬ (c.peek.isName = true ∧ (c.peekAt 1).map Token.kind = some .colon) ∧ l = none ∧ d = c) ∨
      (c.peek.isName = true ∧ (c.peekAt 1).map Token.kind = some .colon ∧
        c.next.2.adjacent = true ∧ l = some ⟨c.peek.text, c.peek.start, c.next.2.peek.stop⟩ ∧
        d = c.next.2.next.2) := by
  simp [label?, reads_ite]
  grind

theorem reads_appName {t : Token} : Reads appName c t d ↔
    c.peek.isName = true ∧ t = c.peek ∧ d = c.next.2 := by
  simp [appName, reads_ite]

theorem reads_arguments {as : List Argument} : Reads (arguments appMode) c as d ↔
    (c.peek.kind ≠ .doubleMinus ∧ as = [] ∧ d = c) ∨
      (c.peek.kind = .doubleMinus ∧ appMode = true ∧ Reads Argument.arguments c as d) := by
  simp [arguments, reads_ite, or_comm]

theorem reads_plainApp {label : Option Label} {a : App} : Reads (plainApp appMode label) c a d ↔
    c.peek.isName = true ∧ ∃ as, Reads (arguments appMode) c.next.2 as d ∧
      a = { label, name := c.peek.text, arguments := as, transitions := [],
            start := (label.map Label.start).getD c.peek.start, stop := d.previousStop } := by
  simp [plainApp, reads_appName]

/-! ## Transitions -/

theorem reads_condition?_some {k : Condition} : Reads condition? c (some k) d ↔
    conditionOf? c.peek.kind = some k ∧ (c.peekAt 1).map Token.kind = some .arrow ∧ d = c := by
  simp only [condition?, condition?.missingArrow, reads_bind, reads_peek, reads_secondKind,
    existsAndEq, true_and]
  split <;> simp_all [conditionOf?, reads_ite] <;> grind

theorem reads_condition?_none : Reads condition? c none d ↔
    c.peek.kind ≠ .arrow ∧ c.peek.kind ≠ .star ∧ (∀ s, c.peek.kind ≠ .literal s) ∧
      (c.peek.isName = true → (c.peekAt 1).map Token.kind ≠ some .arrow) ∧ d = c := by
  simp only [condition?, condition?.missingArrow, reads_bind, reads_peek, reads_secondKind,
    existsAndEq, true_and, Token.isName]
  split <;> simp_all [Kind.isName, reads_ite]

theorem reads_target {t : Target} : Reads (target appMode) c t d ↔
    (c.peek.kind = .colon ∧ c.next.2.peek.isName = true ∧ t = .label c.next.2.peek.text ∧
        d = c.next.2.next.2) ∨
      (c.peek.kind ≠ .colon ∧ ∃ label e a, Reads label? c label e ∧
        Reads (plainApp appMode label) e a d ∧ t = .app a) := by
  rw [target, reads_eatIf_bind]
  simp [reads_ite]
  grind

theorem reads_transition? {x : Option Transition} : Reads (transition? appMode) c x d ↔
    (x = none ∧ Reads condition? c none d) ∨
      ∃ k t, Reads condition? c (some k) c ∧ Reads (target appMode) c.next.2.next.2 t d ∧
        x = some ⟨k, t, c.peek.start, d.previousStop⟩ := by
  have hd : ∀ {k e}, Reads condition? c (some k) e → e = c := fun h => (reads_condition?_some.mp h).2.2
  simp only [transition?, reads_bind, reads_peek, existsAndEq, true_and]
  constructor
  · rintro ⟨_ | k, e, hk, h⟩
    · obtain ⟨rfl, rfl⟩ := reads_pure.mp h
      exact .inl ⟨rfl, hk⟩
    · obtain rfl := hd hk
      simp at h
      exact .inr ⟨k, _, hk, h.choose_spec⟩
  · rintro (⟨rfl, h⟩ | ⟨k, t, hk, ht, rfl⟩)
    · exact ⟨none, d, h, reads_pure.mpr ⟨rfl, rfl⟩⟩
    · exact ⟨some k, c, hk, by simpa using ht⟩

theorem ne_eof_of_conditionOf? {k : Kind} {condition : Condition}
    (h : conditionOf? k = some condition) : k ≠ .eof := by
  rintro rfl
  cases h

theorem reads_app {label : Option Label} {a : App} : Reads (app appMode label) c a d ↔
    ∃ b e ts, Reads (plainApp appMode label) c b e ∧ Reads (many (transition? appMode)) e ts d ∧
      a = { b with transitions := ts, stop := (ts.getLast?.map Transition.stop).getD b.stop } := by
  simp [app]

/-! ## Sequences -/

section

variable {inner : Parser Sequence}

theorem reads_branch? {s : Option Sequence} : Reads (branch? inner) c s d ↔
    (c.peek.kind ≠ .doublePipe ∧ s = none ∧ d = c) ∨
      (c.peek.kind = .doublePipe ∧ ∃ t, Reads inner c.next.2 t d ∧ s = some t) := by
  rw [branch?, reads_eatIf_bind]
  simp [or_comm]

theorem reads_split {label : Option Label} {s : Split} : Reads (split inner label) c s d ↔
    c.peek.kind = .lt ∧ ∃ first e rest f, Reads inner c.next.2 first e ∧
      Reads (many (branch? inner)) e rest f ∧ f.peek.kind = .gt ∧ d = f.next.2 ∧
      s = ⟨label, first :: rest, (label.map Label.start).getD c.peek.start, f.peek.stop⟩ := by
  simp only [split, reads_bind, reads_eat, reads_peek, existsAndEq, true_and, and_true]
  constructor
  · rintro ⟨hk, first, e, hf, rest, f, hr, h⟩
    split at h
    · next hg =>
      simp at h
      exact ⟨by simpa using hk, first, e, rest, f, hf, hr, hg, h.1, h.2⟩
    · simp at h
    · simp at h
  · rintro ⟨hk, first, e, rest, f, hf, hr, hg, rfl, rfl⟩
    refine ⟨by simpa using hk, first, e, hf, rest, f, hr, ?_⟩
    rw [hg]
    simp

theorem reads_elementLabel {l : Option Label} : Reads elementLabel c l d ↔
    (Reads label? c none d ∧ l = none) ∨
      ∃ m, Reads label? c (some m) d ∧ Reads label? d none d ∧ d.peek.kind ≠ .lparen ∧ l = some m := by
  have hne : ∀ {e}, Reads label? e none d → e = d := fun h => by
    obtain ⟨-, -, rfl⟩ | ⟨-, -, -, h, -⟩ := reads_label?.mp h
    · rfl
    · cases h
  simp only [elementLabel, reads_bind]
  constructor
  · rintro ⟨_ | m, e, hm, h⟩
    · obtain ⟨rfl, rfl⟩ := reads_pure.mp h
      exact .inl ⟨hm, rfl⟩
    · obtain ⟨_ | n, f, hn, h⟩ := reads_bind.mp h
      · simp [reads_ite] at h
        obtain ⟨hk, rfl, rfl⟩ := h
        obtain rfl := hne hn
        exact .inr ⟨m, hm, hn, hk, rfl⟩
      · simp at h
  · rintro (⟨h, rfl⟩ | ⟨m, hm, hn, hk, rfl⟩)
    · exact ⟨none, d, h, reads_pure.mpr ⟨rfl, rfl⟩⟩
    · refine ⟨some m, d, hm, reads_bind.mpr ⟨none, d, hn, ?_⟩⟩
      simp [reads_ite, hk]

theorem reads_elements {es : List Element} : Reads (elements appMode inner) c es d ↔
    (c.peek.kind = .lparen ∧ ∃ s e, Reads inner c.next.2 s e ∧ e.peek.kind = .rparen ∧
        es = s.elements ∧ d = e.next.2) ∨
      (c.peek.kind ≠ .lparen ∧ ∃ label e, Reads elementLabel c label e ∧
        ((e.peek.kind = .lt ∧ ∃ s, Reads (split inner label) e s d ∧ es = [.split s]) ∨
          (e.peek.kind ≠ .lt ∧ ∃ a, Reads (app appMode label) e a d ∧ es = [.app a]))) := by
  rw [elements, reads_eatIf_bind]
  simp [reads_ite]
  grind

theorem reads_joinedElements? {es : Option (List Element)} :
    Reads (joinedElements? appMode inner) c es d ↔
      (c.peek.kind ≠ .andAnd ∧ es = none ∧ d = c) ∨
        (c.peek.kind = .andAnd ∧ ∃ fs, Reads (elements appMode inner) c.next.2 fs d ∧ es = some fs) := by
  rw [joinedElements?, reads_eatIf_bind]
  simp [or_comm]

theorem reads_sequenceWith {s : Sequence} : Reads (sequenceWith appMode inner) c s d ↔
    ∃ first e rest, Reads (elements appMode inner) c first e ∧
      Reads (many (joinedElements? appMode inner)) e rest d ∧
      s = ⟨first ++ rest.flatten, c.peek.start, d.previousStop⟩ := by
  simp [sequenceWith]

end

theorem elementsWithoutPositions_append_flatten (es : List Element) (ess : List (List Element)) :
    elementsWithoutPositions (es ++ ess.flatten) =
      elementsWithoutPositions es ++ (ess.map elementsWithoutPositions).flatten := by
  simp only [funext elementsWithoutPositions_eq_map, List.map_append, List.map_flatten]

/-! ## Tasks -/

theorem startsLine_eq (h : c.peek.kind ≠ .eof) : startsLine c = c.view.breaks := by
  rcases c with ⟨source, _ | ⟨l, ls⟩, _ | ⟨t, ts⟩, good⟩ <;>
    simp_all [startsLine, Cursor.view, viewOf, Cursor.peek, endOf]

theorem reads_separator? {b : Bool} : Reads separator? c b d ↔
    (c.peek.kind = .eof ∧ b = false ∧ d = c) ∨
      (c.peek.kind = .semicolon ∧ b = (c.next.2.peek.kind != .eof) ∧ d = c.next.2) ∨
      (c.peek.kind ≠ .eof ∧ c.peek.kind ≠ .semicolon ∧ c.view.breaks = true ∧ b = true ∧ d = c) := by
  have hs := @startsLine_eq c
  rw [separator?, reads_bind]
  simp only [reads_hasNext, existsAndEq, true_and, reads_ite, reads_eatIf_bind]
  simp [reads_ite, Cursor.hasNext] at hs ⊢
  grind

theorem reads_topSequence {s : Sequence} : Reads (topSequence appMode) c s d ↔
    ∃ e, Reads (sequence appMode maxDepth) c s e ∧ d = e.checkpoint := by
  simp [topSequence]

theorem reads_nextSequence? {s : Option Sequence} : Reads (nextSequence? appMode) c s d ↔
    (Reads separator? c false d ∧ s = none) ∨
      ∃ e t, Reads separator? c true e ∧ Reads (topSequence appMode) e t d ∧ s = some t := by
  simp only [nextSequence?, reads_bind]
  constructor
  · rintro ⟨_ | _, e, hs, h⟩ <;> simp at h
    · obtain ⟨rfl, rfl⟩ := h
      exact .inl ⟨hs, rfl⟩
    · obtain ⟨t, ht, rfl⟩ := h
      exact .inr ⟨e, t, hs, ht, rfl⟩
  · rintro (⟨h, rfl⟩ | ⟨e, t, hs, ht, rfl⟩)
    · exact ⟨false, d, h, by simp⟩
    · exact ⟨true, e, hs, by simpa using ht⟩

/-- Nothing is written in no tokens. -/
theorem SpellsSequence.ne_nil {levels : Nat} {vs : List View} {s : Sequence}
    (h : SpellsSequence appMode levels vs s) : vs ≠ [] := by
  cases levels with
  | zero => cases h
  | succ levels =>
    obtain ⟨us, ws, first, rest, rfl, hf, -, -⟩ := h
    cases hf with
    | group => simp
    | split => simp
    | app ha =>
      obtain ⟨ha, -⟩ := ha
      obtain ⟨-, -, -, -⟩ := ha
      simp

/-- Where no sequence follows, nothing does. -/
theorem eof_of_reads (h : Reads (nextSequence? appMode) c none d) : d.peek.kind = .eof := by
  obtain ⟨h, -⟩ | ⟨_, _, -, -, h⟩ := reads_nextSequence?.mp h
  · obtain ⟨hk, -, rfl⟩ | ⟨-, hk, rfl⟩ | ⟨-, -, -, hb, -⟩ := reads_separator?.mp h
    · exact hk
    · simpa using hk
    · cases hb
  · cases h

theorem reads_requireLegalName {n : Option String} {u : Unit} :
    Reads (requireLegalName n) c u d ↔ (∀ m ∈ n, Text.isLegalName m = true) ∧ d = c := by
  cases n <;> simp [requireLegalName, reads_ite]

theorem reads_definition {name : Option String} {t : Task} :
    Reads (definition name appMode) c t d ↔ (∀ m ∈ name, Text.isLegalName m = true) ∧
      ∃ first e rest, Reads (topSequence appMode) c first e ∧
        Reads (many (nextSequence? appMode)) e rest d ∧
        t = { name, text := d.expression, sequences := first :: rest } := by
  simp [definition, reads_requireLegalName]

end Pipework.Task
