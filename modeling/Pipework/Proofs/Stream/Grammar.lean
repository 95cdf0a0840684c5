import Pipework.Proofs.Argument.Grammar
import Pipework.Proofs.Stream.Channel

/-! How streams are written, as a grammar over views, and when each parser of streams succeeds. -/

namespace Pipework.Stream

open Token Pipework.Parser Read

/-! ## The grammar -/

/-- A name alone, or a label with its colon and, after white space, a name. -/
inductive LabelledName : List View → Option Label → String → Prop
  | plain {name : View} : name.kind.isName = true → LabelledName [name] none name.kind.symbol
  | labelled {label colon name : View} : label.kind.isName = true → colon.kind = .colon →
      colon.glued = true → name.kind.isName = true → name.glued = false →
      LabelledName [label, colon, name] (some ⟨label.kind.symbol, 0, 0⟩) name.kind.symbol

/-- An app; of two arguments of one name, the later gives the value. -/
inductive App.Spells : List View → App → Prop
  | mk {vs ws : List View} {label : Option Label} {name : String} {arguments : List Argument} :
      LabelledName vs label name → Many Argument.Spells ws arguments →
      App.Spells (vs ++ ws) ⟨label, name, arguments.foldl Argument.insert [], 0, 0⟩

/-- Apps in a row, and whether they are side by side; one app alone is not. -/
inductive Row : List View → List App → Bool → Prop
  | bound {vs ws : List View} {a : App} {as : List App} : a.Spells vs →
      Many (After .pipe App.Spells) ws as → Row (vs ++ ws) (a :: as) false
  | apart {vs ws : List View} {a : App} {as : List App} : a.Spells vs →
      Many (After .doublePipe App.Spells) ws as → as ≠ [] → Row (vs ++ ws) (a :: as) true

/-- The endpoint at a channel, without positions. -/
def endpointAt (ch : Channel) : Endpoint := ⟨ch, 0, 0, 0⟩

inductive SpellsSource : List View → Option Endpoint → Prop
  | none : SpellsSource [] none
  | some {gt : View} {vs : List View} {ch : Channel} : SpellsChannel true vs ch → gt.kind = .gt →
      SpellsSource (vs ++ [gt]) (some (endpointAt ch))

inductive SpellsSink : List View → Option Endpoint → Prop
  | none : SpellsSink [] none
  | some {gt : View} {vs : List View} {ch : Channel} : gt.kind = .gt → SpellsChannel false vs ch →
      SpellsSink (gt :: vs) (some (endpointAt ch))

/-- A stream without its name. Where a channel could stand, the keywords of channels are no
labels. -/
inductive Body : List View → Stream → Prop
  | bridge {gt : View} {vs ws : List View} {source sink : Channel} : SpellsChannel true vs source →
      gt.kind = .gt → SpellsChannel false ws sink →
      Body (vs ++ gt :: ws)
        ⟨none, "", [(App.bridge 0).withoutPosition], some (endpointAt source), some (endpointAt sink), false⟩
  | row {vs us ws : List View} {apps : List App} {source sink : Option Endpoint} :
      SpellsSource vs source → Row us apps false → SpellsSink ws sink →
      (opensKeyword us = true → source = none ∧ (sink = none ∨ 2 ≤ apps.length)) →
      Body (vs ++ us ++ ws) ⟨none, "", apps, source, sink, false⟩
  | apart {us : List View} {apps : List App} : Row us apps true →
      Body us ⟨none, "", apps, none, none, true⟩

inductive Spells : List View → Stream → Prop
  | unnamed {vs : List View} {s : Stream} : Body vs s → Spells vs s
  | named {name equals : View} {vs : List View} {s : Stream} : name.kind.isName = true →
      equals.kind = .equals → Body vs s →
      Spells (name :: equals :: vs) { s with name := some name.kind.symbol }

/-- A stream without positions, text and name. -/
def withoutName (s : Stream) : Stream := { s.withoutPositions with name := none }

/-! ## Parsers -/

variable {c d : Cursor}

theorem reads_appName {t : Token} : Reads appName c t d ↔
    c.peek.isName = true ∧ t = c.peek ∧ d = c.next.2 := by
  simp [appName, reads_ite]

theorem reads_endsLabel {b : Bool} : Reads endsLabel c b d ↔
    b = (c.peek.kind == .colon && c.adjacent) ∧ d = c := by
  simp [endsLabel]
  cases c.adjacent <;> grind

theorem reads_labelledName {label : Option Label} {name : Token} :
    Reads labelledName c (label, name) d ↔ c.peek.isName = true ∧
      ((¬ (c.next.2.peek.kind = .colon ∧ c.next.2.adjacent = true) ∧ label = none ∧
          name = c.peek ∧ d = c.next.2) ∨
        (c.next.2.peek.kind = .colon ∧ c.next.2.adjacent = true ∧
          c.next.2.next.2.adjacent = false ∧ c.next.2.next.2.peek.isName = true ∧
          ¬ (d.peek.kind = .colon ∧ d.adjacent = true) ∧
          label = some ⟨c.peek.text, c.peek.start, c.next.2.peek.stop⟩ ∧
          name = c.next.2.next.2.peek ∧ d = c.next.2.next.2.next.2)) := by
  have hn := @Kind.ne_eof_of_isName c.next.2.next.2.peek.kind
  simp [labelledName, reads_ite, reads_appName, reads_endsLabel, Cursor.hasNext, Token.isName] at hn ⊢
  grind

theorem reads_app {a : App} : Reads app c a d ↔ ∃ label name e arguments,
    Reads labelledName c (label, name) e ∧ Reads Argument.arguments e arguments d ∧
      a = { label, name := name.text, arguments := arguments.foldl Argument.insert [],
            start := (label.map Label.start).getD name.start,
            stop := (arguments.getLast?.map Argument.stop).getD name.stop } := by
  simp [app]

theorem reads_separatedApp {separator : Kind} {a : Option App} :
    Reads (separatedApp separator) c a d ↔
      (c.peek.kind ≠ .pipe ∧ c.peek.kind ≠ .doublePipe ∧ a = none ∧ d = c) ∨
        ((c.peek.kind = .pipe ∨ c.peek.kind = .doublePipe) ∧ c.peek.kind = separator ∧
          c.next.2.peek.kind ≠ .colon ∧ ∃ b e, Reads app c.next.2 b e ∧ a = some b ∧
            d = e.checkpoint) := by
  simp [separatedApp, reads_ite]
  grind

theorem reads_apps {as : List App} {unbound : Bool} : Reads Read.apps c (as, unbound) d ↔
    ∃ first e rest, Reads app c first e ∧
      Reads (many (separatedApp e.peek.kind)) e.checkpoint rest d ∧ as = first :: rest ∧
        unbound = (e.peek.kind == .doublePipe) := by
  simp [Read.apps]

theorem reads_source? {e : Option Endpoint} : Reads source? c e d ↔
    (¬ (c.peek.kind = .colon ∨ (startsKeyword c = true ∧ gtBeforePipe c.ahead = true)) ∧
        e = none ∧ d = c) ∨
      ((c.peek.kind = .colon ∨ (startsKeyword c = true ∧ gtBeforePipe c.ahead = true)) ∧
        ∃ p f, Reads (channel true) c p f ∧ f.peek.kind = .gt ∧
          e = some ⟨p.1, p.2.1, p.2.2, f.peek.start⟩ ∧ d = f.next.2) := by
  simp [source?, startsSource, reads_ite]
  grind

theorem reads_startsChannel {b : Bool} : Reads startsChannel c b d ↔
    b = (c.peek.kind == .colon || startsKeyword c) ∧ d = c := by
  simp [startsChannel]
  grind

theorem reads_sink? {e : Option Endpoint} : Reads sink? c e d ↔
    (c.peek.kind ≠ .gt ∧ e = none ∧ d = c) ∨
      (c.peek.kind = .gt ∧
        (c.next.2.peek.kind = .colon ∨ startsKeyword c.next.2 = true) ∧
        ∃ p, Reads (channel false) c.next.2 p d ∧
          e = some ⟨p.1, p.2.1, p.2.2, c.peek.start⟩) := by
  by_cases hk : c.peek.kind = .gt <;> simp [sink?, hk, reads_ite, reads_startsChannel]

theorem reads_appsAndSink {source : Option Endpoint} {as : List App} {unbound : Bool}
    {sink : Option Endpoint} : Reads (appsAndSink source) c (as, unbound, sink) d ↔
      (∃ s, source = some s ∧ (c.peek.kind = .colon ∨ startsKeyword c = true) ∧
        ∃ p, Reads (channel false) c p d ∧ as = [.bridge s.gt] ∧ unbound = false ∧
          sink = some ⟨p.1, p.2.1, p.2.2, s.gt⟩) ∨
      (¬ (source.isSome = true ∧ (c.peek.kind = .colon ∨ startsKeyword c = true)) ∧
        ∃ e, Reads Read.apps c (as, unbound) e ∧ (e.peek.kind = .eof ∨ e.peek.kind = .gt) ∧
          Reads sink? e sink d) := by
  have ho : (c.peek.kind = .colon ∨ startsKeyword c = true) ↔
      (c.peek.kind == .colon || startsKeyword c) = true := by simp
  rw [ho]
  simp only [appsAndSink, reads_bind, reads_startsChannel, existsAndEq, true_and, and_true]
  generalize (c.peek.kind == .colon || startsKeyword c) = opens
  have happs : Reads (do
      let r ← Read.apps
      let token ← peek
      if (← hasNext) && token.kind != .gt then
        refuseHere .unexpectedDataAfterStreamdef [token.text]
      return (r.1, r.2, ← sink?)) c (as, unbound, sink) d ↔
      ∃ e, Reads Read.apps c (as, unbound) e ∧ (e.peek.kind = .eof ∨ e.peek.kind = .gt) ∧
        Reads sink? e sink d := by
    simp only [reads_bind, reads_peek, reads_hasNext, reads_ite, reads_refuseHere, reads_pure,
      existsAndEq, true_and, and_true, false_and, and_false, exists_false, false_or, Prod.mk.injEq,
      Cursor.hasNext]
    constructor
    · rintro ⟨r, e, h, hk, hs, rfl, rfl⟩
      exact ⟨e, h, by simpa [or_iff_not_imp_left] using hk, hs⟩
    · rintro ⟨e, h, hk, hs⟩
      exact ⟨_, e, h, by simpa [or_iff_not_imp_left] using hk, hs, rfl, rfl⟩
  cases source with
  | none => simpa using happs
  | some s =>
    cases opens with
    | false => simpa using happs
    | true => simp

theorem reads_requireBound {unbound : Bool} {source sink : Option Endpoint} {u : Unit} :
    Reads (requireBound unbound source sink) c u d ↔
      (unbound = true → source = none ∧ sink = none) ∧ d = c := by
  cases unbound <;> cases source <;> cases sink <;> simp [requireBound]

theorem reads_inlineName {name : Option String} : Reads inlineName c name d ↔
    (c.peek.isName = true ∧ (c.peekAt 1).map Token.kind = some .equals ∧ name = some c.peek.text ∧
        d = c.next.2.next.2) ∨
      (¬ (c.peek.isName = true ∧ (c.peekAt 1).map Token.kind = some .equals) ∧ name = none ∧
        d = c) := by
  simp [inlineName, reads_ite]
  grind

theorem reads_body {s : Stream} : Reads body c s d ↔ ∃ name e source f as unbound sink,
    Reads inlineName c name e ∧ Reads source? e source f ∧
      Reads (appsAndSink source) f.checkpoint (as, unbound, sink) d ∧
      (unbound = true → source = none ∧ sink = none) ∧ d.peek.kind = .eof ∧
      s = ⟨name, d.expression, as, source, sink, unbound⟩ := by
  simp [body, reads_ite, reads_requireBound, Cursor.hasNext]

end Pipework.Stream
