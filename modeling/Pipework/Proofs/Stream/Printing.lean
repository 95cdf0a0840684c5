import Pipework.Proofs.Argument.Printing
import Pipework.Proofs.Stream.ChannelPrinting
import Pipework.Proofs.Stream.Reading
import Pipework.Stream.Printer

/-! Printing a stream and reading it gives the stream, whenever its names are names in every
place: the printed text is cut into views that spell the stream. -/

namespace Pipework.Stream

open Token Pipework.Parser Read

/-- The keywords of channels. -/
def isKeyword (s : String) : Bool := s == "queue" || s == "topic" || s == "tap"

structure App.IsWritable (a : App) : Prop where
  label : ∀ l ∈ a.label, isWord l.name = true
  name : isWord a.name = true
  arguments : ∀ x ∈ a.arguments, Argument.IsDottedWord x.name
  distinct : (a.arguments.map Argument.name).Nodup

/-- A stream whose parts can be written, and of which no label looks like a channel. -/
structure IsWritable (s : Stream) : Prop where
  name : ∀ n ∈ s.name, Text.isLegalName n = true
  apps : ∀ a ∈ s.apps, a.IsWritable
  nonempty : s.apps ≠ []
  distinct : s.labelNames.Nodup
  unbound : s.unbound = true → 2 ≤ s.apps.length ∧ s.source = none ∧ s.sink = none
  source : ∀ e ∈ s.source, Writable true e.channel
  sink : ∀ e ∈ s.sink, Writable false e.channel
  /-- Where a channel could stand, the first label is no keyword. -/
  keyword : ∀ a ∈ s.apps.head?, ∀ l ∈ a.label, isKeyword l.name = true →
    s.source = none ∧ (s.sink = none ∨ 2 ≤ s.apps.length)

/-! ## Apps -/

variable {rest : List Char}

theorem prints_labelledName {label : Option Label} {name : String}
    (hl : ∀ l ∈ label, isWord l.name = true) (hn : isWord name = true)
    (hr : StopsName name.toList rest) : Prints (Label.render label ++ name).toList rest fun vs =>
      LabelledName vs (label.map Label.withoutPosition) name := by
  cases label with
  | none =>
    have h := fun glued breaks => @LabelledName.plain ⟨.ofName name.toList, glued, breaks⟩
      (Kind.isName_ofName _)
    simp only [Kind.symbol_ofName, String.ofList_toList] at h
    refine ⟨.ofName name.toList, [], h, fun e gap hg he => ?_⟩
    simpa [Label.render] using lexes_name hn hr hg he
  | some l =>
    have h := fun glued breaks => @LabelledName.labelled ⟨.ofName l.name.toList, glued, breaks⟩
      ⟨.colon, true, false⟩ ⟨.ofName name.toList, false, false⟩ (Kind.isName_ofName _) rfl rfl
      (Kind.isName_ofName _) rfl
    simp only [Kind.symbol_ofName, String.ofList_toList] at h
    refine ⟨.ofName l.name.toList, [_, _], h, fun e gap hg he => ?_⟩
    have := (Label.lexes (hl l rfl) hg he).trans (@lexes_name false [' '] rest _ hn hr rfl (by simp))
    simpa [Label.render] using this

theorem stopsName_renderAll {as : List Argument} {name : List Char} (hr : Ends rest) :
    StopsName name ((Argument.renderAll as).toList ++ rest) := by
  cases as with
  | nil => exact hr.stopsName
  | cons a as =>
    refine Ends.stopsName fun c hc => ?_
    simpa [Argument.renderAll, Argument.render, eq_comm] using hc

theorem prints_app {a : App} (h : a.IsWritable) (hr : Ends rest) :
    Prints a.render.toList rest fun vs => a.withoutPosition.Spells vs := by
  obtain ⟨ws, hm, hl⟩ := Argument.lexes_renderAll h.arguments hr.stopsValue
  obtain ⟨k, vs, hn, hl'⟩ := prints_labelledName h.label h.name (stopsName_renderAll hr)
  have harg : (a.arguments.map Argument.withoutPosition).foldl Argument.insert [] =
      a.arguments.map Argument.withoutPosition := by
    rw [Argument.foldl_insert_eq, List.nil_append]
    simpa [Argument.withoutPosition, Function.comp_def] using h.distinct
  refine ⟨k, vs ++ ws, fun glued breaks => ?_, fun e gap hg he => ?_⟩
  · have := App.Spells.mk (hn glued breaks) hm
    rwa [harg] at this
  · have := (hl' e gap hg he).trans hl
    simpa [App.render] using this

theorem prints_row {as : List App} {unbound : Bool} (h : ∀ a ∈ as, a.IsWritable) (hne : as ≠ [])
    (hu : unbound = true → 2 ≤ as.length) (hr : Ends rest) :
    Prints ((separator unbound).intercalate (as.map App.render)).toList rest fun vs =>
      Row vs (as.map App.withoutPosition) unbound := by
  match as, hne with
  | a :: as, _ =>
    cases unbound with
    | false =>
      refine (prints_separated App.render App.withoutPosition App.Spells (fun _ => Ends) cut_pipe
        (by simp) (fun b hb _ hr => prints_app (h b hb) hr) (by simp [Ends]) fun _ _ => hr).imp ?_
      rintro _ ⟨us, ws, rfl, ha, hm⟩
      exact .bound ha hm
    | true =>
      refine (prints_separated App.render App.withoutPosition App.Spells (fun _ => Ends) cut_doublePipe
        (by simp) (fun b hb _ hr => prints_app (h b hb) hr) (by simp [Ends]) fun _ _ => hr).imp ?_
      rintro _ ⟨us, ws, rfl, ha, hm⟩
      refine .apart ha hm fun h => ?_
      have := hu rfl
      simp [List.map_eq_nil_iff.mp h] at this

/-! ## Streams -/

/-- A row that looks like a channel starts with a label that is a keyword. -/
theorem Row.keyword_of_opens {us : List View} {as : List App} {unbound : Bool} (h : Row us as unbound)
    (ho : opensKeyword us = true) : ∃ a ∈ as.head?, ∃ l ∈ a.label, isKeyword l.name = true := by
  obtain ⟨vs, ws, a, bs, separator, rfl, rfl, ha, hk, hm⟩ := h.exists_first
  refine ⟨a, rfl, ?_⟩
  obtain ⟨hn, ha⟩ := ha
  cases hn with
  | labelled hl hc hg =>
    refine ⟨_, rfl, ?_⟩
    simp only [List.cons_append, opensKeyword, Bool.and_eq_true, Bool.or_eq_true, beq_iff_eq] at ho
    obtain ⟨⟨⟨h | h⟩ | h, -⟩, -⟩ := ho <;> simp [isKeyword, h, Kind.symbol]
  | plain hn =>
    cases ha with
    | cons hi _ =>
      obtain ⟨hd, -⟩ := hi
      simp [opensKeyword, hd] at ho
    | nil =>
      cases hm with
      | nil => cases ho
      | cons hi _ =>
        obtain ⟨hv, -⟩ := hi
        obtain rfl | rfl := hk <;> simp [opensKeyword, hv] at ho

theorem lexes_gt (cs : List Char) :
    Lexes false (" > ".toList ++ cs) [⟨.gt, false, false⟩] false (' ' :: cs) :=
  @lexes_operator false [' '] (' ' :: cs) '>' .gt rfl (by simp) (by simp) rfl (by simp)

def renderSink : Option Endpoint → String
  | none => ""
  | some e => " > " ++ e.channel.render

theorem lexes_sink {sink : Option Endpoint} (h : ∀ e ∈ sink, Writable false e.channel) :
    ∃ vs, SpellsSink vs (sink.map Endpoint.withoutPosition) ∧
      Lexes false (renderSink sink).toList vs false [] := by
  cases sink with
  | none => exact ⟨[], .none, .nil⟩
  | some e =>
    obtain ⟨k, vs, hch, hl⟩ := @prints_channel false [] e.channel (h e rfl) (by simp)
    refine ⟨⟨.gt, false, false⟩ :: ⟨k, false, false⟩ :: vs, .some rfl (hch _ _), ?_⟩
    have := (lexes_gt e.channel.render.toList).trans (by simpa using hl false [' '] rfl (by simp))
    simpa [renderSink] using this

theorem ends_sink (sink : Option Endpoint) : Ends (renderSink sink).toList := by
  cases sink <;> simp [Ends, renderSink]

/-- A source, its `>` and what is printed after them. -/
theorem prints_source {ch : Channel} {inner : String} {F G : List View → Prop}
    (hch : Writable true ch) (hi : Prints inner.toList [] F)
    (hG : ∀ {vs us}, SpellsChannel true vs ch → F us → G (vs ++ ⟨.gt, false, false⟩ :: us)) :
    Prints (ch.render ++ " > " ++ inner).toList [] G := by
  obtain ⟨k, us, hF, hl⟩ := hi
  obtain ⟨k', vs, hvs, hl'⟩ := @prints_channel true (" > ".toList ++ inner.toList) ch hch
    (by simp [Ends])
  refine ⟨k', vs ++ ⟨.gt, false, false⟩ :: ⟨k, false, false⟩ :: us,
    fun g b => hG (hvs g b) (hF _ _), fun e gap hg he => ?_⟩
  have hl := (lexes_gt inner.toList).trans (by simpa using hl false [' '] rfl (by simp))
  simpa using (hl' e gap hg he).trans hl

/-- The views of the apps and the sink of a stream. -/
def SpellsRow (s : Stream) (vs : List View) : Prop :=
  ∃ us ws, vs = us ++ ws ∧ Row us s.withoutName.apps s.unbound ∧ SpellsSink ws s.withoutName.sink ∧
    (opensKeyword us = true →
      s.withoutName.source = none ∧ (s.withoutName.sink = none ∨ 2 ≤ s.withoutName.apps.length))

def renderRow (s : Stream) : String :=
  (separator s.unbound).intercalate (s.apps.map App.render) ++ renderSink s.sink

theorem prints_renderRow {s : Stream} (h : s.IsWritable) :
    Prints s.renderRow.toList [] s.SpellsRow := by
  obtain ⟨ws, hsink, hl⟩ := lexes_sink h.sink
  obtain ⟨k, us, hrow, hl'⟩ := @prints_row (renderSink s.sink).toList s.apps s.unbound h.apps h.nonempty
    (fun hu => (h.unbound hu).1) (ends_sink s.sink)
  refine ⟨k, us ++ ws, fun g b => ⟨_, ws, rfl, hrow g b, hsink, fun ho => ?_⟩, fun e gap hg he => ?_⟩
  · obtain ⟨a, ha, l, hl, hk⟩ := (hrow g b).keyword_of_opens ho
    rw [List.head?_map] at ha
    obtain ⟨a', ha', rfl⟩ := Option.map_eq_some_iff.mp ha
    obtain ⟨l', hl', rfl⟩ := Option.map_eq_some_iff.mp hl
    simpa [withoutName, withoutPositions] using h.keyword a' ha' l' hl' hk
  · rw [renderRow, String.toList_append, List.append_nil]
    exact (hl' e gap hg he).trans hl

theorem renderBody_of_no_source {s : Stream} (hs : s.source = none) : s.renderBody = s.renderRow := by
  cases hk : s.sink <;> simp [renderBody, renderRow, renderSink, hs, hk, String.append_assoc]

theorem body_of_no_source {s : Stream} {vs : List View} (h : s.IsWritable) (hs : s.source = none)
    (hv : s.SpellsRow vs) : Body vs s.withoutName := by
  obtain ⟨us, ws, rfl, hr, hk, hopen⟩ := hv
  obtain ⟨name, text, apps, source, sink, unbound⟩ := s
  obtain rfl : source = none := hs
  cases unbound with
  | false => exact .row .none hr hk hopen
  | true =>
    obtain rfl : sink = none := (h.unbound rfl).2.2
    cases hk
    rw [List.append_nil]
    exact .apart hr

theorem renderBody_of_source {s : Stream} {e : Endpoint} (hs : s.source = some e)
    (hb : s.isBridge = false) : s.renderBody = e.channel.render ++ " > " ++ s.renderRow := by
  cases hk : s.sink <;> simp [renderBody, renderRow, renderSink, hs, hk, hb, String.append_assoc]

theorem body_of_source {s : Stream} {e : Endpoint} {vs us : List View} (h : s.IsWritable)
    (hs : s.source = some e) (hch : SpellsChannel true vs e.channel) (hv : s.SpellsRow us) :
    Body (vs ++ ⟨.gt, false, false⟩ :: us) s.withoutName := by
  obtain ⟨us, ws, rfl, hr, hk, hopen⟩ := hv
  obtain ⟨name, text, apps, source, sink, unbound⟩ := s
  obtain rfl : source = some e := hs
  obtain rfl : unbound = false := Bool.eq_false_iff.mpr fun hu => nomatch (h.unbound hu).2.1
  have hbody : Body (vs ++ [⟨.gt, false, false⟩] ++ us ++ ws)
      (withoutName ⟨name, text, apps, some e, sink, false⟩) := .row (.some hch rfl) hr hk hopen
  simpa using hbody

theorem body_of_bridge {s : Stream} {e t : Endpoint} {vs us : List View} (hs : s.source = some e)
    (ht : s.sink = some t) (hb : s.isBridge = true) (h : s.IsWritable)
    (hch : SpellsChannel true vs e.channel) (hk : SpellsChannel false us t.channel) :
    Body (vs ++ ⟨.gt, false, false⟩ :: us) s.withoutName := by
  obtain ⟨name, text, apps, source, sink, unbound⟩ := s
  obtain rfl : source = some e := hs
  obtain rfl : sink = some t := ht
  obtain rfl : unbound = false := Bool.eq_false_iff.mpr fun hu => nomatch (h.unbound hu).2.1
  have hbody := @Body.bridge ⟨.gt, false, false⟩ _ _ _ _ hch rfl hk
  match apps, hb with
  | [⟨label, name, arguments, _, _⟩], hb =>
    simp only [isBridge, Bool.and_eq_true, App.isBridge, Option.isNone_iff_eq_none, beq_iff_eq,
      List.isEmpty_iff] at hb
    obtain ⟨-, ⟨rfl, rfl⟩, rfl⟩ := hb
    exact hbody

theorem prints_renderBody {s : Stream} (h : s.IsWritable) :
    Prints s.renderBody.toList [] fun vs => Body vs s.withoutName := by
  cases hs : s.source with
  | none =>
    rw [renderBody_of_no_source hs]
    exact (prints_renderRow h).imp fun _ hv => body_of_no_source h hs hv
  | some e =>
    cases hb : s.isBridge with
    | false =>
      rw [renderBody_of_source hs hb]
      exact prints_source (h.source e hs) (prints_renderRow h) (body_of_source h hs)
    | true =>
      obtain ⟨t, ht⟩ : ∃ t, s.sink = some t := by
        cases hk : s.sink with
        | none => simp [isBridge, hk] at hb
        | some t => exact ⟨t, rfl⟩
      have htext : s.renderBody = e.channel.render ++ " > " ++ t.channel.render := by
        simp [renderBody, hs, ht, hb]
      rw [htext]
      exact prints_source (h.source e hs) (prints_channel (h.sink t ht) (by simp))
        (body_of_bridge hs ht hb h)

/-! ## Reading what is printed -/

theorem isWord_of_isLegalName {n : String} (h : Text.isLegalName n = true) : isWord n = true := by
  have starts : ∀ {c}, Text.startsLegalName c = true → Text.startsName c = true := fun h => by
    simp only [Text.startsLegalName, Text.startsName, Bool.or_eq_true] at h ⊢
    exact h.imp_left (·.imp_left Text.isAlphanumeric_of_isLetterOrNumber)
  unfold Text.isLegalName at h
  unfold isWord isNameWord
  generalize n.toList = text at h ⊢
  cases text with
  | nil => cases h
  | cons c cs =>
    simp only [Bool.and_eq_true, List.all_eq_true, Bool.or_eq_true] at h ⊢
    exact ⟨starts h.1, fun d hd => (h.2 d hd).imp_left starts⟩

theorem prints_render {s : Stream} (h : s.IsWritable) :
    Prints s.render.toList [] fun vs => Spells vs s.withoutPositions := by
  have hbody := prints_renderBody h
  cases hn : s.name with
  | none =>
    have hname : s.withoutName = s.withoutPositions := by simp [withoutName, withoutPositions, hn]
    rw [hname] at hbody
    rw [render, hn, renderName, String.empty_append]
    exact hbody.imp fun _ => .unnamed
  | some n =>
    obtain ⟨k, vs, hG, hl⟩ := hbody
    have hname : ({ s.withoutName with name := some n } : Stream) = s.withoutPositions := by
      simp [withoutName, withoutPositions, hn]
    have hw := isWord_of_isLegalName (h.name n hn)
    refine ⟨.ofName n.toList, ⟨.equals, false, false⟩ :: ⟨k, false, false⟩ :: vs, fun g b => ?_,
      fun e gap hg he => ?_⟩
    · have hs := @Spells.named ⟨.ofName n.toList, g, b⟩ ⟨.equals, false, false⟩ _ _
        (Kind.isName_ofName _) rfl (hG false false)
      rwa [Kind.symbol_ofName, String.ofList_toList, hname] at hs
    · have hbody := hl true [' '] rfl (by simp)
      have := (lexes_name_equals hw hg he).trans hbody
      simpa [render, renderName, hn] using this

/-- Every stream that can be written is read back from its printed text. -/
theorem parse_of_isWritable {s : Stream} (h : s.IsWritable) :
    ∃ m, parse s.render = .ok m ∧ m.withoutPositions = s.withoutPositions := by
  obtain ⟨k, vs, hG, hl⟩ := prints_render h
  have hlex := lexesAll_of_lexes (hl false [] rfl (by simp))
  rw [List.nil_append, List.append_nil] at hlex
  obtain ⟨m, hm, hs⟩ := @parseNamed_of_spells none s.render _ _ (⟨k, false, false⟩ :: vs) _ hlex rfl
    (hG false false) (by simpa [withoutPositions] using h.name)
    (by rw [labelNames_withoutPositions]; exact h.distinct)
  exact ⟨m, hm, by simpa using hs⟩

theorem sameShape_of_isWritable {s : Stream} (h : s.IsWritable) :
    ∃ m, parse s.render = .ok m ∧ m.sameShape s = true := by
  obtain ⟨m, hm, hs⟩ := parse_of_isWritable h
  exact ⟨m, hm, by simpa [sameShape] using hs⟩

/-- A named stream from a tap to a destination, with a value that has to be quoted. -/
theorem sameShape_tapped : ∃ s : Stream, s.IsWritable ∧
    s.render = "n = :s*#.b/c > a: time --x.y='it''s | \x00' | log > :$-.y.z" ∧
      ∃ m, parse s.render = .ok m ∧ m.sameShape s = true := by
  have part : ∀ s, isWord s = true → IsComponentText s := fun s h =>
    ⟨[s], by simp, by simpa using .inl h, by simp⟩
  have h : IsWritable ⟨some "n", "",
      [⟨some ⟨"a", 0, 0⟩, "time", [⟨"x.y", "it's | \x00", 0, 0⟩], 0, 0⟩, ⟨none, "log", [], 0, 0⟩],
      some ⟨.tap "s*#" (some "b/c"), 0, 0, 0⟩, some ⟨.destination "$-.y.z", 0, 0, 0⟩, false⟩ := by
    refine ⟨by decide +kernel, ?_, by simp, by decide, by simp, ?_, ?_, by simp; decide⟩
    · simp only [List.forall_mem_cons, List.not_mem_nil, false_implies, implies_true, and_true]
      refine ⟨⟨by decide +kernel, by decide +kernel, ?_, by decide⟩,
        ⟨by simp, by decide +kernel, by simp, by decide⟩⟩
      simpa using ⟨['x'], [['y']], by decide +kernel, by simpa using by decide +kernel, rfl⟩
    · rintro e ⟨⟩
      refine .labelledTap rfl ⟨["s", "*", "#"], by simp, ?_, rfl⟩ ⟨["b", "/", "c"], by simp, ?_, rfl⟩
      · simp only [List.forall_mem_cons, List.not_mem_nil, false_implies, implies_true, and_true]
        exact ⟨.inl (by decide +kernel), .inr (.inl rfl), .inr (.inr (.inr rfl))⟩
      · simp only [List.forall_mem_cons, List.not_mem_nil, false_implies, implies_true, and_true]
        exact ⟨.inl (by decide +kernel), .inr (.inr (.inl rfl)), .inl (by decide +kernel)⟩
    · rintro e ⟨⟩
      refine @Writable.destination false "$-" ["y", "z"] ?_ (by simp)
      simp only [List.forall_mem_cons, List.not_mem_nil, false_implies, implies_true, and_true]
      exact ⟨part _ (by decide +kernel), part _ (by decide +kernel), part _ (by decide +kernel)⟩
  exact ⟨_, h, by decide +kernel, sameShape_of_isWritable h⟩

end Pipework.Stream
