import Pipework.Proofs.Stream.Refusing

/-! A text that is a tap and nothing more is refused. The short form is taken for the source of a
stream, so the `>` behind it is missing; of the long form, the keyword is taken for a label. -/

namespace Pipework.Stream

open Token Pipework.Parser Read

variable {c : Cursor}

/-! ## The short form -/

/-- A channel at the end of the text is no source. -/
theorem source_refuses {vs : List Sight} {p : Placed} {stop : Sight} (h : DerivesChannel true vs p)
    (hcolon : c.peek.kind = .colon) (hstop : stop.kind = .eof) (hc : c.sights = vs ++ [stop]) :
    ∃ f, Refuses source? c f ∧ f.message = .outOfData := by
  have hends : EndsChannel ([stop].map Sight.toView) := .inr hstop
  obtain ⟨d, hd, hpass⟩ := h.reads hends hc
  have hkind : d.peek.kind = .eof := (Cursor.peek_kind_of_sights (hpass.left hc)).trans hstop
  have hgt : Refuses (eat .gt) d (d.unexpected ">") := by
    simp [Refuses, eat, Cursor.eat_eq, Cursor.peekIs, hkind, Kind.symbol]
  refine ⟨d.unexpected ">", ?_, by simp [Cursor.unexpected, hkind, Cursor.fault]⟩
  have hstarts : Reads startsSource c true c := by simp [startsSource, hcolon]
  exact hstarts.refuses (hd.refuses hgt.bind)

theorem tap_refuses {colon name stop : Sight} (hcolon : colon.kind = .colon)
    (hname : name.kind.isName = true) (hglued : name.glued = true) (hstop : stop.kind = .eof)
    (hc : c.sights = [colon, name] ++ [stop]) : ∃ f, Refuses body c f ∧ f.message = .outOfData := by
  have hpeek : c.peek.kind = .colon := (Cursor.peek_kind_of_sights hc).trans hcolon
  have hspells : SpellsChannel true ([colon, name].map Sight.toView)
      (channelOf true [name.kind.symbol]) := by
    have hcomponent : isComponent name.kind = true := by
      cases hk : name.kind <;> simp [hk, Kind.isName, isComponent] at hname ⊢
    have hfirst : Component [name.toView] name.kind.symbol := by
      simpa using @Component.mk name.toView [] [] hcomponent .nil
    simpa using @SpellsChannel.destination true colon.toView name.toView [] [] _ [] hcolon hglued
      hfirst .nil
  have hderives : DerivesChannel true [colon, name]
      (channelOf true [name.kind.symbol], startOf [colon, name], stopOf [colon, name]) :=
    ⟨hspells, rfl, rfl⟩
  obtain ⟨f, hf, hmessage⟩ := source_refuses hderives hpeek hstop hc
  have hnone : Reads inlineName c none c := by
    refine reads_inlineName.mpr (.inr ⟨?_, rfl, rfl⟩)
    simp [Token.isName, hpeek, Kind.isName]
  exact ⟨f, hnone.refuses hf.bind, hmessage⟩

theorem parse_tap {p : String} (hp : isWord p = true) :
    ∃ f, parse (":" ++ p) = .error f ∧ f.message = .outOfData := by
  have hlex : Lexes false (":" ++ p).toList [⟨.colon, true, false⟩, ⟨.ofName p.toList, true, false⟩]
      false [] := by
    have hcolon := @lexes_glued_operator p.toList ':' .colon rfl (by simp) (by simp)
    have hname := @lexes_glued_name [] p.toList hp trivial
    rw [List.append_nil] at hname
    rw [String.toList_append]
    exact hcolon.trans hname
  obtain ⟨ts, vs, stop, hts, hc, hvs, hstop⟩ := exists_sights_of_lexes hlex (by simp)
  simp only [unglued, List.map_eq_cons_iff, List.map_eq_nil_iff] at hvs
  obtain ⟨colon, _, rfl, hcolon, name, _, rfl, hname, rfl⟩ := hvs
  have hn : name.kind.isName = true := by
    rw [show name.kind = Kind.ofName p.toList from congrArg View.kind hname, Kind.isName_ofName]
  obtain ⟨f, hf, hmessage⟩ := tap_refuses (congrArg View.kind hcolon) hn
    (congrArg View.glued hname) (congrArg View.kind hstop) hc
  exact ⟨f, parse_eq_error hts hf.bind, hmessage⟩

/-! ## The long form -/

/-- White space has to stand behind a label. -/
theorem label_refuses {word colon name : Sight} {rest : List Sight} (hword : word.kind.isName = true)
    (hcolon : colon.kind = .colon) (hglued : colon.glued = true) (hne : name.kind ≠ .eof)
    (hglued' : name.glued = true) (hc : c.sights = word :: colon :: name :: rest) :
    ∃ f, Refuses Read.apps c f ∧ f.message = .expectedWhitespaceAfterLabelColon := by
  have hp₁ := Cursor.next_passes hc (Kind.ne_eof_of_isName hword)
  have h₁ := hp₁.left hc
  have h₂ := (Cursor.next_passes h₁ (by simp [hcolon])).left h₁
  have hname : Reads appName c c.peek c.next.2 :=
    reads_appName.mpr ⟨by rw [Cursor.isName_of_sights hc, hword], rfl, rfl⟩
  have hlabel : Reads endsLabel c.next.2 true c.next.2 := by
    refine reads_endsLabel.mpr ⟨?_, rfl⟩
    rw [Cursor.peek_kind_of_sights h₁, Cursor.adjacent_of_sights h₁, hcolon, hglued]
    rfl
  have hmore : c.next.2.next.2.hasNext = true := by
    rw [Cursor.hasNext, Cursor.peek_kind_of_sights h₂]
    simpa using hne
  have hadjacent : c.next.2.next.2.adjacent = true := by
    rw [Cursor.adjacent_of_sights h₂, hglued']
  refine ⟨c.next.2.next.2.fault c.next.2.next.2.peek.start .expectedWhitespaceAfterLabelColon [],
    ?_, rfl⟩
  refine Refuses.bind (Refuses.bind (hname.refuses (hlabel.refuses ?_)))
  refine Reads.refuses (reads_next.mpr ⟨rfl, rfl⟩) ?_
  refine Reads.refuses (reads_hasNext.mpr ⟨rfl, rfl⟩) ?_
  refine Reads.refuses (reads_adjacent.mpr ⟨rfl, rfl⟩) ?_
  rw [hmore, hadjacent]
  rfl

/-- Without a `>`, a keyword at the start of a text is read as a label. -/
theorem keyword_refuses {word colon name : Sight} {rest : List Sight}
    (hword : word.kind.isName = true) (hcolon : colon.kind = .colon) (hglued : colon.glued = true)
    (hname : name.kind.isName = true) (hglued' : name.glued = true)
    (hgt : gtAhead (rest.map Sight.toView) = false) (hc : c.sights = word :: colon :: name :: rest) :
    ∃ f, Refuses body c f ∧ f.message = .expectedWhitespaceAfterLabelColon := by
  have hpeek : c.peek.kind ≠ .colon := by
    rw [Cursor.peek_kind_of_sights hc]
    exact Kind.ne_of_isName hword rfl
  have hahead : gtAhead c.views = false := by
    rw [Cursor.views_of_sights hc]
    simp [gtAhead, endsApp_of_isName hword, endsApp_of_isName hname, hcolon, hgt,
      show endsApp .colon = false from rfl]
  have hnone : Reads inlineName c none c := by
    refine reads_inlineName.mpr (.inr ⟨fun hn => ?_, rfl, rfl⟩)
    have hsecond := (Cursor.second_kind_of_sights hc).symm.trans hn.2
    simp [hcolon] at hsecond
  have hsource : Reads source? c none c := no_source_reads hpeek fun _ => hahead
  obtain ⟨f, hf, hmessage⟩ := label_refuses (c := c.checkpoint) hword hcolon hglued
    (Kind.ne_eof_of_isName hname) hglued' hc
  have happs : Refuses (appsAndSink none) c.checkpoint f :=
    Reads.refuses (reads_startsChannel.mpr ⟨rfl, rfl⟩) hf.bind
  exact ⟨f, hnone.refuses (hsource.refuses
    (Reads.refuses (a := ()) (reads_checkpoint.mpr rfl) happs.bind)), hmessage⟩

/-- The lead of the long form. -/
theorem lexes_longTap {rest : List Char} : Lexes false ("tap:stream:".toList ++ rest)
    [⟨.identifier "tap", true, false⟩, ⟨.colon, true, false⟩, ⟨.identifier "stream", true, false⟩,
      ⟨.colon, true, false⟩] false rest := by
  have hstop : ∀ {name cs}, StopsName name (':' :: cs) :=
    stopsName_of_ne (by decide) (by decide) (by decide)
  have hcolon : ∀ cs, Lexes false (':' :: cs) [⟨.colon, true, false⟩] false cs :=
    fun cs => lexes_glued_operator ':' rfl (by simp) (by simp)
  have htap := @lexes_glued_name (':' :: ("stream:".toList ++ rest)) "tap".toList rfl hstop
  have hstream := @lexes_glued_name (':' :: rest) "stream".toList rfl hstop
  exact (htap.trans (hcolon _)).trans (hstream.trans (hcolon _))

theorem parse_longTap {p : String} (hp : p = "" ∨ isWord p = true) :
    ∃ f, parse ("tap:stream:" ++ p) = .error f ∧
      f.message = .expectedWhitespaceAfterLabelColon := by
  obtain ⟨us, hlex, hus⟩ : ∃ us, Lexes false p.toList us false [] ∧
      ∀ v ∈ us, endsApp v.kind = false := by
    rcases hp with rfl | hp
    · exact ⟨[], .nil, by simp⟩
    · have hname := @lexes_glued_name [] p.toList hp trivial
      rw [List.append_nil] at hname
      exact ⟨_, hname, by simp [endsApp_of_isName (Kind.isName_ofName _)]⟩
  have hall := lexes_longTap.trans hlex
  rw [← String.toList_append] at hall
  obtain ⟨ts, vs, stop, hts, hc, hvs, hstop⟩ := exists_sights_of_lexes hall (by simp)
  simp only [unglued, List.cons_append, List.nil_append, List.map_eq_cons_iff] at hvs
  obtain ⟨word, _, rfl, hword, colon, _, rfl, hcolon, name, _, rfl, hname, colon', vs, rfl, hcolon',
    hvs⟩ := hvs
  have hgt : gtAhead ((colon' :: vs ++ [stop]).map Sight.toView) = false := by
    have hends : ∀ v ∈ colon'.toView :: us, endsApp v.kind = false :=
      List.forall_mem_cons.mpr ⟨by rw [hcolon']; rfl, hus⟩
    rw [List.map_append, List.map_cons, hvs, gtAhead_append hends]
    exact gtAhead_of_eof ⟨stop.toView, [], rfl, congrArg View.kind hstop⟩
  obtain ⟨f, hf, hmessage⟩ := keyword_refuses (hword ▸ rfl) (congrArg View.kind hcolon)
    (congrArg View.glued hcolon) (hname ▸ rfl) (congrArg View.glued hname) hgt hc
  exact ⟨f, parse_eq_error hts hf.bind, hmessage⟩

end Pipework.Stream
