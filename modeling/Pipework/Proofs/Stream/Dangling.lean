import Pipework.Proofs.Stream.Refusing

/-! A stream that goes on with a pipe and ends there is refused at the end of its text, for want of
the name of an app. -/

namespace Pipework.Stream

open Token Pipework.Parser Read

variable {c : Cursor}

/-- The fault of a missing app name at an offset. -/
structure LacksApp (offset : Nat) (f : Fault) : Prop where
  message : f.message = .expectedAppname
  offset : f.offset = offset

/-! ## Apps -/

theorem app_refuses (h : c.peek.isName = false) : ∃ f, Refuses app c f ∧ LacksApp c.peek.start f := by
  have hname : Refuses appName c (c.fault c.peek.start .expectedAppname [c.peek.text]) :=
    Reads.refuses (reads_peek.mpr ⟨rfl, rfl⟩) (by simp [Refuses, h, refuseHere])
  exact ⟨_, hname.bind.bind, rfl, rfl⟩

section

/-! `pipe` and `stop` are the last two tokens of the text. -/

variable {pipe stop : Sight} (hp : pipe.kind = .pipe) (hs : stop.kind = .eof)

include hp hs

theorem separatedApp_refuses (hc : c.sights = [pipe, stop]) :
    ∃ f, Refuses (separatedApp .pipe) c f ∧ LacksApp stop.start f := by
  have hk : c.peek.kind = .pipe := (Cursor.peek_kind_of_sights hc).trans hp
  have hnext := (Cursor.next_passes hc (by simp [hp])).left hc
  have hstop : c.next.2.peek.kind = .eof := (Cursor.peek_kind_of_sights hnext).trans hs
  obtain ⟨f, hf, hlacks⟩ := @app_refuses c.next.2 (by simp [Token.isName, hstop, Kind.isName])
  rw [Cursor.start_of_sights hnext] at hlacks
  refine ⟨f, ?_, hlacks⟩
  unfold separatedApp
  refine Reads.refuses (reads_peek.mpr ⟨rfl, rfl⟩) ?_
  simp only [hk, bne_self_eq_false, Bool.false_and, Bool.false_eq_true, if_false]
  refine Reads.refuses (reads_next.mpr ⟨rfl, rfl⟩) (Reads.refuses (reads_peek.mpr ⟨rfl, rfl⟩)
    (Reads.refuses (reads_peekKind.mpr ⟨rfl, rfl⟩) ?_))
  rw [hstop, if_neg (by decide)]
  exact hf.bind

theorem apps_refuses {us : List Sight} {as : List App} (h : DerivesRow us as false)
    (hc : c.sights = us ++ [pipe, stop]) : ∃ f, Refuses Read.apps c f ∧ LacksApp stop.start f := by
  cases h with
  | bound ha hm =>
    rw [List.append_assoc] at hc
    exact apps_refuse_behind (.inl rfl) ha hm ⟨pipe, [stop], rfl, hp⟩ hc
      fun hc => separatedApp_refuses hp hs hc

end

/-! ## Texts -/

variable {text : String} {s : Stream}

/-- A text that is an open stream and goes on with a pipe lacks an app at its end. -/
theorem parse_dangling (h : parse text = .ok s) (hsink : s.sink = none) (hbound : s.unbound = false)
    {next : String} {gap : List Char} (hg : gap.all Text.isBlank = true) (hne : gap ≠ [])
    (hnext : next.toList = Text.trimEnd text.toList ++ (gap ++ ['|'])) :
    ∃ f, parse next = .error f ∧ LacksApp next.utf8ByteSize f := by
  have hpipe : ∀ e, cut e (gap ++ ['|']) = some (⟨.pipe, gap.isEmpty, gap.contains '\n'⟩, []) :=
    fun e => cut_of_scan (scan_pipe (by simp)) hg (by simp; decide) fun _ => hne
  refine parse_refused h hsink (onset_of_gap hg hne _)
    (fun e => ⟨false, .cons (hpipe e) (by simp) .nil⟩) hnext ?_ ?_
  · exact ⟨by simp, by simp, by simp [gtAhead, endsApp]⟩
  · intro us tail as stop c hrow htail hstop hstart hc
    obtain ⟨pipe, _, rfl, hp, hnil⟩ := List.map_eq_cons_iff.mp htail
    obtain rfl := List.map_eq_nil_iff.mp hnil
    rw [hbound] at hrow
    rw [← hstart]
    exact apps_refuses (congrArg View.kind hp) (congrArg View.kind hstop) hrow hc

end Pipework.Stream
