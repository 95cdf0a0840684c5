import Pipework.Proofs.Argument.Unfinished
import Pipework.Proofs.Stream.Refusing
import Pipework.Proofs.Token.Hyphen

/-! A stream whose last app goes on with an option that is not finished. The app is refused with the
option, and the stream with the app; or the text cannot be cut into tokens at all. -/

namespace Pipework.Stream

open Token Pipework.Parser Read

variable {c : Cursor}

/-! ## The last app -/

section

/-! `tail` is what stands behind the last app: an argument that is refused. -/

variable {tail : List Sight} {P : Fault → Prop}
  (hdashes : ∃ v ws, tail = v :: ws ∧ v.kind = .doubleMinus)
  (hargument : ∀ {c : Cursor}, c.sights = tail → ∃ f, Refuses Argument.argument? c f ∧ P f)

include hdashes hargument

theorem arguments_refuses {vs : List Sight} {as : List Argument} (h : Many Argument.Derives vs as)
    (hc : c.sights = vs ++ tail) : ∃ f, Refuses Argument.arguments c f ∧ P f := by
  obtain ⟨v, ws, htail, -⟩ := hdashes
  exact many_refuses Argument.repeats_argument? trivial (by simp [htail]) hargument h hc

theorem lastApp_refuses {vs : List Sight} {a : App} (h : a.Derives vs)
    (hc : c.sights = vs ++ tail) : ∃ f, Refuses app c f ∧ P f := by
  obtain @⟨us, ws, label, name, as, hn, ha⟩ := h
  rw [List.append_assoc] at hc
  have hfollow : ∃ v us, (ws ++ tail).map Sight.toView = v :: us ∧ v.kind ≠ .colon := by
    cases ha with
    | nil =>
      obtain ⟨v, ws, rfl, hv⟩ := hdashes
      exact ⟨v.toView, _, rfl, by simp [hv]⟩
    | cons hi _ =>
      obtain ⟨v, us, rfl, hv⟩ := hi.exists_dashes
      exact ⟨v.toView, _, rfl, by simp [hv]⟩
  obtain ⟨t, last, e, he, -, hpass⟩ := hn.reads hc hfollow
  obtain ⟨f, hf, hP⟩ := arguments_refuses hdashes hargument ha (hpass.left hc)
  exact ⟨f, he.refuses hf.bind, hP⟩

variable {separator : Kind} (hk : separator = .pipe ∨ separator = .doublePipe)

include hk

theorem lastSeparatedApp_refuses {vs : List Sight} {a : App}
    (h : Behind separator App.Derives vs a) (hc : c.sights = vs ++ tail) :
    ∃ f, Refuses (separatedApp separator) c f ∧ P f := by
  obtain @⟨v, vs, _, hv, ha⟩ := h
  have hkind : c.peek.kind = separator := (Cursor.peek_kind_of_sights hc).trans hv
  have hnext : c.next.2.sights = vs ++ tail :=
    (Cursor.next_passes hc (by rw [hv]; rcases hk with rfl | rfl <;> simp)).left hc
  obtain ⟨w, us, hw, hname⟩ := ha.spells.exists_name
  have hcolon : c.next.2.peek.kind ≠ .colon := by
    have hviews := Cursor.views_of_sights hnext
    rw [List.map_append, hw] at hviews
    rw [Cursor.peek_kind_of_views hviews]
    exact Kind.ne_of_isName hname rfl
  obtain ⟨f, hf, hP⟩ := lastApp_refuses hdashes hargument ha hnext
  have hseparates : (separator != .pipe && separator != .doublePipe) = false := by
    rcases hk with rfl | rfl <;> rfl
  unfold separatedApp
  refine Reads.exists_refuses (reads_peek.mpr ⟨rfl, rfl⟩) ?_
  simp only [hkind, hseparates, bne_self_eq_false, Bool.false_eq_true, if_false]
  refine Reads.exists_refuses (reads_next.mpr ⟨rfl, rfl⟩) ?_
  refine Reads.exists_refuses (reads_peek.mpr ⟨rfl, rfl⟩) ?_
  refine Reads.exists_refuses (reads_peekKind.mpr ⟨rfl, rfl⟩) ?_
  rw [beq_eq_false_iff_ne.mpr hcolon, if_neg (by simp)]
  exact ⟨f, hf.bind, hP⟩

theorem separatedApps_refuse {us ws : List Sight} {a : App} {as : List App} (ha : a.Derives us)
    (hm : Many (Behind separator App.Derives) ws as) (hc : c.sights = us ++ ws ++ tail) :
    ∃ f, Refuses Read.apps c f ∧ P f := by
  rcases List.eq_nil_or_concat as with rfl | ⟨init, b, rfl⟩
  · cases hm
    rw [List.append_nil] at hc
    obtain ⟨f, hf, hP⟩ := lastApp_refuses hdashes hargument ha hc
    exact ⟨f, hf.bind, hP⟩
  · rw [List.concat_eq_append] at hm
    obtain ⟨xs, ys, rfl, hinit, hlast⟩ := hm.exists_append
    cases hlast with
    | @cons ys _ _ _ hb hnil =>
      cases hnil
      rw [List.append_nil, List.append_assoc, List.append_assoc] at hc
      have htail : ∃ v vs, ys ++ tail = v :: vs ∧ v.kind = separator := by
        obtain ⟨hv, -⟩ := hb
        exact ⟨_, _, rfl, hv⟩
      exact apps_refuse_behind hk ha hinit htail hc
        fun hc => lastSeparatedApp_refuses hdashes hargument hk hb hc

omit hk in
/-- Apps in a row are refused with the last of them. -/
theorem row_refuses_last {us : List Sight} {as : List App} {unbound : Bool}
    (h : DerivesRow us as unbound) (hc : c.sights = us ++ tail) :
    ∃ f, Refuses Read.apps c f ∧ P f := by
  cases h with
  | bound ha hm => exact separatedApps_refuse hdashes hargument (.inl rfl) ha hm hc
  | apart ha hm _ => exact separatedApps_refuse hdashes hargument (.inr rfl) ha hm hc

end

/-! ## Texts -/

section

variable {u p : String} {s : Stream} (h : parse u = .ok s) (hsink : s.sink = none)
  (hu : Text.endsBlank u.toList = false)

theorem toList_dashes : (u ++ " --" ++ p).toList = u.toList ++ ' ' :: '-' :: '-' :: p.toList := by
  simp

/-- Two dashes behind white space. -/
theorem cut_dashes (e : Bool) (cs : List Char) :
    cut e (' ' :: '-' :: '-' :: cs) = some (⟨.doubleMinus, false, false⟩, cs) :=
  @cut_of_scan e [' '] ('-' :: '-' :: cs) ⟨.doubleMinus, ['-', '-'], cs⟩ rfl rfl (by simp; decide)
    (by simp)

theorem lexes_dashes {e e' : Bool} {cs rest : List Char} {us : List View}
    (h : Lexes false cs us e' rest) :
    Lexes e (' ' :: '-' :: '-' :: cs) (⟨.doubleMinus, false, false⟩ :: us) e' rest :=
  .cons (cut_dashes e cs) (by simp) h

/-- The dashes and what there is of a name are no argument. -/
theorem option_refuses {parts : List View} (hall : ∀ v ∈ parts, IsPartOfName v) {c : Cursor}
    (hc : c.views = ⟨.doubleMinus, false, false⟩ :: (parts ++ [⟨.eof, true, false⟩])) :
    ∃ f, Refuses Argument.argument? c f ∧ Argument.IsUnexpected f := by
  have hk : c.peek.kind = .doubleMinus := Cursor.peek_kind_of_views hc
  have hnext : c.next.2.views = parts ++ [⟨.eof, true, false⟩] := by
    rw [Cursor.views_eq_cons (by simp [hk])] at hc
    exact (List.cons.inj hc).2
  exact Argument.argument?_refuses hk (Cursor.adjacent_of_views hc)
    ⟨parts, hnext, fun v hv => ⟨(hall v hv).glued, (hall v hv).ne_equals⟩⟩

include h hu

/-- A hyphen that is no token, behind what there is of an option, keeps the text from being cut. -/
theorem parse_hyphen {parts : List View} {rest : List Char}
    (hparts : Lexes false p.toList parts false rest) (hrest : StartsHyphen rest) :
    ∃ f, parse (u ++ " --" ++ p) = .error f ∧ f.message = .missingCharacter := by
  obtain ⟨us, e, -, -, hlex⟩ := exists_spells_of_parse h
  have hlex := (hlex _ (onset_of_blank (c := ' ') (by decide) _)).trans (lexes_dashes hparts)
  rw [trimEnd_eq_self hu, ← toList_dashes] at hlex
  obtain ⟨m, hm, hmessage⟩ := scan_hyphen hrest
  obtain ⟨cs, rfl, -⟩ := hrest
  obtain ⟨f, hf, hfm⟩ := tokenize_error_of_lexes hlex rfl hm
  exact ⟨f, parse_eq_error_of_tokenize hf, hfm.trans hmessage⟩

include hsink

theorem parse_option {parts : List View} (hparts : Lexes false p.toList parts false [])
    (hall : ∀ v ∈ parts, IsPartOfName v) :
    ∃ f, parse (u ++ " --" ++ p) = .error f ∧ Argument.IsUnexpected f := by
  have hends : ∀ v ∈ (⟨.doubleMinus, false, false⟩ : View) :: parts, endsApp v.kind = false :=
    List.forall_mem_cons.mpr ⟨rfl, fun v hv => endsApp_of_isInArgument (hall v hv).inArgument⟩
  have hbehind : IsBehind ((⟨.doubleMinus, false, false⟩ :: parts) ++ [⟨.eof, true, false⟩]) :=
    ⟨by simp, by simp, gtAhead_append hends⟩
  have hnext : (u ++ " --" ++ p).toList =
      Text.trimEnd u.toList ++ ' ' :: '-' :: '-' :: p.toList := by
    rw [trimEnd_eq_self hu, toList_dashes]
  refine parse_refused h hsink (onset_of_blank (c := ' ') (by decide) _)
    (fun e => ⟨false, lexes_dashes hparts⟩) hnext hbehind ?_
  intro us tail as stop c hrow htail hstop hstart hc
  obtain ⟨dashes, ws, rfl, hdashes, -⟩ := List.map_eq_cons_iff.mp htail
  refine row_refuses_last ⟨dashes, ws ++ [stop], rfl, congrArg View.kind hdashes⟩
    (fun hc => option_refuses hall ?_) hrow hc
  rw [Cursor.views_of_sights hc, ← List.cons_append, List.map_append, htail, List.map_singleton,
    hstop, List.cons_append]

/-- An option that is begun behind an open stream is refused: for a hyphen that is no token, or for
the want of a name, of `=` or of a value. -/
theorem parse_unfinished (hp : p.toList.all isPlainOptionChar = true) :
    ∃ f, parse (u ++ " --" ++ p) = .error f ∧
      (f.message = .missingCharacter ∨ Argument.IsUnexpected f) := by
  obtain ⟨parts, rest, hparts, hall, rfl | hhyphen⟩ := exists_lexes_of_plain hp
  · obtain ⟨f, hf, hunexpected⟩ := parse_option h hsink hu hparts hall
    exact ⟨f, hf, .inr hunexpected⟩
  · obtain ⟨f, hf, hmessage⟩ := parse_hyphen h hu hparts hhyphen
    exact ⟨f, hf, .inl hmessage⟩

end

end Pipework.Stream
