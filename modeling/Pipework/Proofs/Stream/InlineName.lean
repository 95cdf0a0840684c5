import Pipework.Proofs.Layout
import Pipework.Proofs.Stream.Extension
import Pipework.Proofs.Token.Breaking

/-! A stream can be given its name in its text, before a `=`, or along with its text. Behind the `=`
and a space the text is cut as it is by itself, and the parser goes on as it does with a name that is
given along. -/

namespace Pipework.Stream

open Token Pipework.Parser Read

/-! ## The name in the text -/

section

variable {c d : Cursor} {n : String}

/-- The body of a stream without its name. -/
def nameless : Parser Stream := do
  let source ← source?
  checkpoint
  let (apps, unbound, sink) ← appsAndSink source
  requireBound unbound source sink
  if ← hasNext then refuseHere .moreInput [(← get).remainingText]
  return { name := none, text := (← get).expression, apps, source, sink, unbound }

/-- The name of a stream plays no part in how its body is read. -/
theorem body_eq : body = do
    let name ← inlineName
    let s ← nameless
    return { s with name } := by
  simp only [body, nameless, bind_assoc]
  refine bind_congr fun name => bind_congr fun source => bind_congr fun _ => bind_congr fun r => ?_
  obtain ⟨apps, unbound, sink⟩ := r
  refine bind_congr fun _ => bind_congr fun more => ?_
  cases more <;> simp

theorem definition_eq {name given : Option String} (h : Reads inlineName c name d) :
    definition given c = (do
      let s ← nameless
      requireLegalName (name <|> given)
      requireUniqueLabels { s with name := name <|> given }
      return { s with name := name <|> given }) d := by
  have hbind : ∀ {α} (k : Option String → Parser α), (inlineName >>= k) c = k name d := by
    intro α k
    simp only [bind, StateT.bind, show inlineName c = .ok (name, d) from h, Except.bind]
  simp only [definition, body_eq, bind_assoc, hbind, pure_bind]

/-- A name that is read in the text serves like one that is given along with what is behind it. -/
theorem definition_named (h : Reads inlineName c (some n) d) (hd : Reads inlineName d none d) :
    definition none c = definition (some n) d := by
  rw [definition_eq h, definition_eq hd]
  rfl

end

/-! ## The text behind the name -/

/-- The first token is a name, and the second one is `=`. -/
def startsNamed : List Token → Bool
  | name :: equals :: _ => name.isName && equals.kind == .equals
  | _ => false

variable {n text : String} {ts : List Token}

theorem toList_named (n text : String) :
    (n ++ " = " ++ text).toList = n.toList ++ ' ' :: '=' :: ' ' :: text.toList := by
  simp

theorem lexes_named (hn : Text.isLegalName n = true) (cs : List Char) :
    Lexes false (n.toList ++ ' ' :: '=' :: cs)
      [⟨.ofName n.toList, true, false⟩, ⟨.equals, false, false⟩] true cs :=
  @lexes_name_equals false [] cs _ (isWord_of_isLegalName hn) rfl (by simp)

/-- A text that is misread is so behind a name too. -/
theorem tokenize_named_error (hn : Text.isLegalName n = true) {f : Fault}
    (h : tokenize text = .error f) :
    ∃ g, tokenize (n ++ " = " ++ text) = .error g ∧ g.message = f.message := by
  obtain ⟨us, e, rest, hlex, hmisread⟩ := (exists_fault_iff.mp ⟨f, h, rfl⟩).behind_space
  have hall := (lexes_named hn _).trans hlex
  rw [← toList_named] at hall
  exact exists_fault_iff.mpr ⟨_, e, rest, hall, hmisread⟩

/-- Behind a name in the text, the parser sees the tokens that it sees of the text alone. -/
theorem exists_behind_name (hn : Text.isLegalName n = true) (hts : tokenize text = .ok ts) :
    ∃ us d, tokenize (n ++ " = " ++ text) = .ok us ∧
      Reads inlineName (.ofTokens (n ++ " = " ++ text) us) (some n) d ∧
      d.seen false = (Cursor.ofTokens text ts).seen false := by
  obtain ⟨_ | ⟨v, vs⟩, hvs, hviews⟩ := lexesAll_of_tokenize hts
  · cases hvs
  have hall := (lexes_named hn _).all_iff.mpr ⟨_, rfl, hvs.behind_space⟩
  rw [← toList_named] at hall
  obtain ⟨us, hus, hu⟩ := tokenize_of_lexesAll hall
  have hc := (Cursor.sights_views _).trans ((views_ofTokens hus).trans hu)
  obtain ⟨name, _, hc, hname, hrest⟩ := List.map_eq_cons_iff.mp hc
  obtain ⟨equals, rest, rfl, hequals, hrest⟩ := List.map_eq_cons_iff.mp hrest
  have hkind : name.kind = .ofName n.toList := congrArg View.kind hname
  obtain ⟨d, hd, hp⟩ := inlineName_reads (hkind ▸ Kind.isName_ofName _)
    (congrArg View.kind hequals) hc
  rw [hkind, Kind.symbol_ofName, String.ofList_toList] at hd
  refine ⟨us, d, hus, hd, ?_⟩
  rw [Cursor.seen, Cursor.views_of_sights (hp.left hc), hrest, Cursor.seen, views_ofTokens hts, hviews]
  rfl

/-- Where the tokens do not start with a name and `=`, no name is read. -/
theorem no_inlineName_of_tokens {c d : Cursor} (hno : startsNamed c.ahead = false)
    (hseen : d.seen false = c.seen false) : Reads inlineName d none d := by
  have hname : d.peek.isName = c.peek.isName := congrArg Kind.isName (Cursor.peek_kind_alike hseen)
  refine reads_inlineName.mpr (.inr ⟨?_, rfl, rfl⟩)
  rw [hname, Cursor.second_kind false, hseen, ← Cursor.second_kind]
  intro h
  obtain ⟨hname, hequals⟩ := h
  rcases c with ⟨source, behind, _ | ⟨t, _ | ⟨u, us⟩⟩, good⟩
  · cases hname
  · cases hequals
  · have ht : t.isName = true := hname
    have hu : u.kind = .equals := Option.some.inj hequals
    simp [startsNamed, ht, hu] at hno

/-- A stream with a legal name is read in the same way, or refused for the same reason, whether the
name is given along with the text or written in front of it. -/
theorem parseNamed_alike_inline (hn : Text.isLegalName n = true)
    (hno : ∀ ts, tokenize text = .ok ts → startsNamed ts = false) :
    SameOutcome sameShape (parseNamed (some n) text) (parse (n ++ " = " ++ text)) := by
  refine sameOutcome_of_shown (f := withoutPositions) (fun s t h => by simpa [sameShape] using h) ?_
  cases hts : tokenize text with
  | error f =>
    obtain ⟨g, hg, hmessage⟩ := tokenize_named_error hn hts
    rw [parse_eq_error_of_tokenize hg, parseNamed, hts]
    exact congrArg Except.error hmessage.symm
  | ok ts =>
    obtain ⟨us, d, hus, hname, hseen⟩ := exists_behind_name hn hts
    have hnone : Reads inlineName d none d :=
      no_inlineName_of_tokens (by rw [ahead_ofTokens hts, hno ts hts]) hseen
    have hrun : shownRun false withoutPositions (definition (some n)) (.ofTokens text ts) =
        shownRun false withoutPositions (definition none) (.ofTokens (n ++ " = " ++ text) us) := by
      rw [shownRun, shownRun, definition_named hname hnone]
      exact agree_definition false (some n) _ _ hseen.symm
    exact shown_of_runs hts hus hrun

/-- A tap, which is told by the first token of the text. -/
theorem parseNamed_alike_inline_tapped : Text.isLegalName "s-1" = true ∧
    (∀ ts, tokenize ":t.a > 2: log" = .ok ts → startsNamed ts = false) ∧
    SameOutcome sameShape (parseNamed (some "s-1") ":t.a > 2: log")
      (parse ("s-1" ++ " = " ++ ":t.a > 2: log")) ∧
    ((parse ("s-1" ++ " = " ++ ":t.a > 2: log")).toOption.map fun s => (s.name, s.labelNames)) =
      some (some "s-1", ["2"]) := by
  have hn : Text.isLegalName "s-1" = true := by decide +kernel
  have hno : ∀ ts ∈ (tokenize ":t.a > 2: log").toOption, startsNamed ts = false := by decide +kernel
  have hno : ∀ ts, tokenize ":t.a > 2: log" = .ok ts → startsNamed ts = false := fun ts hts =>
    hno ts (toOption_eq_some.mpr hts)
  exact ⟨hn, hno, parseNamed_alike_inline hn hno, by decide +kernel⟩

end Pipework.Stream
