import Pipework.Proofs.Parser.Holds
import Pipework.Proofs.Task.RoundTrip
import Pipework.Proofs.Token.Cutting
import Pipework.Proofs.Token.Misreading

/-! How far a task is good where it is refused. Within a sequence nothing more becomes good, and
behind each sequence the text is good to its end; so the text that is good is a task by itself, of
the sequences that were completed. -/

namespace Pipework

open Token Pipework.Parser

variable {n : Nat}

/-! ## Within a sequence -/

namespace Argument

theorem holds_dottedRest : Holds n dottedRest := by
  refine carries_peekKind.bind fun kind _ => .ite (holds_pure none) ?_
  refine holds_requireAdjacent.bind fun _ => holds_next.bind fun _ => holds_peek.bind fun _ => ?_
  refine (holds_unexpected _).guard <| holds_requireAdjacent.bind fun _ => ?_
  exact holds_next.bind fun _ => holds_pure _

theorem holds_dottedName : Holds n dottedName := by
  refine holds_peek.bind fun _ => (holds_unexpected _).guard <| holds_next.bind fun _ => ?_
  exact (holds_many holds_dottedRest).bind fun _ => holds_pure _

theorem holds_argument? : Holds n argument? := by
  refine holds_peek.bind fun dashes => .ite (holds_pure none) ?_
  refine carries_adjacent.bind fun _ _ => holds_refuseHere.guard <| holds_next.bind fun _ => ?_
  refine carries_hasNext.bind fun _ _ => holds_requireAdjacent.guard <| ?_
  refine holds_dottedName.bind fun _ => carries_peekKind.bind fun _ _ => ?_
  refine holds_requireAdjacent.guard <| (holds_eat _).bind fun _ => holds_peek.bind fun value => ?_
  split
  all_goals first
    | exact holds_refuseHere
    | exact holds_requireAdjacent.bind fun _ => holds_next.bind fun _ => holds_pure _

theorem holds_arguments : Holds n arguments := holds_many holds_argument?

end Argument

namespace Task

namespace Read

variable {appMode : Bool} {label : Option Label}

theorem holds_label? : Holds n label? := by
  refine holds_peek.bind fun _ => carries_secondKind.bind fun _ _ => .ite (holds_pure none) ?_
  refine holds_next.bind fun _ => holds_requireAdjacent.bind fun _ => holds_next.bind fun _ => ?_
  exact holds_pure _

theorem holds_appName : Holds n appName :=
  holds_peek.bind fun _ => .ite holds_next (.ite holds_refuseHere holds_refuseHere)

theorem holds_arguments : Holds n (arguments appMode) := by
  refine carries_peekKind.bind fun _ _ => .ite (holds_pure []) ?_
  exact holds_refuseHere.guard Argument.holds_arguments

theorem holds_plainApp : Holds n (plainApp appMode label) :=
  holds_appName.bind fun _ => holds_arguments.bind fun _ =>
    holds_previousStop.bind fun _ => holds_pure _

theorem holds_missingArrow (token : Token) : Holds n (condition?.missingArrow token) :=
  holds_get.bind fun _ => holds_refuse _

theorem holds_condition? : Holds n condition? := by
  refine holds_peek.bind fun token => carries_secondKind.bind fun _ _ => ?_
  split
  · exact holds_refuseHere
  · exact holds_pure _
  · exact holds_refuseHere.guard (holds_pure none)
  · exact .ite (holds_pure _) (holds_missingArrow token)
  · exact .ite (holds_pure _) (holds_missingArrow token)
  · exact holds_pure none

theorem holds_target : Holds n (target appMode) := by
  refine (holds_eatIf _).bind fun _ => .ite ?_ ?_
  · refine holds_peek.bind fun _ => (holds_unexpected _).guard ?_
    exact holds_next.bind fun _ => holds_pure _
  · exact holds_label?.bind fun _ => holds_plainApp.bind fun _ => holds_pure _

theorem holds_transition? : Holds n (transition? appMode) := by
  refine holds_peek.bind fun _ => holds_condition?.bind fun condition => ?_
  cases condition with
  | none => exact holds_pure none
  | some condition =>
    refine holds_next.bind fun _ => holds_next.bind fun _ => holds_target.bind fun _ => ?_
    exact holds_previousStop.bind fun _ => holds_pure _

theorem holds_app : Holds n (app appMode label) :=
  holds_plainApp.bind fun _ => (holds_many holds_transition?).bind fun _ => holds_pure _

theorem holds_elementLabel : Holds n elementLabel := by
  refine holds_label?.bind fun label => ?_
  cases label with
  | none => exact holds_pure none
  | some label =>
    have hlabel : Holds n (do
        if (← peekKind) == .lparen then refuse label.start .taskNoLabelsOnParens []
        return some label) :=
      carries_peekKind.bind fun _ _ => (holds_refuse _).guard (holds_pure _)
    refine holds_label?.bind fun second => ?_
    cases second with
    | some second => exact (holds_refuse second.start).bind fun _ => hlabel
    | none => exact hlabel

section

variable {inner : Parser Sequence} (hinner : Holds n inner)

include hinner

theorem holds_branch? : Holds n (branch? inner) :=
  (holds_eatIf _).bind fun _ => .ite (hinner.bind fun _ => holds_pure _) (holds_pure none)

theorem holds_split : Holds n (split inner label) := by
  refine (holds_eat _).bind fun _ => hinner.bind fun _ => ?_
  refine (holds_many (holds_branch? hinner)).bind fun _ => holds_peek.bind fun _ => ?_
  split
  · exact holds_next.bind fun _ => holds_pure _
  · exact holds_refuseHere
  · exact holds_refuseHere

theorem holds_elements : Holds n (elements appMode inner) := by
  refine (holds_eatIf _).bind fun _ => .ite ?_ ?_
  · exact hinner.bind fun _ => (holds_eat _).bind fun _ => holds_pure _
  · refine holds_elementLabel.bind fun _ => carries_peekKind.bind fun _ _ => .ite ?_ ?_
    · exact (holds_split hinner).bind fun _ => holds_pure _
    · exact holds_app.bind fun _ => holds_pure _

theorem holds_joinedElements? : Holds n (joinedElements? appMode inner) :=
  (holds_eatIf _).bind fun _ =>
    .ite ((holds_elements hinner).bind fun _ => holds_pure _) (holds_pure none)

theorem holds_sequenceWith : Holds n (sequenceWith appMode inner) :=
  holds_peek.bind fun _ => (holds_elements hinner).bind fun _ =>
    (holds_many (holds_joinedElements? hinner)).bind fun _ =>
      holds_previousStop.bind fun _ => holds_pure _

end

theorem holds_sequence (levels : Nat) : Holds n (sequence appMode levels) := by
  induction levels with
  | zero => exact holds_refuseHere
  | succ levels ih => exact holds_sequenceWith ih

theorem holds_requireLegalName {name : Option String} : Holds n (requireLegalName name) := by
  cases name with
  | none => exact holds_pure ()
  | some name => exact .ite (holds_pure ()) (holds_refuse _)

theorem holds_separator? : Holds n separator? := by
  refine carries_hasNext.bind fun _ _ => .ite (holds_pure false) ?_
  refine (holds_eatIf _).bind fun _ => .ite carries_hasNext <| holds_get.bind fun _ => ?_
  exact .ite (holds_pure true) <| holds_get.bind fun _ => holds_refuseHere

/-! ## From sequence to sequence -/

variable {name : Option String} {c d : Cursor} {f : Fault} {s : Sequence}

theorem checkpoint_of_topSequence (h : Refuses (topSequence appMode) c f) :
    f.checkpoint = some c.good := by
  rcases refuses_bind.mp h with h | ⟨_, _, _, h⟩
  · exact (holds_sequence maxDepth).refuses h
  · cases h

theorem checkpoint_of_nextSequence? (h : Refuses (nextSequence? appMode) c f) :
    f.checkpoint = some c.good := by
  rcases refuses_bind.mp h with h | ⟨found, e, he, h⟩
  · exact holds_separator?.refuses h
  · cases found with
    | false => cases h
    | true =>
      rcases refuses_bind.mp h with h | ⟨_, _, _, h⟩
      · rw [checkpoint_of_topSequence h, holds_separator?.reads he]
      · cases h

theorem good_of_topSequence (h : Reads (topSequence appMode) c s d) : d.good = d.previousStop := by
  obtain ⟨e, -, rfl⟩ := reads_topSequence.mp h
  rfl

theorem good_of_nextSequence? (h : Reads (nextSequence? appMode) c (some s) d) :
    d.good = d.previousStop := by
  obtain ⟨-, h⟩ | ⟨e, t, -, ht, -⟩ := reads_nextSequence?.mp h
  · cases h
  · exact good_of_topSequence ht

end Read

open Read

variable {name : Option String} {appMode : Bool} {c : Cursor} {f : Fault}

/-- The sequences that a run completes before it ends, be it with a fault. -/
def completed (name : Option String) (appMode : Bool) (c : Cursor) : List Sequence :=
  match (do requireLegalName name; topSequence appMode : Parser Sequence) c with
  | .ok (first, d) => first :: foundWithin (nextSequence? appMode) d.ahead.length d
  | .error _ => []

theorem completed_cons {first : Sequence} {d : Cursor}
    (hname : ∀ m ∈ name, Text.isLegalName m = true) (h : Reads (topSequence appMode) c first d) :
    completed name appMode c = first :: foundWithin (nextSequence? appMode) d.ahead.length d := by
  have hfirst : Reads (do requireLegalName name; topSequence appMode) c first d :=
    reads_bind.mpr ⟨(), c, reads_requireLegalName.mpr ⟨hname, rfl⟩, h⟩
  rw [completed, show _ = Except.ok (first, d) from hfirst]

/-- A run is refused before its first sequence is completed, or at a later one. -/
theorem refuses_definition (h : Refuses (definition name appMode) c f) :
    f.checkpoint = some c.good ∨ (∀ m ∈ name, Text.isLegalName m = true) ∧
      ∃ first d, Reads (topSequence appMode) c first d ∧
        Refuses (manyWithin (nextSequence? appMode) d.ahead.length) d f := by
  rcases refuses_bind.mp h with hname | ⟨_, _, hname, hsequences⟩
  · exact .inl (holds_requireLegalName.refuses hname)
  obtain ⟨hlegal, rfl⟩ := reads_requireLegalName.mp hname
  rcases refuses_bind.mp hsequences with hf | ⟨first, d, hf, hrest⟩
  · exact .inl (checkpoint_of_topSequence hf)
  refine .inr ⟨hlegal, first, d, hf, ?_⟩
  rcases refuses_bind.mp hrest with hmany | ⟨_, _, _, hend⟩
  · rcases refuses_bind.mp hmany with hg | ⟨_, _, hg, hmany⟩
    · cases hg
    · obtain ⟨rfl, rfl⟩ := reads_get.mp hg
      exact hmany
  · rcases refuses_bind.mp hend with hg | ⟨_, _, _, hpure⟩
    · cases hg
    · cases hpure

/-- Where a task is refused behind its start, the sequences that were completed make a task of the
tokens before, with which the good part of the text ends. -/
theorem completed_derives {n : Nat} (h : Refuses (definition name appMode) c f) (hgood : c.good = 0)
    (hn : f.checkpoint = some n) (hpos : 0 < n) : (∀ m ∈ name, Text.isLegalName m = true) ∧
      ∃ vs d, c.Passes vs d ∧ Derives appMode maxDepth vs (completed name appMode c) ∧
        n = stopOf vs := by
  obtain hstart | ⟨hlegal, first, e, hf, hmany⟩ := refuses_definition h
  · obtain rfl : n = 0 := by simpa [hn, hgood] using hstart
    exact absurd hpos (Nat.lt_irrefl 0)
  obtain ⟨us, hu, hs⟩ := derivesTop_of_reads hf
  obtain ⟨ws, d, hw, hm, hd, hrefused⟩ := found_of_refuses (DerivesNext appMode maxDepth)
    (fun d => d.good = d.previousStop)
    (fun hr => ⟨derivesNext_of_reads hr, good_of_nextSequence? hr⟩) (good_of_topSequence hf) hmany
  have hp := hu.trans hw
  refine ⟨hlegal, us ++ ws, d, hp, ?_, ?_⟩
  · rw [completed_cons hlegal hf, ← List.append_nil ws]
    exact .mk hs hm (.inl rfl)
  · rw [← hp.previousStop (by simp [hs.ne_nil]), ← hd]
    exact Option.some.inj (hn.symm.trans (checkpoint_of_nextSequence? hrefused))

/-! ## Texts -/

/-- The tokens that were passed are the first ones of the text, and `eof` is none of them. -/
theorem exists_front_of_passes {text : String} {ts : List Token} {vs : List Sight} {d : Cursor}
    (hts : tokenize text = .ok ts) (hp : (Cursor.ofTokens text ts).Passes vs d)
    (hvs : ∀ v ∈ vs, v.kind ≠ .eof) :
    ∃ front back, ts = front ++ back ∧ back ≠ [] ∧ sightsOf none front = vs := by
  obtain ⟨us, e, rfl, he, -⟩ := exists_eof_of_tokenize hts
  have hsights : sightsOf none (us ++ [e]) = vs ++ d.sights := by
    rw [← hp.sights, Cursor.sights, Cursor.ofTokens, terminated_eq ⟨e, by simp, he⟩]
    rfl
  have hfront : sightsOf none ((us ++ [e]).take vs.length) = vs := by
    rw [sightsOf_take, hsights, List.take_left]
  refine ⟨_, _, (List.take_append_drop vs.length _).symm, fun hback => ?_, hfront⟩
  rw [List.take_of_length_le (List.drop_eq_nil_iff.mp hback)] at hfront
  have hmem : e.kind ∈ vs.map fun v => v.kind := by
    rw [← hfront, sightsOf_kinds]
    simp
  obtain ⟨v, hv, hk⟩ := List.mem_map.mp hmem
  exact hvs v hv (hk.trans he)

/-- Where a task is refused that is not checked as a whole, the good part of the text is a task by
itself, of the sequences that the run had completed. -/
theorem parse_of_checkpoint {options : Options} {text : String} {f : Fault} {n : Nat}
    (hv : options.validate = false) (h : parseWith options text = .error f)
    (hn : f.checkpoint = some n) (hpos : 0 < n) : ∃ ts front rest t, tokenize text = .ok ts ∧
      Text.splitAtByte? n text.toList = some (front, rest) ∧
      parseWith options (String.ofList front) = .ok t ∧
      t.sequences = completed options.name options.appMode (.ofTokens text ts) := by
  have hread : parseUnchecked options.name options.appMode text = .error f := by
    simpa [parseWith, hv] using h
  obtain hlexical | ⟨ts, hts, hrefused⟩ := parseUnchecked_eq_error.mp hread
  · rw [(lexicalAt_of_tokenize hlexical).checkpoint] at hn
    cases hn
  obtain ⟨hlegal, vs, d, hp, hderives, rfl⟩ := completed_derives hrefused rfl hn hpos
  have hvs : ∀ v ∈ vs, v.kind ≠ .eof := fun v hv =>
    hderives.spells.ne_eof _ (List.mem_map_of_mem hv)
  obtain ⟨front, back, rfl, hback, rfl⟩ := exists_front_of_passes hts hp hvs
  obtain ⟨before, after, e, hsplit, he, hcut⟩ := tokenize_cut_off hts hback
  rw [stopAfter_eq none] at hsplit
  refine ⟨_, before, after, ⟨options.name, String.ofList before, _⟩, hts, hsplit,
    parseWith_eq_ok.mpr ⟨?_, by simp [hv]⟩, rfl⟩
  refine (parseUnchecked_iff_derives hcut).mpr ⟨hlegal, rfl, rfl, ?_⟩
  rwa [List.dropLast_concat]

/-- The second sequence ends with a name whose hyphen would belong to an arrow before `>`, and the
third, on a new line, is a split that does not end. -/
theorem parse_of_checkpoint_hyphen : ∃ f ts t,
    parseWith { validate := false } "é --k='v'; b-\n<c || d" = .error f ∧
      f.message = .taskUnterminatedSplit ∧ f.checkpoint = some 14 ∧ 0 < 14 ∧
      tokenize "é --k='v'; b-\n<c || d" = .ok ts ∧
      parseWith { validate := false } "é --k='v'; b-" = .ok t ∧
      t.sequences = completed none true (.ofTokens "é --k='v'; b-\n<c || d" ts) ∧
      t.sequences = [⟨[.app ⟨none, "é", [⟨"k", "v", 3, 10⟩], [], 0, 10⟩], 0, 10⟩,
        ⟨[.app ⟨none, "b-", [], [], 12, 14⟩], 12, 14⟩] := by
  obtain ⟨f, hf, hm, hn⟩ : ∃ f,
      faultOf (parseWith { validate := false } "é --k='v'; b-\n<c || d") = some f ∧
        f.message = .taskUnterminatedSplit ∧ f.checkpoint = some 14 := by decide +kernel
  obtain ⟨u, hu, hs⟩ : ∃ u, (parseWith { validate := false } "é --k='v'; b-").toOption = some u ∧
      u.sequences = [⟨[.app ⟨none, "é", [⟨"k", "v", 3, 10⟩], [], 0, 10⟩], 0, 10⟩,
        ⟨[.app ⟨none, "b-", [], [], 12, 14⟩], 12, 14⟩] := by decide +kernel
  have hcut : Text.splitAtByte? 14 "é --k='v'; b-\n<c || d".toList =
      some ("é --k='v'; b-".toList, "\n<c || d".toList) := by decide +kernel
  have hf := faultOf_eq_some.mp hf
  obtain ⟨ts, front, rest, t, hts, hsplit, ht, hcompleted⟩ :=
    parse_of_checkpoint rfl hf hn (by omega)
  obtain ⟨rfl, -⟩ := Prod.mk.inj (Option.some.inj (hsplit.symm.trans hcut))
  rw [String.ofList_toList] at ht
  obtain rfl : t = u := Except.ok.inj (ht.symm.trans (toOption_eq_some.mp hu))
  exact ⟨f, ts, t, hf, hm, hn, by omega, hts, ht, hcompleted, hs⟩

end Task

end Pipework
