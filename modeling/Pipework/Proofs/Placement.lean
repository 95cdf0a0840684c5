import Pipework.Proofs.Parser.Refuses
import Pipework.Proofs.Stream.Marks
import Pipework.Proofs.Task.Marks
import Pipework.Proofs.Token.Misreading

/-! What every fault of a text tells of the text: tools show its offset as a caret, and go on from
its checkpoint. -/

namespace Pipework

open Text Token Pipework.Parser

/-- The fault can be shown in the text. `late` says that it was found after the whole text was
read, by a check that keeps no checkpoint. -/
structure Fault.IsPlacedIn (text : String) (late : Prop) (f : Fault) : Prop where
  le : f.offset ≤ text.utf8ByteSize
  isBoundary : IsBoundary text.toList f.offset
  lexical : f.isLexical = true ↔ ∃ e, tokenize text = .error e
  same : f.isLexical = true → tokenize text = .error f
  unmarked : f.checkpoint = none ↔ f.isLexical = true ∨ late
  checkpoint : ∀ n, f.checkpoint = some n →
    n = 0 ∨ ∃ ts, tokenize text = .ok ts ∧ ∃ t ∈ ts, n = t.stop

/-- The text is read as a task, and the task is not valid. -/
def Task.IsInvalid (options : Options) (text : String) (f : Fault) : Prop :=
  ∃ t, parseUnchecked options.name options.appMode text = .ok t ∧ t.validate = .error f

variable {text : String} {ts : List Token} {late : Prop} {f : Fault}

theorem isBoundary_of_isMark (ht : tokenize text = .ok ts) {n : Nat} (h : IsMark ts n) :
    IsBoundary text.toList n := by
  have htiles := tiles_of_tokenize ht
  rcases h with rfl | ⟨t, hmem, rfl | rfl⟩
  · exact isBoundary_zero _
  · exact (@Tiles.isBoundary 0 [] _ _ htiles rfl t hmem).1
  · exact (@Tiles.isBoundary 0 [] _ _ htiles rfl t hmem).2

theorem not_lexical_of_grammar (h : f.message.kind = .grammar) : ¬ f.isLexical = true := by
  unfold Fault.isLexical
  rw [h]
  decide

theorem offset_le (h : IsBoundary text.toList f.offset) : f.offset ≤ text.utf8ByteSize := by
  rw [← byteLength_toList]
  exact h.le

/-- A fault without tokens is that of the cutting. -/
theorem placed_of_tokenize (h : tokenize text = .error f) : f.IsPlacedIn text late := by
  obtain ⟨hlexical, hbound, hnone⟩ := lexicalAt_of_tokenize h
  refine ⟨offset_le hbound, hbound, ⟨fun _ => ⟨f, h⟩, fun _ => hlexical⟩, fun _ => h,
    ⟨fun _ => .inl hlexical, fun _ => hnone⟩, fun n hn => ?_⟩
  rw [hnone] at hn
  cases hn

/-- A fault that names a token is placed, whoever found it. -/
theorem placed_of_tokens (ht : tokenize text = .ok ts) (ho : IsMark ts f.offset)
    (hg : f.message.kind = .grammar) (hnone : f.checkpoint = none ↔ late)
    (hsome : ∀ n, f.checkpoint = some n → IsGood ts n) : f.IsPlacedIn text late := by
  have hlexical := not_lexical_of_grammar hg
  have hbound := isBoundary_of_isMark ht ho
  refine ⟨offset_le hbound, hbound, ⟨fun h => absurd h hlexical, ?_⟩, fun h => absurd h hlexical,
    ⟨fun h => .inr (hnone.mp h), ?_⟩, fun n hn => ?_⟩
  · intro h
    obtain ⟨e, he⟩ := h
    rw [ht] at he
    cases he
  · intro h
    rcases h with h | h
    · exact absurd h hlexical
    · exact hnone.mpr h
  · rcases hsome n hn with rfl | ⟨t, hmem, rfl⟩
    · exact .inl rfl
    · exact .inr ⟨ts, ht, t, hmem, rfl⟩

/-- The fault of a parser has a checkpoint, so it is none of a later check. -/
theorem placed_of_marked (ht : tokenize text = .ok ts) (h : IsMarked ts f) (hl : ¬ late) :
    f.IsPlacedIn text late := by
  obtain ⟨ho, hg, n, hn, hgood⟩ := h
  refine placed_of_tokens ht ho hg ⟨fun hnone => ?_, fun h => absurd h hl⟩ fun m hm => ?_
  · rw [hn] at hnone
    cases hnone
  · obtain rfl := Option.some.inj (hn.symm.trans hm)
    exact hgood

theorem over_ofTokens (ht : tokenize text = .ok ts) : (Cursor.ofTokens text ts).Over ts := by
  obtain ⟨us, t, rfl, hk, -⟩ := exists_eof_of_tokenize ht
  have hterminated : terminated text.utf8ByteSize (us ++ [t]) = us ++ [t] :=
    terminated_eq ⟨t, by simp, hk⟩
  unfold Cursor.ofTokens
  rw [hterminated]
  exact ⟨rfl, ⟨us, t, rfl, hk⟩, .inl rfl⟩

/-- What is read of a text lies at its tokens, and so does the fault if it is refused. -/
def ReadAt {α : Type} (text : String) (P : List Token → α → Prop) : Except Fault α → Prop
  | .ok a => ∃ ts, tokenize text = .ok ts ∧ P ts a
  | .error f => tokenize text = .error f ∨ ∃ ts, tokenize text = .ok ts ∧ IsMarked ts f

/-- A text is read in two steps: it is cut into tokens, and a parser reads these. -/
theorem readAt_of_keeps {α : Type} {p : Parser α} {P : List Token → α → Prop}
    (hp : ∀ ts, Keeps ts p (P ts)) :
    ReadAt text P (tokenize text >>= fun ts => p.run (.ofTokens text ts) >>= fun r => pure r.1) := by
  cases ht : tokenize text with
  | error e => exact .inl ht
  | ok ts =>
    have hrun := hp ts _ (over_ofTokens ht)
    simp only [bind, Except.bind, StateT.run]
    cases hr : p (.ofTokens text ts) with
    | error e =>
      rw [hr] at hrun
      exact .inr ⟨ts, ht, hrun⟩
    | ok r =>
      rw [hr] at hrun
      exact ⟨ts, ht, hrun.2⟩

/-- A fault of reading a text is placed, unless the text is read. -/
theorem placed_of_readAt {α : Type} {P : List Token → α → Prop} (h : ReadAt text P (.error f))
    (hl : ¬ late) : f.IsPlacedIn text late := by
  rcases h with ht | ⟨ts, ht, hmarked⟩
  · exact placed_of_tokenize ht
  · exact placed_of_marked ht hmarked hl

theorem Stream.readAt_parseNamed (name : Option String) (text : String) :
    ReadAt text (fun _ _ => True) (parseNamed name text) :=
  readAt_of_keeps fun _ => Read.keeps_definition name

namespace Task

theorem readAt_parseUnchecked (name : Option String) (appMode : Bool) (text : String) :
    ReadAt text (fun ts t => ∀ s ∈ t.sequences, s.IsMarked ts) (parseUnchecked name appMode text) :=
  readAt_of_keeps fun _ => Read.keeps_definition name

variable {options : Options}

theorem parseWith_eq_error : parseWith options text = .error f ↔
    parseUnchecked options.name options.appMode text = .error f ∨
      options.validate = true ∧ IsInvalid options text f := by
  unfold parseWith IsInvalid
  cases parseUnchecked options.name options.appMode text with
  | error e => simp [bind, Except.bind]
  | ok t =>
    cases hv : t.validate <;> cases options.validate <;>
      simp [bind, Except.bind, pure, Except.pure, hv]

theorem placed_of_parseWith (h : parseWith options text = .error f) :
    f.IsPlacedIn text (IsInvalid options text f) := by
  have hread := readAt_parseUnchecked options.name options.appMode text
  rcases parseWith_eq_error.mp h with hparse | ⟨-, t, hparse, hinvalid⟩
  · rw [hparse] at hread
    refine placed_of_readAt hread fun hinvalid => ?_
    obtain ⟨t, ht, -⟩ := hinvalid
    rw [hparse] at ht
    cases ht
  · rw [hparse] at hread
    obtain ⟨ts, ht, hmarked⟩ := hread
    obtain ⟨ho, hg, hnone⟩ := checkedAt_of_validate hmarked hinvalid
    refine placed_of_tokens ht ho hg ⟨fun _ => ⟨t, hparse, hinvalid⟩, fun _ => hnone⟩ fun n hn => ?_
    rw [hnone] at hn
    cases hn

end Task

/-- Both parsers place all their faults. -/
theorem faults_placed (text : String) :
    (∀ name f, Stream.parseNamed name text = .error f → f.IsPlacedIn text False) ∧
      ∀ options f, Task.parseWith options text = .error f →
        f.IsPlacedIn text (Task.IsInvalid options text f) := by
  refine ⟨fun name f h => ?_, fun _ _ => Task.placed_of_parseWith⟩
  have hread := Stream.readAt_parseNamed name text
  rw [h] at hread
  exact placed_of_readAt hread id

/-- A value that is missing, a quote that is not closed, and a label that is given twice. -/
theorem faults_placed_kinds :
    (∃ f, Stream.parse "é | b --x=" = .error f ∧ f.checkpoint = some 2 ∧
      f.IsPlacedIn "é | b --x=" False) ∧
    (∃ f, Stream.parse "é --x='ü" = .error f ∧ f.isLexical = true ∧
      f.IsPlacedIn "é --x='ü" False) ∧
    ∃ f, Task.parse "é: a && é: b" = .error f ∧ f.offset = 9 ∧
      f.IsPlacedIn "é: a && é: b" (Task.IsInvalid {} "é: a && é: b" f) := by
  obtain ⟨e, he, hcheckpoint⟩ : ∃ f, faultOf (Stream.parse "é | b --x=") = some f ∧
      f.checkpoint = some 2 := by decide +kernel
  obtain ⟨f, hf, hlexical⟩ : ∃ f, faultOf (Stream.parse "é --x='ü") = some f ∧
      f.isLexical = true := by decide +kernel
  obtain ⟨g, hg, hoffset⟩ : ∃ f, faultOf (Task.parse "é: a && é: b") = some f ∧
      f.offset = 9 := by decide +kernel
  rw [faultOf_eq_some] at he hf hg
  exact ⟨⟨e, he, hcheckpoint, (faults_placed _).1 none e he⟩,
    ⟨f, hf, hlexical, (faults_placed _).1 none f hf⟩, g, hg, hoffset, (faults_placed _).2 {} g hg⟩

end Pipework
