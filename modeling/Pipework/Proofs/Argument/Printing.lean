import Pipework.Argument.Printer
import Pipework.Proofs.Argument.Grammar
import Pipework.Proofs.Parser.Printed
import Pipework.Proofs.Token.Lexed

/-! Printed labels and arguments are cut into views that spell them, and the arguments that are read
can be printed. -/

namespace Pipework

open Token Pipework.Parser

/-- A label, its colon and what stands after it. -/
theorem Label.lexes {e : Bool} {gap name rest : List Char} (hn : isNameWord name = true)
    (hg : gap.all Text.isBlank = true) (he : e = true → gap ≠ []) :
    Lexes e (gap ++ (name ++ ':' :: rest))
      [⟨.ofName name, gap.isEmpty, gap.contains '\n'⟩, ⟨.colon, true, false⟩] false rest :=
  (lexes_name hn (stopsName_of_ne (by decide) (by decide) (by decide)) hg he).trans
    (lexes_glued_operator ':' rfl (by simp) (by simp))

namespace Argument

/-- The text can be the name of an argument: words joined by dots. -/
def IsDottedWord (s : String) : Prop :=
  ∃ (first : List Char) (parts : List (List Char)), isNameWord first = true ∧
    (∀ p ∈ parts, isNameWord p = true) ∧ s.toList = first ++ parts.flatMap fun p => '.' :: p

/-- A part of a dotted name ends before the next one and before `=`. -/
theorem stopsName_dotted {name rest : List Char} (hr : ∀ c ∈ rest.head?, c = '.' ∨ c = '=') :
    StopsName name rest := by
  cases rest with
  | nil => trivial
  | cons c cs =>
    obtain rfl | rfl := hr c rfl <;>
      exact stopsName_of_ne (by decide) (by decide) (by decide)

theorem lexes_dottedPart {p rest : List Char} (hp : isNameWord p = true)
    (hr : ∀ c ∈ rest.head?, c = '.' ∨ c = '=') :
    ∃ vs, DottedPart vs ("." ++ String.ofList p) ∧ Lexes false ('.' :: p ++ rest) vs false rest := by
  have := @DottedPart.mk ⟨.dot, true, false⟩ ⟨.ofName p, true, false⟩ rfl rfl
    (Kind.isName_ofName p) rfl
  rw [Kind.symbol_ofName] at this
  exact ⟨_, this, (lexes_glued_operator '.' rfl (by simp) (by simp)).trans
    (lexes_glued_name hp (stopsName_dotted hr))⟩

theorem toList_dottedParts (parts : List (List Char)) :
    (parts.map fun p => "." ++ String.ofList p).flatMap String.toList =
      parts.flatMap fun p => '.' :: p := by
  induction parts with
  | nil => rfl
  | cons p parts ih => simp [ih]

theorem lexes_dottedWord {name : String} (hn : IsDottedWord name) (rest : List Char) :
    ∃ first vs, first.glued = true ∧ Dotted (first :: vs) name ∧
      Lexes false (name.toList ++ '=' :: rest) (first :: vs) false ('=' :: rest) := by
  obtain ⟨first, parts, hf, hp, hname⟩ := hn
  obtain ⟨vs, hm, hl⟩ := lexes_many (fun p => '.' :: p) (fun p => "." ++ String.ofList p) DottedPart
    (fun rest => ∀ c ∈ rest.head?, c = '.' ∨ c = '=')
    (fun p hm _ hr => lexes_dottedPart (hp p hm) hr) (by simp)
    (show ∀ c ∈ ('=' :: rest).head?, _ by simp)
  refine ⟨⟨.ofName first, true, false⟩, vs, rfl, ?_, ?_⟩
  · have := @Dotted.mk ⟨.ofName first, true, false⟩ _ _ (Kind.isName_ofName first) hm
    have htext : String.ofList first ++ String.join (parts.map fun p => "." ++ String.ofList p) =
        name := String.toList_injective (by simp [hname, toList_dottedParts])
    rwa [Kind.symbol_ofName, htext] at this
  · have hs : StopsName first (parts.flatMap (fun p => '.' :: p) ++ '=' :: rest) :=
      stopsName_dotted (by cases parts <;> simp)
    rw [hname, List.append_assoc]
    exact (lexes_glued_name hf hs).trans hl

/-- A printed argument is cut into views that spell it. -/
theorem lexes_render {a : Argument} (hn : IsDottedWord a.name) {rest : List Char}
    (hr : StopsValue rest) : ∃ vs, Spells vs a.withoutPosition ∧
      Lexes false (a.render.toList ++ rest) vs false rest := by
  obtain ⟨first, vs, hg, hd, hl⟩ := lexes_dottedWord hn ((Text.quoteValue a.value).toList ++ rest)
  obtain ⟨k, hk, hv⟩ := cut_quoteValue a.value hr
  have hvalue : valueText? k = some a.value ∧ k ≠ .eof ∧ k ≠ .equals := by
    obtain rfl | rfl := hv <;> simp [valueText?]
  have hdash : Lexes false (a.render.toList ++ rest) [⟨.doubleMinus, false, false⟩] false
      (a.name.toList ++ '=' :: ((Text.quoteValue a.value).toList ++ rest)) := by
    refine .one ?_ (by simp) (by simp)
    rw [show a.render.toList ++ rest = [' '] ++ ('-' :: '-' :: (a.name.toList ++
      '=' :: ((Text.quoteValue a.value).toList ++ rest))) by simp [render]]
    have hs : ∀ cs, scan ('-' :: '-' :: cs) = .ok ⟨.doubleMinus, ['-', '-'], cs⟩ := fun _ => rfl
    exact cut_of_scan (hs _) rfl (by simp; decide) (by simp)
  have hequals : Lexes false ('=' :: ((Text.quoteValue a.value).toList ++ rest))
      [⟨.equals, true, false⟩, ⟨k, true, false⟩] false rest :=
    .cons (@cut_operator false [] _ '=' .equals rfl rfl (by simp)) (by simp)
      (.one hk hvalue.2.1 hvalue.2.2)
  exact ⟨⟨.doubleMinus, false, false⟩ :: first :: vs ++ [⟨.equals, true, false⟩, ⟨k, true, false⟩],
    .mk rfl rfl hg hd rfl rfl hvalue.1 rfl, (hdash.trans hl).trans hequals⟩

/-- Printed arguments; the text goes on where a value ends. -/
theorem lexes_renderAll {as : List Argument} (hn : ∀ a ∈ as, IsDottedWord a.name) {rest : List Char}
    (hr : StopsValue rest) : ∃ vs, Many Spells vs (as.map withoutPosition) ∧
      Lexes false ((renderAll as).toList ++ rest) vs false rest := by
  obtain ⟨vs, hm, hl⟩ := lexes_many (fun a => (render a).toList) withoutPosition Spells StopsValue
    (fun a ha _ hr => lexes_render (hn a ha) hr)
    (fun a _ _ c hc => by
      obtain rfl : ' ' = c := by simpa [render] using hc
      decide) hr
  refine ⟨vs, hm, ?_⟩
  rwa [renderAll, String.toList_join, List.flatMap_map]

/-! ## What is read has words in it -/

theorem exists_words {vs : List View} {parts : List String} (h : Many DottedPart vs parts)
    (hw : ∀ v ∈ vs, v.kind.isName = true → v.kind.IsWord) : ∃ words : List (List Char),
      (∀ p ∈ words, isNameWord p = true) ∧
      parts.flatMap String.toList = words.flatMap fun p => '.' :: p := by
  induction h with
  | nil => exact ⟨[], by simp, rfl⟩
  | cons hi _ ih =>
    obtain ⟨-, -, hn, -⟩ := hi
    rw [List.forall_mem_append] at hw
    obtain ⟨words, hwords, hp⟩ := ih hw.2
    exact ⟨_ :: words, List.forall_mem_cons.mpr ⟨(hw.1 _ (by simp) hn).symbol, hwords⟩, by simp [hp]⟩

theorem isDottedWord_of_dotted {vs : List View} {name : String} (h : Dotted vs name)
    (hw : ∀ v ∈ vs, v.kind.isName = true → v.kind.IsWord) : IsDottedWord name := by
  obtain @⟨first, vs, parts, hn, hm⟩ := h
  rw [List.forall_mem_cons] at hw
  obtain ⟨words, hwords, hp⟩ := exists_words hm hw.2
  exact ⟨first.kind.symbol.toList, words, (hw.1 hn).symbol, hwords, by simp [hp]⟩

theorem ne_equals_of_dotted {vs : List View} {name : String} (h : Dotted vs name) :
    ∀ v ∈ vs, v.kind ≠ .equals := by
  obtain ⟨hn, hm⟩ := h
  refine List.forall_mem_cons.mpr ⟨Kind.ne_of_isName hn rfl, hm.forall_mem fun h => ?_⟩
  obtain ⟨hk, -, hn, -⟩ := h
  simp [hk, @Kind.ne_of_isName _ .equals hn rfl]

theorem isDottedWord_of_spells {vs : List View} {a : Argument} (h : a.Spells vs)
    (hl : Lexed false vs) : IsDottedWord a.name ∧ endsEquals false vs = false := by
  obtain @⟨dashes, first, equals, last, vs, name, value, hk, -, -, hd, -, -, hv, -⟩ := h
  constructor
  · obtain ⟨-, hl⟩ := hl
    rw [hk] at hl
    exact isDottedWord_of_dotted hd (hl.of_append.1.words (ne_equals_of_dotted hd))
  · rw [endsEquals_append]
    refine beq_eq_false_iff_ne.mpr fun h => ?_
    rw [h] at hv
    cases hv

theorem many_isDottedWord {vs : List View} {as : List Argument} (h : Many Spells vs as)
    (hl : Lexed false vs) :
    (∀ a ∈ as, IsDottedWord a.name) ∧ endsEquals false vs = false := by
  induction h with
  | nil => exact ⟨by simp, rfl⟩
  | cons ha _ ih =>
    obtain ⟨h₁, h₂⟩ := hl.of_append
    obtain ⟨hd, he⟩ := isDottedWord_of_spells ha h₁
    rw [he] at h₂
    exact ⟨List.forall_mem_cons.mpr ⟨hd, (ih h₂).1⟩, by rw [endsEquals_append, he, (ih h₂).2]⟩

end Argument

end Pipework
