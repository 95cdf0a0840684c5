import Pipework.Completion.Context
import Pipework.Proofs.Stream.Printing

/-! Labels for apps whose names are taken: a number behind the name is unused, and one is found as
long as there are more numbers than labels. -/

namespace Pipework.Completion

open Token

variable {used : List String} {name : String}

/-! ## Numbered names -/

theorem numbered_inj {m n : Nat} : numbered name m = numbered name n ↔ m = n := by
  rw [numbered, numbered, String.append_right_inj, Nat.toString_eq_repr, Nat.toString_eq_repr,
    Nat.repr_inj]

theorem isWord_numbered (h : isWord name = true) (n : Nat) : isWord (numbered name n) = true := by
  have hdigits : ∀ c ∈ (toString n).toList, Text.startsName c = true := fun c hc => by
    rw [Nat.toString_eq_ofList_toDigits, String.toList_ofList] at hc
    have hdigit := Nat.isDigit_of_mem_toDigits (by decide) (by decide) hc
    have hascii : Text.isAsciiDigit c = true := by
      simpa [Text.isAsciiDigit, Char.isDigit, Char.le_def] using hdigit
    exact startsName_of_isAsciiDigit hascii
  obtain ⟨c, cs, hname, hc, hcs⟩ := isNameWord_iff.mp h
  refine isNameWord_iff.mpr ⟨c, cs ++ (toString n).toList, ?_, hc, fun d hd => ?_⟩
  · rw [numbered, String.toList_append, hname, List.cons_append]
  · exact (List.mem_append.mp hd).elim (hcs d) fun hd => .inl (hdigits d hd)

/-! ## Unused numbers -/

theorem seekSuffix_eq_find? (fuel start : Nat) : seekSuffix used name fuel start =
    (List.range' start fuel).find? fun n => !used.contains (numbered name n) := by
  induction fuel generalizing start with
  | zero => rfl
  | succ fuel ih =>
    rw [seekSuffix, List.range'_succ, List.find?_cons, ih]
    cases used.contains (numbered name start) <;> rfl

theorem seekSuffix_eq_some {fuel start n : Nat} (h : seekSuffix used name fuel start = some n) :
    numbered name n ∉ used := by
  rw [seekSuffix_eq_find?] at h
  simpa using List.find?_some h

/-- Numbers that are all used are no more than the labels. -/
theorem fuel_le_of_seekSuffix {fuel start : Nat} (h : seekSuffix used name fuel start = none) :
    fuel ≤ used.length := by
  rw [seekSuffix_eq_find?, List.find?_eq_none] at h
  have hnodup : ((List.range' start fuel).map (numbered name)).Nodup :=
    (List.nodup_range' 1).map fun _ _ => numbered_inj.mp
  have hsubset : (List.range' start fuel).map (numbered name) ⊆ used := fun label hlabel => by
    obtain ⟨n, hn, rfl⟩ := List.mem_map.mp hlabel
    simpa using h n hn
  simpa using (hnodup.subperm hsubset).length_le

/-! ## Labelled names -/

/-- A text that adds an app of the name under a label that is not used. -/
inductive Offers (used : List String) (name : String) : String → Prop
  | bare : name ∉ used → Offers used name name
  | labelled {n : Nat} : numbered name n ∉ used →
      Offers used name (numbered name n ++ ": " ++ name)

/-- What is offered is written by an app of the name that is called by nothing used. -/
theorem Offers.exists_app {text : String} (h : Offers used name text) (hw : isWord name = true) :
    ∃ a : Stream.App, a.IsWritable ∧ a.render = text ∧ a.withoutPosition = a ∧ a.name = name ∧
      a.arguments = [] ∧ a.labelName ∉ used := by
  cases h with
  | bare hn => exact ⟨⟨none, name, [], 0, 0⟩, ⟨by simp, hw, by simp, by simp⟩,
      by simp [Stream.App.render, Label.render, Argument.renderAll], rfl, rfl, rfl, hn⟩
  | @labelled n hn =>
    refine ⟨⟨some ⟨numbered name n, 0, 0⟩, name, [], 0, 0⟩, ⟨?_, hw, by simp, by simp⟩,
      by simp [Stream.App.render, Label.render, Argument.renderAll], rfl, rfl, rfl, hn⟩
    rintro l ⟨⟩
    exact isWord_numbered hw n

variable {ctx : Context}

theorem offers_of_autoLabel {app : String} (h : ctx.autoLabel name used = some app) :
    Offers used name app := by
  rw [Context.autoLabel] at h
  split at h
  · obtain ⟨n, hn, rfl⟩ := Option.map_eq_some_iff.mp h
    exact .labelled (seekSuffix_eq_some hn)
  · next hunused =>
    obtain rfl := Option.some.inj h
    exact .bare (by simpa using hunused)

/-- With as many numbers left as there are labels, and one more, an app is labelled. -/
theorem exists_autoLabel (h : used.length < maxSuffix + 1 - ctx.config.labelSuffixStart)
    (name : String) : ∃ app, ctx.autoLabel name used = some app := by
  rw [Context.autoLabel]
  split
  · cases hfree : freeSuffix used name ctx.config.labelSuffixStart with
    | some n => exact ⟨_, rfl⟩
    | none =>
      have := fuel_le_of_seekSuffix hfree
      omega
  · exact ⟨name, rfl⟩

end Pipework.Completion
