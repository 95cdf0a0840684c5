import Pipework.Proofs.Argument.Grammar

/-! What becomes of arguments of one name: where the first of them stands, one argument is kept, and
the last of them says what its value is. -/

namespace Pipework.Argument

/-- The arguments of a name, in order. -/
def ofName (name : String) (as : List Argument) : List Argument := as.filter fun a => a.name == name

/-- Of the arguments that are written, these are kept. -/
structure Merges (written kept : List Argument) : Prop where
  once : (kept.map Argument.name).Nodup
  /-- Names are in the order in which they are first given. -/
  names : kept.map Argument.name = (written.map Argument.name).eraseDups
  first : ∀ a ∈ kept, (ofName a.name written).head?.map Argument.start = some a.start
  last : ∀ a ∈ kept, (ofName a.name written).getLast?.map (fun w => (w.value, w.stop)) =
    some (a.value, a.stop)

variable {as written kept : List Argument} {a new : Argument}

/-- An argument comes in behind the others, or takes the place of the one of its name. -/
theorem mem_insert (h : (as.map Argument.name).Nodup) : a ∈ insert as new ↔
    (a ∈ as ∧ a.name ≠ new.name) ∨ (new.name ∉ as.map Argument.name ∧ a = new) ∨
      ∃ b ∈ as, b.name = new.name ∧ a = { b with value := new.value, stop := new.stop } := by
  induction as with
  | nil => simp [insert]
  | cons b as ih =>
    obtain ⟨hb, has⟩ := List.nodup_cons.mp h
    rw [insert]
    split
    · next hn =>
      have hne : ∀ c ∈ as, c.name ≠ new.name := fun c hc he =>
        hb (List.mem_map.mpr ⟨c, hc, he.trans hn.symm⟩)
      simp only [List.mem_cons, List.map_cons, hn]
      grind
    · next hn =>
      have hn' : new.name ≠ b.name := fun he => hn he.symm
      simp only [List.mem_cons, ih has, List.map_cons, not_or, hn', not_false_eq_true, true_and]
      grind

theorem ofName_concat_of_eq {name : String} (h : new.name = name) :
    ofName name (written ++ [new]) = ofName name written ++ [new] := by
  simp [ofName, h]

theorem ofName_concat_of_ne {name : String} (h : new.name ≠ name) :
    ofName name (written ++ [new]) = ofName name written := by
  simp [ofName, h]

theorem ofName_eq_nil {name : String} (h : name ∉ written.map Argument.name) :
    ofName name written = [] := by
  simpa [ofName] using h

theorem eraseDups_concat (names : List String) (n : String) :
    (names ++ [n]).eraseDups = if n ∈ names then names.eraseDups else names.eraseDups ++ [n] := by
  rw [List.eraseDups_append]
  split
  · next h => simp [List.removeAll, h]
  · next h => simp [List.removeAll, h, List.eraseDups_cons]

theorem Merges.insert (h : Merges written kept) (new : Argument) :
    Merges (written ++ [new]) (insert kept new) := by
  have hmem : new.name ∈ kept.map Argument.name ↔ new.name ∈ written.map Argument.name := by
    rw [h.names, List.mem_eraseDups]
  refine ⟨nodup_insert h.once, ?_, fun a ha => ?_, fun a ha => ?_⟩
  · rw [names_insert, List.map_append, List.map_singleton, eraseDups_concat, ← h.names]
    simp only [hmem]
  all_goals obtain ⟨ha, hne⟩ | ⟨hnew, rfl⟩ | ⟨b, hb, hn, rfl⟩ := (mem_insert h.once).mp ha
  · rw [ofName_concat_of_ne hne.symm]
    exact h.first a ha
  · rw [ofName_concat_of_eq rfl, ofName_eq_nil (mt hmem.mpr hnew)]
    rfl
  · have hfirst := h.first b hb
    obtain ⟨w, hw, hstart⟩ := Option.map_eq_some_iff.mp hfirst
    rw [ofName_concat_of_eq hn.symm, List.head?_append, hw]
    exact congrArg some hstart
  · rw [ofName_concat_of_ne hne.symm]
    exact h.last a ha
  · rw [ofName_concat_of_eq rfl, List.getLast?_concat]
    rfl
  · rw [ofName_concat_of_eq hn.symm, List.getLast?_concat]
    rfl

/-- Arguments are merged by putting them in one after the other. -/
theorem merges_foldl_insert (written : List Argument) :
    Merges written (written.foldl Argument.insert []) := by
  induction written using List.reverseRecOn with
  | nil => exact ⟨.nil, rfl, by simp, by simp⟩
  | append_singleton written new ih =>
    rw [List.foldl_concat]
    exact ih.insert new

end Pipework.Argument
