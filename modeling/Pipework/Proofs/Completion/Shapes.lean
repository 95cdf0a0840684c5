import Pipework.Completion.Shape
import Pipework.Proofs.Token.Boundary
import Pipework.Text.Affix

/-! Which texts have the shapes that recovery knows. -/

namespace Pipework.Completion

open Text

variable {cs before part : List Char}

theorem startsWith_iff {name p : String} :
    startsWith name p = true ↔ p.toList <+: name.toList := List.isPrefixOf_iff_prefix

/-! ## Taps -/

theorem tapShape?_of_all (h : cs.all isTapChar = true) :
    tapShape? cs = some ⟨String.ofList cs, none⟩ := by
  have hall : ∀ c ∈ cs, isTapChar c = true := List.all_eq_true.mp h
  unfold tapShape?
  rw [List.takeWhile_eq_self_iff.mpr hall, List.dropWhile_eq_nil_iff.mpr hall]

/-- What a shape of a tap is taken from. -/
theorem toList_of_tapShape? {shape : TapShape} (h : tapShape? cs = some shape) :
    (shape.label = none ∧ cs = shape.stream.toList) ∨
      ∃ label, shape.label = some label ∧ cs = shape.stream.toList ++ '.' :: label.toList := by
  have hcs : cs = cs.takeWhile isTapChar ++ cs.dropWhile isTapChar :=
    (List.takeWhile_append_dropWhile).symm
  unfold tapShape? at h
  split at h
  · next hnil =>
    obtain rfl := Option.some.inj h
    rw [hnil, List.append_nil] at hcs
    exact .inl ⟨rfl, hcs.trans String.toList_ofList.symm⟩
  · next c label hc =>
    split at h
    · next hlabel =>
      obtain rfl := Option.some.inj h
      rw [hc, hlabel.1] at hcs
      refine .inr ⟨_, rfl, ?_⟩
      rw [String.toList_ofList, String.toList_ofList]
      exact hcs
    · cases h

/-- A tap has characters of taps only, and perhaps a dot. -/
theorem isTapChar_of_tapShape? {shape : TapShape} (h : tapShape? cs = some shape) {c : Char}
    (hc : c ∈ cs) : isTapChar c = true ∨ c = '.' := by
  unfold tapShape? at h
  rw [← List.takeWhile_append_dropWhile (p := isTapChar) (l := cs), List.mem_append] at hc
  rcases hc with hc | hc
  · exact .inl (List.mem_takeWhile_imp hc)
  · split at h
    · next hnil =>
      rw [hnil] at hc
      cases hc
    · next d label hd =>
      rw [hd] at hc
      split at h
      · next hlabel =>
        rcases List.mem_cons.mp hc with rfl | hc
        · exact .inr hlabel.1
        · exact .inl (List.all_eq_true.mp hlabel.2 c hc)
      · cases h

theorem tapShape?_eq_none {c : Char} (hc : c ∈ cs) (ht : isTapChar c = false) (hdot : c ≠ '.') :
    tapShape? cs = none := by
  cases hshape : tapShape? cs with
  | none => rfl
  | some shape =>
    rcases isTapChar_of_tapShape? hshape hc with h | h
    · rw [ht] at h
      cases h
    · exact absurd h hdot

theorem exists_of_destinationTap? {shape : TapShape}
    (h : destinationTap? cs = some shape) :
    ∃ rest, cs = ":".toList ++ rest ∧ tapShape? rest = some shape := by
  unfold destinationTap? at h
  split at h
  · next rest => exact ⟨rest, rfl, h⟩
  · cases h

theorem exists_of_longTap? {shape : TapShape} (h : longTap? cs = some shape) :
    ∃ rest, cs = longTapLead.toList ++ rest ∧ tapShape? rest = some shape := by
  unfold longTap? at h
  dsimp only at h
  split at h
  · next hprefix =>
    obtain ⟨rest, rfl⟩ := List.isPrefixOf_iff_prefix.mp hprefix
    rw [List.drop_left] at h
    exact ⟨rest, rfl, h⟩
  · cases h

theorem destinationTap?_eq_none (hc : ' ' ∈ cs) : destinationTap? cs = none := by
  unfold destinationTap?
  split
  · next rest =>
    refine tapShape?_eq_none (c := ' ') ?_ (by decide) (by decide)
    simpa using hc
  · rfl

/-! ## Options -/

theorem exists_mem_of_endsBlank (h : endsBlank cs = true) : ∃ c ∈ cs, isBlank c = true := by
  unfold endsBlank at h
  cases hlast : cs.getLast? with
  | none =>
    rw [hlast] at h
    cases h
  | some c =>
    rw [hlast] at h
    exact ⟨c, List.mem_of_getLast? hlast, h⟩

/-- A text is cut in one way only into a part without white space and white space before it. -/
theorem append_inj_of_blank {before' part' : List Char} (h : before ++ part = before' ++ part')
    (hb : endsBlank before = true) (hb' : endsBlank before' = true)
    (hp : ∀ c ∈ part, isBlank c = false) (hp' : ∀ c ∈ part', isBlank c = false) :
    before = before' ∧ part = part' := by
  have hnil : ∀ {a b more : List Char}, a = b ++ more → endsBlank a = true →
      (∀ c ∈ more, isBlank c = false) → more = [] := by
    intro a b more ha hends hmore
    by_contra hne
    rw [ha, Token.endsBlank_append _ hne] at hends
    obtain ⟨c, hc, hblank⟩ := exists_mem_of_endsBlank hends
    rw [hmore c hc] at hblank
    cases hblank
  rcases List.append_eq_append_iff.mp h with ⟨more, hmore, hpart⟩ | ⟨more, hmore, hpart⟩
  · obtain rfl := hnil hmore hb' fun c hc => hp c (hpart ▸ List.mem_append_left _ hc)
    exact ⟨by simpa using hmore.symm, by simpa using hpart⟩
  · obtain rfl := hnil hmore hb fun c hc => hp' c (hpart ▸ List.mem_append_left _ hc)
    exact ⟨by simpa using hmore, by simpa using hpart.symm⟩

/-- A text is cut where its last white space ends. -/
theorem lastPart?_append (hb : endsBlank before = true) (hp : ∀ c ∈ part, isBlank c = false) :
    lastPart? (before ++ part) = if (trimEnd before).isEmpty || (trimEnd before).contains '\n' then
      none else some (trimEnd before, part) := by
  have hpart : ∀ c ∈ part.reverse, (!isBlank c) = true := by
    intro c hc
    rw [hp c (List.mem_reverse.mp hc)]
    rfl
  have hbefore : before.reverse.takeWhile (fun c => !isBlank c) = [] := by
    unfold endsBlank at hb
    rw [← List.head?_reverse] at hb
    cases hr : before.reverse with
    | nil => rfl
    | cons c rest =>
      rw [hr] at hb
      exact List.takeWhile_cons_of_neg (by simpa using hb)
  unfold lastPart?
  rw [List.reverse_append, List.takeWhile_append_of_pos hpart, hbefore, List.append_nil,
    List.reverse_reverse]
  simp [hb]

/-- What is cut off has no white space, and some stands before it. -/
theorem lastPart?_eq_some {head : List Char} (h : lastPart? cs = some (head, part)) :
    ∃ before, cs = before ++ part ∧ endsBlank before = true ∧ head = trimEnd before ∧ head ≠ [] ∧
      '\n' ∉ head ∧ ∀ c ∈ part, isBlank c = false := by
  unfold lastPart? at h
  set part' := (cs.reverse.takeWhile fun c => !isBlank c).reverse with hpart
  have hcs : cs = cs.take (cs.length - part'.length) ++ part' := by
    have hsuffix : part' <:+ cs := by
      rw [hpart, ← List.reverse_prefix, List.reverse_reverse]
      exact List.takeWhile_prefix _
    obtain ⟨before, hbefore⟩ := hsuffix
    conv => lhs; rw [← hbefore]
    rw [← hbefore]
    simp
  dsimp only at h
  split at h
  · cases h
  · next hc =>
    obtain ⟨rfl, rfl⟩ := Prod.mk.inj (Option.some.inj h)
    simp only [Bool.or_eq_true, not_or, List.isEmpty_iff, List.contains_iff_mem, Bool.not_eq_true,
      Bool.not_eq_false'] at hc
    refine ⟨_, hcs, by simpa using hc.2, rfl, hc.1.1, hc.1.2, fun c hmem => ?_⟩
    rw [hpart, List.mem_reverse] at hmem
    simpa using List.mem_takeWhile_imp hmem

/-- Without white space, no part of a text is the last. -/
theorem lastPart?_eq_none (h : ∀ c ∈ cs, isBlank c = false) : lastPart? cs = none := by
  cases hlast : lastPart? cs with
  | none => rfl
  | some last =>
    obtain ⟨head, part⟩ := last
    obtain ⟨before, rfl, hb, -⟩ := lastPart?_eq_some hlast
    obtain ⟨c, hc, hblank⟩ := exists_mem_of_endsBlank hb
    rw [h c (List.mem_append_left _ hc)] at hblank
    cases hblank

theorem isOptionChar_of_isBlank {c : Char} (h : isBlank c = true) : isOptionChar c = false := by
  have hc : c = Char.ofNat c.toNat := (Char.ofNat_toNat c).symm
  have hn := Token.toNat_of_isBlank h
  generalize c.toNat = n at hc hn
  subst hc
  revert n
  decide +kernel

theorem notBlank_of_isOptionChar {name : List Char} (h : name.all isOptionChar = true) :
    ∀ c ∈ name, isBlank c = false := by
  intro c hc
  by_contra hb
  have hoption := List.all_eq_true.mp h c hc
  rw [isOptionChar_of_isBlank (by simpa using hb)] at hoption
  cases hoption

/-- What an option that is not finished is taken from: one dash or two behind white space, and a name. -/
theorem unfinishedOption?_eq_some {shape : OptionShape} (h : unfinishedOption? cs = some shape) :
    ∃ before, endsBlank before = true ∧ shape.head.toList = trimEnd before ∧
      shape.option.toList.all isOptionChar = true ∧
      (cs = before ++ '-' :: '-' :: shape.option.toList ∨
        cs = before ++ '-' :: shape.option.toList ∧ shape.option.toList.head? ≠ some '-') := by
  unfold unfinishedOption? at h
  cases hlast : lastPart? cs with
  | none =>
    rw [hlast] at h
    cases h
  | some last =>
    obtain ⟨head, part⟩ := last
    obtain ⟨before, rfl, hb, rfl, -⟩ := lastPart?_eq_some hlast
    rw [hlast] at h
    have hnamed : ∀ name, (if name.all isOptionChar = true then
        some (⟨String.ofList (trimEnd before), String.ofList name⟩ : OptionShape) else none) =
          some shape → name.all isOptionChar = true ∧ shape.head.toList = trimEnd before ∧
            shape.option.toList = name := by
      intro name hname
      split at hname
      · next hall =>
        obtain rfl := Option.some.inj hname
        exact ⟨hall, String.toList_ofList, String.toList_ofList⟩
      · cases hname
    refine ⟨before, hb, ?_⟩
    replace h := Option.bind_eq_some_iff.mp h
    obtain ⟨last, hpair, h⟩ := h
    obtain rfl := Option.some.inj hpair
    dsimp only at h
    split at h
    · obtain ⟨hall, hhead, rfl⟩ := hnamed _ h
      exact ⟨hhead, hall, .inl rfl⟩
    · next name hne =>
      obtain ⟨hall, hhead, rfl⟩ := hnamed _ h
      refine ⟨hhead, hall, .inr ⟨rfl, fun hfirst => ?_⟩⟩
      obtain ⟨rest, hrest⟩ := List.head?_eq_some_iff.mp hfirst
      exact hne rest hrest
    · cases h

theorem unfinishedOption?_eq_none (h : ∀ c ∈ cs, isBlank c = false) : unfinishedOption? cs = none := by
  rw [unfinishedOption?, lastPart?_eq_none h]
  rfl

/-- Two dashes and a name, on one line with the text before them. -/
theorem unfinishedOption?_of_dashes {head name : List Char} (hh : endsBlank head = false)
    (hne : head ≠ []) (hn : name.all isOptionChar = true) (hb : ∀ c ∈ name, isBlank c = false) :
    unfinishedOption? (head ++ ' ' :: '-' :: '-' :: name) =
      if '\n' ∈ head then none else some ⟨String.ofList head, String.ofList name⟩ := by
  have hbefore : endsBlank (head ++ [' ']) = true := by
    rw [Token.endsBlank_append _ (by simp)]
    decide
  have hpart : ∀ c ∈ '-' :: '-' :: name, isBlank c = false :=
    List.forall_mem_cons.mpr ⟨by decide, List.forall_mem_cons.mpr ⟨by decide, hb⟩⟩
  have hlast := lastPart?_append hbefore hpart
  rw [Token.trimEnd_append hh (by decide), List.append_assoc, List.singleton_append] at hlast
  rw [unfinishedOption?, hlast]
  have hempty : head.isEmpty = false := by simpa using hne
  rw [hempty, Bool.false_or]
  by_cases hnewline : '\n' ∈ head
  · rw [if_pos (List.contains_iff_mem.mpr hnewline), if_pos hnewline]
    rfl
  · rw [if_neg (fun h => hnewline (List.contains_iff_mem.mp h)), if_neg hnewline]
    exact if_pos hn

end Pipework.Completion
