import Pipework.Proofs.Completion.Labels

/-! The number behind the name of a repeated app is the least that is free. The search for it tries
one word of 32 bits after the other, and ends at a free number or behind the last word. -/

namespace Pipework.Completion

variable {used : List String} {name : String} {start n : Nat}

/-! ## The search, word by word -/

/-- The word after another; the last has none. -/
def wordAfter? (w : UInt32) : Option UInt32 := if w.toNat = maxSuffix then none else some (w + 1)

/-- The search from a word on: in so many rounds it comes to this outcome. -/
inductive Seeks (used : List String) (name : String) : UInt32 → Nat → Option UInt32 → Prop
  | free {w : UInt32} : numbered name w.toNat ∉ used → Seeks used name w 1 (some w)
  | last {w : UInt32} : numbered name w.toNat ∈ used → wordAfter? w = none →
      Seeks used name w 1 none
  | next {w v : UInt32} {rounds : Nat} {outcome : Option UInt32} : numbered name w.toNat ∈ used →
      wordAfter? w = some v → Seeks used name v rounds outcome →
      Seeks used name w (rounds + 1) outcome

theorem wordAfter?_eq_none {w : UInt32} : wordAfter? w = none ↔ w.toNat = maxSuffix := by
  simp [wordAfter?]

/-- Going on to the next word never starts again at 0. -/
theorem wordAfter?_eq_some {w v : UInt32} : wordAfter? w = some v ↔ v.toNat = w.toNat + 1 := by
  have hw := w.toNat_lt
  have hv := v.toNat_lt
  have hsucc : w.toNat ≠ maxSuffix → (w + 1).toNat = w.toNat + 1 := fun hne => by
    rw [UInt32.toNat_add, UInt32.toNat_one]
    exact Nat.mod_eq_of_lt (by rw [maxSuffix] at hne; omega)
  rw [wordAfter?]
  split
  · next hlast => simp only [reduceCtorEq, false_iff, hlast, maxSuffix]; omega
  · next hne => rw [Option.some.injEq, ← UInt32.toNat_inj, hsucc hne, eq_comm]

/-- The search comes to one outcome at most. -/
theorem Seeks.unique {w : UInt32} {rounds rounds' : Nat} {outcome outcome' : Option UInt32}
    (h : Seeks used name w rounds outcome) (h' : Seeks used name w rounds' outcome') :
    rounds = rounds' ∧ outcome = outcome' := by
  induction h generalizing rounds' with
  | free hfree =>
    cases h' with
    | free => exact ⟨rfl, rfl⟩
    | last htaken | next htaken => exact absurd htaken hfree
  | last htaken hlast =>
    cases h' with
    | free hfree => exact absurd htaken hfree
    | last => exact ⟨rfl, rfl⟩
    | next _ hnext => exact absurd (hlast.symm.trans hnext) (by simp)
  | next htaken hnext _ ih =>
    cases h' with
    | free hfree => exact absurd htaken hfree
    | last _ hlast => exact absurd (hlast.symm.trans hnext) (by simp)
    | next _ hnext' h' =>
      obtain rfl := Option.some.inj (hnext.symm.trans hnext')
      obtain ⟨rfl, rfl⟩ := ih h'
      exact ⟨rfl, rfl⟩

/-- What is found among so many numbers is found in as many rounds, and nothing if these are all
that are left. -/
theorem exists_seeks {fuel : Nat} {w : UInt32} (hpos : 0 < fuel)
    (hle : w.toNat + fuel ≤ maxSuffix + 1)
    (hall : seekSuffix used name fuel w.toNat = none → w.toNat + fuel = maxSuffix + 1) :
    ∃ rounds ≤ fuel, ∃ outcome, Seeks used name w rounds outcome ∧
      outcome.map UInt32.toNat = seekSuffix used name fuel w.toNat := by
  induction fuel generalizing w with
  | zero => exact absurd hpos (Nat.lt_irrefl 0)
  | succ fuel ih =>
    rw [seekSuffix] at hall ⊢
    by_cases htaken : numbered name w.toNat ∈ used
    · rw [if_pos (List.contains_iff_mem.mpr htaken)] at hall ⊢
      cases hnext : wordAfter? w with
      | none =>
        have hmax := wordAfter?_eq_none.mp hnext
        obtain rfl : fuel = 0 := by omega
        exact ⟨1, le_rfl, none, .last htaken hnext, rfl⟩
      | some v =>
        have hv := wordAfter?_eq_some.mp hnext
        rw [← hv] at hall ⊢
        have hfuel : 0 < fuel := by
          by_contra h0
          obtain rfl : fuel = 0 := by omega
          have hend := hall rfl
          have hlt := v.toNat_lt
          rw [maxSuffix] at hend
          omega
        obtain ⟨rounds, hrounds, outcome, hseeks, houtcome⟩ :=
          ih (w := v) hfuel (by omega) fun hnone => by have := hall hnone; omega
        exact ⟨rounds + 1, by omega, outcome, .next htaken hnext hseeks, houtcome⟩
    · rw [if_neg (mt List.contains_iff_mem.mp htaken)]
      exact ⟨1, by omega, some w, .free htaken, rfl⟩

/-- The search from every word ends, at what is chosen. -/
theorem exists_seeks_freeSuffix (used : List String) (name : String) (w : UInt32) :
    ∃ rounds ≤ used.length + 1, ∃ outcome, Seeks used name w rounds outcome ∧
      outcome.map UInt32.toNat = freeSuffix used name w.toNat := by
  have hlt := w.toNat_lt
  have hmax : maxSuffix + 1 = 2 ^ 32 := by decide
  obtain ⟨rounds, hrounds, h⟩ := @exists_seeks used name
    (min (used.length + 1) (maxSuffix + 1 - w.toNat)) w (by omega) (by omega) fun hnone => by
      have := fuel_le_of_seekSuffix hnone
      omega
  exact ⟨rounds, by omega, h⟩

/-! ## The least free number -/

/-- The numbers that the search can give. -/
def freeNumbers (used : List String) (name : String) (start : Nat) : Set Nat :=
  {n | start ≤ n ∧ n < UInt32.size ∧ numbered name n ∉ used}

theorem freeSuffix_mem (h : freeSuffix used name start = some n) :
    IsLeast (freeNumbers used name start) n := by
  rw [freeSuffix, seekSuffix_eq_find?, List.find?_range'_eq_some] at h
  obtain ⟨hfree, hmem, htaken⟩ := h
  rw [List.mem_range'_1] at hmem
  have hsize : UInt32.size = maxSuffix + 1 := by decide
  refine ⟨⟨hmem.1, by omega, by simpa using hfree⟩, fun m hm => ?_⟩
  by_contra hlt
  have := htaken m hm.1 (Nat.lt_of_not_le hlt)
  exact hm.2.2 (by simpa using this)

/-- Up to the least free number all are taken, so it is within reach. -/
theorem freeSuffix_of_isLeast (h : IsLeast (freeNumbers used name start) n) :
    freeSuffix used name start = some n := by
  obtain ⟨⟨hle, hlt, hfree⟩, hleast⟩ := h
  have hsize : UInt32.size = maxSuffix + 1 := by decide
  have htaken : ∀ m, start ≤ m → m < n → numbered name m ∈ used := fun m hm hmn => by
    by_contra hfree
    exact absurd (hleast ⟨hm, hmn.trans hlt, hfree⟩) (Nat.not_le.mpr hmn)
  have hcount : n - start ≤ used.length := by
    refine @fuel_le_of_seekSuffix used name (n - start) start ?_
    rw [seekSuffix_eq_find?, List.find?_eq_none]
    intro m hm
    rw [List.mem_range'_1] at hm
    simpa using htaken m hm.1 (by omega)
  rw [freeSuffix, seekSuffix_eq_find?, List.find?_range'_eq_some]
  refine ⟨by simpa using hfree, List.mem_range'_1.mpr ⟨hle, by omega⟩, fun m hm hmn => ?_⟩
  simpa using htaken m hm hmn

theorem freeSuffix_eq_some : freeSuffix used name start = some n ↔
    IsLeast (freeNumbers used name start) n := ⟨freeSuffix_mem, freeSuffix_of_isLeast⟩

theorem freeSuffix_eq_none : freeSuffix used name start = none ↔
    freeNumbers used name start = ∅ := by
  constructor
  · intro h
    by_contra hne
    obtain ⟨m, hm⟩ := Set.nonempty_iff_ne_empty.mpr hne
    obtain ⟨n, hn⟩ : ∃ n, IsLeast (freeNumbers used name start) n :=
      ⟨sInf (freeNumbers used name start), Nat.sInf_mem ⟨m, hm⟩, fun k hk => Nat.sInf_le hk⟩
    rw [freeSuffix_of_isLeast hn] at h
    cases h
  · intro h
    cases hfree : freeSuffix used name start with
    | none => rfl
    | some n =>
      have hmem := (freeSuffix_mem hfree).1
      rw [h] at hmem
      exact hmem.elim

/-! ## Labels -/

/-- An app keeps its name as long as that is not used. Otherwise the search ends after as many rounds
at most as there are used labels, and one more, and the app gets the least free number, or none if
there is none. -/
theorem autoLabel_least (ctx : Context) (w : UInt32) (hw : ctx.config.labelSuffixStart = w.toNat)
    (name : String) (used : List String) :
    (name ∉ used → ctx.autoLabel name used = some name) ∧
    (name ∈ used →
      (∃ rounds ≤ used.length + 1, ∃ outcome, Seeks used name w rounds outcome ∧
        ctx.autoLabel name used =
          outcome.map fun v => numbered name v.toNat ++ ": " ++ name) ∧
      ∀ app, ctx.autoLabel name used = some app ↔
        ∃ n, IsLeast (freeNumbers used name w.toNat) n ∧ app = numbered name n ++ ": " ++ name) ∧
    (ctx.autoLabel name used = none ↔ name ∈ used ∧
      ∀ n, w.toNat ≤ n → n < UInt32.size → numbered name n ∈ used) ∧
    ∀ app, ctx.autoLabel name used = some app →
      ∃ label, label ∉ used ∧ (app = label ∧ label = name ∨ app = label ++ ": " ++ name) := by
  have hbare : name ∉ used → ctx.autoLabel name used = some name := fun hn => by
    rw [Context.autoLabel, if_neg (mt List.contains_iff_mem.mp hn)]
  have htaken : name ∈ used → ctx.autoLabel name used =
      (freeSuffix used name w.toNat).map fun n => numbered name n ++ ": " ++ name := fun hn => by
    rw [Context.autoLabel, if_pos (List.contains_iff_mem.mpr hn), hw]
  refine ⟨hbare, fun hn => ⟨?_, fun app => ?_⟩, ?_, fun app happ => ?_⟩
  · obtain ⟨rounds, hrounds, outcome, hseeks, houtcome⟩ := exists_seeks_freeSuffix used name w
    refine ⟨rounds, hrounds, outcome, hseeks, ?_⟩
    rw [htaken hn, ← houtcome, Option.map_map]
    rfl
  · rw [htaken hn, Option.map_eq_some_iff]
    exact exists_congr fun n => and_congr freeSuffix_eq_some eq_comm
  · by_cases hn : name ∈ used
    · simp only [htaken hn, Option.map_eq_none_iff, freeSuffix_eq_none, Set.eq_empty_iff_forall_notMem,
        freeNumbers, Set.mem_ofPred_eq, not_and, not_not, hn, true_and]
    · simp [hbare hn, hn]
  · cases offers_of_autoLabel happ with
    | bare hn => exact ⟨name, hn, .inl ⟨rfl, rfl⟩⟩
    | @labelled n hn => exact ⟨numbered name n, hn, .inr rfl⟩

/-- Where only two words are left to try. -/
def lastWords : Context :=
  { store := .unreachable, registry := .ofList [], config := { labelSuffixStart := 4294967294 } }

/-- The last word is tried, and none after it. -/
theorem autoLabel_least_last : lastWords.config.labelSuffixStart = (4294967294 : UInt32).toNat ∧
    "a" ∈ ["a", "a4294967294"] ∧
    (∃ rounds ≤ 3, ∃ outcome, Seeks ["a", "a4294967294"] "a" 4294967294 rounds outcome ∧
      lastWords.autoLabel "a" ["a", "a4294967294"] =
        outcome.map fun v => numbered "a" v.toNat ++ ": " ++ "a") ∧
    lastWords.autoLabel "a" ["a", "a4294967294"] = some "a4294967295: a" ∧
    lastWords.autoLabel "a" ["a4294967295", "a4294967294", "a"] = none := by
  have hsearch := ((autoLabel_least lastWords 4294967294 rfl "a" ["a", "a4294967294"]).2.1
    (by decide)).1
  have hnone := (autoLabel_least lastWords 4294967294 rfl "a"
    ["a4294967295", "a4294967294", "a"]).2.2.1
  refine ⟨rfl, by decide, hsearch, by decide +kernel, hnone.mpr ⟨by decide, fun n hle hlt => ?_⟩⟩
  obtain rfl | rfl : n = 4294967294 ∨ n = 4294967295 := by
    change 4294967294 ≤ n at hle
    change n < 4294967296 at hlt
    omega
  · decide +kernel
  · decide +kernel

end Pipework.Completion
