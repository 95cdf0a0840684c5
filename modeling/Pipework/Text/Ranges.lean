/-! Sets of characters given by sorted, disjoint ranges of code points. -/

namespace Pipework.Text

abbrev Ranges := List (Nat × Nat)

/-- The ranges ascend, so the first one that starts above `n` ends the search. -/
def Ranges.contains : Ranges → Nat → Bool
  | [], _ => false
  | (low, high) :: rest, n => decide (low ≤ n) && (decide (n ≤ high) || Ranges.contains rest n)

theorem Ranges.exists_of_contains {ranges : Ranges} {n : Nat} (h : ranges.contains n = true) :
    ∃ r ∈ ranges, r.1 ≤ n ∧ n ≤ r.2 := by
  induction ranges with
  | nil => simp [contains] at h
  | cons r rest ih =>
    simp only [contains, Bool.and_eq_true, Bool.or_eq_true, decide_eq_true_eq] at h
    obtain ⟨hl, hh | ht⟩ := h
    · exact ⟨r, by simp, hl, hh⟩
    · obtain ⟨s, hs, hb⟩ := ih ht
      exact ⟨s, by simp [hs], hb⟩

end Pipework.Text
