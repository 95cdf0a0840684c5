import Pipework.Completion.Proposal
import Pipework.Proofs.Text.ByteOrder

/-! What is left of proposals when they are ordered: each text once, the shortest first, and not what
was typed already. -/

namespace Pipework.Completion

open Text

/-! ## Order -/

/-- Fewer bytes come first; as many bytes are compared one by one. -/
def Precedes (a b : String) : Prop :=
  (bytes a).length < (bytes b).length ∨
    (bytes a).length = (bytes b).length ∧ bytes a < bytes b

theorem before_iff {a b : String} : before a b = true ↔ Precedes a b := by
  simp only [before, Precedes, bytes_length, Bool.or_eq_true, Bool.and_eq_true, decide_eq_true_eq,
    beq_iff_eq, lt_iff_bytes_lt]

theorem Precedes.trans {a b c : String} (h : Precedes a b) (h' : Precedes b c) : Precedes a c := by
  obtain h | ⟨hl, h⟩ := h <;> obtain h' | ⟨hl', h'⟩ := h'
  · exact .inl (h.trans h')
  · exact .inl (hl' ▸ h)
  · exact .inl (hl ▸ h')
  · exact .inr ⟨hl.trans hl', List.lt_trans h h'⟩

theorem Precedes.of_not {a b : String} (hne : a ≠ b) (h : ¬ Precedes a b) : Precedes b a := by
  rw [Precedes, not_or, not_and] at h
  obtain hlt | heq := lt_or_eq_of_le (not_lt.mp h.1)
  · exact .inl hlt
  · refine .inr ⟨heq, lt_iff_bytes_lt.mp ((lt_or_gt_of_ne hne).resolve_left fun hlt => ?_)⟩
    exact h.2 heq.symm (lt_iff_bytes_lt.mp hlt)

/-! ## Insertion -/

theorem mem_texts_insert {ranked : List Proposal} {p : Proposal} {t : String} :
    t ∈ (insert ranked p).map Proposal.text ↔ t = p.text ∨ t ∈ ranked.map Proposal.text := by
  induction ranked with
  | nil => simp [insert]
  | cons q rest ih =>
    rw [insert]
    split
    · next he => simp [he]
    · split
      · simp
      · rw [List.map_cons, List.mem_cons, ih, List.map_cons, List.mem_cons]
        exact or_left_comm

theorem insert_increasing {ranked : List Proposal} {p : Proposal}
    (h : (ranked.map Proposal.text).Pairwise Precedes) :
    ((insert ranked p).map Proposal.text).Pairwise Precedes := by
  induction ranked with
  | nil => simp [insert]
  | cons q rest ih =>
    obtain ⟨hq, hrest⟩ := List.pairwise_cons.mp h
    rw [insert]
    split
    · exact h
    · next hne =>
      split
      · next hb =>
        have hpq := before_iff.mp hb
        exact .cons (List.forall_mem_cons.mpr ⟨hpq, fun t ht => hpq.trans (hq t ht)⟩) h
      · next hb =>
        have hqp := Precedes.of_not hne fun hp => hb (before_iff.mpr hp)
        refine .cons (fun t ht => ?_) (ih hrest)
        obtain rfl | ht := mem_texts_insert.mp ht
        · exact hqp
        · exact hq t ht

theorem mem_texts_foldl_insert {ranked proposals : List Proposal} {t : String} :
    t ∈ (proposals.foldl insert ranked).map Proposal.text ↔
      t ∈ proposals.map Proposal.text ∨ t ∈ ranked.map Proposal.text := by
  induction proposals generalizing ranked with
  | nil => simp
  | cons p proposals ih =>
    rw [List.foldl_cons, ih, mem_texts_insert, List.map_cons, List.mem_cons, or_left_comm, or_assoc]

theorem foldl_insert_increasing {ranked proposals : List Proposal}
    (h : (ranked.map Proposal.text).Pairwise Precedes) :
    ((proposals.foldl insert ranked).map Proposal.text).Pairwise Precedes := by
  induction proposals generalizing ranked with
  | nil => exact h
  | cons p proposals ih => exact ih (insert_increasing h)

/-! ## Ranking -/

/-- The texts are the first `limit` in order of those that are produced and were not typed. -/
structure IsRanked (typed : String) (Produced : String → Prop) (limit : Nat) (texts : List String) :
    Prop where
  increasing : texts.Pairwise Precedes
  notTyped : typed ∉ texts
  first : ∃ all : List String, all.Pairwise Precedes ∧
    (∀ t, t ∈ all ↔ t ≠ typed ∧ Produced t) ∧ texts = all.take limit

theorem rank_isRanked (typed : String) (proposals : List Proposal) (limit : Nat) :
    IsRanked typed (· ∈ proposals.map Proposal.text) limit
      ((rank typed proposals limit).map Proposal.text) := by
  let all := ((proposals.filter fun p => p.text != typed).foldl insert []).map Proposal.text
  have hincreasing : all.Pairwise Precedes := foldl_insert_increasing .nil
  have hmem (t : String) : t ∈ all ↔ t ≠ typed ∧ t ∈ proposals.map Proposal.text := by
    rw [mem_texts_foldl_insert, List.map_nil]
    simp only [List.mem_map, List.mem_filter, bne_iff_ne, List.not_mem_nil, or_false]
    constructor
    · rintro ⟨p, ⟨hp, hne⟩, rfl⟩
      exact ⟨hne, p, hp, rfl⟩
    · rintro ⟨hne, p, hp, rfl⟩
      exact ⟨p, ⟨hp, hne⟩, rfl⟩
  have htexts : (rank typed proposals limit).map Proposal.text = all.take limit := List.map_take
  rw [htexts]
  exact ⟨hincreasing.sublist (List.take_sublist ..),
    fun ht => ((hmem typed).mp (List.mem_of_mem_take ht)).1 rfl, all, hincreasing, hmem, rfl⟩

theorem exists_of_mem_rank {typed : String} {proposals : List Proposal} {limit : Nat} {p : Proposal}
    (h : p ∈ rank typed proposals limit) : ∃ q ∈ proposals, q.text = p.text := by
  obtain ⟨all, -, hmem, htake⟩ := (rank_isRanked typed proposals limit).first
  have htext : p.text ∈ all.take limit := htake ▸ List.mem_map_of_mem h
  exact List.mem_map.mp ((hmem p.text).mp (List.mem_of_mem_take htext)).2

theorem IsRanked.congr {typed : String} {Produced Produced' : String → Prop} {limit : Nat}
    {texts : List String} (h : IsRanked typed Produced limit texts)
    (hp : ∀ t, Produced t ↔ Produced' t) : IsRanked typed Produced' limit texts := by
  obtain ⟨all, hall, hmem, htake⟩ := h.first
  exact ⟨h.increasing, h.notTyped, all, hall, fun t => by rw [hmem, hp], htake⟩

end Pipework.Completion
