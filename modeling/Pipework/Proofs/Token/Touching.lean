import Pipework.Proofs.Token.Sight
import Pipework.Proofs.Token.Tiling

/-! Tokens that touch each other stand on characters in a row. -/

namespace Pipework.Token

open Text

/-- Tokens of these kinds can stand on these characters, with nothing between them. -/
inductive StandOn : List Kind → List Char → Prop
  | nil : StandOn [] []
  | cons {k : Kind} {ks : List Kind} {raw cs : List Char} : k.StandsOn raw → StandOn ks cs →
      StandOn (k :: ks) (raw ++ cs)

theorem StandOn.exists_append {ks ls : List Kind} {cs : List Char} (h : StandOn (ks ++ ls) cs) :
    ∃ as bs, cs = as ++ bs ∧ StandOn ks as ∧ StandOn ls bs := by
  induction ks generalizing cs with
  | nil => exact ⟨[], cs, rfl, .nil, h⟩
  | cons k ks ih =>
    cases h with
    | cons hk h =>
      obtain ⟨as, bs, rfl, has, hbs⟩ := ih h
      exact ⟨_, bs, (List.append_assoc _ _ _).symm, .cons hk has, hbs⟩

/-! ## Tokens of a text -/

variable {offset : Nat} {before cs : List Char} {ts : List Token} {last : Token} {v : Sight}
  {us vs ws : List Sight}

theorem stop_cons (v : Sight) (vs : List Sight) (n : Nat) :
    ((v :: vs).getLast?.map Sight.stop).getD n = (vs.getLast?.map Sight.stop).getD v.stop := by
  rw [List.getLast?_cons]
  cases vs.getLast? <;> rfl

/-- The tokens right behind another stand on the characters right behind it. -/
theorem Tiles.touching (h : Tiles offset cs ts) (hlast : last.stop = offset)
    (hts : sightsOf (some last) ts = vs ++ ws) (hk : ∀ v ∈ vs, v.kind ≠ .eof)
    (hg : ∀ v ∈ vs, v.glued = true) : ∃ raw rest, cs = raw ++ rest ∧
      StandOn (vs.map fun v => v.kind) raw ∧
        (vs.getLast?.map Sight.stop).getD offset = offset + byteLength raw := by
  induction h generalizing last vs with
  | @last gap t offset hgap he hstart hstop =>
    cases vs with
    | nil => exact ⟨[], gap, rfl, .nil, rfl⟩
    | cons v vs =>
      obtain rfl := (List.cons.inj hts).1
      exact absurd he (hk _ List.mem_cons_self)
  | @cons gap raw rest t ts offset hgap he hstands hraw hstart hstop htiles ih =>
    cases vs with
    | nil => exact ⟨[], _, rfl, .nil, rfl⟩
    | cons v vs =>
      obtain ⟨hv, hvs⟩ := List.cons.inj hts
      subst hv
      obtain ⟨hg₁, hg⟩ := List.forall_mem_cons.mp hg
      -- No white space fits between two tokens that touch each other.
      have htouch : last.stop = t.start := by simpa [sightOf, viewOf] using hg₁
      obtain rfl : gap = [] := byteLength_eq_zero.mp (by omega)
      obtain ⟨raw', rest', rfl, hraws, hend⟩ := ih rfl hvs (List.forall_mem_cons.mp hk).2 hg
      refine ⟨raw ++ raw', rest', by simp, .cons hstands hraws, ?_⟩
      rw [stop_cons, byteLength_append]
      simp only [byteLength_nil] at hstart
      have hv : (sightOf (some last) t).stop = t.stop := rfl
      rw [hv, hend]
      omega

/-- Tokens that touch each other stand on the characters from the first to the last of them. -/
theorem Tiles.slice_touching (h : Tiles offset cs ts) (hb : byteLength before = offset)
    {last : Option Token} (hts : sightsOf last ts = us ++ v :: vs ++ ws)
    (hk : ∀ w ∈ v :: vs, w.kind ≠ .eof) (hg : ∀ w ∈ vs, w.glued = true) :
    ∃ raw, slice? (before ++ cs) v.start (stopOf (v :: vs)) = some raw ∧
      StandOn ((v :: vs).map fun w => w.kind) raw := by
  induction h generalizing before last us with
  | @last gap t offset hgap he hstart hstop =>
    cases us with
    | nil =>
      obtain rfl := (List.cons.inj hts).1
      exact absurd he (hk _ List.mem_cons_self)
    | cons u us => simp [sightsOf] at hts
  | @cons gap raw rest t ts offset hgap he hstands hraw hstart hstop htiles ih =>
    cases us with
    | nil =>
      obtain ⟨hv, hvs⟩ := List.cons.inj hts
      subst hv
      obtain ⟨raw', rest', rfl, hraws, hend⟩ :=
        htiles.touching rfl hvs (List.forall_mem_cons.mp hk).2 hg
      refine ⟨raw ++ raw', ?_, .cons hstands hraws⟩
      have hslice := slice?_append (before ++ gap) (raw ++ raw') rest'
      have hv : (sightOf last t).stop = t.stop := rfl
      have hend' : byteLength (before ++ gap) + byteLength (raw ++ raw') =
          stopOf (sightOf last t :: vs) := by
        rw [stopOf, stop_cons, hv, hend]
        simp only [byteLength_append]
        omega
      have hstart' : byteLength (before ++ gap) = (sightOf last t).start := by
        rw [byteLength_append, hb]
        exact hstart.symm
      rw [hend', hstart'] at hslice
      simpa only [List.append_assoc] using hslice
    | cons u us =>
      have hstop' : byteLength (before ++ (gap ++ raw)) = t.stop := by
        simp only [byteLength_append]
        omega
      have := ih hstop' (List.cons.inj hts).2
      simpa only [List.append_assoc] using this

theorem slice_touching {text : String} (h : tokenize text = .ok ts)
    (hts : sightsOf none ts.dropLast = us ++ v :: vs ++ ws) (hg : ∀ w ∈ vs, w.glued = true) :
    ∃ raw, slice? text.toList v.start (stopOf (v :: vs)) = some raw ∧
      StandOn ((v :: vs).map fun w => w.kind) raw := by
  obtain ⟨w, -, -, hk⟩ := sights_ofTokens h
  obtain ⟨us', e, rfl, -, -⟩ := exists_eof_of_tokenize h
  rw [List.dropLast_concat] at hts hk
  obtain ⟨w, hw, -⟩ := sightsOf_append none us' e
  rw [hts, List.append_assoc _ ws] at hw
  refine @Tiles.slice_touching 0 [] _ _ _ _ _ _ (tiles_of_tokenize h) rfl _ hw
    (fun w hw => hk w ?_) hg
  rw [hts]
  exact List.mem_append_left _ (List.mem_append_right _ hw)

/-! ## Extents -/

theorem exists_startOf (h : vs ≠ []) : ∃ v ∈ vs, startOf vs = v.start := by
  obtain ⟨v, vs, rfl⟩ := List.exists_cons_of_ne_nil h
  exact ⟨v, List.mem_cons_self, rfl⟩

theorem exists_stopOf (h : vs ≠ []) : ∃ v ∈ vs, stopOf vs = v.stop := by
  refine ⟨vs.getLast h, List.getLast_mem h, ?_⟩
  rw [stopOf, List.getLast?_eq_getLast_of_ne_nil h]
  rfl

/-- Tokens that stand in a row, each behind the one before it. -/
def InOrder (vs : List Sight) : Prop :=
  (∀ v ∈ vs, v.start < v.stop) ∧ vs.Pairwise fun v w => v.stop ≤ w.start

/-- Tokens in order lie between the start of the first and the end of the last. -/
theorem InOrder.between (h : InOrder vs) (hv : v ∈ vs) :
    startOf vs ≤ v.start ∧ v.stop ≤ stopOf vs := by
  obtain ⟨hne, ho⟩ := h
  constructor
  · obtain ⟨first, rest, rfl⟩ := List.exists_cons_of_ne_nil (List.ne_nil_of_mem hv)
    obtain rfl | hv := List.mem_cons.mp hv
    · exact le_rfl
    · have := (List.pairwise_cons.mp ho).1 v hv
      have := hne first List.mem_cons_self
      change first.start ≤ v.start
      omega
  · obtain rfl | ⟨rest, last, rfl⟩ := List.eq_nil_or_concat vs
    · cases hv
    · rw [List.concat_eq_append] at *
      have hstop : stopOf (rest ++ [last]) = last.stop := stopOf_append rest (by simp)
      rw [hstop]
      obtain hv | hv := List.mem_append.mp hv
      · have := (List.pairwise_append.mp ho).2.2 v hv last (by simp)
        have := hne last (by simp)
        omega
      · rw [List.mem_singleton.mp hv]

/-- Of tokens in order, those within the extent of some in a row are just these. -/
theorem InOrder.filter_extent (h : InOrder (us ++ vs ++ ws)) (hvs : vs ≠ []) :
    (us ++ vs ++ ws).filter (fun v => decide (startOf vs ≤ v.start ∧ v.start < stopOf vs)) = vs := by
  obtain ⟨hne, ho⟩ := h
  obtain ⟨⟨-, hvs', hbefore⟩, -, hafter⟩ := by simpa only [List.pairwise_append] using ho
  obtain ⟨first, hfirst, hstart⟩ := exists_startOf hvs
  obtain ⟨last, hlast, hstop⟩ := exists_stopOf hvs
  have hu : ∀ u ∈ us, ¬ (startOf vs ≤ u.start ∧ u.start < stopOf vs) := fun u hu => by
    have := hbefore u hu first hfirst
    have := hne u (by simp [hu])
    omega
  have hw : ∀ w ∈ ws, ¬ (startOf vs ≤ w.start ∧ w.start < stopOf vs) := fun w hw => by
    have := hafter last (by simp [hlast]) w hw
    omega
  have hv : ∀ v ∈ vs, startOf vs ≤ v.start ∧ v.start < stopOf vs := fun v hv => by
    have := InOrder.between ⟨fun w hw => hne w (by simp [hw]), hvs'⟩ hv
    have := hne v (by simp [hv])
    omega
  rw [List.filter_append, List.filter_append, List.filter_eq_nil_iff.mpr (by simpa using hu),
    List.filter_eq_self.mpr (by simpa using hv), List.filter_eq_nil_iff.mpr (by simpa using hw),
    List.nil_append, List.append_nil]

/-! ## Marks -/

/-- What a token is and where it stands, seen by itself. -/
def mark (t : Token) : Kind × Nat × Nat := (t.kind, t.start, t.stop)

def Sight.mark (v : Sight) : Kind × Nat × Nat := (v.kind, v.start, v.stop)

theorem sightsOf_marks (last : Option Token) (ts : List Token) :
    (sightsOf last ts).map Sight.mark = ts.map mark := by
  induction ts generalizing last with
  | nil => rfl
  | cons t ts ih => rw [sightsOf, List.map_cons, ih]; rfl

/-- Tokens that are chosen by their marks are the same, seen from one another or not. -/
theorem starts_filter {q : Kind × Nat × Nat → Bool} (hq : ∀ m, q (.eof, m) = false) {text : String}
    (h : tokenize text = .ok ts) : (ts.filter fun t => q t.mark).map Token.start =
      ((sightsOf none ts.dropLast).filter fun v => q v.mark).map Sight.start := by
  obtain ⟨us, e, rfl, he, -⟩ := exists_eof_of_tokenize h
  have hlast : q e.mark = false := by rw [mark, he, hq]
  have hmarks := congrArg (fun ms => (ms.filter q).map fun m => m.2.1) (sightsOf_marks none us)
  simp only [List.filter_map, List.map_map, Function.comp_def] at hmarks
  rw [List.dropLast_concat, List.filter_append, List.filter_cons_of_neg (by simp [hlast]),
    List.filter_nil, List.append_nil]
  exact hmarks.symm

/-- The tokens of a text before `eof` are in order. -/
theorem inOrder_of_tokenize {text : String} (h : tokenize text = .ok ts) :
    InOrder (sightsOf none ts.dropLast) := by
  obtain ⟨hends, hnonempty, hordered, -, -⟩ := tokenize_lossless h
  obtain ⟨us, e, rfl, hus, -⟩ := hends
  rw [List.dropLast_concat]
  have hmarks := sightsOf_marks none us
  constructor
  · have hlt : ∀ m ∈ us.map mark, m.2.1 < m.2.2 :=
      List.forall_mem_map.mpr fun t ht => hnonempty t (by simp [ht]) (hus t ht)
    rw [← hmarks] at hlt
    exact List.forall_mem_map.mp hlt
  · have hle : (us.map mark).Pairwise fun m n => m.2.2 ≤ n.2.1 :=
      List.pairwise_map.mpr (List.pairwise_append.mp hordered).1
    rw [← hmarks] at hle
    exact List.pairwise_map.mp hle

end Pipework.Token
