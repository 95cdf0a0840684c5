import Pipework.Proofs.Parser.Reads
import Pipework.Proofs.Token.Sight

/-! What a parser that repeats a step reads: the texts of the things found, one after the other. -/

namespace Pipework.Parser

open Token

variable {σ τ α β : Type}

/-- The tokens, as they are seen, are those of the items, each of which is written as `Item` says. -/
inductive Many (Item : List τ → β → Prop) : List τ → List β → Prop
  | nil : Many Item [] []
  | cons {vs ws : List τ} {b : β} {bs : List β} :
      Item vs b → Many Item ws bs → Many Item (vs ++ ws) (b :: bs)

/-- What `Item` writes, after a separator. -/
inductive After (separator : Kind) (Item : List View → β → Prop) : List View → β → Prop
  | mk {v : View} {vs : List View} {b : β} : v.kind = separator → Item vs b →
      After separator Item (v :: vs) b

/-- What `Item` derives from tokens that stand after a separator. -/
inductive Behind (separator : Kind) (Item : List Sight → β → Prop) : List Sight → β → Prop
  | mk {v : Sight} {vs : List Sight} {b : β} : v.kind = separator → Item vs b →
      Behind separator Item (v :: vs) b

namespace Many

variable {Item Item' : List τ → β → Prop} {vs : List τ} {bs : List β}

theorem mono (h : Many Item vs bs) (hi : ∀ vs b, b ∈ bs → Item vs b → Item' vs b) :
    Many Item' vs bs := by
  induction h with
  | nil => exact .nil
  | cons hb _ ih =>
    exact .cons (hi _ _ (by simp) hb) (ih fun vs b hm hb => hi vs b (by simp [hm]) hb)

theorem append {ws : List τ} {cs : List β} (h : Many Item vs bs) (h' : Many Item ws cs) :
    Many Item (vs ++ ws) (bs ++ cs) := by
  induction h with
  | nil => exact h'
  | cons hb _ ih =>
    rw [List.append_assoc]
    exact .cons hb ih

theorem exists_append {bs cs : List β} (h : Many Item vs (bs ++ cs)) :
    ∃ us ws, vs = us ++ ws ∧ Many Item us bs ∧ Many Item ws cs := by
  induction bs generalizing vs with
  | nil => exact ⟨[], vs, rfl, .nil, h⟩
  | cons b bs ih =>
    cases h with
    | @cons us _ _ _ hb h =>
      obtain ⟨ws, xs, rfl, hw, hx⟩ := ih h
      exact ⟨us ++ ws, xs, (List.append_assoc _ _ _).symm, .cons hb hw, hx⟩

theorem forall_mem {P : τ → Prop} (hi : ∀ {vs b}, Item vs b → ∀ v ∈ vs, P v)
    (h : Many Item vs bs) : ∀ v ∈ vs, P v := by
  induction h with
  | nil => simp
  | cons hb _ ih =>
    rw [List.forall_mem_append]
    exact ⟨hi hb, ih⟩

theorem forall_item {P : β → Prop} (h : Many Item vs bs) (hi : ∀ {vs b}, Item vs b → P b) :
    ∀ b ∈ bs, P b := by
  induction h with
  | nil => simp
  | cons hb _ ih => exact List.forall_mem_cons.mpr ⟨hi hb, ih⟩

/-- What can come before the rest can come before items too. -/
theorem follow {Follow : List τ → Prop} {rest : List τ} (h : Many Item vs bs)
    (follows : ∀ {vs b}, Item vs b → ∀ ws, Follow ws → Follow (vs ++ ws)) (hr : Follow rest) :
    Follow (vs ++ rest) := by
  induction h with
  | nil => exact hr
  | cons hi _ ih =>
    rw [List.append_assoc]
    exact follows hi _ ih

/-- Seen with less, the tokens of items are those of items with less. -/
theorem map {As : List σ → α → Prop} {us : List σ} {as : List α} {f : σ → τ} {g : α → β}
    (h : Many As us as) (hi : ∀ {us a}, As us a → Item (us.map f) (g a)) :
    Many Item (us.map f) (as.map g) := by
  induction h with
  | nil => exact .nil
  | cons ha _ ih =>
    rw [List.map_append, List.map_cons]
    exact .cons (hi ha) ih

theorem exists_map {As : List σ → α → Prop} {us : List σ} {f : σ → τ} {g : α → β}
    (h : Many Item (us.map f) bs) (hi : ∀ {us b}, Item (us.map f) b → ∃ a, As us a ∧ g a = b) :
    ∃ as, Many As us as ∧ as.map g = bs := by
  generalize hv : us.map f = vs at h
  induction h generalizing us with
  | nil =>
    obtain rfl := List.map_eq_nil_iff.mp hv
    exact ⟨[], .nil, rfl⟩
  | cons hb _ ih =>
    obtain ⟨us, ws, rfl, rfl, hw⟩ := List.map_eq_append_iff.mp hv
    obtain ⟨a, ha, rfl⟩ := hi hb
    obtain ⟨as, has, rfl⟩ := ih hw
    exact ⟨a :: as, .cons ha has, rfl⟩

theorem map_iff {f : σ → τ} {us : List σ} :
    Many Item (us.map f) bs ↔ Many (fun us b => Item (us.map f) b) us bs := by
  constructor
  · intro h
    obtain ⟨as, has, rfl⟩ := h.exists_map (g := id) fun hb => ⟨_, hb, rfl⟩
    rwa [List.map_id]
  · intro h
    have := h.map (g := id) fun hb => hb
    rwa [List.map_id] at this

/-- What items end with, if there are any, is where the tokens end. -/
theorem stop_eq {Item : List Sight → α → Prop} {stop : α → Nat} {us vs : List Sight} {as : List α}
    (h : Many Item vs as) (hi : ∀ {vs a}, Item vs a → vs ≠ [] ∧ stop a = stopOf vs) :
    (as.getLast?.map stop).getD (stopOf us) = stopOf (us ++ vs) := by
  induction h generalizing us with
  | nil => rw [List.append_nil]; rfl
  | @cons vs ws a as ha has ih =>
    obtain ⟨hne, ha⟩ := hi ha
    rw [← List.append_assoc, ← ih, stopOf_append us hne, ← ha]
    cases hlast : as.getLast? with
    | none =>
      obtain rfl := List.getLast?_eq_none_iff.mp hlast
      rfl
    | some b => simp [List.getLast?_cons, hlast]

end Many

namespace Behind

variable {separator : Kind} {Item : List Sight → α → Prop} {Item' : List View → β → Prop}

theorem mono {Item'' : List Sight → α → Prop} {vs : List Sight} {a : α}
    (h : Behind separator Item vs a) (hi : ∀ {vs}, Item vs a → Item'' vs a) :
    Behind separator Item'' vs a := by
  obtain ⟨hv, ha⟩ := h
  exact .mk hv (hi ha)

theorem after {strip : α → β} {vs : List Sight} {a : α} (h : Behind separator Item vs a)
    (hi : ∀ {vs a}, Item vs a → Item' (vs.map Sight.toView) (strip a)) :
    After separator Item' (vs.map Sight.toView) (strip a) := by
  obtain ⟨hv, ha⟩ := h
  exact .mk hv (hi ha)

theorem of_after {strip : α → β} {vs : List Sight} {b : β}
    (h : After separator Item' (vs.map Sight.toView) b)
    (hi : ∀ {vs b}, Item' (vs.map Sight.toView) b → ∃ a, Item vs a ∧ strip a = b) :
    ∃ a, Behind separator Item vs a ∧ strip a = b := by
  generalize hw : vs.map Sight.toView = ws at h
  obtain ⟨hv, hb⟩ := h
  obtain ⟨v, vs, rfl, rfl, rfl⟩ := List.map_eq_cons_iff.mp hw
  obtain ⟨a, ha, rfl⟩ := hi hb
  exact ⟨a, .mk hv ha, rfl⟩

end Behind

/-! ## What is read is derived -/

section

variable {step : Parser (Option α)} {c d : Cursor}

theorem reads_many_nil (h : Reads (many step) c [] d) :
    (c.ahead = [] ∧ d = c) ∨ Reads step c none d := by
  obtain ⟨_, e, hg, h⟩ := reads_bind.mp h
  rw [(reads_get.mp hg).1, (reads_get.mp hg).2] at h
  generalize hn : c.ahead.length = n at h
  cases n with
  | zero => exact .inl ⟨List.length_eq_zero_iff.mp hn, (reads_pure.mp h).2⟩
  | succ n =>
    obtain ⟨a?, e, hs, h⟩ := reads_bind.mp h
    cases a? with
    | none =>
      obtain ⟨-, rfl⟩ := reads_pure.mp h
      exact .inr hs
    | some a =>
      obtain ⟨as, e', -, h⟩ := reads_bind.mp h
      cases (reads_pure.mp h).1

/-- A repetition goes on to the end of the text or to where a step finds nothing. -/
theorem reads_many_end
    (found : ∀ {c a d}, Reads step c (some a) d → d.ahead.length < c.ahead.length) {as : List α}
    (h : Reads (many step) c as d) : d.ahead = [] ∨ ∃ e, Reads step e none d := by
  obtain ⟨_, _, hg, h⟩ := reads_bind.mp h
  obtain ⟨rfl, rfl⟩ := reads_get.mp hg
  suffices hw : ∀ fuel {c as}, Reads (manyWithin step fuel) c as d → c.ahead.length ≤ fuel →
      d.ahead = [] ∨ ∃ e, Reads step e none d from hw _ h (Nat.le_refl _)
  clear h
  intro fuel
  induction fuel with
  | zero =>
    intro c as h hf
    obtain ⟨-, rfl⟩ := reads_pure.mp h
    exact .inl (List.length_eq_zero_iff.mp (Nat.le_zero.mp hf))
  | succ fuel ih =>
    intro c as h hf
    obtain ⟨_ | a, e, hs, h⟩ := reads_bind.mp h
    · obtain ⟨-, rfl⟩ := reads_pure.mp h
      exact .inr ⟨c, hs⟩
    · obtain ⟨as, e', hm, h⟩ := reads_bind.mp h
      obtain ⟨-, rfl⟩ := reads_pure.mp h
      have := found hs
      exact ih hm (by omega)

theorem reads_many_of_none (h : Reads step c none c) : Reads (many step) c [] c := by
  refine reads_bind.mpr ⟨c, c, reads_get.mpr ⟨rfl, rfl⟩, ?_⟩
  cases c.ahead.length with
  | zero => exact reads_pure.mpr ⟨rfl, rfl⟩
  | succ n => exact reads_bind.mpr ⟨none, c, h, reads_pure.mpr ⟨rfl, rfl⟩⟩

section

variable (Item : List Sight → α → Prop) (Last : List Sight → Prop)

theorem reads_manyWithin
    (found : ∀ {c a d}, Reads step c (some a) d → ∃ vs, c.Passes vs d ∧ Item vs a)
    (ended : ∀ {c d}, Reads step c none d → ∃ vs, c.Passes vs d ∧ Last vs)
    (last_nil : Last []) (fuel : Nat) {as : List α} (h : Reads (manyWithin step fuel) c as d) :
    ∃ vs ws, c.Passes (vs ++ ws) d ∧ Many Item vs as ∧ Last ws := by
  induction fuel generalizing c as with
  | zero =>
    obtain ⟨rfl, rfl⟩ := reads_pure.mp h
    exact ⟨[], [], .refl _, .nil, last_nil⟩
  | succ fuel ih =>
    obtain ⟨a?, e, hs, h⟩ := reads_bind.mp h
    cases a? with
    | none =>
      obtain ⟨rfl, rfl⟩ := reads_pure.mp h
      obtain ⟨ws, hw, hl⟩ := ended hs
      exact ⟨[], ws, hw, .nil, hl⟩
    | some a =>
      obtain ⟨as, e', hm, h⟩ := reads_bind.mp h
      obtain ⟨rfl, rfl⟩ := reads_pure.mp h
      obtain ⟨vs, hv, hi⟩ := found hs
      obtain ⟨us, ws, hu, hus, hl⟩ := ih hm
      exact ⟨vs ++ us, ws, by rw [List.append_assoc]; exact hv.trans hu, .cons hi hus, hl⟩

/-- A repetition has read items, and then what the last step passed without finding an item. -/
theorem reads_many
    (found : ∀ {c a d}, Reads step c (some a) d → ∃ vs, c.Passes vs d ∧ Item vs a)
    (ended : ∀ {c d}, Reads step c none d → ∃ vs, c.Passes vs d ∧ Last vs)
    (last_nil : Last []) {as : List α} (h : Reads (many step) c as d) :
    ∃ vs ws, c.Passes (vs ++ ws) d ∧ Many Item vs as ∧ Last ws := by
  obtain ⟨_, _, hg, h⟩ := reads_bind.mp h
  obtain ⟨rfl, rfl⟩ := reads_get.mp hg
  exact reads_manyWithin Item Last found ended last_nil _ h

/-- The last step of a repetition mostly leaves the cursor where it is. -/
theorem many_of_reads
    (found : ∀ {c a d}, Reads step c (some a) d → ∃ vs, c.Passes vs d ∧ Item vs a)
    (ended : ∀ {c d}, Reads step c none d → d = c) {as : List α} (h : Reads (many step) c as d) :
    ∃ vs, c.Passes vs d ∧ Many Item vs as := by
  obtain ⟨vs, ws, hp, hm, rfl⟩ := reads_many Item (· = []) found
    (fun hn => ⟨[], ended hn ▸ .refl _, rfl⟩) rfl h
  exact ⟨vs, by rwa [List.append_nil] at hp, hm⟩

end

/-! ## What is derived is read -/

/-- Items can be read one after another: each before whatever may follow it, as an item may. -/
structure Repeats (step : Parser (Option α)) (Item : List Sight → α → Prop)
    (Follow : List View → Prop) : Prop where
  reads : ∀ {c vs a ws}, Item vs a → Follow (ws.map Sight.toView) → c.sights = vs ++ ws →
    ∃ d, Reads step c (some a) d ∧ c.Passes vs d
  ne_nil : ∀ {vs a}, Item vs a → vs ≠ []
  follows : ∀ {vs a}, Item vs a → ∀ ws, Follow ws → Follow (vs.map Sight.toView ++ ws)

theorem Repeats.follow {Item : List Sight → α → Prop} {Follow : List View → Prop}
    {vs rest : List Sight} {as : List α} (hstep : Repeats step Item Follow) (h : Many Item vs as)
    (hr : Follow (rest.map Sight.toView)) : Follow ((vs ++ rest).map Sight.toView) := by
  have hmany : Many (fun vs (_ : α) => ∀ ws, Follow ws → Follow (vs ++ ws))
      (vs.map Sight.toView) (as.map id) := h.map hstep.follows
  rw [List.map_append]
  exact hmany.follow (fun hi => hi) hr

section

variable {Item : List Sight → α → Prop} {Follow : List View → Prop} {rest : List Sight}
  (hstep : Repeats step Item Follow) (hr : Follow (rest.map Sight.toView)) (hne : rest ≠ [])

include hstep hr hne

/-- Items are passed, and then the repetition goes on. -/
theorem many_after {vs : List Sight} {as : List α} (h : Many Item vs as) (hc : c.sights = vs ++ rest) :
    ∃ d n, c.Passes vs d ∧ many step c = ((as ++ ·) <$> manyWithin step (n + 1)) d := by
  have hlen : vs.length < c.ahead.length := by
    rw [← Cursor.sights_length, hc, List.length_append]
    have := List.length_pos_iff.mpr hne
    omega
  -- Every item has a token, so fuel for all tokens ahead is more than the items need.
  suffices hw : ∀ fuel, vs.length < fuel → ∃ d n, c.Passes vs d ∧
      manyWithin step fuel c = ((as ++ ·) <$> manyWithin step (n + 1)) d from hw _ hlen
  clear hlen
  induction h generalizing c with
  | nil =>
    intro fuel hf
    obtain ⟨n, rfl⟩ := Nat.exists_eq_succ_of_ne_zero (Nat.ne_of_gt hf)
    exact ⟨c, n, .refl c, congrFun (id_map (manyWithin step (n + 1))).symm c⟩
  | @cons us ws a as hi hm ih =>
    intro fuel hf
    rw [List.length_append] at hf
    have hu := List.length_pos_iff.mpr (hstep.ne_nil hi)
    obtain ⟨n, rfl⟩ := Nat.exists_eq_succ_of_ne_zero (show fuel ≠ 0 by omega)
    rw [List.append_assoc] at hc
    obtain ⟨e, he, hv⟩ := hstep.reads hi (hstep.follow hm hr) hc
    obtain ⟨d, m, hp, hgo⟩ := ih (hv.left hc) n (by omega)
    refine ⟨d, m, hv.trans hp, ?_⟩
    have hstep : manyWithin step (n + 1) c = ((a :: ·) <$> manyWithin step n) e := by
      simp [manyWithin, bind, StateT.bind, show step c = _ from he, Except.bind, Functor.map,
        StateT.map, pure, StateT.pure]
    have hcons : (a :: as ++ · : List α → List α) = (a :: ·) ∘ (as ++ ·) := rfl
    rw [hstep, hcons, comp_map]
    exact congrArg (fun r => r >>= fun p => pure (a :: p.1, p.2)) hgo

/-- Items are read, and then what the last step passes. -/
theorem many_reads (last : List Sight)
    (ended : ∀ {c}, c.sights = rest → ∃ d, Reads step c none d ∧ c.Passes last d)
    {vs : List Sight} {as : List α} (h : Many Item vs as) (hc : c.sights = vs ++ rest) :
    ∃ d, Reads (many step) c as d ∧ c.Passes (vs ++ last) d := by
  obtain ⟨e, n, hp, hgo⟩ := many_after hstep hr hne h hc
  obtain ⟨d, hd, hl⟩ := ended (hp.left hc)
  have hnil : Reads (manyWithin step (n + 1)) e [] d :=
    reads_bind.mpr ⟨none, d, hd, reads_pure.mpr ⟨rfl, rfl⟩⟩
  exact ⟨d, hgo.trans (reads_map.mpr ⟨[], hnil, (List.append_nil as).symm⟩), hp.trans hl⟩

/-- The last step mostly leaves the cursor where it is. -/
theorem reads_many_of (ended : ∀ {c}, c.sights = rest → Reads step c none c)
    {vs : List Sight} {as : List α} (h : Many Item vs as) (hc : c.sights = vs ++ rest) :
    ∃ d, Reads (many step) c as d ∧ c.Passes vs d := by
  obtain ⟨d, hd, hp⟩ := many_reads hstep hr hne [] (fun hc => ⟨_, ended hc, .refl _⟩) h hc
  exact ⟨d, hd, by rwa [List.append_nil] at hp⟩

end

end

end Pipework.Parser
