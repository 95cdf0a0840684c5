import Pipework.Argument.Parser
import Pipework.Proofs.Parser.Repetition

/-! How arguments are written, as a grammar over views, and that the parser of arguments reads
exactly what it derives. -/

namespace Pipework

namespace Argument

open Token Pipework.Parser

/-- The texts of the tokens that can be values. -/
def valueText? : Kind → Option String
  | .identifier text | .number text | .literal text => some text
  | _ => none

theorem ne_eof_of_valueText? {k : Kind} {text : String} (h : valueText? k = some text) :
    k ≠ .eof := by
  rintro rfl
  cases h

/-- One more part of a dotted name. -/
inductive DottedPart : List View → String → Prop
  | mk {dot name : View} : dot.kind = .dot → dot.glued = true → name.kind.isName = true →
      name.glued = true → DottedPart [dot, name] ("." ++ name.kind.symbol)

/-- A dotted name. -/
inductive Dotted : List View → String → Prop
  | mk {first : View} {vs : List View} {parts : List String} : first.kind.isName = true →
      Many DottedPart vs parts → Dotted (first :: vs) (first.kind.symbol ++ String.join parts)

/-- An argument: white space stands before it and none inside. -/
inductive Spells : List View → Argument → Prop
  | mk {dashes first equals last : View} {vs : List View} {name value : String} :
      dashes.kind = .doubleMinus → dashes.glued = false → first.glued = true →
      Dotted (first :: vs) name → equals.kind = .equals → equals.glued = true →
      valueText? last.kind = some value → last.glued = true →
      Spells (dashes :: first :: vs ++ [equals, last]) ⟨name, value, 0, 0⟩

/-- The kinds of the tokens that arguments are made of. -/
def isInArgument : Kind → Bool
  | .identifier _ | .number _ | .literal _ | .doubleMinus | .dot | .equals => true
  | _ => false

theorem isInArgument_of_isName {k : Kind} (h : k.isName = true) : isInArgument k = true := by
  cases k <;> simp_all [Kind.isName, isInArgument]

theorem isInArgument_of_valueText? {k : Kind} {text : String} (h : valueText? k = some text) :
    isInArgument k = true := by
  cases k <;> simp_all [valueText?, isInArgument]

theorem Dotted.kinds {vs : List View} {name : String} (h : Dotted vs name) :
    ∀ v ∈ vs, isInArgument v.kind = true := by
  obtain ⟨hn, hm⟩ := h
  refine List.forall_mem_cons.mpr ⟨isInArgument_of_isName hn, hm.forall_mem fun h => ?_⟩
  obtain ⟨hk, -, hn, -⟩ := h
  simp only [List.forall_mem_cons, hk, isInArgument_of_isName hn, List.not_mem_nil]
  exact ⟨rfl, trivial, by simp⟩

theorem Spells.kinds {vs : List View} {a : Argument} (h : Spells vs a) :
    ∀ v ∈ vs, isInArgument v.kind = true := by
  obtain ⟨hk, -, -, hn, he, -, hv, -⟩ := h
  have hn := hn.kinds
  simp only [List.cons_append, List.forall_mem_cons, List.forall_mem_append, hk, he,
    isInArgument_of_valueText? hv] at hn ⊢
  exact ⟨rfl, hn.1, hn.2, rfl, trivial, by simp⟩

/-! ## Insertion -/

theorem insert_withoutPosition (as : List Argument) (a : Argument) :
    (insert as a).map withoutPosition = insert (as.map withoutPosition) a.withoutPosition := by
  induction as with
  | nil => rfl
  | cons b bs ih =>
    by_cases h : b.name = a.name
    · simp [insert, withoutPosition, h]
    · simp [insert, withoutPosition, h, ih]

theorem foldl_insert_withoutPosition (as bs : List Argument) :
    (bs.foldl insert as).map withoutPosition =
      (bs.map withoutPosition).foldl insert (as.map withoutPosition) := by
  induction bs generalizing as with
  | nil => rfl
  | cons b bs ih => rw [List.foldl_cons, ih, insert_withoutPosition, List.map_cons, List.foldl_cons]

theorem nodup_insert {as : List Argument} {a : Argument} (h : (as.map Argument.name).Nodup) :
    ((insert as a).map Argument.name).Nodup := by
  rw [names_insert]
  split
  · exact h
  · next ha =>
    refine List.nodup_append.mpr ⟨h, by simp, fun n hn m hm => ?_⟩
    rintro rfl
    exact ha (List.mem_singleton.mp hm ▸ hn)

theorem nodup_foldl_insert {as bs : List Argument} (h : (as.map Argument.name).Nodup) :
    ((bs.foldl insert as).map Argument.name).Nodup := by
  induction bs generalizing as with
  | nil => exact h
  | cons b bs ih => exact ih (nodup_insert h)

theorem forall_mem_insert {P : String → Prop} {as : List Argument} {a : Argument}
    (has : ∀ b ∈ as, P b.name) (ha : P a.name) : ∀ b ∈ insert as a, P b.name := by
  intro b hb
  have hn : b.name ∈ (insert as a).map Argument.name := List.mem_map_of_mem hb
  rw [names_insert] at hn
  split at hn
  · obtain ⟨c, hc, hn⟩ := List.mem_map.mp hn
    exact hn ▸ has c hc
  · rw [List.mem_append, List.mem_singleton] at hn
    obtain hn | hn := hn
    · obtain ⟨c, hc, hn⟩ := List.mem_map.mp hn
      exact hn ▸ has c hc
    · exact hn ▸ ha

theorem forall_mem_foldl_insert {P : String → Prop} {as bs : List Argument}
    (has : ∀ a ∈ as, P a.name) (hbs : ∀ b ∈ bs, P b.name) : ∀ a ∈ bs.foldl insert as, P a.name := by
  induction bs generalizing as with
  | nil => exact has
  | cons b bs ih =>
    rw [List.forall_mem_cons] at hbs
    exact ih (forall_mem_insert has hbs.1) hbs.2

theorem insert_of_notMem {as : List Argument} {a : Argument} (h : a.name ∉ as.map Argument.name) :
    insert as a = as ++ [a] := by
  induction as with
  | nil => rfl
  | cons b bs ih =>
    rw [List.map_cons, List.mem_cons, not_or] at h
    rw [insert, if_neg fun hb => h.1 hb.symm, ih h.2, List.cons_append]

theorem insert_ne_nil (as : List Argument) (a : Argument) : insert as a ≠ [] := by
  cases as with
  | nil => simp [insert]
  | cons b bs =>
    rw [insert]
    split <;> simp

theorem foldl_insert_eq_nil {as bs : List Argument} :
    bs.foldl insert as = [] ↔ as = [] ∧ bs = [] := by
  induction bs generalizing as with
  | nil => simp
  | cons b bs ih => simp [ih, insert_ne_nil]

/-- Arguments of different names are kept as they are. -/
theorem foldl_insert_eq {as bs : List Argument} (h : ((as ++ bs).map Argument.name).Nodup) :
    bs.foldl insert as = as ++ bs := by
  induction bs generalizing as with
  | nil => simp
  | cons b bs ih =>
    have hb : b.name ∉ as.map Argument.name := by
      rw [List.map_append, List.map_cons, List.nodup_append] at h
      exact fun hm => h.2.2 _ hm _ (by simp) rfl
    rw [List.foldl_cons, insert_of_notMem hb, ih (by simpa using h), List.append_assoc]
    rfl

/-! ## Spans -/

/-- An argument spans its tokens. -/
structure Derives (vs : List Sight) (a : Argument) : Prop where
  spells : Spells (vs.map Sight.toView) a.withoutPosition
  start : a.start = startOf vs
  stop : a.stop = stopOf vs

theorem Spells.exists_derives {vs : List Sight} {a : Argument} (h : Spells (vs.map Sight.toView) a) :
    ∃ b, Derives vs b ∧ b.withoutPosition = a := by
  obtain ⟨name, value, start, stop⟩ := a
  have hpos : start = 0 ∧ stop = 0 := by
    generalize vs.map Sight.toView = ws at h
    cases h
    exact ⟨rfl, rfl⟩
  obtain ⟨rfl, rfl⟩ := hpos
  exact ⟨⟨name, value, startOf vs, stopOf vs⟩, ⟨h, rfl, rfl⟩, rfl⟩

theorem Derives.exists_dashes {vs : List Sight} {a : Argument} (h : Derives vs a) :
    ∃ v ws, vs = v :: ws ∧ v.kind = .doubleMinus := by
  obtain ⟨hs, -, -⟩ := h
  generalize hus : vs.map Sight.toView = us at hs
  obtain ⟨hk, -⟩ := hs
  obtain ⟨v, ws, rfl, rfl, -⟩ := List.map_eq_cons_iff.mp hus
  exact ⟨v, ws, rfl, hk⟩

theorem many_spells {vs : List Sight} {as : List Argument} (h : Many Derives vs as) :
    Many Spells (vs.map Sight.toView) (as.map withoutPosition) := h.map fun ha => ha.spells

/-! ## What is read is written so -/

variable {c d : Cursor}

theorem reads_dottedRest {s : Option String} : Reads dottedRest c s d ↔
    (c.peek.kind = .dot ∧ c.adjacent = true ∧ c.next.2.peek.isName = true ∧
        c.next.2.adjacent = true ∧ s = some ("." ++ c.next.2.peek.text) ∧ d = c.next.2.next.2) ∨
      (c.peek.kind ≠ .dot ∧ s = none ∧ d = c) := by
  simp [dottedRest, reads_ite]
  grind

theorem reads_dottedName {s : String} : Reads dottedName c s d ↔
    c.peek.isName = true ∧ ∃ parts, Reads (many dottedRest) c.next.2 parts d ∧
      s = c.peek.text ++ String.join parts := by
  simp [dottedName, reads_ite]

theorem dottedPart_of_reads {s : String} (h : Reads dottedRest c (some s) d) :
    ∃ vs, c.Passes vs d ∧ DottedPart (vs.map Sight.toView) s := by
  obtain ⟨hk, ha, hn, hg, hs, rfl⟩ | ⟨-, h, -⟩ := reads_dottedRest.mp h
  · refine ⟨[c.sight, c.next.2.sight], ?_, ?_⟩
    · exact (Cursor.Passes.next (by simp [hk])).trans (.next (Kind.ne_eof_of_isName hn))
    · rw [Option.some.inj hs]
      exact .mk hk (c.glued_of_adjacent ha) hn (Cursor.glued_of_adjacent hg)
  · cases h

theorem dotted_of_reads {s : String} (h : Reads dottedName c s d) :
    ∃ vs, c.Passes (c.sight :: vs) d ∧ Dotted (c.view :: vs.map Sight.toView) s := by
  obtain ⟨hn, parts, hm, rfl⟩ := reads_dottedName.mp h
  obtain ⟨vs, hp, hparts⟩ := many_of_reads _ dottedPart_of_reads
    (fun hnone => by
      obtain ⟨-, -, -, -, hs, -⟩ | ⟨-, -, rfl⟩ := reads_dottedRest.mp hnone
      · cases hs
      · rfl) hm
  exact ⟨vs, (Cursor.Passes.next (Kind.ne_eof_of_isName hn)).trans hp,
    .mk hn (Many.map_iff.mpr hparts)⟩

theorem reads_argument? {a : Option Argument} : Reads argument? c a d ↔
    (c.peek.kind ≠ .doubleMinus ∧ a = none ∧ d = c) ∨
      (c.peek.kind = .doubleMinus ∧ c.adjacent = false ∧ c.next.2.adjacent = true ∧
        ∃ name e value, Reads dottedName c.next.2 name e ∧ e.peek.kind = .equals ∧
          e.adjacent = true ∧ valueText? e.next.2.peek.kind = some value ∧
          e.next.2.adjacent = true ∧ d = e.next.2.next.2 ∧
          a = some ⟨name, value, c.peek.start, e.next.2.peek.stop⟩) := by
  simp only [argument?, reads_bind, reads_peek, reads_ite, reads_pure, bne_iff_ne, beq_iff_eq,
    ne_eq, reads_adjacent, reads_refuseHere, reads_next, reads_hasNext, existsAndEq, true_and,
    reads_requireAdjacent, reads_peekKind, reads_eat, and_true, false_and, and_false, exists_false,
    false_or, exists_const, Decidable.not_not, Bool.not_eq_true, Kind.sameSort_eq, Kind.hasText,
    decide_eq_true_eq, Bool.false_eq_true, not_false_eq_true]
  constructor
  · rintro (h | ⟨hk, ha, ⟨-, hg, name, e, hn, ⟨he, hge, -, hv⟩ | ⟨h, h', -⟩⟩ | ⟨h, _, _, hn, -⟩⟩)
    · exact .inl h
    · refine .inr ⟨hk, ha, hg, name, e, ?_⟩
      split at hv <;> simp_all [valueText?]
    · exact absurd h' h
    · have := Kind.ne_eof_of_isName (reads_dottedName.mp hn).1
      simp_all [Cursor.hasNext]
  · rintro (h | ⟨hk, ha, hg, name, e, value, hn, he, hge, hv, hgv, rfl, rfl⟩)
    · exact .inl h
    · have := Kind.ne_eof_of_isName (reads_dottedName.mp hn).1
      refine .inr ⟨hk, ha, .inl ⟨by simp [Cursor.hasNext, this], hg, name, e, hn,
        .inl ⟨he, hge, he, ?_⟩⟩⟩
      cases hl : e.next.2.peek.kind <;> simp_all [valueText?]

theorem derives_of_reads {a : Argument} (h : Reads argument? c (some a) d) :
    ∃ vs, c.Passes vs d ∧ Derives vs a := by
  obtain ⟨-, h, -⟩ | ⟨hk, ha, hg, name, e, value, hn, he, hge, hv, hgv, rfl, hs⟩ :=
    reads_argument?.mp h
  · cases h
  · obtain rfl := Option.some.inj hs
    obtain ⟨vs, hvs, hd⟩ := dotted_of_reads hn
    refine ⟨c.sight :: c.next.2.sight :: vs ++ [e.sight, e.next.2.sight], ?_, ?_, rfl, ?_⟩
    · have hlast : e.Passes [e.sight, e.next.2.sight] e.next.2.next.2 :=
        (Cursor.Passes.next (by simp [he])).trans (.next (ne_eof_of_valueText? hv))
      exact ((Cursor.Passes.next (by simp [hk])).trans hvs).trans hlast
    · rw [List.map_append]
      exact .mk hk (Cursor.not_glued (by simp [hk]) ha) (Cursor.glued_of_adjacent hg) hd he
        (Cursor.glued_of_adjacent hge) hv (Cursor.glued_of_adjacent hgv)
    · rw [stopOf_append _ (by simp)]
      rfl

theorem many_derives_of_reads {as : List Argument} (h : Reads arguments c as d) :
    ∃ vs, c.Passes vs d ∧ Many Derives vs as := by
  refine many_of_reads Derives derives_of_reads (fun hn => ?_) h
  obtain ⟨-, -, rfl⟩ | ⟨-, -, -, _, _, _, -, -, -, -, -, -, h⟩ := reads_argument?.mp hn
  · rfl
  · cases h

/-! ## What is written so is read -/

theorem DottedPart.reads {vs rest : List Sight} {s : String} (h : DottedPart (vs.map Sight.toView) s)
    (hc : c.sights = vs ++ rest) : ∃ d, Reads dottedRest c (some s) d ∧ c.Passes vs d := by
  generalize hvs : vs.map Sight.toView = us at h
  obtain ⟨hk, hg, hn, hg'⟩ := h
  simp only [List.map_eq_cons_iff, List.map_eq_nil_iff] at hvs
  obtain ⟨dot, ws, rfl, rfl, name, _, rfl, rfl, rfl⟩ := hvs
  obtain ⟨hname, hadjacent, htext, hpass⟩ := Cursor.pass_gluedName hc (by simp [hk]) hn hg'
  refine ⟨_, reads_dottedRest.mpr (.inl ⟨?_, ?_, hname, hadjacent, ?_, rfl⟩), hpass⟩
  · rw [Cursor.peek_kind_of_sights hc, hk]
  · rw [Cursor.adjacent_of_sights hc, hg]
  · rw [htext]

theorem repeats_dottedRest :
    Repeats dottedRest (fun vs => DottedPart (vs.map Sight.toView)) fun _ => True where
  reads hi _ hc := hi.reads hc
  ne_nil hi := by
    rintro rfl
    cases hi
  follows _ _ _ := trivial

theorem Dotted.reads {first : Sight} {vs rest : List Sight} {s : String}
    (h : Dotted (first.toView :: vs.map Sight.toView) s) (hc : c.sights = first :: vs ++ rest)
    (hr : ∃ v ws, rest = v :: ws ∧ v.kind ≠ .dot) :
    ∃ e, Reads dottedName c s e ∧ c.Passes (first :: vs) e := by
  obtain ⟨hn, hm⟩ := h
  obtain ⟨v, ws, rfl, hd⟩ := hr
  have hp := Cursor.next_passes hc (Kind.ne_eof_of_isName hn)
  obtain ⟨e, hparts, hpe⟩ := reads_many_of repeats_dottedRest trivial (by simp)
    (fun hc => reads_dottedRest.mpr (.inr ⟨by rwa [Cursor.peek_kind_of_sights hc], rfl, rfl⟩))
    (Many.map_iff.mp hm) (hp.left hc)
  refine ⟨e, reads_dottedName.mpr ⟨?_, _, hparts, ?_⟩, hp.trans hpe⟩
  · rw [Cursor.isName_of_sights hc, hn]
  · rw [Cursor.text_of_sights hc]

theorem Derives.reads {vs rest : List Sight} {a : Argument} (h : Derives vs a)
    (hc : c.sights = vs ++ rest) : ∃ d, Reads argument? c (some a) d ∧ c.Passes vs d := by
  obtain ⟨name, value, start, stop⟩ := a
  obtain ⟨hs, rfl, rfl⟩ := h
  generalize hus : vs.map Sight.toView = us at hs
  rw [withoutPosition] at hs
  obtain ⟨hk, ha, hg, hn, he, hge, hv, hgv⟩ := hs
  simp only [List.map_eq_append_iff, List.map_eq_cons_iff, List.map_eq_nil_iff] at hus
  obtain ⟨front, back, rfl, ⟨dashes, us, rfl, rfl, first, zs, rfl, rfl, rfl⟩, equals, ys, rfl, rfl,
    last, _, rfl, rfl, rfl⟩ := hus
  have h₁ : c.sights = dashes :: (first :: zs ++ (equals :: last :: rest)) := by simpa using hc
  have hp₁ := Cursor.next_passes h₁ (by simp [hk])
  have h₂ := hp₁.left h₁
  obtain ⟨e, hne, hp₂⟩ := hn.reads h₂ ⟨_, _, rfl, by simp [he]⟩
  have h₃ := hp₂.left h₂
  have hp₃ := Cursor.next_passes h₃ (by simp [he])
  have h₄ := hp₃.left h₃
  have hp₄ := Cursor.next_passes h₄ (ne_eof_of_valueText? hv)
  refine ⟨_, reads_argument?.mpr (.inr ⟨?_, ?_, ?_, name, e, value, hne, ?_, ?_, ?_, ?_, rfl, ?_⟩),
    (hp₁.trans hp₂).trans (hp₃.trans hp₄)⟩
  · rw [Cursor.peek_kind_of_sights h₁, hk]
  · rw [Cursor.adjacent_of_sights h₁, ha]
  · rw [Cursor.adjacent_of_sights h₂, hg]
  · rw [Cursor.peek_kind_of_sights h₃, he]
  · rw [Cursor.adjacent_of_sights h₃, hge]
  · rw [Cursor.peek_kind_of_sights h₄, hv]
  · rw [Cursor.adjacent_of_sights h₄, hgv]
  · rw [Cursor.start_of_sights h₁, Cursor.stop_of_sights h₄, stopOf_append _ (by simp)]
    rfl

theorem repeats_argument? : Repeats argument? Derives fun _ => True where
  reads hi _ hc := hi.reads hc
  ne_nil hi := by
    rintro rfl
    cases hi.spells
  follows _ _ _ := trivial

theorem many_derives_reads {vs rest : List Sight} {as : List Argument} (h : Many Derives vs as)
    (hc : c.sights = vs ++ rest)
    (hr : ∃ v ws, rest.map Sight.toView = v :: ws ∧ v.kind ≠ .doubleMinus) :
    ∃ d, Reads arguments c as d ∧ c.Passes vs d := by
  obtain ⟨v, ws, hv, hd⟩ := hr
  have hne : rest ≠ [] := by
    rintro rfl
    cases hv
  refine reads_many_of repeats_argument? trivial hne (fun hc => ?_) h hc
  refine reads_argument?.mpr (.inl ⟨?_, rfl, rfl⟩)
  rwa [Cursor.peek_kind_of_views ((Cursor.views_of_sights hc).trans hv)]

end Argument

end Pipework
