import Pipework.Proofs.Token.Spelling

/-! What the names among the views of a text can be: words, except that right after `=` a name can
be a value, which only the end of a value can touch. -/

namespace Pipework.Token

open Text

/-- The kind of a name that is a word. -/
def Kind.IsWord (k : Kind) : Prop := ∃ w, isNameWord w = true ∧ k = .ofName w

/-- The tokens that can touch a value. -/
def Kind.endsValue : Kind → Bool
  | .pipe | .doublePipe | .semicolon | .gt | .eof => true
  | _ => false

/-- What holds of the views of a text; `expects` tells that `=` was before them. -/
def Lexed : Bool → List View → Prop
  | _, [] => True
  | expects, v :: vs =>
    (v.kind.isName = true → v.kind.IsWord ∨ (expects = true ∧ v.glued = true ∧
      ∀ w ∈ vs.head?, w.glued = true → w.kind.endsValue = true)) ∧ Lexed (v.kind == .equals) vs

/-- The last of the views is `=`, or, if there are none, `=` was before them. -/
def endsEquals (expects : Bool) : List View → Bool
  | [] => expects
  | v :: vs => endsEquals (v.kind == .equals) vs

theorem Lexed.of_append {e : Bool} {us vs : List View} (h : Lexed e (us ++ vs)) :
    Lexed e us ∧ Lexed (endsEquals e us) vs := by
  induction us generalizing e with
  | nil => exact ⟨trivial, h⟩
  | cons u us ih =>
    obtain ⟨hu, h⟩ := h
    obtain ⟨h₁, h₂⟩ := ih h
    refine ⟨⟨fun hn => (hu hn).imp_right fun ⟨he, hg, hw⟩ => ⟨he, hg, ?_⟩, h₁⟩, h₂⟩
    cases us with
    | nil => simp
    | cons _ _ => exact hw

@[simp] theorem endsEquals_append (e : Bool) (us vs : List View) :
    endsEquals e (us ++ vs) = endsEquals (endsEquals e us) vs := by
  induction us generalizing e with
  | nil => rfl
  | cons u us ih => exact ih _

theorem endsEquals_of_notMem {vs : List View} (h : ∀ v ∈ vs, v.kind ≠ .equals) :
    endsEquals false vs = false := by
  induction vs with
  | nil => rfl
  | cons v vs ih =>
    rw [List.forall_mem_cons] at h
    rw [endsEquals, beq_eq_false_iff_ne.mpr h.1, ih h.2]

/-- Where no `=` is, all names are words. -/
theorem Lexed.words {vs : List View} (h : Lexed false vs) (hq : ∀ v ∈ vs, v.kind ≠ .equals) :
    ∀ v ∈ vs, v.kind.isName = true → v.kind.IsWord := by
  induction vs with
  | nil => simp
  | cons v vs ih =>
    rw [List.forall_mem_cons] at hq ⊢
    obtain ⟨hv, h⟩ := h
    rw [beq_eq_false_iff_ne.mpr hq.1] at h
    exact ⟨fun hn => (hv hn).resolve_right (by simp), ih h hq.2⟩

theorem Kind.IsWord.symbol {k : Kind} (h : k.IsWord) : isNameWord k.symbol.toList = true := by
  obtain ⟨w, hw, rfl⟩ := h
  rwa [Kind.symbol_ofName, String.toList_ofList]

/-! ## The views of a text -/

theorem isWord_of_scan {cs : List Char} {l : Lexeme} (h : scan cs = .ok l)
    (hk : l.kind.isName = true) : l.kind.IsWord := by
  obtain ⟨-, hscans⟩ := scan_eq_ok.mp h
  cases hscans with
  | eof | quoted => cases hk
  | operator hk' =>
    rw [Kind.hasText_of_isName hk] at hk'
    cases hk'
  | name hn => exact ⟨_, hn, rfl⟩

/-- A value can be touched by what ends it only. -/
theorem endsValue_of_cut {rest mid : List Char} {w : View} (hr : StopsValue rest)
    (h : cut false rest = some (w, mid)) (hw : w.glued = true) : w.kind.endsValue = true := by
  obtain ⟨h, -⟩ | ⟨-, l, hl, rfl, -⟩ := cut_eq_some.mp h
  · cases h
  · match rest with
    | [] =>
      cases hl
      rfl
    | c :: cs =>
      have hc := hr c rfl
      have hb : isBlank c = false := by
        cases hb : isBlank c with
        | false => rfl
        | true => simp [hb] at hw
      have hc : (c = '|' ∨ c = ';') ∨ c = '>' := by simpa [endsValue, hb] using hc
      rw [List.dropWhile_cons, if_neg (by simp [hb])] at hl
      obtain (rfl | rfl) | rfl := hc
      · by_cases hd : cs.head? = some '|'
        · obtain ⟨ds, rfl⟩ := List.head?_eq_some_iff.mp hd
          cases hl
          rfl
        · rw [scan_pipe hd] at hl
          cases hl
          rfl
      · cases hl
        rfl
      · cases hl
        rfl

theorem lexed_of_lexesAll {e : Bool} {cs : List Char} {vs : List View} (h : LexesAll e cs vs) :
    Lexed e vs := by
  induction h with
  | last _ hk => exact ⟨fun hn => absurd hk (Kind.ne_eof_of_isName hn), trivial⟩
  | @cons e cs mid v vs hc hk hvs ih =>
    refine ⟨fun hn => ?_, ih⟩
    obtain ⟨hs, l, hl, rfl, rfl⟩ | ⟨-, l, hl, rfl, -⟩ := cut_eq_some.mp hc
    · refine .inr ⟨(Bool.and_eq_true_iff.mp hs).1, rfl, fun w hw hg => ?_⟩
      have hk : (l.kind == .equals) = false := beq_eq_false_iff_ne.mpr (scanValue_kind hl).2
      have hr := stopsValue_of_scanValue hl
      cases hvs with
      | last hc _ | cons hc _ _ =>
        obtain rfl := Option.some.inj hw
        exact endsValue_of_cut hr (hk ▸ hc) hg
    · exact .inl (isWord_of_scan hl hn)

theorem lexed_unglued {vs : List View} (h : Lexed false vs) : Lexed false (unglued vs) := by
  cases vs with
  | nil => trivial
  | cons v vs => exact ⟨fun hn => .inl ((h.1 hn).resolve_right (by simp)), h.2⟩

/-! ## Texts that are one name -/

/-- The text is one token, which is a name, with nothing around it. -/
def IsNameToken (text : String) : Prop :=
  ∃ t e, tokenize text = .ok [t, e] ∧ t.isName = true ∧ t.text = text

theorem isNameToken_iff {text : String} : IsNameToken text ↔ isWord text = true := by
  constructor
  · rintro ⟨t, e, hts, hn, htext⟩
    obtain ⟨vs, hvs, hv⟩ := lexesAll_of_tokenize hts
    have hlexed := lexed_unglued (lexed_of_lexesAll hvs)
    rw [← hv] at hlexed
    have hword : t.kind.IsWord := (hlexed.1 hn).resolve_right (by simp)
    rw [isWord, ← htext]
    exact hword.symbol
  · intro h
    have hlex := @lexes_glued_name [] _ h trivial
    rw [List.append_nil] at hlex
    obtain ⟨ts, hts, hv⟩ := tokenize_of_lexesAll (lexesAll_of_lexes hlex)
    have hkinds := viewsOf_kinds none ts
    rw [hv, unglued_kinds] at hkinds
    have hlength : ts.length = 2 := by simpa using (congrArg List.length hkinds).symm
    obtain ⟨t, e, rfl⟩ := List.length_eq_two.mp hlength
    have ht : t.kind = .ofName text.toList := (List.cons.inj hkinds).1.symm
    refine ⟨t, e, hts, ?_, ?_⟩
    · rw [Token.isName, ht, Kind.isName_ofName]
    · rw [Token.text, ht, Kind.symbol_ofName, String.ofList_toList]

end Pipework.Token
