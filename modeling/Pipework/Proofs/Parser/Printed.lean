import Pipework.Proofs.Parser.Repetition
import Pipework.Proofs.Token.Spelling

/-! Printed texts that are put together from printed parts. -/

namespace Pipework.Parser

open Token

variable {α β : Type}

/-- Parts one after the other are cut into the views of each; `Ends a rest` lets the part `a` end. -/
theorem lexes_parts (text : α → List Char) (f : α → β) (Item : List View → β → Prop)
    (Ends : α → List Char → Prop) {as : List α} {rest : List Char}
    (item : ∀ a ∈ as, ∀ rest, Ends a rest → ∃ vs, Item vs (f a) ∧
      Lexes false (text a ++ rest) vs false rest)
    (follows : ∀ a ∈ as, ∀ b ∈ as, ∀ rest, Ends a (text b ++ rest))
    (hr : ∀ a ∈ as.getLast?, Ends a rest) :
    ∃ vs, Many Item vs (as.map f) ∧ Lexes false (as.flatMap text ++ rest) vs false rest := by
  induction as with
  | nil => exact ⟨[], .nil, .nil⟩
  | cons a as ih =>
    have hlast : ∀ b ∈ as.getLast?, Ends b rest := by
      cases as with
      | nil => simp
      | cons b bs => simpa using hr
    obtain ⟨ws, hm, hl⟩ := ih (fun b hb => item b (List.mem_cons_of_mem _ hb))
      (fun b hb c hc => follows b (List.mem_cons_of_mem _ hb) c (List.mem_cons_of_mem _ hc)) hlast
    have he : Ends a (as.flatMap text ++ rest) := by
      cases as with
      | nil => exact hr a rfl
      | cons b bs =>
        rw [List.flatMap_cons, List.append_assoc]
        exact follows a (by simp) b (by simp) _
    obtain ⟨vs, hi, hl'⟩ := item a (by simp) _ he
    refine ⟨vs ++ ws, .cons hi hm, ?_⟩
    rw [List.flatMap_cons, List.append_assoc]
    exact hl'.trans hl

/-- Parts that each let the one before them end, whatever it is. -/
theorem lexes_many (text : α → List Char) (f : α → β) (Item : List View → β → Prop)
    (Follow : List Char → Prop) {as : List α} {rest : List Char}
    (item : ∀ a ∈ as, ∀ rest, Follow rest → ∃ vs, Item vs (f a) ∧
      Lexes false (text a ++ rest) vs false rest)
    (follows : ∀ a ∈ as, ∀ rest, Follow (text a ++ rest)) (hr : Follow rest) :
    ∃ vs, Many Item vs (as.map f) ∧ Lexes false (as.flatMap text ++ rest) vs false rest :=
  lexes_parts text f Item (fun _ => Follow) item (fun _ _ b hb => follows b hb) fun _ _ => hr

theorem toList_intercalate_cons (s t : String) (ts : List String) :
    (s.intercalate (t :: ts)).toList = t.toList ++ ts.flatMap fun u => s.toList ++ u.toList := by
  induction ts generalizing t with
  | nil => simp
  | cons u us ih =>
    rw [String.intercalate_cons_cons, String.toList_append, String.toList_append, ih]
    simp

/-- The text is cut into views of which the first shows the white space before it, whatever that
is, and the views are what `G` says. -/
def Prints (text rest : List Char) (G : List View → Prop) : Prop :=
  ∃ k vs, (∀ glued breaks, G (⟨k, glued, breaks⟩ :: vs)) ∧
    ∀ expects gap, gap.all Text.isBlank = true → (expects = true → gap ≠ []) →
      Lexes expects (gap ++ (text ++ rest)) (⟨k, gap.isEmpty, gap.contains '\n'⟩ :: vs) false rest

theorem Prints.imp {text rest : List Char} {F G : List View → Prop} (h : Prints text rest F)
    (hi : ∀ vs, F vs → G vs) : Prints text rest G := by
  obtain ⟨k, vs, hF, hl⟩ := h
  exact ⟨k, vs, fun g b => hi _ (hF g b), hl⟩

theorem Prints.append {text mid rest : List Char} {ws : List View} {F G : List View → Prop}
    (h : Prints text (mid ++ rest) F) (hl : Lexes false (mid ++ rest) ws false rest)
    (hG : ∀ vs, F vs → G (vs ++ ws)) : Prints (text ++ mid) rest G := by
  obtain ⟨k, vs, hF, hv⟩ := h
  refine ⟨k, vs ++ ws, fun g b => hG _ (hF g b), fun e gap hg he => ?_⟩
  rw [List.append_assoc]
  exact (hv e gap hg he).trans hl

theorem Prints.lexes {text rest gap : List Char} {G : List View → Prop} (h : Prints text rest G)
    (hg : gap.all Text.isBlank = true) :
    ∃ vs, G vs ∧ Lexes false (gap ++ (text ++ rest)) vs false rest := by
  obtain ⟨k, vs, hG, hl⟩ := h
  exact ⟨_, hG _ _, hl false gap hg (by simp)⟩

/-- Items in a row, with a separator in white space between them. -/
theorem prints_separated (text : α → String) (f : α → β) (Item : List View → β → Prop)
    (Ends : α → List Char → Prop) {separator : Kind} {bar : String} {a : α} {as : List α}
    {rest : List Char}
    (hbar : ∀ cs, cut false (bar.toList ++ cs) = some (⟨separator, false, false⟩, ' ' :: cs))
    (hk : separator ≠ .eof ∧ separator ≠ .equals)
    (item : ∀ b ∈ a :: as, ∀ rest, Ends b rest → Prints (text b).toList rest fun vs => Item vs (f b))
    (follows : ∀ b cs, Ends b (bar.toList ++ cs)) (hr : ∀ b ∈ (a :: as).getLast?, Ends b rest) :
    Prints (bar.intercalate ((a :: as).map text)).toList rest fun vs => ∃ us ws, vs = us ++ ws ∧
      Item us (f a) ∧ Many (After separator Item) ws (as.map f) := by
  rw [List.forall_mem_cons] at item
  have hitem : ∀ b ∈ as, ∀ rest, Ends b rest → ∃ vs, After separator Item vs (f b) ∧
      Lexes false (bar.toList ++ (text b).toList ++ rest) vs false rest := fun b hb rest hr => by
    obtain ⟨vs, hi, hl⟩ := @(item.2 b hb rest hr).lexes _ _ [' '] _ rfl
    refine ⟨⟨separator, false, false⟩ :: vs, .mk rfl hi, ?_⟩
    rw [List.append_assoc]
    exact (Lexes.one (hbar _) hk.1 hk.2).trans hl
  have hlast : ∀ b ∈ as.getLast?, Ends b rest := by
    cases as with
    | nil => simp
    | cons b bs => simpa using hr
  obtain ⟨ws, hm, hl⟩ := lexes_parts (fun b => bar.toList ++ (text b).toList) f (After separator Item)
    Ends hitem (fun b _ _ _ rest => by rw [List.append_assoc]; exact follows b _) hlast
  have hfirst : Ends a (as.flatMap (fun b => bar.toList ++ (text b).toList) ++ rest) := by
    cases as with
    | nil => exact hr a rfl
    | cons b bs =>
      rw [List.flatMap_cons, List.append_assoc, List.append_assoc]
      exact follows a _
  rw [List.map_cons, toList_intercalate_cons, List.flatMap_map]
  exact (item.1 _ hfirst).append hl fun us hu => ⟨us, ws, rfl, hu, hm⟩

end Pipework.Parser
