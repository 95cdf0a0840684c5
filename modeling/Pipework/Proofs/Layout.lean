import Pipework.Proofs.Stream.Alike
import Pipework.Proofs.Task.Alike

/-! White space matters in two ways only: it separates tokens that would touch without it, and in
tasks it starts a line. Texts of the same tokens that agree in these are read alike. -/

namespace Pipework

open Token Pipework.Parser

namespace Token

/-- For any two tokens in a row, whether the second starts where the first ends. -/
def touching (ts : List Token) : List Bool := ts.zipWith (fun t u => t.stop == u.start) ts.tail

/-- For any two tokens in a row, whether the second stands on a later line than the first. -/
def breaking (ts : List Token) : List Bool :=
  ts.zipWith (fun t u => decide (t.span.line < u.span.line)) ts.tail

variable {lines : Bool} {ts us : List Token}

theorem seen_after {t u : Token} (hk : ts.map Token.kind = us.map Token.kind)
    (ht : touching (t :: ts) = touching (u :: us))
    (hl : lines = true → breaking (t :: ts) = breaking (u :: us)) :
    (viewsOf (some t) ts).map (View.seen lines) = (viewsOf (some u) us).map (View.seen lines) := by
  induction ts generalizing t u us with
  | nil =>
    obtain rfl := List.map_eq_nil_iff.mp hk.symm
    rfl
  | cons t' ts ih =>
    obtain ⟨u', us, rfl, hk', hks⟩ := List.map_eq_cons_iff.mp hk.symm
    simp only [touching, breaking, List.tail_cons, List.zipWith_cons_cons, List.cons.injEq]
      at ht hl ih
    rw [viewsOf, viewsOf, List.map_cons, List.map_cons, ih hks.symm ht.2 fun h => (hl h).2]
    have hview : (viewOf (some t) t').seen lines = (viewOf (some u) u').seen lines := by
      simp only [View.seen, viewOf, Option.any_some, hk', ht.1, View.mk.injEq, true_and]
      cases lines with
      | false => rfl
      | true => simpa using (hl rfl).1
    rw [hview]

/-- What a parser sees of tokens is given by their kinds, by which of them touch, and by where lines
start. -/
theorem seen_of_tokens (hk : ts.map Token.kind = us.map Token.kind)
    (ht : touching ts = touching us) (hl : lines = true → breaking ts = breaking us) :
    (viewsOf none ts).map (View.seen lines) = (viewsOf none us).map (View.seen lines) := by
  match ts, us, hk with
  | [], [], _ => rfl
  | t :: ts, u :: us, hk =>
    obtain ⟨hk, hks⟩ := List.cons.inj hk
    rw [viewsOf, viewsOf, List.map_cons, List.map_cons, seen_after hks ht hl, viewOf, viewOf, hk]
    rfl

/-- The tokens of a text end with `eof`, so that nothing is put behind them. -/
theorem ahead_ofTokens {text : String} (h : tokenize text = .ok ts) :
    (Cursor.ofTokens text ts).ahead = ts := by
  obtain ⟨us, t, rfl, ht, -⟩ := exists_eof_of_tokenize h
  exact terminated_eq ⟨t, by simp, ht⟩

theorem views_ofTokens {text : String} (h : tokenize text = .ok ts) :
    (Cursor.ofTokens text ts).views = viewsOf none ts := by
  rw [Cursor.views, ahead_ofTokens h]
  rfl

theorem seen_ofTokens {text : String} (h : tokenize text = .ok ts) :
    (Cursor.ofTokens text ts).seen lines = (viewsOf none ts).map (View.seen lines) := by
  rw [Cursor.seen, views_ofTokens h]

end Token

/-- Both texts are read, and what is read has one shape, or both are refused for one reason. -/
inductive SameOutcome {α : Type} (sameShape : α → α → Bool) : Except Fault α → Except Fault α → Prop
  | read {a b : α} : sameShape a b = true → SameOutcome sameShape (.ok a) (.ok b)
  | refused {e f : Fault} : e.message = f.message → SameOutcome sameShape (.error e) (.error f)

theorem sameOutcome_of_shown {α γ : Type} {sameShape : α → α → Bool} {f : α → γ}
    (hsame : ∀ a b, f a = f b → sameShape a b = true) {x y : Except Fault α}
    (h : shown f x = shown f y) : SameOutcome sameShape x y := by
  match x, y, h with
  | .ok a, .ok b, h => exact .read (hsame a b (Except.ok.inj h))
  | .error e, .error e', h => exact .refused (Except.error.inj h)

section

variable {a b : String} {ts us : List Token} (ha : tokenize a = .ok ts) (hb : tokenize b = .ok us)

include ha hb

/-- What parsers show of two texts is what they show of the tokens. -/
theorem shown_of_runs {α γ : Type} {lines : Bool} {f : α → γ} {p q : Parser α}
    (h : shownRun lines f p (.ofTokens a ts) = shownRun lines f q (.ofTokens b us)) :
    shown f (tokenize a >>= fun ts => p.run (.ofTokens a ts) >>= fun r => pure r.1) =
      shown f (tokenize b >>= fun us => q.run (.ofTokens b us) >>= fun r => pure r.1) := by
  have hread : shown f (p.run (.ofTokens a ts) >>= fun r => pure r.1) =
      shown f (q.run (.ofTokens b us) >>= fun r => pure r.1) :=
    shown_bind h fun r s hrs => congrArg Except.ok (Prod.mk.inj hrs).1
  rw [ha, hb]
  exact hread

variable (hk : ts.map Token.kind = us.map Token.kind) (ht : touching ts = touching us)

include hk ht

/-- A parser that agrees with itself reads both texts alike. -/
theorem shown_ofTokens {α γ : Type} {lines : Bool} {f : α → γ} {p : Parser α}
    (hp : Agree lines f p p) (hl : lines = true → breaking ts = breaking us) :
    shown f (tokenize a >>= fun ts => p.run (.ofTokens a ts) >>= fun r => pure r.1) =
      shown f (tokenize b >>= fun us => p.run (.ofTokens b us) >>= fun r => pure r.1) := by
  have hseen : (Cursor.ofTokens a ts).seen lines = (Cursor.ofTokens b us).seen lines := by
    rw [seen_ofTokens ha, seen_ofTokens hb, seen_of_tokens hk ht hl]
  exact shown_of_runs ha hb (hp _ _ hseen)

theorem Stream.shown_parseNamed (name : Option String) :
    shown Stream.withoutPositions (parseNamed name a) =
      shown Stream.withoutPositions (parseNamed name b) :=
  shown_ofTokens ha hb hk ht (Read.agree_definition false name) nofun

theorem Task.shown_parseWith (hl : breaking ts = breaking us) (options : Options) :
    shown Task.withoutPositions (parseWith options a) =
      shown Task.withoutPositions (parseWith options b) := by
  have hparse := shown_ofTokens ha hb hk ht
    (Read.agree_definition options.name options.appMode) fun _ => hl
  refine shown_bind hparse fun t u htu => ?_
  cases options.validate with
  | false => exact congrArg Except.ok htu
  | true => exact shown_bind (shown_validate htu) fun _ _ _ => congrArg Except.ok htu

/-- Texts of the same tokens are read alike as streams if the same tokens touch, and as tasks if in
addition lines start at the same tokens. -/
theorem sameOutcome_of_touching :
    SameOutcome Stream.sameShape (Stream.parse a) (Stream.parse b) ∧
      (breaking ts = breaking us →
        SameOutcome Task.sameShape (Task.parse a) (Task.parse b)) := by
  refine ⟨sameOutcome_of_shown (fun s t h => ?_) (Stream.shown_parseNamed ha hb hk ht none),
    fun hl => sameOutcome_of_shown (fun s t h => ?_) (Task.shown_parseWith ha hb hk ht hl {})⟩
  · simpa [Stream.sameShape] using h
  · simpa [Task.sameShape] using h

end

theorem sameOutcome_reindented : ∃ ts us,
    tokenize "t: a\n--x=1" = .ok ts ∧ tokenize "  t:   a\n\n\t--x=1" = .ok us ∧
      ts.map Token.kind = us.map Token.kind ∧ touching ts = touching us ∧ breaking ts = breaking us ∧
      SameOutcome Stream.sameShape (Stream.parse "t: a\n--x=1")
        (Stream.parse "  t:   a\n\n\t--x=1") ∧
      SameOutcome Task.sameShape (Task.parse "t: a\n--x=1") (Task.parse "  t:   a\n\n\t--x=1") ∧
      (Stream.parse "t: a\n--x=1").isOk = true ∧ (Task.parse "t: a\n--x=1").isOk = true := by
  obtain ⟨ts, ha, us, hb, hk, ht, hl⟩ : ∃ ts, (tokenize "t: a\n--x=1").toOption = some ts ∧
      ∃ us, (tokenize "  t:   a\n\n\t--x=1").toOption = some us ∧
        ts.map Token.kind = us.map Token.kind ∧ touching ts = touching us ∧
        breaking ts = breaking us := by decide +kernel
  obtain ⟨hstream, htask⟩ :=
    sameOutcome_of_touching (toOption_eq_some.mp ha) (toOption_eq_some.mp hb) hk ht
  exact ⟨ts, us, toOption_eq_some.mp ha, toOption_eq_some.mp hb, hk, ht, hl, hstream, htask hl,
    by decide +kernel, by decide +kernel⟩

end Pipework
