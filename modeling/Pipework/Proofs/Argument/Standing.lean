import Pipework.Proofs.Argument.Grammar
import Pipework.Proofs.Token.Touching

/-! Where arguments stand in a text: from the start to the stop of each there is what it is read
from, and at every `--` there is one. -/

namespace Pipework.Argument

open Token Pipework.Parser

/-- A value is written as it is, or in quotes. -/
def WritesValue (raw : List Char) (value : String) : Prop :=
  raw = value.toList ∨ ∃ q, isQuote q = true ∧ raw = quotedBy q value.toList

/-- From the start of the argument to its stop, the text is `--`, its name, `=` and its value. -/
def StandsIn (text : String) (a : Argument) : Prop :=
  ∃ raw, WritesValue raw a.value ∧ slice? text.toList a.start a.stop =
    some ("--".toList ++ a.name.toList ++ "=".toList ++ raw)

/-! ## The characters of an argument -/

theorem DottedPart.standOn {vs : List View} {part : String} {cs : List Char} (h : DottedPart vs part)
    (hcs : StandOn (vs.map View.kind) cs) : cs = part.toList := by
  obtain ⟨hk, -, hn, -⟩ := h
  obtain _ | ⟨hdot, _ | ⟨hname, _ | _⟩⟩ := hcs
  rw [hdot.eq_symbol (by simp [hk]), hname.eq_name hn, hk]
  simp [Kind.symbol]

theorem many_dottedPart_standOn {vs : List View} {parts : List String} {cs : List Char}
    (h : Many DottedPart vs parts) (hcs : StandOn (vs.map View.kind) cs) :
    cs = (String.join parts).toList := by
  induction h generalizing cs with
  | nil =>
    cases hcs
    rfl
  | cons hp _ ih =>
    rw [List.map_append] at hcs
    obtain ⟨as, bs, rfl, has, hbs⟩ := hcs.exists_append
    rw [hp.standOn has, ih hbs, String.toList_join, String.toList_join, List.flatMap_cons]

theorem Dotted.standOn {vs : List View} {name : String} {cs : List Char} (h : Dotted vs name)
    (hcs : StandOn (vs.map View.kind) cs) : cs = name.toList := by
  obtain ⟨hn, hm⟩ := h
  obtain _ | ⟨hfirst, hrest⟩ := hcs
  rw [hfirst.eq_name hn, many_dottedPart_standOn hm hrest, String.toList_append]

theorem writesValue_of_standsOn {k : Kind} {value : String} {raw : List Char}
    (hk : valueText? k = some value) (h : k.StandsOn raw) : WritesValue raw value := by
  cases h with
  | @literal q cs hq =>
    obtain rfl := Option.some.inj hk
    exact .inr ⟨q, hq, by rw [String.toList_ofList]⟩
  | plain hl =>
    cases k <;> simp_all [valueText?, WritesValue, Kind.symbol]

theorem Spells.standOn {vs : List View} {a : Argument} {cs : List Char} (h : Spells vs a)
    (hcs : StandOn (vs.map View.kind) cs) : ∃ raw, WritesValue raw a.value ∧
      cs = "--".toList ++ a.name.toList ++ "=".toList ++ raw := by
  obtain ⟨hk, -, -, hn, he, -, hv, -⟩ := h
  rw [List.cons_append, List.map_cons, List.map_append] at hcs
  obtain _ | ⟨hdashes, hcs⟩ := hcs
  obtain ⟨name, ends, rfl, hname, hends⟩ := hcs.exists_append
  obtain _ | ⟨hequals, _ | ⟨hlast, _ | _⟩⟩ := hends
  refine ⟨_, writesValue_of_standsOn hv hlast, ?_⟩
  rw [hdashes.eq_symbol (by simp [hk]), hequals.eq_symbol (by simp [he]), hn.standOn hname, hk, he]
  simp [Kind.symbol]

/-! ## The tokens of an argument -/

theorem Dotted.tail {first : View} {vs : List View} {name : String} (h : Dotted (first :: vs) name) :
    first.kind ≠ .doubleMinus ∧ ∀ v ∈ vs, v.kind ≠ .doubleMinus ∧ v.glued = true := by
  obtain ⟨hn, hm⟩ := h
  refine ⟨Kind.ne_of_isName hn rfl, hm.forall_mem fun h => ?_⟩
  obtain ⟨hk, hg, hn, hg'⟩ := h
  have hne : _ ≠ Kind.doubleMinus := Kind.ne_of_isName hn rfl
  simp [hk, hg, hg', hne]

theorem ne_doubleMinus_of_valueText? {k : Kind} {text : String} (h : valueText? k = some text) :
    k ≠ .doubleMinus := by
  rintro rfl
  cases h

/-- An argument begins with `--`, and what follows touches what comes before it. -/
theorem Spells.exists_cons {vs : List View} {a : Argument} (h : Spells vs a) : ∃ v ws, vs = v :: ws ∧
    v.kind = .doubleMinus ∧ ∀ w ∈ ws, w.kind ≠ .doubleMinus ∧ w.glued = true := by
  cases h with
  | @mk dashes first equals last vs _ _ hk _ hg hn he hge hv hgv =>
    obtain ⟨hfirst, htail⟩ := hn.tail
    refine ⟨dashes, first :: vs ++ [equals, last], rfl, hk, List.forall_mem_append.mpr
      ⟨List.forall_mem_cons.mpr ⟨⟨hfirst, hg⟩, htail⟩, ?_⟩⟩
    simp [he, hge, ne_doubleMinus_of_valueText? hv, hgv]

/-! ## Arguments of a text -/

variable {text : String} {ts : List Token} {us vs ws : List Sight} {a : Argument}

theorem Derives.standsIn (h : Derives vs a) (hts : tokenize text = .ok ts)
    (hvs : vs <:+: sightsOf none ts.dropLast) : a.StandsIn text := by
  obtain ⟨hs, hstart, hstop⟩ := h
  obtain ⟨v', ws', hvs', hk, htail⟩ := hs.exists_cons
  obtain ⟨v, ws, rfl, rfl, rfl⟩ := List.map_eq_cons_iff.mp hvs'
  obtain ⟨before, after, hall⟩ := hvs
  obtain ⟨cs, hslice, hcs⟩ := slice_touching hts hall.symm fun w hw =>
    (htail _ (List.mem_map_of_mem hw)).2
  obtain ⟨raw, hvalue, rfl⟩ := hs.standOn (by simpa [Function.comp_def] using hcs)
  exact ⟨raw, hvalue, by rw [hstart, hstop]; exact hslice⟩

/-- Where the `--` are. -/
def dashesOf (vs : List Sight) : List Nat :=
  (vs.filter fun v => v.kind == .doubleMinus).map Sight.start

theorem dashesOf_append (vs ws : List Sight) : dashesOf (vs ++ ws) = dashesOf vs ++ dashesOf ws := by
  simp [dashesOf]

theorem dashesOf_eq_nil (h : ∀ v ∈ vs, v.kind ≠ .doubleMinus) : dashesOf vs = [] := by
  simpa [dashesOf] using h

theorem Derives.dashesOf (h : Derives vs a) : dashesOf vs = [a.start] := by
  obtain ⟨hs, hstart, -⟩ := h
  obtain ⟨v', ws', hvs', hk, htail⟩ := hs.exists_cons
  obtain ⟨v, ws, rfl, rfl, rfl⟩ := List.map_eq_cons_iff.mp hvs'
  have hws : Argument.dashesOf ws = [] :=
    dashesOf_eq_nil fun w hw => (htail _ (List.mem_map_of_mem hw)).1
  rw [← List.singleton_append, dashesOf_append, hws, hstart]
  simp [Argument.dashesOf, hk, startOf]

theorem many_dashesOf {as : List Argument} (h : Many Derives vs as) :
    dashesOf vs = as.map Argument.start := by
  induction h with
  | nil => rfl
  | cons ha _ ih => rw [dashesOf_append, ha.dashesOf, ih, List.singleton_append, List.map_cons]

theorem many_standsIn {as : List Argument} (h : Many Derives vs as) (hts : tokenize text = .ok ts)
    (hvs : vs <:+: sightsOf none ts.dropLast) : ∀ a ∈ as, a.StandsIn text := by
  induction h with
  | nil => simp
  | @cons us ws _ _ ha _ ih =>
    refine List.forall_mem_cons.mpr ⟨ha.standsIn hts ?_, ih ?_⟩
    · exact (List.infix_append' [] us ws).trans hvs
    · exact (List.suffix_append us ws).isInfix.trans hvs

end Pipework.Argument
