import Pipework.Proofs.Stream.Extension
import Pipework.Proofs.Stream.Invariants

/-! What is told of labels that are not all different. Every app that is called like an app before it
is told of, in the order of the apps, together with the first app that is called so. -/

namespace Pipework.Stream

open Token Pipework.Parser Read

/-! ## Repeated labels -/

/-- The app at `j` is called like an app before it. -/
def Repeats (s : Stream) (j : Nat) : Prop :=
  ∃ b ∈ s.apps[j]?, b.labelName ∈ s.labelNames.take j

/-- A clash of the app at `j` with the first app that is called so. -/
structure ClashesAt (s : Stream) (j : Nat) (clash : LabelClash) : Prop where
  first : ∃ a ∈ s.app? clash.label, a.name = clash.firstApp ∧ a.start = clash.firstOffset
  second : ∃ b ∈ s.apps[j]?,
    b.labelName = clash.label ∧ b.name = clash.secondApp ∧ b.start = clash.secondOffset
  offsets : clash.firstOffset < clash.secondOffset

/-- One clash for each app that is called like an app before it, in the order of the apps. -/
def Reports (s : Stream) (clashes : List LabelClash) : Prop :=
  ∃ js : List Nat, js.Pairwise (· < ·) ∧ (∀ j, j ∈ js ↔ s.Repeats j) ∧
    List.Forall₂ s.ClashesAt js clashes

section

variable {s : Stream} {before rest : List App} {a : App}

theorem repeats_length (happs : s.apps = before ++ a :: rest) :
    s.Repeats before.length ↔ ∃ b ∈ before, b.labelName = a.labelName := by
  simp [Repeats, labelNames, happs]

theorem lt_length_of_repeats {j : Nat} (h : s.Repeats j) : j < s.apps.length := by
  obtain ⟨b, hb, -⟩ := h
  exact (List.getElem?_eq_some_iff.mp hb).1

/-- The first app before another one that is called like it makes a clash with it. -/
theorem clashesAt_of_find {first : App} (horder : s.apps.Pairwise fun a b => a.start < b.start)
    (happs : s.apps = before ++ a :: rest)
    (hfind : before.find? (fun b => b.labelName == a.labelName) = some first) :
    s.ClashesAt before.length ⟨a.labelName, first.name, first.start, a.name, a.start⟩ where
  first := by
    refine ⟨first, ?_, rfl, rfl⟩
    rw [app?, happs, List.find?_append, hfind]
    rfl
  second := ⟨a, by simp [happs], rfl, rfl, rfl⟩
  offsets := by
    rw [happs] at horder
    have hmem := List.mem_of_find?_eq_some hfind
    exact (List.pairwise_append.mp horder).2.2 first hmem a List.mem_cons_self

/-- What is told of the apps from some app on: the clashes with the apps before it and with one
another. -/
theorem exists_clashesAfter (horder : s.apps.Pairwise fun a b => a.start < b.start)
    (happs : s.apps = before ++ rest) : ∃ js : List Nat, js.Pairwise (· < ·) ∧
      (∀ j, j ∈ js ↔ before.length ≤ j ∧ s.Repeats j) ∧
      List.Forall₂ s.ClashesAt js (clashesAfter before rest) := by
  induction rest generalizing before with
  | nil =>
    refine ⟨[], .nil, fun j => ?_, .nil⟩
    have hlength : s.apps.length = before.length := by rw [happs, List.append_nil]
    simp only [List.not_mem_nil, false_iff, not_and]
    intro hj hrepeats
    have := lt_length_of_repeats hrepeats
    omega
  | cons a rest ih =>
    have happs' : s.apps = (before ++ [a]) ++ rest := by simp [happs]
    obtain ⟨js, hsorted, hjs, hclashes⟩ := ih happs'
    rw [List.length_append, List.length_singleton] at hjs
    have hfrom : ∀ j, before.length ≤ j ∧ s.Repeats j ↔
        (j = before.length ∧ s.Repeats before.length) ∨ j ∈ js := by
      intro j
      rw [hjs]
      grind
    rw [clashesAfter]
    cases hfind : before.find? fun b => b.labelName == a.labelName with
    | none =>
      have hnew : ¬ s.Repeats before.length := by
        rw [repeats_length happs]
        simpa using hfind
      refine ⟨js, hsorted, fun j => ?_, hclashes⟩
      rw [hfrom]
      simp [hnew]
    | some first =>
      have hrepeats : s.Repeats before.length := by
        have hlabel : first.labelName = a.labelName := by simpa using List.find?_some hfind
        exact (repeats_length happs).mpr ⟨first, List.mem_of_find?_eq_some hfind, hlabel⟩
      refine ⟨before.length :: js, ?_, fun j => ?_,
        .cons (clashesAt_of_find horder happs hfind) hclashes⟩
      · refine List.pairwise_cons.mpr ⟨fun j hj => ?_, hsorted⟩
        have := ((hjs j).mp hj).1
        omega
      · rw [hfrom, List.mem_cons]
        simp [hrepeats]

theorem reports_clashes (horder : s.apps.Pairwise fun a b => a.start < b.start) :
    s.Reports s.clashes := by
  obtain ⟨js, hsorted, hjs, hclashes⟩ := exists_clashesAfter horder (List.nil_append s.apps).symm
  exact ⟨js, hsorted, by simpa using hjs, hclashes⟩

end

/-! ## The order of the apps -/

variable {vs us : List Sight} {a : App} {as : List App}

/-- An app starts where one of its tokens does. -/
def App.StartsIn (vs : List Sight) (a : App) : Prop := ∃ v ∈ vs, a.start = v.start

theorem App.StartsIn.mono (h : a.StartsIn vs) (hvs : vs ⊆ us) : a.StartsIn us := by
  obtain ⟨v, hv, hstart⟩ := h
  exact ⟨v, hvs hv, hstart⟩

theorem App.Derives.startsIn (h : a.Derives vs) : a.StartsIn vs := by
  cases h with
  | mk hn => exact exists_startOf (by simp [hn.ne_nil])

theorem many_behind_startsIn {separator : Kind} (h : Many (Behind separator App.Derives) vs as) :
    Many App.StartsIn vs as := by
  refine h.mono fun vs a _ ha => ?_
  obtain ⟨-, ha⟩ := ha
  exact ha.startsIn.mono (List.subset_cons_self _ _)

theorem DerivesRow.startsIn {unbound : Bool} (h : DerivesRow vs as unbound) :
    Many App.StartsIn vs as := by
  cases h with
  | bound ha hm | apart ha hm => exact .cons ha.startsIn (many_behind_startsIn hm)

/-- Of tokens in order, those of a later app start later. -/
theorem pairwise_start (h : Many App.StartsIn vs as) (ho : InOrder vs) :
    as.Pairwise fun a b => a.start < b.start := by
  suffices hall : as.Pairwise (fun a b => a.start < b.start) ∧ ∀ a ∈ as, a.StartsIn vs from hall.1
  induction h with
  | nil => exact ⟨.nil, by simp⟩
  | @cons us ws a as ha _ ih =>
    obtain ⟨hne, ho⟩ := ho
    obtain ⟨-, hws, hbefore⟩ := List.pairwise_append.mp ho
    obtain ⟨hsorted, hstarts⟩ := ih ⟨fun w hw => hne w (List.mem_append_right us hw), hws⟩
    refine ⟨List.pairwise_cons.mpr ⟨fun b hb => ?_, hsorted⟩, List.forall_mem_cons.mpr ⟨?_, ?_⟩⟩
    · obtain ⟨v, hv, hva⟩ := ha
      obtain ⟨w, hw, hwb⟩ := hstarts b hb
      have := hbefore v hv w hw
      have := hne v (List.mem_append_left ws hv)
      omega
    · exact ha.mono (List.subset_append_left us ws)
    · exact fun b hb => (hstarts b hb).mono (List.subset_append_right us ws)

theorem DerivesBody.exists_startsIn {text : String} {s : Stream} (h : DerivesBody text vs s) :
    ∃ us, us.Sublist vs ∧ (Many App.StartsIn us s.apps ∨ ∃ a, s.apps = [a]) := by
  cases h with
  | bridge => exact ⟨[], List.nil_sublist _, .inr ⟨_, rfl⟩⟩
  | @row vs us ws _ _ _ _ hrow =>
    have hus : us.Sublist (vs ++ us ++ ws) :=
      (List.sublist_append_right vs us).trans (List.sublist_append_left _ ws)
    exact ⟨us, hus, .inl hrow.startsIn⟩
  | apart hrow => exact ⟨vs, .refl vs, .inl hrow.startsIn⟩

theorem Derives.pairwise_start {text : String} {s : Stream} (h : Derives text vs s)
    (ho : InOrder vs) : s.apps.Pairwise fun a b => a.start < b.start := by
  obtain ⟨us, hus, hstarts⟩ : ∃ us, us.Sublist vs ∧
      (Many App.StartsIn us s.apps ∨ ∃ a, s.apps = [a]) := by
    cases h with
    | unnamed hb => exact hb.exists_startsIn
    | @named name equals _ _ _ _ hb =>
      obtain ⟨us, hus, hstarts⟩ := hb.exists_startsIn
      exact ⟨us, (hus.cons equals).cons name, hstarts⟩
  obtain hmany | ⟨a, ha⟩ := hstarts
  · exact Stream.pairwise_start hmany ⟨fun v hv => ho.1 v (hus.subset hv), ho.2.sublist hus⟩
  · rw [ha]
    exact List.pairwise_singleton _ a

/-! ## Texts -/

/-- If the body of a stream is read and its name is legal, the text is refused for its labels exactly
if two of them are one. It is told then of every app that is called like an app before it. -/
theorem clashes_complete {text : String} {ts : List Token} {s : Stream} {name : Option String}
    {d : Cursor} (hts : tokenize text = .ok ts) (hbody : Reads body (.ofTokens text ts) s d)
    (hlegal : ∀ n ∈ s.name <|> name, Text.isLegalName n = true) :
    ((∃ f, parseNamed name text = .error f ∧ f.message = .duplicateLabel) ↔ ¬ s.labelNames.Nodup) ∧
    ∀ f, parseNamed name text = .error f → f.message = .duplicateLabel ∧ s.Reports f.clashes ∧
      ∃ first rest, f.clashes = first :: rest ∧ f.offset = first.secondOffset ∧
        f.inserts = first.inserts := by
  have horder := (derives_of_body hts hbody).pairwise_start (inOrder_of_tokenize hts)
  have hreports := reports_clashes horder
  rw [← clashes_eq_nil]
  cases hclash : s.clashes with
  | nil =>
    have hok : parseNamed name text = .ok { s with name := s.name <|> name } :=
      parseNamed_eq_ok.mpr ⟨ts, d, hts,
        reads_definition.mpr ⟨s, hbody, rfl, hlegal, clashes_eq_nil.mp hclash⟩⟩
    simp [hok]
  | cons first rest =>
    rw [hclash] at hreports
    rw [parseNamed_of_clash hts hbody hlegal hclash]
    refine ⟨⟨by simp, fun _ => ⟨_, rfl, rfl⟩⟩, fun f hf => ?_⟩
    obtain rfl := Except.error.inj hf
    exact ⟨rfl, hreports, first, rest, rfl, rfl, rfl⟩

/-- Two labels that are repeated in turns; one app has the name of another for its label. -/
theorem clashes_complete_interleaved : ∃ ts s d f,
    tokenize "s = a | b | a | b: c | a" = .ok ts ∧
    Reads body (.ofTokens "s = a | b | a | b: c | a" ts) s d ∧
    (∀ n ∈ s.name <|> none, Text.isLegalName n = true) ∧
    parseNamed none "s = a | b | a | b: c | a" = .error f ∧ f.message = .duplicateLabel ∧
    f.clashes = [⟨"a", "a", 4, "a", 12⟩, ⟨"b", "b", 8, "c", 16⟩, ⟨"a", "a", 4, "a", 23⟩] ∧
    s.Reports f.clashes ∧ f.offset = 12 := by
  obtain ⟨ts, hts, ⟨s, d⟩, hbody, hlegal, f, hf, hclashes, hoffset⟩ :
      ∃ ts, (tokenize "s = a | b | a | b: c | a").toOption = some ts ∧
        ∃ p, (body (.ofTokens "s = a | b | a | b: c | a" ts)).toOption = some p ∧
          (∀ n ∈ p.1.name <|> none, Text.isLegalName n = true) ∧
          ∃ f, faultOf (parseNamed none "s = a | b | a | b: c | a") = some f ∧
            f.clashes = [⟨"a", "a", 4, "a", 12⟩, ⟨"b", "b", 8, "c", 16⟩, ⟨"a", "a", 4, "a", 23⟩] ∧
            f.offset = 12 := by decide +kernel
  rw [toOption_eq_some] at hts hbody
  rw [faultOf_eq_some] at hf
  obtain ⟨-, hreport⟩ := clashes_complete hts hbody hlegal
  obtain ⟨hmessage, hreports, -⟩ := hreport f hf
  exact ⟨ts, s, d, f, hts, hbody, hlegal, hf, hmessage, hclashes, hreports, hoffset⟩

end Pipework.Stream
