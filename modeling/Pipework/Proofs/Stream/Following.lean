import Pipework.Proofs.Stream.Grammar

/-! What can follow a part of a stream, and what the first tokens of one tell. -/

namespace Pipework.Stream

open Token Pipework.Parser Read

/-! ## Where apps end -/

/-- The kinds of the tokens that can follow an app. -/
def endsApp : Kind → Bool
  | .gt | .pipe | .doublePipe | .eof => true
  | _ => false

/-- A `>` comes before any pipe. -/
def gtAhead : List View → Bool
  | [] => false
  | v :: vs => if endsApp v.kind then v.kind == .gt else gtAhead vs

/-- The views from here on start with a token that can follow an app. -/
def FollowsApp (ws : List View) : Prop := ∃ v us, ws = v :: us ∧ endsApp v.kind = true

theorem EndsChannel.followsApp {rest : List View} (h : EndsChannel rest) : FollowsApp rest := by
  match rest, h with
  | v :: ws, h => exact ⟨v, ws, rfl, by obtain h | h := h <;> simp [h, endsApp]⟩

theorem gtBeforePipe_eq (c : Cursor) : gtBeforePipe c.ahead = gtAhead c.views := by
  rw [Cursor.views]
  generalize c.behind.head? = last
  induction c.ahead generalizing last with
  | nil => rfl
  | cons t ts ih =>
    rw [viewsOf, gtAhead, gtBeforePipe, ← ih]
    cases h : t.kind <;> simp [viewOf, h, endsApp]

theorem gtAhead_append {vs ws : List View} (h : ∀ v ∈ vs, endsApp v.kind = false) :
    gtAhead (vs ++ ws) = gtAhead ws := by
  induction vs with
  | nil => rfl
  | cons v vs ih =>
    rw [List.forall_mem_cons] at h
    rw [List.cons_append, gtAhead, h.1, if_neg (by simp), ih h.2]

theorem endsApp_of_isName {k : Kind} (h : k.isName = true) : endsApp k = false := by
  cases k <;> simp_all [Kind.isName, endsApp]

theorem endsApp_of_isInArgument {k : Kind} (h : Argument.isInArgument k = true) :
    endsApp k = false := by
  cases k <;> simp_all [Argument.isInArgument, endsApp]

theorem App.Spells.endsApp_eq {vs : List View} {a : App} (h : a.Spells vs) :
    ∀ v ∈ vs, endsApp v.kind = false := by
  obtain ⟨hn, ha⟩ := h
  rw [List.forall_mem_append]
  constructor
  · cases hn with
    | plain hn => simpa using endsApp_of_isName hn
    | labelled hn hc _ hn' =>
      have hcolon : endsApp .colon = false := rfl
      simp [endsApp_of_isName hn, endsApp_of_isName hn', hc, hcolon]
  · exact ha.forall_mem fun h v hv => endsApp_of_isInArgument (h.kinds v hv)

theorem Row.ne_nil {vs : List View} {as : List App} {unbound : Bool} (h : Row vs as unbound) :
    vs ≠ [] := by
  cases h with
  | bound h _ | apart h _ _ =>
    obtain ⟨h, -⟩ := h
    cases h <;> simp

theorem SpellsChannel.endsApp_eq {isSource : Bool} {vs : List View} {ch : Channel}
    (h : SpellsChannel isSource vs ch) : ∀ v ∈ vs, endsApp v.kind = false := fun v hv => by
  have := h.kinds v hv
  cases hk : v.kind <;> simp_all [isInChannel, isComponent, endsApp]

/-! ## How apps begin -/

theorem App.Spells.exists_name {vs : List View} {a : App} (h : a.Spells vs) :
    ∃ v ws, vs = v :: ws ∧ v.kind.isName = true := by
  obtain ⟨hn, -⟩ := h
  cases hn with
  | plain hn => exact ⟨_, _, rfl, hn⟩
  | labelled hn => exact ⟨_, _, rfl, hn⟩

theorem Row.exists_first {vs : List View} {as : List App} {unbound : Bool}
    (h : Row vs as unbound) : ∃ us ws a bs separator, vs = us ++ ws ∧ as = a :: bs ∧ a.Spells us ∧
      (separator = .pipe ∨ separator = .doublePipe) ∧ Many (After separator App.Spells) ws bs := by
  cases h with
  | bound ha hm => exact ⟨_, _, _, _, _, rfl, rfl, ha, .inl rfl, hm⟩
  | apart ha hm _ => exact ⟨_, _, _, _, _, rfl, rfl, ha, .inr rfl, hm⟩

theorem Row.apps_ne_nil {vs : List View} {as : List App} {unbound : Bool}
    (h : Row vs as unbound) : as ≠ [] := by
  cases h with
  | bound | apart => exact List.cons_ne_nil _ _

theorem Row.two_le_length {vs : List View} {as : List App} (h : Row vs as true) :
    2 ≤ as.length := by
  cases h with
  | apart _ _ hne =>
    rw [List.length_cons, Nat.succ_le_succ_iff]
    exact List.length_pos_iff.mpr hne

/-- A separator follows the first of several apps. -/
theorem exists_separator {separator : Kind} {ws : List View} {as : List App}
    (h : Many (After separator App.Spells) ws as) (hne : as ≠ []) :
    ∃ v us, ws = v :: us ∧ v.kind = separator := by
  cases h with
  | nil => exact absurd rfl hne
  | cons hi _ =>
    obtain ⟨hv, -⟩ := hi
    exact ⟨_, _, rfl, hv⟩

theorem Row.gtAhead_eq {vs rest : List View} {as : List App} {unbound : Bool} (h : Row vs as unbound)
    (hl : 2 ≤ as.length ∨ gtAhead rest = false) : gtAhead (vs ++ rest) = false := by
  obtain ⟨us, ws, a, bs, separator, rfl, rfl, ha, hk, hm⟩ := h.exists_first
  rw [List.append_assoc, gtAhead_append ha.endsApp_eq]
  by_cases hb : bs = []
  · subst hb
    cases hm
    simpa using hl
  · obtain ⟨v, us, rfl, rfl⟩ := exists_separator hm hb
    obtain hk | hk := hk <;> simp [gtAhead, hk, endsApp]

theorem Row.exists_name {vs : List View} {as : List App} {unbound : Bool}
    (h : Row vs as unbound) : ∃ v ws, vs = v :: ws ∧ v.kind.isName = true := by
  obtain ⟨us, ws, a, bs, separator, rfl, rfl, ha, -⟩ := h.exists_first
  obtain ⟨v, us, rfl, hv⟩ := ha.exists_name
  exact ⟨v, us ++ ws, rfl, hv⟩

theorem SpellsSink.endsChannel {ws rest : List View} {sink : Option Endpoint}
    (h : SpellsSink ws sink) (hr : EndsChannel rest) : EndsChannel (ws ++ rest) := by
  cases h with
  | none => exact hr
  | some hgt _ => exact Or.inl hgt

theorem SpellsSink.followsApp {ws rest : List View} {sink : Option Endpoint}
    (h : SpellsSink ws sink) (hr : FollowsApp rest) : FollowsApp (ws ++ rest) := by
  cases h with
  | none => exact hr
  | some hgt _ => exact EndsChannel.followsApp (Or.inl hgt)

/-! ## Keywords -/

/-- What follows apps in a row cannot make a keyword of a name. -/
theorem opensKeyword_append {us ws : List View} (hu : us ≠ [])
    (hw : ∀ v ∈ ws.head?, v.kind ≠ .colon) : opensKeyword (us ++ ws) = opensKeyword us := by
  match us, ws with
  | [], _ => exact absurd rfl hu
  | [_], [] => rfl
  | [_], w :: ws => simpa [opensKeyword] using fun _ h => absurd h (hw w rfl)
  | _ :: _ :: _, _ => rfl

/-- Before a sink, one app alone is not labelled with a keyword: it would be read as a source. -/
theorem Row.two_le_length_of_opens {us ws : List View} {as : List App} (h : Row us as false)
    (hopen : opensKeyword us = true) (hg : gtAhead (us ++ ws) = false)
    (hws : ∃ v, ws.head? = some v ∧ v.kind = .gt) : 2 ≤ as.length := by
  cases h with
  | bound ha hm =>
    cases hm with
    | cons _ _ => simp
    | nil =>
      obtain ⟨v, hv, hk⟩ := hws
      obtain ⟨ws, rfl⟩ := List.head?_eq_some_iff.mp hv
      rw [List.append_nil, gtAhead_append ha.endsApp_eq] at hg
      simp [gtAhead, hk, endsApp] at hg

theorem Body.ne_nil {vs : List View} {s : Stream} (h : Body vs s) : vs ≠ [] := by
  cases h with
  | bridge => simp
  | row _ hrow _ _ => simp [hrow.ne_nil]
  | apart hrow => exact hrow.ne_nil

theorem Spells.ne_nil {vs : List View} {s : Stream} (h : Spells vs s) : vs ≠ [] := by
  cases h with
  | unnamed hb => exact hb.ne_nil
  | named => simp

/-! ## Names -/

/-- A stream starts with a name only if no `=` follows. -/
def opensName : List View → Bool
  | name :: equals :: _ => name.kind.isName && equals.kind == .equals
  | _ => false

theorem App.Spells.opensName_eq {vs rest : List View} {a : App} (h : a.Spells vs)
    (hr : FollowsApp rest) : opensName (vs ++ rest) = false := by
  obtain ⟨hn, ha⟩ := h
  obtain ⟨v, us, rfl, hv⟩ := hr
  cases hn with
  | labelled _ hk => simp [opensName, hk]
  | plain hn =>
    cases ha with
    | nil =>
      have : v.kind ≠ .equals := by
        rintro h
        simp [h, endsApp] at hv
      simp [opensName, this]
    | cons hi _ =>
      obtain ⟨hk, -⟩ := hi
      simp [opensName, hk]

theorem opensName_of_colonNames {word : View} {us ws : List View} {names : List String}
    (h : Many ColonName us names) (hne : names ≠ []) : opensName (word :: us ++ ws) = false := by
  cases h with
  | nil => exact absurd rfl hne
  | cons hi _ =>
    obtain ⟨hk, -⟩ := hi
    simp [opensName, hk]

theorem SpellsChannel.opensName_eq {isSource : Bool} {vs rest : List View} {ch : Channel}
    (h : SpellsChannel isSource vs ch) : opensName (vs ++ rest) = false := by
  cases h with
  | destination hk => simp [opensName, hk, Kind.isName]
  | named _ hn hne => exact opensName_of_colonNames hn hne
  | tap _ _ hn => exact opensName_of_colonNames hn (by simp)
  | labelledTap _ _ hn =>
    rw [List.append_assoc]
    exact opensName_of_colonNames hn (by simp)

theorem Row.opensName_eq {vs rest : List View} {as : List App} {unbound : Bool}
    (h : Row vs as unbound) (hr : FollowsApp rest) : opensName (vs ++ rest) = false := by
  obtain ⟨us, ws, a, bs, separator, rfl, rfl, ha, hk, hm⟩ := h.exists_first
  rw [List.append_assoc]
  refine ha.opensName_eq ?_
  by_cases hb : bs = []
  · subst hb
    cases hm
    exact hr
  · obtain ⟨v, us, rfl, rfl⟩ := exists_separator hm hb
    exact ⟨v, us ++ rest, rfl, by obtain hk | hk := hk <;> simp [hk, endsApp]⟩

theorem Body.name_eq {vs : List View} {s : Stream} (h : Body vs s) : s.name = none := by
  cases h <;> rfl

theorem Body.opensName_eq {vs rest : List View} {s : Stream} (h : Body vs s)
    (hr : FollowsApp rest) : opensName (vs ++ rest) = false := by
  cases h with
  | bridge hs =>
    rw [List.append_assoc]
    exact hs.opensName_eq
  | row hs hrow hk =>
    rw [List.append_assoc, List.append_assoc]
    cases hs with
    | none => exact hrow.opensName_eq (hk.followsApp hr)
    | some hch =>
      rw [List.append_assoc]
      exact hch.opensName_eq
  | apart hrow => exact hrow.opensName_eq hr

theorem opensName_of_inlineName {c : Cursor} (hn : c.peek.isName = true)
    (hk : (c.peekAt 1).map Token.kind = some .equals) : opensName c.views = true := by
  have hne := Kind.ne_eof_of_isName hn
  have hk := Cursor.peek_next hne hk
  rw [Cursor.views_eq_cons hne, Cursor.views_eq_cons (by simp [hk])]
  simpa [opensName, hk] using ⟨hn, hk⟩

/-! ## The end of the text -/

theorem ne_eof_of_endsApp {vs : List View} (h : ∀ v ∈ vs, endsApp v.kind = false) :
    ∀ v ∈ vs, v.kind ≠ .eof := fun v hv he => by
  have := h v hv
  rw [he] at this
  cases this

theorem Row.ne_eof {vs : List View} {as : List App} {unbound : Bool} (h : Row vs as unbound) :
    ∀ v ∈ vs, v.kind ≠ .eof := by
  obtain ⟨us, ws, a, bs, separator, rfl, rfl, ha, hk, hm⟩ := h.exists_first
  refine List.forall_mem_append.mpr ⟨ne_eof_of_endsApp ha.endsApp_eq, hm.forall_mem fun h => ?_⟩
  obtain ⟨hv, ha⟩ := h
  refine List.forall_mem_cons.mpr ⟨?_, ne_eof_of_endsApp ha.endsApp_eq⟩
  rw [hv]
  obtain rfl | rfl := hk <;> simp

theorem SpellsSource.ne_eof {vs : List View} {source : Option Endpoint} (h : SpellsSource vs source) :
    ∀ v ∈ vs, v.kind ≠ .eof := by
  cases h with
  | none => simp
  | some hch hgt =>
    exact List.forall_mem_append.mpr ⟨ne_eof_of_endsApp hch.endsApp_eq, by simp [hgt]⟩

theorem SpellsSink.ne_eof {vs : List View} {sink : Option Endpoint} (h : SpellsSink vs sink) :
    ∀ v ∈ vs, v.kind ≠ .eof := by
  cases h with
  | none => simp
  | some hgt hch =>
    exact List.forall_mem_cons.mpr ⟨by simp [hgt], ne_eof_of_endsApp hch.endsApp_eq⟩

theorem Body.ne_eof {vs : List View} {s : Stream} (h : Body vs s) : ∀ v ∈ vs, v.kind ≠ .eof := by
  cases h with
  | bridge hs hgt hk =>
    exact List.forall_mem_append.mpr ⟨ne_eof_of_endsApp hs.endsApp_eq,
      List.forall_mem_cons.mpr ⟨by simp [hgt], ne_eof_of_endsApp hk.endsApp_eq⟩⟩
  | row hs hrow hk =>
    exact List.forall_mem_append.mpr
      ⟨List.forall_mem_append.mpr ⟨hs.ne_eof, hrow.ne_eof⟩, hk.ne_eof⟩
  | apart hrow => exact hrow.ne_eof

/-- What a stream is written in does not reach the end of the text. -/
theorem Spells.ne_eof {vs : List View} {s : Stream} (h : Spells vs s) : ∀ v ∈ vs, v.kind ≠ .eof := by
  cases h with
  | unnamed hb => exact hb.ne_eof
  | named hn hk hb =>
    exact List.forall_mem_cons.mpr ⟨Kind.ne_eof_of_isName hn,
      List.forall_mem_cons.mpr ⟨by simp [hk], hb.ne_eof⟩⟩

end Pipework.Stream
