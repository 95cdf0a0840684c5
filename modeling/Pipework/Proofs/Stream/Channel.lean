import Pipework.Proofs.Parser.Repetition
import Pipework.Stream.Parser

/-! How channels are written, as a grammar over views, and that the parser of channels reads
exactly what it derives, from the start of its first token to the end of its last. -/

namespace Pipework.Stream

open Token Pipework.Parser Read

/-! ## The grammar -/

inductive ComponentPart : List View → String → Prop
  | mk {v : View} : isComponent v.kind = true → v.glued = true → ComponentPart [v] v.kind.symbol

/-- A component of a destination: adjacent names, stars, slashes and hashes. -/
inductive Component : List View → String → Prop
  | mk {first : View} {vs : List View} {parts : List String} : isComponent first.kind = true →
      Many ComponentPart vs parts → Component (first :: vs) (first.kind.symbol ++ String.join parts)

inductive DottedComponent : List View → String → Prop
  | mk {dot first : View} {vs : List View} {text : String} : dot.kind = .dot → dot.glued = true →
      first.glued = true → Component (first :: vs) text → DottedComponent (dot :: first :: vs) text

inductive ColonName : List View → String → Prop
  | mk {colon name : View} : colon.kind = .colon → colon.glued = true → name.kind.isName = true →
      name.glued = true → ColonName [colon, name] name.kind.symbol

/-- The channels of the short form and of the long one; only a source can be a tap. -/
inductive SpellsChannel (isSource : Bool) : List View → Channel → Prop
  | destination {colon first : View} {vs ws : List View} {text : String} {texts : List String} :
      colon.kind = .colon → first.glued = true → Component (first :: vs) text →
      Many DottedComponent ws texts →
      SpellsChannel isSource (colon :: first :: vs ++ ws) (channelOf isSource (text :: texts))
  | named {word : View} {vs : List View} {kind : Channel.Kind} {names : List String} :
      word.kind = .identifier kind.name → Many ColonName vs names → names ≠ [] →
      SpellsChannel isSource (word :: vs) (.named kind (":".intercalate names))
  | tap {word : View} {vs : List View} {stream : String} {more : List String} :
      isSource = true → word.kind = .identifier "tap" →
      Many ColonName vs ("stream" :: stream :: more) →
      SpellsChannel isSource (word :: vs) (.tap (":".intercalate (stream :: more)) none)
  | labelledTap {word dot name : View} {vs : List View} {stream : String} {more : List String} :
      isSource = true → word.kind = .identifier "tap" →
      Many ColonName vs ("stream" :: stream :: more) → dot.kind = .dot → dot.glued = true →
      name.kind.isName = true → name.glued = true →
      SpellsChannel isSource (word :: vs ++ [dot, name])
        (.tap (":".intercalate (stream :: more)) (some name.kind.symbol))

/-- A channel spans its tokens. -/
structure DerivesChannel (isSource : Bool) (vs : List Sight) (p : Placed) : Prop where
  spells : SpellsChannel isSource (vs.map Sight.toView) p.1
  start : p.2.1 = startOf vs
  stop : p.2.2 = stopOf vs

/-- A keyword of the long form and the colon right after it. -/
def opensKeyword : List View → Bool
  | word :: colon :: _ =>
    (word.kind == .identifier "queue" || word.kind == .identifier "topic" ||
      word.kind == .identifier "tap") && colon.kind == .colon && colon.glued
  | _ => false

/-! ## Kinds -/

/-- The kinds of the tokens of channels. -/
def isInChannel (k : Kind) : Bool := isComponent k || k == .colon || k == .dot

theorem isInChannel_of_isName {k : Kind} (h : k.isName = true) : isInChannel k = true := by
  cases k <;> simp_all [Kind.isName, isInChannel, isComponent]

theorem Component.kinds {vs : List View} {text : String} (h : Component vs text) :
    ∀ v ∈ vs, isInChannel v.kind = true := by
  obtain ⟨hk, hm⟩ := h
  refine List.forall_mem_cons.mpr ⟨by simp [isInChannel, hk], hm.forall_mem fun h => ?_⟩
  obtain ⟨hk, -⟩ := h
  simp [isInChannel, hk]

theorem ColonName.kinds {vs : List View} {name : String} (h : ColonName vs name) :
    ∀ v ∈ vs, isInChannel v.kind = true := by
  obtain ⟨hk, -, hn, -⟩ := h
  exact List.forall_mem_cons.mpr ⟨hk ▸ rfl, by simpa using isInChannel_of_isName hn⟩

theorem SpellsChannel.kinds {isSource : Bool} {vs : List View} {ch : Channel}
    (h : SpellsChannel isSource vs ch) : ∀ v ∈ vs, isInChannel v.kind = true := by
  cases h with
  | destination hk _ hf hm =>
    refine List.forall_mem_append.mpr ⟨List.forall_mem_cons.mpr ⟨hk ▸ rfl, hf.kinds⟩,
      hm.forall_mem fun h => ?_⟩
    obtain ⟨hk, -, -, ht⟩ := h
    exact List.forall_mem_cons.mpr ⟨hk ▸ rfl, ht.kinds⟩
  | named hw hn | tap _ hw hn =>
    exact List.forall_mem_cons.mpr ⟨hw ▸ rfl, hn.forall_mem ColonName.kinds⟩
  | labelledTap _ hw hn hd _ hi =>
    exact List.forall_mem_append.mpr
      ⟨List.forall_mem_cons.mpr ⟨hw ▸ rfl, hn.forall_mem ColonName.kinds⟩,
        List.forall_mem_cons.mpr ⟨hd ▸ rfl, by simpa using isInChannel_of_isName hi⟩⟩

theorem SpellsChannel.ne_tap {vs : List View} {ch : Channel} (h : SpellsChannel false vs ch) :
    ∀ stream label, ch ≠ .tap stream label := by
  cases h with
  | @destination _ _ _ _ text texts =>
    rcases texts with _ | ⟨_, _ | _⟩ <;> simp [channelOf]
  | named => simp
  | tap hs | labelledTap hs => cases hs

theorem opensKeyword_of_colonNames {word : View} {vs rest : List View} {names : List String}
    (hw : word.kind = .identifier "queue" ∨ word.kind = .identifier "topic" ∨
      word.kind = .identifier "tap") (hn : Many ColonName vs names) (hne : names ≠ []) :
    opensKeyword (word :: vs ++ rest) = true := by
  cases hn with
  | nil => exact absurd rfl hne
  | cons hi _ =>
    obtain ⟨hk, hg, -⟩ := hi
    obtain hw | hw | hw := hw <;> simp [opensKeyword, hw, hk, hg]

variable {c d : Cursor}

/-- The first views of a channel tell that it is one. -/
theorem SpellsChannel.opens {isSource : Bool} {vs rest : List View} {ch : Channel}
    (h : SpellsChannel isSource vs ch) (hc : c.views = vs ++ rest) :
    c.peek.kind = .colon ∨ opensKeyword c.views = true := by
  cases h with
  | destination hk => exact .inl ((Cursor.peek_kind_of_views hc).trans hk)
  | @named word us kind names hw hn hne =>
    rw [hc]
    exact .inr (opensKeyword_of_colonNames (by cases kind <;> simp [hw, Channel.Kind.name]) hn hne)
  | tap _ hw hn =>
    rw [hc]
    exact .inr (opensKeyword_of_colonNames (.inr (.inr hw)) hn (by simp))
  | labelledTap _ hw hn =>
    rw [hc, List.append_assoc]
    exact .inr (opensKeyword_of_colonNames (.inr (.inr hw)) hn (by simp))

/-! ## What is read is derived -/

theorem startsKeyword_eq (c : Cursor) : startsKeyword c = opensKeyword c.views := by
  rcases c with ⟨source, behind, _ | ⟨t, _ | ⟨u, us⟩⟩, good⟩
  · rfl
  · rfl
  · simp [startsKeyword, Cursor.peekAt, Cursor.peek, Cursor.views, viewsOf, viewOf, opensKeyword,
      Bool.beq_comm]

theorem reads_componentRest {s : Option String} : Reads componentRest c s d ↔
    (isComponent c.peek.kind = true ∧ c.adjacent = true ∧ s = some c.peek.text ∧ d = c.next.2) ∨
      (¬ (isComponent c.peek.kind = true ∧ c.adjacent = true) ∧ s = none ∧ d = c) := by
  simp [componentRest, reads_ite]
  grind

theorem ne_eof_of_isComponent {k : Kind} (h : isComponent k = true) : k ≠ .eof := by
  rintro rfl
  cases h

theorem reads_component {s : String} : Reads component c s d ↔
    ∃ parts, Reads (many componentRest) c.next.2 parts d ∧ s = c.peek.text ++ String.join parts := by
  simp [component]

theorem component_of_reads {s : String} (hk : isComponent c.peek.kind = true)
    (h : Reads component c s d) :
    ∃ vs, c.Passes (c.sight :: vs) d ∧ Component (c.view :: vs.map Sight.toView) s := by
  obtain ⟨parts, hm, rfl⟩ := reads_component.mp h
  obtain ⟨vs, hp, hparts⟩ := many_of_reads (fun vs s => ComponentPart (vs.map Sight.toView) s)
    (fun {c _ _} h => by
      obtain ⟨hk, hg, hs, rfl⟩ | ⟨-, h, -⟩ := reads_componentRest.mp h
      · obtain rfl := Option.some.inj hs
        exact ⟨[c.sight], .next (ne_eof_of_isComponent hk), .mk hk (Cursor.glued_of_adjacent hg)⟩
      · cases h)
    (fun h => by
      obtain ⟨-, -, h, -⟩ | ⟨-, -, h⟩ := reads_componentRest.mp h
      · cases h
      · exact h) hm
  exact ⟨vs, (Cursor.Passes.next (ne_eof_of_isComponent hk)).trans hp,
    .mk hk (Many.map_iff.mpr hparts)⟩

theorem reads_dottedComponent {s : Option String} : Reads dottedComponent c s d ↔
    (c.peek.kind = .dot ∧ c.adjacent = true ∧ isComponent c.next.2.peek.kind = true ∧
        c.next.2.adjacent = true ∧ ∃ t, Reads component c.next.2 t d ∧ s = some t) ∨
      (¬ (c.peek.kind = .dot ∧ c.adjacent = true) ∧ s = none ∧ d = c) := by
  have := @ne_eof_of_isComponent c.next.2.peek.kind
  simp [dottedComponent, reads_ite]
  grind

theorem dottedComponent_of_reads {s : String} (h : Reads dottedComponent c (some s) d) :
    ∃ vs, c.Passes vs d ∧ DottedComponent (vs.map Sight.toView) s := by
  obtain ⟨hk, ha, hc, hg, t, ht, hs⟩ | ⟨-, h, -⟩ := reads_dottedComponent.mp h
  · obtain rfl := Option.some.inj hs
    obtain ⟨vs, hp, ht⟩ := component_of_reads hc ht
    exact ⟨c.sight :: c.next.2.sight :: vs, (Cursor.Passes.next (by simp [hk])).trans hp,
      .mk hk (Cursor.glued_of_adjacent ha) (Cursor.glued_of_adjacent hg) ht⟩
  · cases h

theorem reads_destination {isSource : Bool} {p : Placed} : Reads (destination isSource) c p d ↔
    c.peek.kind = .colon ∧ isComponent c.next.2.peek.kind = true ∧ c.next.2.adjacent = true ∧
      ∃ first e rest, Reads component c.next.2 first e ∧ Reads (many dottedComponent) e rest d ∧
        ¬ (d.peek.kind = .colon ∧ d.adjacent = true) ∧
        p = (channelOf isSource (first :: rest), c.peek.start, d.previousStop) := by
  simp [destination, reads_ite]

theorem reads_colonName {s : Option String} : Reads colonName c s d ↔
    (c.peek.kind = .colon ∧ c.adjacent = true ∧ c.next.2.peek.isName = true ∧
        c.next.2.adjacent = true ∧ s = some c.next.2.peek.text ∧ d = c.next.2.next.2) ∨
      (c.peek.kind ≠ .colon ∧ s = none ∧ d = c) := by
  simp [colonName, reads_ite]
  grind

theorem reads_tapLabel {s : Option String} : Reads tapLabel c s d ↔
    (c.peek.kind = .dot ∧ c.adjacent = true ∧ c.next.2.peek.isName = true ∧
        c.next.2.adjacent = true ∧ s = some c.next.2.peek.text ∧ d = c.next.2.next.2) ∨
      (¬ (c.peek.kind = .dot ∧ c.adjacent = true) ∧ s = none ∧ d = c) := by
  simp [tapLabel, reads_ite]
  grind

theorem reads_keywordChannel {isSource : Bool} {first : Token} {names : List String} {ch : Channel} :
    Reads (keywordChannel isSource first names) c ch d ↔
      (first.text = "tap" ∧ isSource = true ∧ ∃ stream more label,
        names = "stream" :: stream :: more ∧ Reads tapLabel c label d ∧
          ch = .tap (":".intercalate (stream :: more)) label) ∨
      (first.text ≠ "tap" ∧ ∃ kind, Channel.Kind.ofName? first.text = some kind ∧ names ≠ [] ∧
        ¬ (c.peek.kind = .dot ∧ c.adjacent = true) ∧ ch = .named kind (":".intercalate names) ∧
        d = c) := by
  unfold keywordChannel
  by_cases ht : first.text = "tap"
  · match names with
    | [] | [_] => simp [ht, reads_ite]
    | scope :: stream :: more => simp [ht, reads_ite]
  · cases Channel.Kind.ofName? first.text <;> simp [ht, reads_ite]

theorem reads_keyword {isSource : Bool} {p : Placed} : Reads (keyword isSource) c p d ↔
    ∃ names e ch, Reads (many colonName) c.next.2 names e ∧
      Reads (keywordChannel isSource c.peek names) e ch d ∧ p = (ch, c.peek.start, d.previousStop) := by
  simp [keyword]

theorem reads_channel {isSource : Bool} {p : Placed} : Reads (channel isSource) c p d ↔
    (c.peek.kind = .colon ∧ Reads (destination isSource) c p d) ∨
      (c.peek.kind ≠ .colon ∧ Reads (keyword isSource) c p d) := by
  simp [channel, reads_ite]

theorem destination_of_reads {isSource : Bool} {p : Placed}
    (h : Reads (destination isSource) c p d) :
    ∃ vs, c.Passes vs d ∧ DerivesChannel isSource vs p := by
  obtain ⟨hk, hc, hg, first, e, rest, hf, hr, -, rfl⟩ := reads_destination.mp h
  obtain ⟨vs, hv, hf⟩ := component_of_reads hc hf
  obtain ⟨ws, hw, hr⟩ := many_of_reads (fun vs s => DottedComponent (vs.map Sight.toView) s)
    dottedComponent_of_reads
    (fun h => by
      obtain ⟨-, -, -, -, _, -, h⟩ | ⟨-, -, h⟩ := reads_dottedComponent.mp h
      · cases h
      · exact h) hr
  have hp : c.Passes (c.sight :: c.next.2.sight :: vs ++ ws) d :=
    ((Cursor.Passes.next (by simp [hk])).trans hv).trans hw
  refine ⟨_, hp, ?_, rfl, hp.previousStop (by simp)⟩
  rw [List.map_append]
  exact .destination hk (Cursor.glued_of_adjacent hg) hf (Many.map_iff.mpr hr)

theorem colonNames_of_reads {names : List String} (h : Reads (many colonName) c names d) :
    ∃ vs, c.Passes vs d ∧ Many ColonName (vs.map Sight.toView) names := by
  obtain ⟨vs, hp, hn⟩ := many_of_reads (fun vs s => ColonName (vs.map Sight.toView) s)
    (fun {c _ _} h => by
      obtain ⟨hk, ha, hn, hg, hs, rfl⟩ | ⟨-, h, -⟩ := reads_colonName.mp h
      · obtain rfl := Option.some.inj hs
        exact ⟨[c.sight, c.next.2.sight],
          (Cursor.Passes.next (by simp [hk])).trans (.next (Kind.ne_eof_of_isName hn)),
          .mk hk (Cursor.glued_of_adjacent ha) hn (Cursor.glued_of_adjacent hg)⟩
      · cases h)
    (fun h => by
      obtain ⟨-, -, -, -, h, -⟩ | ⟨-, -, h⟩ := reads_colonName.mp h
      · cases h
      · exact h) h
  exact ⟨vs, hp, Many.map_iff.mpr hn⟩

/-- The keywords of the long form. -/
theorem word_of_opensKeyword (h : opensKeyword c.views = true) :
    ∃ word, c.peek.kind = .identifier word ∧ (word = "queue" ∨ word = "topic" ∨ word = "tap") := by
  match hv : c.views with
  | [] | [_] => simp [hv, opensKeyword] at h
  | word :: colon :: _ =>
    rw [Cursor.peek_kind_of_views hv]
    simp only [hv, opensKeyword, Bool.and_eq_true, Bool.or_eq_true, beq_iff_eq] at h
    obtain ⟨⟨⟨h | h⟩ | h, -⟩, -⟩ := h <;> exact ⟨_, h, by simp⟩

theorem keyword_of_reads {isSource : Bool} {p : Placed} (hk : opensKeyword c.views = true)
    (h : Reads (keyword isSource) c p d) :
    ∃ vs, c.Passes vs d ∧ DerivesChannel isSource vs p := by
  obtain ⟨names, e, ch, hm, hch, rfl⟩ := reads_keyword.mp h
  obtain ⟨vs, hv, hn⟩ := colonNames_of_reads hm
  obtain ⟨word, hw, hword⟩ := word_of_opensKeyword hk
  have ht : c.peek.text = word := by rw [Token.text, hw, Kind.symbol]
  have hp : c.Passes (c.sight :: vs) e := (Cursor.Passes.next (by simp [hw])).trans hv
  obtain ⟨rfl, rfl, stream, more, label, rfl, hl, rfl⟩ | ⟨-, kind, hkind, hne, -, rfl, rfl⟩ :=
    ht ▸ reads_keywordChannel.mp hch
  · obtain ⟨hd, ha, hi, hg, rfl, rfl⟩ | ⟨-, rfl, rfl⟩ := reads_tapLabel.mp hl
    · have hp' : c.Passes (c.sight :: vs ++ [e.sight, e.next.2.sight]) e.next.2.next.2 :=
        hp.trans ((Cursor.Passes.next (by simp [hd])).trans (.next (Kind.ne_eof_of_isName hi)))
      refine ⟨_, hp', ?_, rfl, hp'.previousStop (by simp)⟩
      rw [List.map_append]
      exact .labelledTap rfl hw hn hd (Cursor.glued_of_adjacent ha) hi (Cursor.glued_of_adjacent hg)
    · exact ⟨_, hp, .tap rfl hw hn, rfl, hp.previousStop (by simp)⟩
  · refine ⟨_, hp, .named (hw.trans ?_) hn hne, rfl, hp.previousStop (by simp)⟩
    obtain rfl | rfl | rfl := hword
    · obtain rfl : Channel.Kind.queue = kind := Option.some.inj hkind
      rfl
    · obtain rfl : Channel.Kind.topic = kind := Option.some.inj hkind
      rfl
    · cases hkind

theorem channel_of_reads {isSource : Bool} {p : Placed}
    (hc : c.peek.kind = .colon ∨ opensKeyword c.views = true) (h : Reads (channel isSource) c p d) :
    ∃ vs, c.Passes vs d ∧ DerivesChannel isSource vs p := by
  obtain ⟨-, h⟩ | ⟨hk, h⟩ := reads_channel.mp h
  · exact destination_of_reads h
  · exact keyword_of_reads (hc.resolve_left hk) h

/-! ## What is derived is read -/

/-- After a channel there is a `>` or nothing. -/
def EndsChannel : List View → Prop
  | v :: _ => v.kind = .gt ∨ v.kind = .eof
  | [] => False

theorem EndsChannel.exists_cons {rest : List View} (h : EndsChannel rest) :
    ∃ v ws, rest = v :: ws ∧ isComponent v.kind = false ∧ v.kind ≠ .dot ∧ v.kind ≠ .colon := by
  match rest, h with
  | v :: ws, h => exact ⟨v, ws, rfl, by obtain h | h := h <;> simp [h, isComponent]⟩

theorem repeats_componentRest :
    Repeats componentRest (fun vs => ComponentPart (vs.map Sight.toView)) fun _ => True where
  reads {c vs _ ws} hi _ hc := by
    generalize hvs : vs.map Sight.toView = us at hi
    obtain ⟨hk, hg⟩ := hi
    simp only [List.map_eq_cons_iff, List.map_eq_nil_iff] at hvs
    obtain ⟨w, _, rfl, rfl, rfl⟩ := hvs
    refine ⟨_, reads_componentRest.mpr (.inl ⟨?_, ?_, ?_, rfl⟩),
      Cursor.next_passes hc (ne_eof_of_isComponent hk)⟩
    · rw [Cursor.peek_kind_of_sights hc, hk]
    · rw [Cursor.adjacent_of_sights hc, hg]
    · rw [Cursor.text_of_sights hc]
  ne_nil hi := by
    rintro rfl
    cases hi
  follows _ _ _ := trivial

theorem Component.reads {first : Sight} {vs rest : List Sight} {text : String}
    (h : Component (first.toView :: vs.map Sight.toView) text) (hc : c.sights = first :: vs ++ rest)
    (hr : ∃ v us, rest.map Sight.toView = v :: us ∧ isComponent v.kind = false) :
    isComponent c.peek.kind = true ∧ ∃ d, Reads component c text d ∧ c.Passes (first :: vs) d := by
  obtain ⟨hk, hm⟩ := h
  obtain ⟨v, us, hv, hn⟩ := hr
  have hp := Cursor.next_passes hc (ne_eof_of_isComponent hk)
  obtain ⟨d, hd, hpd⟩ := reads_many_of repeats_componentRest trivial (by rintro rfl; cases hv)
    (fun {c} hc => reads_componentRest.mpr (.inr ⟨by
      simp [Cursor.peek_kind_of_views ((Cursor.views_of_sights hc).trans hv), hn], rfl, rfl⟩))
    (Many.map_iff.mp hm) (hp.left hc)
  refine ⟨(Cursor.peek_kind_of_sights hc).symm ▸ hk, d, reads_component.mpr ⟨_, hd, ?_⟩, hp.trans hpd⟩
  rw [Cursor.text_of_sights hc]

theorem DottedComponent.reads {vs rest : List Sight} {text : String}
    (h : DottedComponent (vs.map Sight.toView) text) (hc : c.sights = vs ++ rest)
    (hr : ∃ v us, rest.map Sight.toView = v :: us ∧ isComponent v.kind = false) :
    ∃ d, Reads dottedComponent c (some text) d ∧ c.Passes vs d := by
  generalize hvs : vs.map Sight.toView = us at h
  obtain ⟨hk, hg, hg', ht⟩ := h
  simp only [List.map_eq_cons_iff] at hvs
  obtain ⟨dot, _, rfl, rfl, first, ws, rfl, rfl, rfl⟩ := hvs
  have hp := Cursor.next_passes hc (by simp [hk])
  have h₁ := hp.left hc
  obtain ⟨hi, d, hd, hpd⟩ := ht.reads h₁ hr
  refine ⟨d, reads_dottedComponent.mpr (.inl ⟨?_, ?_, hi, ?_, text, hd, rfl⟩), hp.trans hpd⟩
  · rw [Cursor.peek_kind_of_sights hc, hk]
  · rw [Cursor.adjacent_of_sights hc, hg]
  · rw [Cursor.adjacent_of_sights h₁, hg']

theorem EndsChannel.ne_nil {rest : List Sight} (h : EndsChannel (rest.map Sight.toView)) :
    rest ≠ [] := by
  rintro rfl
  cases h

theorem repeats_dottedComponent : Repeats dottedComponent
    (fun vs => DottedComponent (vs.map Sight.toView))
    fun ws => ∃ v us, ws = v :: us ∧ isComponent v.kind = false where
  reads hi hr hc := hi.reads hc hr
  ne_nil hi := by
    rintro rfl
    cases hi
  follows {vs _} hi _ _ := by
    generalize vs.map Sight.toView = us at hi
    obtain ⟨hk, -⟩ := hi
    exact ⟨_, _, rfl, by simp [hk, isComponent]⟩

theorem many_dotted_reads {vs rest : List Sight} {texts : List String}
    (h : Many DottedComponent (vs.map Sight.toView) texts)
    (hr : EndsChannel (rest.map Sight.toView)) (hc : c.sights = vs ++ rest) :
    ∃ d, Reads (many dottedComponent) c texts d ∧ c.Passes vs d := by
  obtain ⟨v, us, hv, hn, hd, -⟩ := hr.exists_cons
  refine reads_many_of repeats_dottedComponent ⟨v, us, hv, hn⟩ hr.ne_nil
    (fun hc => reads_dottedComponent.mpr (.inr ⟨?_, rfl, rfl⟩)) (Many.map_iff.mp h) hc
  simp [Cursor.peek_kind_of_views ((Cursor.views_of_sights hc).trans hv), hd]

theorem repeats_colonName :
    Repeats colonName (fun vs => ColonName (vs.map Sight.toView)) fun _ => True where
  reads {c vs _ ws} hi _ hc := by
    generalize hvs : vs.map Sight.toView = us at hi
    obtain ⟨hk, hg, hn, hg'⟩ := hi
    simp only [List.map_eq_cons_iff, List.map_eq_nil_iff] at hvs
    obtain ⟨colon, _, rfl, rfl, name, _, rfl, rfl, rfl⟩ := hvs
    obtain ⟨hname, hadjacent, htext, hpass⟩ := Cursor.pass_gluedName hc (by simp [hk]) hn hg'
    refine ⟨_, reads_colonName.mpr (.inl ⟨?_, ?_, hname, hadjacent, ?_, rfl⟩), hpass⟩
    · rw [Cursor.peek_kind_of_sights hc, hk]
    · rw [Cursor.adjacent_of_sights hc, hg]
    · rw [htext]
  ne_nil hi := by
    rintro rfl
    cases hi
  follows _ _ _ := trivial

theorem many_colonName_reads {vs rest : List Sight} {names : List String}
    (h : Many ColonName (vs.map Sight.toView) names)
    (hr : ∃ v us, rest.map Sight.toView = v :: us ∧ v.kind ≠ .colon) (hc : c.sights = vs ++ rest) :
    ∃ d, Reads (many colonName) c names d ∧ c.Passes vs d := by
  obtain ⟨v, us, hv, hn⟩ := hr
  refine reads_many_of repeats_colonName trivial (by rintro rfl; cases hv)
    (fun hc => reads_colonName.mpr (.inr ⟨?_, rfl, rfl⟩)) (Many.map_iff.mp h) hc
  rwa [Cursor.peek_kind_of_views ((Cursor.views_of_sights hc).trans hv)]

/-- The names after a keyword are read, and then what else the channel is made of. -/
theorem keywordChannel_reads {isSource : Bool} {word : Sight} {vs us ws rest : List Sight}
    {names : List String} {ch : Channel} (hvs : vs = word :: us ++ ws)
    (hw : ∃ text, word.kind = .identifier text) (hn : Many ColonName (us.map Sight.toView) names)
    (hc : c.sights = vs ++ rest)
    (hws : ∃ v zs, (ws ++ rest).map Sight.toView = v :: zs ∧ v.kind ≠ .colon)
    (hch : ∀ {first e}, first.kind = word.kind → e.sights = ws ++ rest →
      ∃ d, Reads (keywordChannel isSource first names) e ch d ∧ e.Passes ws d) :
    ∃ d, Reads (channel isSource) c (ch, startOf vs, stopOf vs) d ∧ c.Passes vs d := by
  subst hvs
  obtain ⟨text, hw⟩ := hw
  rw [List.append_assoc] at hc
  have hk := Cursor.peek_kind_of_sights hc
  have hp := Cursor.next_passes hc (by simp [hw])
  have h₁ := hp.left hc
  obtain ⟨e, he, hpe⟩ := many_colonName_reads hn hws h₁
  obtain ⟨d, hd, hpd⟩ := hch hk (hpe.left h₁)
  have hall : c.Passes (word :: us ++ ws) d := (hp.trans hpe).trans hpd
  refine ⟨d, reads_channel.mpr (.inr ⟨?_, reads_keyword.mpr ⟨names, e, ch, he, hd, ?_⟩⟩), hall⟩
  · simp [hk, hw]
  · rw [hall.start (by simp), hall.previousStop (by simp)]

theorem destination_reads {isSource : Bool} {colon first : Sight} {us ws rest : List Sight}
    {text : String} {texts : List String} (hk : colon.kind = .colon) (hg : first.glued = true)
    (hf : Component (first.toView :: us.map Sight.toView) text)
    (hm : Many DottedComponent (ws.map Sight.toView) texts)
    (hc : c.sights = colon :: (first :: us ++ (ws ++ rest)))
    (hr : EndsChannel (rest.map Sight.toView)) :
    ∃ d, Reads (channel isSource) c (channelOf isSource (text :: texts),
        startOf (colon :: first :: us ++ ws), stopOf (colon :: first :: us ++ ws)) d ∧
      c.Passes (colon :: first :: us ++ ws) d := by
  have hp := Cursor.next_passes hc (by simp [hk])
  have h₁ := hp.left hc
  have hfollow : ∃ v vs, (ws ++ rest).map Sight.toView = v :: vs ∧ isComponent v.kind = false := by
    rw [List.map_append]
    generalize ws.map Sight.toView = ws' at hm
    cases hm with
    | nil =>
      obtain ⟨v, us, hv, hn, -⟩ := hr.exists_cons
      exact ⟨v, us, hv, hn⟩
    | cons hi _ =>
      obtain ⟨hk, -⟩ := hi
      exact ⟨_, _, rfl, by simp [hk, isComponent]⟩
  obtain ⟨hi, e, he, hpe⟩ := hf.reads h₁ hfollow
  have h₂ := hpe.left h₁
  obtain ⟨d, hd, hpd⟩ := many_dotted_reads hm hr h₂
  have hall : c.Passes (colon :: first :: us ++ ws) d := (hp.trans hpe).trans hpd
  obtain ⟨v, us, hv, -, -, hn⟩ := hr.exists_cons
  have hl := (Cursor.views_of_sights (hpd.left h₂)).trans hv
  refine ⟨d, reads_channel.mpr (.inl ⟨?_, reads_destination.mpr
    ⟨?_, hi, ?_, text, e, texts, he, hd, ?_, ?_⟩⟩), hall⟩
  · rw [Cursor.peek_kind_of_sights hc, hk]
  · rw [Cursor.peek_kind_of_sights hc, hk]
  · rw [Cursor.adjacent_of_sights h₁, hg]
  · simp [Cursor.peek_kind_of_views hl, hn]
  · rw [hall.start (by simp), hall.previousStop (by simp)]

theorem DerivesChannel.reads {isSource : Bool} {vs rest : List Sight} {p : Placed}
    (h : DerivesChannel isSource vs p) (hr : EndsChannel (rest.map Sight.toView))
    (hc : c.sights = vs ++ rest) : ∃ d, Reads (channel isSource) c p d ∧ c.Passes vs d := by
  obtain ⟨ch, start, stop⟩ := p
  obtain ⟨hs, rfl, rfl⟩ := h
  obtain ⟨v, us, hv, -, hd, hcolon⟩ := hr.exists_cons
  generalize hvs : vs.map Sight.toView = vs' at hs
  cases hs with
  | destination hk hg hf hm =>
    simp only [List.map_eq_append_iff, List.map_eq_cons_iff] at hvs
    obtain ⟨_, ws, rfl, ⟨colon, _, rfl, rfl, first, us, rfl, rfl, rfl⟩, rfl⟩ := hvs
    exact destination_reads hk hg hf hm (by simpa using hc) hr
  | @named _ _ kind names hw hn hne =>
    obtain ⟨word, us, rfl, rfl, rfl⟩ := List.map_eq_cons_iff.mp hvs
    refine keywordChannel_reads (List.append_nil _).symm ⟨_, hw⟩ hn hc ⟨v, _, hv, hcolon⟩
      fun {first e} hf he => ⟨e, ?_, .refl e⟩
    rw [reads_keywordChannel, Token.text, hf, hw]
    refine .inr ⟨by cases kind <;> simp [Channel.Kind.name, Kind.symbol], kind, ?_, hne, ?_, rfl, rfl⟩
    · cases kind <;> rfl
    · simp [Cursor.peek_kind_of_views ((Cursor.views_of_sights he).trans hv), hd]
  | @tap _ _ stream more hs hw hn =>
    obtain ⟨word, us, rfl, rfl, rfl⟩ := List.map_eq_cons_iff.mp hvs
    refine keywordChannel_reads (List.append_nil _).symm ⟨_, hw⟩ hn hc ⟨v, _, hv, hcolon⟩
      fun {first e} hf he => ⟨e, ?_, .refl e⟩
    rw [reads_keywordChannel, Token.text, hf, hw]
    refine .inl ⟨rfl, hs, stream, more, none, rfl, reads_tapLabel.mpr (.inr ⟨?_, rfl, rfl⟩), rfl⟩
    simp [Cursor.peek_kind_of_views ((Cursor.views_of_sights he).trans hv), hd]
  | @labelledTap _ _ _ _ stream more hs hw hn hk hg hi hg' =>
    simp only [List.map_eq_append_iff, List.map_eq_cons_iff, List.map_eq_nil_iff] at hvs
    obtain ⟨_, _, rfl, ⟨word, us, rfl, rfl, rfl⟩, dot, _, rfl, rfl, name, _, rfl, rfl, rfl⟩ := hvs
    refine keywordChannel_reads rfl ⟨_, hw⟩ hn hc ⟨dot.toView, _, rfl, by simp [hk]⟩
      fun {first e} hf he => ?_
    have hp := Cursor.next_passes he (by simp [hk])
    have h₁ := hp.left he
    refine ⟨e.next.2.next.2, ?_, hp.trans (Cursor.next_passes h₁ (Kind.ne_eof_of_isName hi))⟩
    rw [reads_keywordChannel, Token.text, hf, hw]
    refine .inl ⟨rfl, hs, stream, more, some name.kind.symbol, rfl,
      reads_tapLabel.mpr (.inl ⟨?_, ?_, ?_, ?_, ?_, rfl⟩), rfl⟩
    · rw [Cursor.peek_kind_of_sights he, hk]
    · rw [Cursor.adjacent_of_sights he, hg]
    · rw [Cursor.isName_of_sights h₁, hi]
    · rw [Cursor.adjacent_of_sights h₁, hg']
    · rw [Cursor.text_of_sights h₁]

end Pipework.Stream
