import Pipework.Proofs.Stream.Invariants
import Pipework.Proofs.Task.Extents

/-! Where the parts of a stream stand, and with that the extents in whatever is read. An argument of a
stream that is given again extends to where it is given last, so arguments can overlap; they still
lie within their app. -/

namespace Pipework

open Text Token Pipework.Parser

variable {cs : List Char} {vs : List Sight}

/-! ## Arguments of streams -/

/-- An argument that is kept goes from the first of its name to the last. -/
theorem Argument.Merges.exists_written {written kept : List Argument} (h : Merges written kept)
    (hordered : written.Pairwise fun a b => a.stop ≤ b.start) (hlt : ∀ a ∈ written, a.start < a.stop)
    {x : Argument} (hx : x ∈ kept) :
    ∃ a ∈ written, ∃ b ∈ written, x.start = a.start ∧ x.stop = b.stop ∧ x.start < x.stop := by
  obtain ⟨a, ha, hstart⟩ := Option.map_eq_some_iff.mp (h.first x hx)
  obtain ⟨b, hb, hlast⟩ := Option.map_eq_some_iff.mp (h.last x hx)
  obtain ⟨-, hstop⟩ := Prod.mk.inj hlast
  have hmem : ∀ c ∈ ofName x.name written, c ∈ written := fun c hc => (List.mem_filter.mp hc).1
  have hbmem := List.mem_of_getLast? hb
  obtain ⟨rest, hnames⟩ := List.head?_eq_some_iff.mp ha
  have hle : a.start ≤ b.start := by
    rw [hnames] at hbmem
    obtain rfl | hbrest := List.mem_cons.mp hbmem
    · exact le_rfl
    · have hpair := hordered.filter fun c => c.name == x.name
      rw [show written.filter _ = a :: rest from hnames] at hpair
      have hbehind := (List.pairwise_cons.mp hpair).1 b hbrest
      have hlta := hlt a (hmem a (by simp [hnames]))
      omega
  have hltb := hlt b (hmem b hbmem)
  exact ⟨a, hmem a (by simp [hnames]), b, hmem b hbmem, hstart.symm, hstop.symm, by omega⟩

namespace Stream

open Read (Placed)

/-! ## Extents -/

/-- The extent of an app and its label. -/
def App.extent (a : App) : Extent := ⟨a.start, a.stop, a.label.toList.map Label.extent⟩

def Endpoint.extent (e : Endpoint) : Extent := ⟨e.start, e.stop, []⟩

/-- The extent of the `>` of a channel. -/
def Endpoint.gtExtent (e : Endpoint) : Extent := ⟨e.gt, e.gt + 1, []⟩

/-- A channel stands in the text, and the `>` is where it is said to be. -/
structure Endpoint.IsJoined (cs : List Char) (e : Endpoint) : Prop where
  nests : e.extent.Nests cs
  gt : slice? cs e.gt (e.gt + 1) = some ['>']

/-- The arguments of an app stand in the text and within the app. -/
def App.Holds (cs : List Char) (a : App) : Prop :=
  ∀ x ∈ a.arguments, x.extent.Nests cs ∧ a.start ≤ x.start ∧ x.stop ≤ a.stop

/-- The parts of a stream stand in the text one behind the other. -/
structure IsLaidOut (cs : List Char) (s : Stream) : Prop where
  source : ∀ e ∈ s.source, e.IsJoined cs ∧ e.stop ≤ e.gt ∧ ∀ a ∈ s.apps, e.gt ≤ a.start
  nests : ∀ a ∈ s.apps, a.extent.Nests cs
  holds : ∀ a ∈ s.apps, a.Holds cs
  ordered : s.apps.Pairwise fun a b => a.stop ≤ b.start
  sink : ∀ e ∈ s.sink, e.IsJoined cs ∧ e.gt < e.start ∧ ∀ a ∈ s.apps, a.stop ≤ e.start

/-! ## What is derived from tokens is laid on them -/

theorem DerivesName.lays {label : Option Label} {name : Sight} (h : DerivesName vs label name) :
    Lays vs (label.toList.map Label.extent) := by
  cases h with
  | plain => exact .tokens _
  | @labelled label colon name =>
    exact (Lays.node (List.cons_ne_nil label [colon]) (.tokens _)).before [name]

theorem App.Derives.lays {a : App} (h : a.Derives vs) : Lays vs [a.extent] := by
  obtain ⟨hname, -⟩ := h
  exact .node (List.append_ne_nil_of_left_ne_nil hname.ne_nil _) (hname.lays.before _)

theorem App.Derives.holds {a : App} (hvs : LieIn cs vs) (h : a.Derives vs) : a.Holds cs := by
  obtain @⟨us, ws, label, name, written, -, hwritten⟩ := h
  have hlays : Lays ws (written.map Argument.extent) := .many_map hwritten Argument.Derives.lays
  have hnests := List.forall_mem_map.mp (hlays.nests hvs.right)
  have htokens : ∀ b ∈ written, (∃ v ∈ ws, b.start = v.start) ∧ ∃ v ∈ ws, b.stop = v.stop :=
    List.forall_mem_map.mp hlays.exists_tokens
  intro x hx
  obtain ⟨b, hb, c, hc, hstart, hstop, hlt⟩ := (Argument.merges_foldl_insert written).exists_written
    (List.pairwise_map.mp (hlays.ordered hvs.right.inOrder))
    (fun b hb => by
      obtain ⟨hlt⟩ := hnests b hb
      exact hlt) hx
  obtain ⟨⟨v, hv, hbv⟩, -⟩ := htokens b hb
  obtain ⟨-, w, hw, hcw⟩ := htokens c hc
  obtain ⟨hbstart, -⟩ := hvs.isBoundary (List.mem_append_right us hv)
  obtain ⟨-, hcstop⟩ := hvs.isBoundary (List.mem_append_right us hw)
  obtain ⟨hfirst, -⟩ := hvs.inOrder.between (List.mem_append_right us hv)
  obtain ⟨-, hlast⟩ := hvs.inOrder.between (List.mem_append_right us hw)
  rw [← hbv, ← hstart] at hbstart hfirst
  rw [← hcw, ← hstop] at hcstop hlast
  exact ⟨.mk hlt hbstart hcstop (by simp [Argument.extent]) .nil (by simp [Argument.extent]),
    hfirst, hlast⟩

/-- In a row, every app is derived behind the separator that comes before it. -/
theorem DerivesRow.many {as : List App} {unbound : Bool} (h : DerivesRow vs as unbound) :
    Many (fun vs a => ∃ us ws, vs = us ++ ws ∧ a.Derives ws) vs as := by
  have hbehind : ∀ {separator vs a}, Behind separator App.Derives vs a →
      ∃ us ws, vs = us ++ ws ∧ a.Derives ws := fun h => by
    obtain ⟨-, ha⟩ := h
    exact ⟨[_], _, rfl, ha⟩
  cases h with
  | bound ha has | apart ha has => exact .cons ⟨[], _, rfl, ha⟩ (has.mono fun _ _ _ => hbehind)

theorem DerivesRow.lays {as : List App} {unbound : Bool} (h : DerivesRow vs as unbound) :
    Lays vs (as.map App.extent) :=
  .many_map h.many fun ⟨us, _, hvs, ha⟩ => hvs ▸ ha.lays.behind us

theorem DerivesRow.holds {as : List App} {unbound : Bool} (hvs : LieIn cs vs)
    (h : DerivesRow vs as unbound) : ∀ a ∈ as, a.Holds cs :=
  hvs.forall_item h.many fun hvs ⟨_, _, heq, ha⟩ => ha.holds (heq ▸ hvs).right

theorem DerivesChannel.lays {isSource : Bool} {p : Placed} (h : DerivesChannel isSource vs p) :
    Lays vs [⟨p.2.1, p.2.2, []⟩] := by
  have hne : vs ≠ [] := by
    rintro rfl
    cases h.spells
  rw [h.start, h.stop]
  exact .node hne (.tokens vs)

variable {isSource : Bool} {gt : Sight} {p : Placed}

/-- A `>` stands on that character alone. -/
theorem stop_gt (hvs : LieIn cs [gt]) (hk : gt.kind = .gt) :
    gt.stop = gt.start + 1 ∧ slice? cs gt.start (gt.start + 1) = some ['>'] := by
  have hlt := hvs.inOrder.1 gt (List.mem_singleton_self gt)
  obtain ⟨raw, hslice, hstands⟩ := hvs.stands gt (List.mem_singleton_self gt)
  obtain rfl : raw = ['>'] := by
    rw [hk] at hstands
    exact hstands.eq_symbol (by simp)
  obtain ⟨-, -, -, -, hlength⟩ := slice?_eq_some hslice
  have hbyte : byteLength ['>'] = 1 := by decide
  have hstop : gt.stop = gt.start + 1 := by omega
  exact ⟨hstop, hstop ▸ hslice⟩

theorem lays_gt (hvs : LieIn cs [gt]) (hk : gt.kind = .gt) :
    Lays [gt] [(endpointBy gt p).gtExtent] := by
  obtain ⟨hstop, -⟩ := stop_gt hvs hk
  have hnode := Lays.node (List.cons_ne_nil gt []) (.tokens [gt])
  rwa [show stopOf [gt] = gt.start + 1 from hstop] at hnode

theorem DerivesChannel.isJoined (h : DerivesChannel isSource vs p) (hvs : LieIn cs vs)
    (hgt : LieIn cs [gt]) (hk : gt.kind = .gt) : (endpointBy gt p).IsJoined cs where
  nests := List.forall_mem_singleton.mp (h.lays.nests hvs)
  gt := (stop_gt hgt hk).2

theorem DerivesSource.spec {e : Option Endpoint} (h : DerivesSource vs e) (hvs : LieIn cs vs) :
    Lays vs (e.toList.flatMap fun e => [e.extent, e.gtExtent]) ∧ ∀ f ∈ e, f.IsJoined cs := by
  cases h with
  | none => exact ⟨.tokens [], by simp⟩
  | some hchannel hk =>
    refine ⟨hchannel.lays.append (lays_gt hvs.right hk), ?_⟩
    rintro _ ⟨⟩
    exact hchannel.isJoined hvs.left hvs.right hk

theorem DerivesSink.spec {e : Option Endpoint} (h : DerivesSink vs e) (hvs : LieIn cs vs) :
    Lays vs (e.toList.flatMap fun e => [e.gtExtent, e.extent]) ∧ ∀ f ∈ e, f.IsJoined cs := by
  cases h with
  | none => exact ⟨.tokens [], by simp⟩
  | @some gt vs p hk hchannel =>
    have hgt : LieIn cs [gt] := hvs.head
    refine ⟨(lays_gt hgt hk).append hchannel.lays, ?_⟩
    rintro _ ⟨⟩
    exact hchannel.isJoined hvs.tail hgt hk

/-! ## Streams that are read -/

theorem DerivesBody.isLaidOut {text : String} {s : Stream} (h : DerivesBody text vs s)
    (hvs : LieIn cs vs) : s.IsLaidOut cs := by
  cases h with
  | @bridge gt vs ws source sink hsource hk hsink =>
    have hgt : LieIn cs [gt] := hvs.right.head
    -- The app stands for the `>`, so its extent is that of the `>`.
    have hlays : Lays _ [Endpoint.extent (endpointBy gt source), App.extent (.bridge gt.start),
        Endpoint.extent (endpointBy gt sink)] :=
      hsource.lays.append ((lays_gt (p := source) hgt hk).append hsink.lays)
    have hordered := hlays.ordered hvs.inOrder
    have hnests := hlays.nests hvs
    simp only [List.pairwise_cons, List.forall_mem_cons] at hordered hnests
    have hsourceStop : source.2.2 ≤ gt.start := hordered.1.1
    have hsinkStart : gt.start + 1 ≤ sink.2.1 := hordered.2.1.1
    refine ⟨?_, by simpa using hnests.2.1, by simp [App.Holds, App.bridge],
      List.pairwise_singleton _ _, ?_⟩
    · rintro _ ⟨⟩
      exact ⟨hsource.isJoined hvs.left hgt hk, hsourceStop, by simp [App.bridge, endpointBy]⟩
    · rintro _ ⟨⟩
      exact ⟨hsink.isJoined hvs.right.tail hgt hk, hsinkStart, by simpa [App.bridge, endpointBy]⟩
  | @row vs us ws apps source sink hsource hrow hsink _ =>
    obtain ⟨hsourceLays, hsourceJoined⟩ := hsource.spec hvs.left.left
    obtain ⟨hsinkLays, hsinkJoined⟩ := hsink.spec hvs.right
    have hordered := ((hsourceLays.append hrow.lays).append hsinkLays).ordered hvs.inOrder
    obtain ⟨hleft, hsinkOrdered, hbeforeSink⟩ := List.pairwise_append.mp hordered
    obtain ⟨hsourceOrdered, happs, hbehindSource⟩ := List.pairwise_append.mp hleft
    refine ⟨?_, List.forall_mem_map.mp (hrow.lays.nests hvs.left.right), hrow.holds hvs.left.right,
      List.pairwise_map.mp happs, ?_⟩
    · rintro e ⟨⟩
      have hstop : e.stop ≤ e.gt := by
        simpa [Endpoint.extent, Endpoint.gtExtent] using hsourceOrdered
      refine ⟨hsourceJoined e rfl, hstop, fun a ha => ?_⟩
      have hstart : e.gt + 1 ≤ a.start := hbehindSource e.gtExtent (by simp) _ (List.mem_map_of_mem ha)
      omega
    · rintro e ⟨⟩
      have hstart : e.gt + 1 ≤ e.start := by
        simpa [Endpoint.extent, Endpoint.gtExtent] using hsinkOrdered
      refine ⟨hsinkJoined e rfl, hstart, fun a ha => ?_⟩
      have hstop : a.stop ≤ e.start := hbeforeSink a.extent
        (List.mem_append_right _ (List.mem_map_of_mem ha)) e.extent (by simp)
      exact hstop
  | apart hrow =>
    exact ⟨by simp, List.forall_mem_map.mp (hrow.lays.nests hvs), hrow.holds hvs,
      List.pairwise_map.mp (hrow.lays.ordered hvs.inOrder), by simp⟩

theorem IsLaidOut.named {s : Stream} (h : s.IsLaidOut cs) (name : Option String) :
    IsLaidOut cs { s with name } :=
  ⟨h.source, h.nests, h.holds, h.ordered, h.sink⟩

theorem Derives.isLaidOut {text : String} {s : Stream} (h : Derives text vs s)
    (hvs : LieIn cs vs) : s.IsLaidOut cs := by
  cases h with
  | unnamed hb => exact hb.isLaidOut hvs
  | named _ _ hb => exact (hb.isLaidOut hvs.tail.tail).named _

theorem isLaidOut_of_parseNamed {name : Option String} {text : String} {s : Stream}
    (h : parseNamed name text = .ok s) : s.IsLaidOut text.toList := by
  obtain ⟨ts, -, hts, -⟩ := parseNamed_eq_ok.mp h
  obtain ⟨t, ht, rfl, -, -⟩ := (parseNamed_iff_derives hts).mp h
  exact (ht.isLaidOut (lieIn_of_tokenize hts)).named _

end Stream

/-! ## Whatever is read -/

/-- All that is read from a text stands in it: the parts of a task nest, and those of a stream come one
behind the other. -/
theorem extents_nest (text : String) :
    (∀ (options : Task.Options) (t : Task), Task.parseWith options text = .ok t →
      (∀ s ∈ t.sequences, s.extent.Nests text.toList) ∧
        t.sequences.Pairwise fun r s => r.stop ≤ s.start) ∧
    ∀ (name : Option String) (s : Stream), Stream.parseNamed name text = .ok s →
      s.IsLaidOut text.toList :=
  ⟨fun _ _ h => Task.nests_of_parseWith h, fun _ _ h => Stream.isLaidOut_of_parseNamed h⟩

/-- A group within a task, and an argument that is given again behind another. -/
theorem extents_nest_overlapping :
    (∃ t, Task.parseWith {} "é: a --x='ü' 1->b && (c && <d || e>); f: g" = .ok t ∧
      (∀ s ∈ t.sequences, s.extent.Nests "é: a --x='ü' 1->b && (c && <d || e>); f: g".toList) ∧
        t.sequences.Pairwise fun r s => r.stop ≤ s.start) ∧
    ∃ s, Stream.parseNamed none ":ü > a --x=1 --y=2 --x=3 | b > :r" = .ok s ∧
      s.IsLaidOut ":ü > a --x=1 --y=2 --x=3 | b > :r".toList ∧
        s.apps.map (fun a => a.arguments.map fun x => (x.start, x.stop)) = [[(8, 25), (14, 19)], []] := by
  obtain ⟨t, ht⟩ : ∃ t, (Task.parseWith {}
      "é: a --x='ü' 1->b && (c && <d || e>); f: g").toOption = some t :=
    Option.isSome_iff_exists.mp (by decide +kernel)
  obtain ⟨s, hs, harguments⟩ : ∃ s,
      (Stream.parseNamed none ":ü > a --x=1 --y=2 --x=3 | b > :r").toOption = some s ∧
        s.apps.map (fun a => a.arguments.map fun x => (x.start, x.stop)) =
          [[(8, 25), (14, 19)], []] := by decide +kernel
  have ht := toOption_eq_some.mp ht
  have hs := toOption_eq_some.mp hs
  exact ⟨⟨t, ht, (extents_nest _).1 _ _ ht⟩, s, hs, (extents_nest _).2 _ _ hs, harguments⟩

end Pipework
