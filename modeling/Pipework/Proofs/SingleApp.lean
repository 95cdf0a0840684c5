import Pipework.Proofs.Argument.Merging
import Pipework.Proofs.Stream.Reading
import Pipework.Proofs.Task.Validity

/-! A text that is one app, read as a stream and as a task. Both parsers find the same label, name
and arguments, but a stream keeps one argument of a name, with the last value, and a task keeps them
all and answers with the first. -/

namespace Pipework

open Token Pipework.Parser

/-! ## Arguments of one name -/

namespace Argument

variable {written : List Argument}

theorem value?_eq_head? (as : List Argument) (name : String) :
    value? as name = (ofName name as).head?.map Argument.value := by
  rw [value?, ofName, List.head?_filter]

/-- Of merged arguments, the value is the last that was written. -/
theorem value?_foldl_insert (written : List Argument) (name : String) :
    value? (written.foldl insert []) name = (ofName name written).getLast?.map Argument.value := by
  have hmerges := merges_foldl_insert written
  generalize written.foldl insert [] = kept at hmerges
  rw [value?]
  cases hfind : kept.find? fun a => a.name == name with
  | none =>
    have hnone : name ∉ written.map Argument.name := by
      rw [← List.mem_eraseDups, ← hmerges.names]
      simpa using hfind
    rw [ofName_eq_nil hnone]
    rfl
  | some a =>
    obtain rfl : a.name = name := by simpa using List.find?_some hfind
    have hlast := congrArg (Option.map Prod.fst) (hmerges.last a (List.mem_of_find?_eq_some hfind))
    rw [Option.map_map] at hlast
    exact hlast.symm

end Argument

/-! ## One place, two parsers -/

variable {c d e f : Cursor} {appMode : Bool}

theorem Parser.Reads.unique {α : Type} {p : Parser α} {a b : α} (h : Reads p c a d)
    (h' : Reads p c b e) : a = b ∧ d = e := by
  rw [Reads, h, Except.ok.injEq, Prod.mk.injEq] at h'
  exact h'

theorem Token.Cursor.second_kind_iff {k : Kind} (h : c.peek.kind ≠ .eof) (hk : k ≠ .eof) :
    (c.peekAt 1).map Token.kind = some k ↔ c.next.2.peek.kind = k := by
  refine ⟨peek_next h, ?_⟩
  rcases c with ⟨source, behind, _ | ⟨t, _ | ⟨u, us⟩⟩, good⟩
  · exact absurd rfl h
  · have ht : t.kind ≠ .eof := h
    simp [next, peek, ht, endOf, hk.symm]
  · have ht : t.kind ≠ .eof := h
    simp [next, peek, peekAt, ht]

/-- A label is a name with a colon that touches it; a task also finds it where a space comes
before the colon, but then refuses. -/
theorem label_agrees {label label' : Option Label} {name : Token}
    (hs : Reads Stream.Read.labelledName c (label, name) d)
    (ht : Reads Task.Read.label? c label' e) : label = label' ∧ name = e.peek ∧ d = e.next.2 := by
  obtain ⟨hname, hs⟩ := Stream.reads_labelledName.mp hs
  have hsecond : (c.peekAt 1).map Token.kind = some .colon ↔ c.next.2.peek.kind = .colon :=
    Cursor.second_kind_iff (Kind.ne_eof_of_isName hname) (by decide)
  rw [Task.reads_label?, hsecond] at ht
  obtain ⟨hno, rfl, rfl, rfl⟩ | ⟨hcolon, hadjacent, -, -, -, rfl, rfl, rfl⟩ := hs
  · obtain ⟨-, rfl, rfl⟩ | ⟨-, hcolon, hadjacent, -⟩ := ht
    · exact ⟨rfl, rfl, rfl⟩
    · exact absurd ⟨hcolon, hadjacent⟩ hno
  · obtain ⟨hno, -⟩ | ⟨-, -, -, rfl, rfl⟩ := ht
    · exact absurd ⟨hname, hcolon⟩ hno
    · exact ⟨rfl, rfl, rfl⟩

theorem arguments_agree {as bs : List Argument} (hs : Reads Argument.arguments c as d)
    (ht : Reads (Task.Read.arguments appMode) c bs e) : as = bs ∧ d = e := by
  obtain ⟨hnone, rfl, rfl⟩ | ⟨-, -, ht⟩ := Task.reads_arguments.mp ht
  · exact hs.unique (reads_many_of_none (Argument.reads_argument?.mpr (.inl ⟨hnone, rfl, rfl⟩)))
  · exact hs.unique ht

/-- Where both parsers read an app, it is one app, up to what becomes of its arguments. -/
theorem app_agrees {a : Stream.App} {b : Task.App} {label : Option Label}
    (hs : Reads Stream.Read.app c a d) (hl : Reads Task.Read.elementLabel c label e)
    (ht : Reads (Task.Read.app appMode label) e b f) :
    a.label = b.label ∧ a.name = b.name ∧ a.start = b.start ∧
      a.arguments = b.arguments.foldl Argument.insert [] := by
  obtain ⟨label', name, g, as, hname, has, rfl⟩ := Stream.reads_app.mp hs
  have hlabel : Reads Task.Read.label? c label e := by
    obtain ⟨h, rfl⟩ | ⟨m, h, -, -, rfl⟩ := Task.reads_elementLabel.mp hl <;> exact h
  obtain ⟨rfl, rfl, rfl⟩ := label_agrees hname hlabel
  obtain ⟨_, _, _, hplain, -, rfl⟩ := Task.reads_app.mp ht
  obtain ⟨-, bs, hbs, rfl⟩ := Task.reads_plainApp.mp hplain
  obtain ⟨rfl, -⟩ := arguments_agree has hbs
  exact ⟨rfl, rfl, rfl, rfl⟩

/-! ## Whole texts -/

variable {text : String} {ts : List Token}

theorem Stream.reads_single_app {s : Stream} {a : Stream.App}
    (h : Reads (Read.definition none) (.ofTokens text ts) s d) (hname : s.name = none)
    (hsource : s.source = none) (happs : s.apps = [a]) :
    ∃ e, Reads Read.app (.ofTokens text ts) a e := by
  obtain ⟨b, hb, rfl, -, -⟩ := Stream.reads_definition.mp h
  obtain ⟨name, e, source, f, as, unbound, sink, hinline, hsource?, hbody, -, -, rfl⟩ :=
    Stream.reads_body.mp hb
  obtain rfl : name = none := by simpa using hname
  obtain rfl : source = none := hsource
  obtain rfl : as = [a] := happs
  obtain ⟨-, -, h, -⟩ | ⟨-, -, rfl⟩ := Stream.reads_inlineName.mp hinline
  · cases h
  obtain ⟨-, -, rfl⟩ | ⟨-, _, _, -, -, h, -⟩ := Stream.reads_source?.mp hsource?
  on_goal 2 => cases h
  obtain ⟨_, h, -⟩ | ⟨-, g, hrow, -, -⟩ := Stream.reads_appsAndSink.mp hbody
  · cases h
  obtain ⟨first, g', rest, hfirst, -, hrow, -⟩ := Stream.reads_apps.mp hrow
  obtain rfl := (List.cons.inj hrow).1
  exact ⟨g', hfirst⟩

theorem Task.reads_single_app {t : Task} {b : Task.App} {start stop : Nat}
    (h : Reads (Read.definition none appMode) c t d) (hc : c.peek.isName = true)
    (hb : t.sequences = [⟨[.app b], start, stop⟩]) :
    ∃ label e f, Reads Read.elementLabel c label e ∧ Reads (Read.app appMode label) e b f := by
  obtain ⟨-, first, e, rest, hfirst, -, rfl⟩ := Task.reads_definition.mp h
  obtain rfl : first = ⟨[.app b], start, stop⟩ := (List.cons.inj hb).1
  obtain ⟨e, hsequence, rfl⟩ := Task.reads_topSequence.mp hfirst
  obtain ⟨es, g, more, hes, -, hflat⟩ := Task.reads_sequenceWith.mp hsequence
  have hflat : es ++ more.flatten = [.app b] := (Sequence.mk.inj hflat).1.symm
  obtain ⟨hparen, -⟩ | ⟨-, label, f, hlabel, hes⟩ := Task.reads_elements.mp hes
  · exact absurd hparen (Kind.ne_of_isName hc rfl)
  · obtain ⟨-, _, -, rfl⟩ | ⟨-, b', happ, rfl⟩ := hes
    · cases (List.cons.inj hflat).1
    · obtain rfl := Element.app.inj (List.cons.inj hflat).1
      exact ⟨label, f, g, hlabel, happ⟩

/-- The arguments of a task's app are not merged, so a name that is given several times has its
first value there and its last one in the stream. -/
theorem single_app_agrees {s : Stream} {t : Task} {a : Stream.App} {b : Task.App} {start stop : Nat}
    (hs : Stream.parse text = .ok s) (hname : s.name = none) (hsource : s.source = none)
    (happs : s.apps = [a]) (ht : Task.parse text = .ok t)
    (hb : t.sequences = [⟨[.app b], start, stop⟩]) :
    a.label = b.label ∧ a.name = b.name ∧ a.start = b.start ∧
      Argument.Merges b.arguments a.arguments ∧
      ∀ k, a.argument? k = b.argument? k ↔
        (Argument.ofName k b.arguments).getLast?.map Argument.value =
          (Argument.ofName k b.arguments).head?.map Argument.value := by
  obtain ⟨ts, d, hts, hs⟩ := Stream.parseNamed_eq_ok.mp hs
  obtain ⟨ts', d', hts', ht⟩ := Task.parseUnchecked_eq_ok.mp (Task.parseUnchecked_of_parseWith ht)
  obtain rfl := Except.ok.inj (hts.symm.trans hts')
  obtain ⟨e, happ⟩ := Stream.reads_single_app hs hname hsource happs
  have hc : (Cursor.ofTokens text ts).peek.isName = true := by
    obtain ⟨_, _, _, _, hnamed, -⟩ := Stream.reads_app.mp happ
    exact (Stream.reads_labelledName.mp hnamed).1
  obtain ⟨label, f, g, hlabel, happ'⟩ := Task.reads_single_app ht hc hb
  obtain ⟨hlabels, hnames, hstarts, harguments⟩ := app_agrees happ hlabel happ'
  refine ⟨hlabels, hnames, hstarts, harguments ▸ Argument.merges_foldl_insert b.arguments,
    fun k => ?_⟩
  rw [Stream.App.argument?, Task.App.argument?, harguments, Argument.value?_foldl_insert,
    Argument.value?_eq_head?]

/-- An argument whose first and last values are the same, with another one between them. -/
theorem single_app_agrees_thrice : ∃ s t a b,
    Stream.parse "l: a --k=1 --j.x='é é' --k=2 --k=1" = .ok s ∧
      Task.parse "l: a --k=1 --j.x='é é' --k=2 --k=1" = .ok t ∧ s.apps = [a] ∧
      t.sequences = [⟨[.app b], 0, 36⟩] ∧ a.arguments.length = 2 ∧ b.arguments.length = 4 ∧
      a.label = b.label ∧ a.name = b.name ∧ a.argument? "k" = b.argument? "k" := by
  obtain ⟨s, hs, hname, hsource, happs⟩ : ∃ s,
      (Stream.parse "l: a --k=1 --j.x='é é' --k=2 --k=1").toOption = some s ∧ s.name = none ∧
        s.source = none ∧ s.apps =
          [⟨some ⟨"l", 0, 2⟩, "a", [⟨"k", "1", 5, 36⟩, ⟨"j.x", "é é", 11, 24⟩], 0, 36⟩] := by
    decide +kernel
  obtain ⟨t, ht, hsequences⟩ : ∃ t,
      (Task.parse "l: a --k=1 --j.x='é é' --k=2 --k=1").toOption = some t ∧ t.sequences =
        [⟨[.app ⟨some ⟨"l", 0, 2⟩, "a", [⟨"k", "1", 5, 10⟩, ⟨"j.x", "é é", 11, 24⟩,
          ⟨"k", "2", 25, 30⟩, ⟨"k", "1", 31, 36⟩], [], 0, 36⟩], 0, 36⟩] := by
    decide +kernel
  have hs := toOption_eq_some.mp hs
  have ht := toOption_eq_some.mp ht
  obtain ⟨hlabel, hname', -, -, hvalues⟩ :=
    single_app_agrees hs hname hsource happs ht hsequences
  exact ⟨s, t, _, _, hs, ht, happs, hsequences, rfl, rfl, hlabel, hname',
    (hvalues "k").mpr (by decide)⟩

/-- Of two values for one name, the stream has the last and the task the first. -/
theorem not_agreeing_twice : ∃ s t a b, Stream.parse "a --k=1 --k=2" = .ok s ∧
    Task.parse "a --k=1 --k=2" = .ok t ∧ s.name = none ∧ s.source = none ∧ s.sink = none ∧
      s.apps = [a] ∧ t.sequences = [⟨[.app b], 0, 13⟩] ∧ b.transitions = [] ∧
      a.argument? "k" = some "2" ∧ b.argument? "k" = some "1" := by
  obtain ⟨s, hs, hname, hsource, hsink, happs⟩ : ∃ s,
      (Stream.parse "a --k=1 --k=2").toOption = some s ∧ s.name = none ∧ s.source = none ∧
        s.sink = none ∧ s.apps = [⟨none, "a", [⟨"k", "2", 2, 13⟩], 0, 13⟩] := by decide +kernel
  obtain ⟨t, ht, hsequences⟩ : ∃ t, (Task.parse "a --k=1 --k=2").toOption = some t ∧
      t.sequences =
        [⟨[.app ⟨none, "a", [⟨"k", "1", 2, 7⟩, ⟨"k", "2", 8, 13⟩], [], 0, 13⟩], 0, 13⟩] := by
    decide +kernel
  exact ⟨s, t, _, _, toOption_eq_some.mp hs, toOption_eq_some.mp ht, hname, hsource, hsink, happs,
    hsequences, rfl, by decide, by decide⟩

end Pipework
