import Pipework.Proofs.Task.Nesting
import Pipework.Proofs.Task.RoundTrip

/-! Reading tasks with a counter of the sequences that are open, each within the one before. The
counter goes up before a sequence is read and down after it, read or refused, and a sequence is
refused where too many are open. The outcomes are those of the parser that counts its levels
down. -/

namespace Pipework.Task

open Token Pipework.Parser

/-! ## Parsers that count -/

/-- How many sequences are open, and how many were at any time before, the latest first. -/
structure Counter where
  depth : Nat := 0
  past : List Nat := []

def Counter.set (depth : Nat) (n : Counter) : Counter := ⟨depth, n.depth :: n.past⟩

/-- A counting parser keeps its counter when it refuses the text. -/
abbrev Counting := StateT Cursor (ExceptT Fault (StateM Counter))

namespace Counting

variable {α β : Type}

/-- A parser that opens no sequences. -/
def plain (p : Parser α) : Counting α := fun c n => (p c, n)

def depth : Counting Nat := fun c n => (.ok (n.depth, c), n)

/-- Counts one more open sequence until `p` ends, be it with a fault. -/
def within (p : Counting α) : Counting α := fun c n =>
  let (outcome, n) := p c (n.set (n.depth + 1))
  (outcome, n.set (n.depth - 1))

def manyWithin (step : Counting (Option α)) : Nat → Counting (List α)
  | 0 => return []
  | fuel + 1 => do
    match ← step with
    | none => return []
    | some a => return a :: (← manyWithin step fuel)

def many (step : Counting (Option α)) : Counting (List α) := do
  manyWithin step (← plain get).ahead.length

/-! ## Tasks, with a counter

`inner` reads a sequence within the brackets that are open. -/

def branch? (inner : Counting Sequence) : Counting (Option Sequence) := do
  if (← plain (eatIf .doublePipe)).isSome then return some (← inner)
  return none

def split (inner : Counting Sequence) (label : Option Label) : Counting Split := do
  let lt ← plain (eat .lt)
  let first ← inner
  let rest ← many (branch? inner)
  let token ← plain peek
  match token.kind with
  | .gt =>
    let gt ← plain next
    return ⟨label, first :: rest, (label.map Label.start).getD lt.start, gt.stop⟩
  | .pipe => plain (refuseHere .taskDoubleOrRequired [])
  | _ => plain (refuseHere .taskUnterminatedSplit [token.text])

def elements (appMode : Bool) (inner : Counting Sequence) : Counting (List Element) := do
  if (← plain (eatIf .lparen)).isSome then
    let group ← inner
    let _ ← plain (eat .rparen)
    return group.elements
  let label ← plain Read.elementLabel
  if (← plain peekKind) == .lt then return [.split (← split inner label)]
  return [.app (← plain (Read.app appMode label))]

def joinedElements? (appMode : Bool) (inner : Counting Sequence) :
    Counting (Option (List Element)) := do
  if (← plain (eatIf .andAnd)).isSome then return some (← elements appMode inner)
  return none

def sequenceWith (appMode : Bool) (inner : Counting Sequence) : Counting Sequence := do
  let start := (← plain peek).start
  let first ← elements appMode inner
  let rest ← many (joinedElements? appMode inner)
  return ⟨first ++ rest.flatten, start, ← plain previousStop⟩

/-- The fuel bounds the recursion, and only the counter the nesting. -/
def sequence (appMode : Bool) : Nat → Counting Sequence
  | 0 => plain (refuseHere .outOfData [])
  | fuel + 1 => do
    if Read.maxDepth ≤ (← depth) then
      plain (refuseHere .taskNestingTooDeep [toString Read.maxDepth])
    else within (sequenceWith appMode (sequence appMode fuel))

def topSequence (appMode : Bool) (fuel : Nat) : Counting Sequence := do
  let sequence ← sequence appMode fuel
  plain checkpoint
  return sequence

def nextSequence? (appMode : Bool) (fuel : Nat) : Counting (Option Sequence) := do
  if ← plain Read.separator? then return some (← topSequence appMode fuel)
  return none

def definition (name : Option String) (appMode : Bool) (fuel : Nat) : Counting Task := do
  plain (Read.requireLegalName name)
  let first ← topSequence appMode fuel
  let rest ← many (nextSequence? appMode fuel)
  return { name, text := (← plain get).expression, sequences := first :: rest }

end Counting

/-- Reads a task, and tells what became of the counter. -/
def parseCounting (fuel : Nat) (options : Options) (text : String) : Except Fault Task × Counter :=
  match tokenize text with
  | .error fault => (.error fault, {})
  | .ok tokens =>
    let (outcome, counter) :=
      Counting.definition options.name options.appMode fuel (.ofTokens text tokens) {}
    (do
      let (task, _) ← outcome
      if options.validate then task.validate
      return task, counter)

/-! ## Counting changes no outcome -/

namespace Counting

variable {α β : Type} {n : Nat}

theorem bind_apply (p : Counting α) (f : α → Counting β) (c : Cursor) (m : Counter) :
    (p >>= f) c m = match p c m with
      | (.ok (a, d), m') => f a d m'
      | (.error e, m') => (.error e, m') := by
  simp only [bind, StateT.bind, ExceptT.bind, ExceptT.mk, ExceptT.bindCont]
  rcases p c m with ⟨_ | _, m'⟩ <;> rfl

/-- With `n` sequences open, the outcomes of `p` are those of `q`, the counter is left as it was
found, and it never passes the limit. -/
def Agrees (n : Nat) (p : Counting α) (q : Parser α) : Prop :=
  ∀ c past, ∃ new, (∀ m ∈ new, m ≤ Read.maxDepth) ∧ p c ⟨n, past⟩ = (q c, ⟨n, new ++ past⟩)

theorem agrees_plain (p : Parser α) : Agrees n (plain p) p :=
  fun _ _ => ⟨[], nofun, rfl⟩

theorem agrees_pure (a : α) : Agrees n (pure a) (pure a) := agrees_plain (pure a)

theorem Agrees.bind {p : Counting α} {q : Parser α} {f : α → Counting β} {g : α → Parser β}
    (h : Agrees n p q) (hf : ∀ a, Agrees n (f a) (g a)) : Agrees n (p >>= f) (q >>= g) := by
  intro c past
  obtain ⟨new, hnew, hp⟩ := h c past
  rw [bind_apply, hp]
  cases hq : q c with
  | error e =>
    refine ⟨new, hnew, ?_⟩
    simp [Bind.bind, StateT.bind, Except.bind, hq]
  | ok r =>
    obtain ⟨a, d⟩ := r
    obtain ⟨new', hnew', hf⟩ := hf a d (new ++ past)
    refine ⟨new' ++ new, List.forall_mem_append.mpr ⟨hnew', hnew⟩, ?_⟩
    simp [Bind.bind, StateT.bind, Except.bind, hq, hf]

theorem Agrees.ite {P : Prop} [Decidable P] {p p' : Counting α} {q q' : Parser α}
    (h : Agrees n p q) (h' : Agrees n p' q') :
    Agrees n (if P then p else p') (if P then q else q') := by
  split
  · exact h
  · exact h'

theorem agrees_manyWithin {step : Counting (Option α)} {step' : Parser (Option α)}
    (h : Agrees n step step') (fuel : Nat) :
    Agrees n (manyWithin step fuel) (Parser.manyWithin step' fuel) := by
  induction fuel with
  | zero => exact agrees_pure []
  | succ fuel ih =>
    refine h.bind fun a => ?_
    cases a with
    | none => exact agrees_pure []
    | some a => exact ih.bind fun as => agrees_pure (a :: as)

theorem agrees_many {step : Counting (Option α)} {step' : Parser (Option α)}
    (h : Agrees n step step') : Agrees n (many step) (Parser.many step') :=
  (agrees_plain get).bind fun c => agrees_manyWithin h c.ahead.length

/-- While `p` runs, one more sequence is open, which must not be one too many. -/
theorem Agrees.within {p : Counting α} {q : Parser α} (h : Agrees (n + 1) p q)
    (hn : n < Read.maxDepth) : Agrees n (within p) q := by
  intro c past
  obtain ⟨new, hnew, hp⟩ := h c (n :: past)
  refine ⟨(n + 1) :: (new ++ [n]), ?_, ?_⟩
  · intro m hm
    rcases List.mem_cons.mp hm with rfl | hm
    · exact hn
    · rcases List.mem_append.mp hm with hm | hm
      · exact hnew m hm
      · exact List.eq_of_mem_singleton hm ▸ Nat.le_of_lt hn
  · have hrun : Counting.within p c ⟨n, past⟩ = ((p c ⟨n + 1, n :: past⟩).1,
        (p c ⟨n + 1, n :: past⟩).2.set ((p c ⟨n + 1, n :: past⟩).2.depth - 1)) := rfl
    rw [hrun, hp]
    simp [Counter.set]

section

variable {inner : Counting Sequence} {inner' : Parser Sequence} {appMode : Bool}
  (hinner : Agrees n inner inner')

include hinner

theorem agrees_branch? : Agrees n (branch? inner) (Read.branch? inner') :=
  (agrees_plain _).bind fun _ => .ite (hinner.bind fun s => agrees_pure (some s)) (agrees_pure none)

theorem agrees_split {label : Option Label} :
    Agrees n (split inner label) (Read.split inner' label) := by
  refine (agrees_plain _).bind fun lt => hinner.bind fun first => ?_
  refine (agrees_many (agrees_branch? hinner)).bind fun rest => ?_
  refine (agrees_plain _).bind fun token => ?_
  cases token.kind
  case gt => exact (agrees_plain _).bind fun gt => agrees_pure _
  all_goals exact agrees_plain _

theorem agrees_elements : Agrees n (elements appMode inner) (Read.elements appMode inner') := by
  refine (agrees_plain _).bind fun lparen => .ite ?_ ?_
  · exact hinner.bind fun group => (agrees_plain _).bind fun _ => agrees_pure group.elements
  · refine (agrees_plain _).bind fun label => (agrees_plain _).bind fun kind => .ite ?_ ?_
    · exact (agrees_split hinner).bind fun s => agrees_pure [Element.split s]
    · exact (agrees_plain _).bind fun a => agrees_pure [Element.app a]

theorem agrees_joinedElements? :
    Agrees n (joinedElements? appMode inner) (Read.joinedElements? appMode inner') :=
  (agrees_plain _).bind fun _ =>
    .ite ((agrees_elements hinner).bind fun es => agrees_pure (some es)) (agrees_pure none)

theorem agrees_sequenceWith :
    Agrees n (sequenceWith appMode inner) (Read.sequenceWith appMode inner') := by
  refine (agrees_plain _).bind fun first => (agrees_elements hinner).bind fun es => ?_
  refine (agrees_many (agrees_joinedElements? hinner)).bind fun ess => ?_
  exact (agrees_plain _).bind fun stop => agrees_pure _

end

/-- Too many open sequences are found by the counter. -/
theorem agrees_guard {m : Message} {inserts : List String} {p : Counting α} {q : Parser α}
    (h : n < Read.maxDepth → Agrees n p q) : Agrees n
      (do if Read.maxDepth ≤ (← depth) then plain (refuseHere m inserts) else p)
      (if Read.maxDepth ≤ n then refuseHere m inserts else q) := by
  intro c past
  rw [bind_apply]
  change ∃ new, _ ∧ (if Read.maxDepth ≤ n then plain (refuseHere m inserts) else p) c ⟨n, past⟩ = _
  split
  · exact agrees_plain _ c past
  · next hn => exact h (Nat.lt_of_not_le hn) c past

/-- A level is left where the counter is below the limit. -/
theorem sequence_levels (appMode : Bool) (n : Nat) : Read.sequence appMode (Read.maxDepth - n) =
    if Read.maxDepth ≤ n then refuseHere .taskNestingTooDeep [toString Read.maxDepth]
    else Read.sequenceWith appMode (Read.sequence appMode (Read.maxDepth - (n + 1))) := by
  split
  · next hn => rw [Nat.sub_eq_zero_of_le hn, Read.sequence]
  · next hn =>
    have hlevels : Read.maxDepth - n = (Read.maxDepth - (n + 1)) + 1 := by omega
    rw [hlevels, Read.sequence]

/-- The levels left are those that the counter has yet to count. -/
theorem agrees_sequence (appMode : Bool) {fuel : Nat} (hn : n ≤ Read.maxDepth)
    (h : Read.maxDepth < n + fuel) :
    Agrees n (sequence appMode fuel) (Read.sequence appMode (Read.maxDepth - n)) := by
  induction fuel generalizing n with
  | zero => omega
  | succ fuel ih =>
    rw [sequence_levels]
    exact agrees_guard fun hlt => (agrees_sequenceWith (ih hlt (by omega))).within hlt

theorem agrees_topSequence (appMode : Bool) {fuel : Nat} (h : Read.maxDepth < fuel) :
    Agrees 0 (topSequence appMode fuel) (Read.topSequence appMode) :=
  (agrees_sequence appMode (Nat.zero_le _) (by omega)).bind fun s =>
    (agrees_plain checkpoint).bind fun _ => agrees_pure s

theorem agrees_nextSequence? (appMode : Bool) {fuel : Nat} (h : Read.maxDepth < fuel) :
    Agrees 0 (nextSequence? appMode fuel) (Read.nextSequence? appMode) :=
  (agrees_plain Read.separator?).bind fun _ =>
    .ite ((agrees_topSequence appMode h).bind fun s => agrees_pure (some s)) (agrees_pure none)

theorem agrees_definition (name : Option String) (appMode : Bool) {fuel : Nat}
    (h : Read.maxDepth < fuel) :
    Agrees 0 (definition name appMode fuel) (Read.definition name appMode) := by
  refine (agrees_plain _).bind fun _ => (agrees_topSequence appMode h).bind fun first => ?_
  refine (agrees_many (agrees_nextSequence? appMode h)).bind fun rest => ?_
  exact (agrees_plain get).bind fun c => agrees_pure _

end Counting

section

variable {fuel : Nat} {options : Options} {text : String}

theorem parseCounting_eq (h : Read.maxDepth < fuel) : ∃ past, (∀ n ∈ past, n ≤ Read.maxDepth) ∧
    parseCounting fuel options text = (parseWith options text, ⟨0, past⟩) := by
  unfold parseCounting parseWith parseUnchecked
  cases tokenize text with
  | error e => exact ⟨[], nofun, rfl⟩
  | ok ts =>
    obtain ⟨past, hpast, hd⟩ :=
      Counting.agrees_definition options.name options.appMode h (.ofTokens text ts) []
    refine ⟨past, hpast, ?_⟩
    simp only [hd, List.append_nil]
    cases hr : Read.definition options.name options.appMode (.ofTokens text ts) <;>
      simp [bind, Except.bind, pure, Except.pure, StateT.run, hr]

end

/-! ## Splits within splits -/

mutual

/-- How many splits there are, each within the one before. -/
def Sequence.splitDepth : Sequence → Nat
  | ⟨elements, _, _⟩ => splitDepthOf elements

def Split.splitDepth : Split → Nat
  | ⟨_, branches, _, _⟩ => branchesSplitDepth branches + 1

def Element.splitDepth : Element → Nat
  | .app _ => 0
  | .split s => s.splitDepth

def splitDepthOf : List Element → Nat
  | [] => 0
  | e :: es => max e.splitDepth (splitDepthOf es)

def branchesSplitDepth : List Sequence → Nat
  | [] => 0
  | s :: ss => max s.splitDepth (branchesSplitDepth ss)

end

section

variable {n : Nat}

theorem splitDepthOf_le {es : List Element} :
    splitDepthOf es ≤ n ↔ ∀ e ∈ es, e.splitDepth ≤ n := by
  induction es with
  | nil => simp [splitDepthOf]
  | cons e es ih => rw [splitDepthOf, max_le_iff, ih, List.forall_mem_cons]

theorem branchesSplitDepth_le {ss : List Sequence} :
    branchesSplitDepth ss ≤ n ↔ ∀ s ∈ ss, s.splitDepth ≤ n := by
  induction ss with
  | nil => simp [branchesSplitDepth]
  | cons s ss ih => rw [branchesSplitDepth, max_le_iff, ih, List.forall_mem_cons]

variable {appMode : Bool} {vs : List Sight}

/-- A split is one deeper than its branches; the sequence of a group is as deep as the group. -/
theorem DerivesElements.splitDepth_le {Inner : List Sight → Sequence → Prop} {es : List Element}
    (h : DerivesElements appMode Inner vs es) (hinner : ∀ {vs s}, Inner vs s → s.splitDepth < n) :
    splitDepthOf es ≤ n := by
  cases h with
  | @group _ _ _ s _ hs _ =>
    obtain ⟨elements, start, stop⟩ := s
    exact Nat.le_of_lt (hinner hs)
  | split _ _ hf hm _ =>
    have hfirst := Nat.le_sub_one_of_lt (hinner hf)
    have hrest := hm.forall_item (P := fun s => s.splitDepth ≤ n - 1) fun hb => by
      obtain ⟨-, hs⟩ := hb
      exact Nat.le_sub_one_of_lt (hinner hs)
    have hbranches := branchesSplitDepth_le.mpr (List.forall_mem_cons.mpr ⟨hfirst, hrest⟩)
    simp only [splitDepthOf, Element.splitDepth, Split.splitDepth]
    have := hinner hf
    omega
  | app => exact Nat.zero_le n

theorem DerivesSequence.splitDepth_lt {levels : Nat} {s : Sequence}
    (h : DerivesSequence appMode levels vs s) : s.splitDepth < levels := by
  induction levels generalizing vs s with
  | zero => cases h
  | succ levels ih =>
    obtain ⟨us, ws, first, rest, rfl, hf, hm, rfl⟩ := h
    have hfirst := hf.splitDepth_le ih
    have hrest : ∀ es ∈ rest, splitDepthOf es ≤ levels := hm.forall_item fun hb => by
      obtain ⟨-, hes⟩ := hb
      exact hes.splitDepth_le ih
    simp only [Sequence.splitDepth, Nat.lt_succ_iff, splitDepthOf_le, List.forall_mem_append,
      List.forall_mem_flatten] at hfirst hrest ⊢
    exact ⟨hfirst, hrest⟩

theorem Derives.splitDepth_lt {levels : Nat} {ss : List Sequence}
    (h : Derives appMode levels vs ss) : ∀ s ∈ ss, s.splitDepth < levels := by
  obtain ⟨hs, hm, -⟩ := h
  refine List.forall_mem_cons.mpr ⟨hs.splitDepth_lt, hm.forall_item fun hb => ?_⟩
  cases hb with
  | semicolon _ hs => exact hs.splitDepth_lt
  | line _ hs => exact hs.splitDepth_lt

end

/-! ## Too many openers -/

section

variable {appMode : Bool} {c : Cursor} {u t : Token} {us ts : List Token}

theorem no_label_reads_of_peek (h : c.peek.isName = false) : Reads Read.label? c none c :=
  reads_label?.mpr (.inl ⟨fun hl => absurd hl.1 (Bool.eq_false_iff.mp h), rfl, rfl⟩)

/-- A sequence that starts with an opener is refused as the sequence after the opener is. -/
theorem sequenceWith_refuses {inner : Parser Sequence} {f : Fault}
    (hk : c.peek.kind = .lparen ∨ c.peek.kind = .lt) (h : Refuses inner c.next.2 f) :
    Refuses (Read.sequenceWith appMode inner) c f := by
  refine Reads.refuses (reads_peek.mpr ⟨rfl, rfl⟩) (Refuses.bind ?_)
  rcases hk with hk | hk
  · have heat : Reads (eatIf .lparen) c (some c.peek) c.next.2 := by simp [hk]
    exact heat.refuses h.bind
  · have heat : Reads (eatIf .lparen) c none c := by simp [hk]
    have hname : c.peek.isName = false := by simp [hk, Token.isName, Kind.isName]
    have hlabel : Reads Read.elementLabel c none c :=
      reads_elementLabel.mpr (.inl ⟨no_label_reads_of_peek hname, rfl⟩)
    have hkind : Reads peekKind c .lt c := by simp [hk]
    have hlt : Reads (eat .lt) c c.peek c.next.2 := by simp [hk]
    exact heat.refuses (hlabel.refuses (hkind.refuses (Refuses.bind (hlt.refuses h.bind))))

/-- Openers for all levels, and the fault at the token after them. -/
theorem sequence_refuses {levels : Nat} (hlen : us.length = levels)
    (hk : ∀ u ∈ us, u.kind = .lparen ∨ u.kind = .lt) (hc : c.ahead = us ++ t :: ts) :
    Refuses (Read.sequence appMode levels) c
      (c.fault t.start .taskNestingTooDeep [toString Read.maxDepth]) := by
  induction levels generalizing c us with
  | zero =>
    obtain rfl := List.eq_nil_of_length_eq_zero hlen
    have ht : c.peek = t := by simp [Cursor.peek, hc]
    rw [← ht]
    rfl
  | succ levels ih =>
    obtain ⟨u, us, rfl⟩ := List.exists_cons_of_length_eq_add_one hlen
    rw [List.forall_mem_cons] at hk
    have hu : c.peek = u := by simp [Cursor.peek, hc]
    have hne : u.kind ≠ .eof := by rcases hk.1 with h | h <;> simp [h]
    have hnext : c.next.2 = { c with behind := u :: c.behind, ahead := us ++ t :: ts } := by
      simp [Cursor.next, hc, hne]
    refine sequenceWith_refuses (hu ▸ hk.1) ?_
    rw [hnext]
    exact ih (by simpa using hlen) hk.2 rfl

/-- After as many openers as there are levels comes another token, be it `eof`, and there the text
is refused. -/
theorem parseWith_refuses {options : Options} {text : String} (hts : tokenize text = .ok ts)
    (hname : ∀ n ∈ options.name, Text.isLegalName n = true) (hu : us <+: ts)
    (hlen : us.length = Read.maxDepth) (hk : ∀ u ∈ us, u.kind = .lparen ∨ u.kind = .lt) :
    ∃ t, ts[Read.maxDepth]? = some t ∧ parseWith options text = .error
      { expression := text, offset := t.start, message := .taskNestingTooDeep,
        inserts := [toString Read.maxDepth], checkpoint := some 0 } := by
  obtain ⟨rest, rfl⟩ := hu
  obtain ⟨before, e, hlast, he, -⟩ := exists_eof_of_tokenize hts
  have hrest : rest ≠ [] := by
    rintro rfl
    have hmem : e ∈ us := by
      rw [List.append_nil] at hlast
      simp [hlast]
    rcases hk e hmem with h | h <;> simp [he] at h
  obtain ⟨t, ts, rfl⟩ := List.exists_cons_of_ne_nil hrest
  refine ⟨t, by simp [← hlen], ?_⟩
  have hahead : (Cursor.ofTokens text (us ++ t :: ts)).ahead = us ++ t :: ts :=
    terminated_eq ⟨e, by simp [hlast], he⟩
  have hsequence : Refuses (Read.sequence options.appMode Read.maxDepth) _ _ :=
    sequence_refuses hlen hk hahead
  have hdefinition : Refuses (Read.definition options.name options.appMode) _ _ :=
    Reads.refuses (reads_requireLegalName (u := ()).mpr ⟨hname, rfl⟩) hsequence.bind.bind
  rw [parseWith, parseUnchecked_eq_error.mpr (.inr ⟨_, hts, hdefinition⟩)]
  rfl

/-- The name is looked at first: if it is not legal, nothing of the text is read. -/
theorem parseWith_illegalName {options : Options} {text n : String} (hts : tokenize text = .ok ts)
    (hname : options.name = some n) (hn : Text.isLegalName n = false) :
    parseWith options text = .error
      { expression := text, offset := 0, message := .illegalTaskName, inserts := [n],
        checkpoint := some 0 } := by
  have hillegal : Refuses (Read.requireLegalName options.name) (Cursor.ofTokens text ts)
      { expression := text, offset := 0, message := .illegalTaskName, inserts := [n],
        checkpoint := some 0 } := by
    rw [hname, Read.requireLegalName, hn]
    rfl
  have hdefinition : Refuses (Read.definition options.name options.appMode) _ _ := hillegal.bind
  rw [parseWith, parseUnchecked_eq_error.mpr (.inr ⟨_, hts, hdefinition⟩)]
  rfl

end

/-! ## The bound -/

/-- Nesting is bounded on every text, with enough fuel for the 256 levels. A run that counts its
open sequences ends as one that does not, with none open and never more than 256; each sequence
leaves the counter as it was found, be it read or refused; and what is read has at most 255 splits,
each within the one before. A text that starts with 256 openers, of groups or splits, is refused at
the token after them; under a name that is not legal, it is refused for its name before that. -/
theorem nesting_bounded {fuel : Nat} (hfuel : 256 < fuel) (options : Options) (text : String) :
    ((parseCounting fuel options text).1 = parseWith options text ∧
      (parseCounting fuel options text).2.depth = 0 ∧
      ∀ n ∈ (parseCounting fuel options text).2.past, n ≤ 256) ∧
    (∀ (fuel : Nat) (c : Cursor) (m : Counter), m.depth ≤ 256 → 256 < m.depth + fuel →
      (Counting.sequence options.appMode fuel c m).2.depth = m.depth) ∧
    (∀ t, parseWith options text = .ok t → ∀ s ∈ t.sequences, s.splitDepth ≤ 255) ∧
    (∀ ts us, tokenize text = .ok ts → (∀ n ∈ options.name, Text.isLegalName n = true) →
      us <+: ts → us.length = 256 → (∀ u ∈ us, u.kind = .lparen ∨ u.kind = .lt) →
      ∃ t, ts[256]? = some t ∧ parseWith options text = .error
        { expression := text, offset := t.start, message := .taskNestingTooDeep, inserts := ["256"],
          checkpoint := some 0 }) ∧
    ∀ ts n, tokenize text = .ok ts → options.name = some n → Text.isLegalName n = false →
      parseWith options text = .error
        { expression := text, offset := 0, message := .illegalTaskName, inserts := [n],
          checkpoint := some 0 } := by
  obtain ⟨past, hpast, hrun⟩ := @parseCounting_eq fuel options text hfuel
  refine ⟨?_, fun fuel c m hm hlt => ?_, fun t ht s hs => ?_, fun ts us hts hname hu hlen hk => ?_,
    fun ts n hts hname hn => parseWith_illegalName hts hname hn⟩
  · rw [hrun]
    exact ⟨rfl, rfl, hpast⟩
  · obtain ⟨new, -, hsequence⟩ := Counting.agrees_sequence options.appMode hm hlt c m.past
    exact congrArg (fun r => r.2.depth) hsequence
  · obtain ⟨ts, -, hts, -⟩ := parseUnchecked_eq_ok.mp (parseWith_eq_ok.mp ht).1
    have hderives := ((parseUnchecked_iff_derives hts).mp (parseWith_eq_ok.mp ht).1).2.2.2
    exact Nat.le_of_lt_succ (hderives.splitDepth_lt s hs)
  · exact parseWith_refuses hts hname hu hlen hk

/-- Groups and splits by turns. -/
theorem nesting_bounded_openers : 256 < 257 ∧ ∃ text ts t,
    text = String.ofList (List.replicate 128 ['(', '<']).flatten ∧ tokenize text = .ok ts ∧
      ts[256]? = some t ∧ t.start = 256 ∧ parseWith {} text = .error
        { expression := text, offset := 256, message := .taskNestingTooDeep, inserts := ["256"],
          checkpoint := some 0 } := by
  have hfuel : 256 < 257 := by omega
  obtain ⟨ts, hts, hlen, hk, hstart⟩ : ∃ ts,
      (tokenize (String.ofList (List.replicate 128 ['(', '<']).flatten)).toOption = some ts ∧
        (ts.take 256).length = 256 ∧ (∀ u ∈ ts.take 256, u.kind = .lparen ∨ u.kind = .lt) ∧
        ts[256]?.map Token.start = some 256 := by decide +kernel
  rw [toOption_eq_some] at hts
  obtain ⟨t, ht, hrefused⟩ := (nesting_bounded hfuel {} _).2.2.2.1 ts _ hts (by simp)
    (List.take_prefix 256 ts) hlen hk
  rw [ht] at hstart
  have hstart := Option.some.inj hstart
  rw [hstart] at hrefused
  exact ⟨hfuel, _, ts, t, rfl, hts, ht, hstart, hrefused⟩

end Pipework.Task
