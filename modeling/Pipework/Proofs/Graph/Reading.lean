import Mathlib
import Pipework.Graph.Readback
import Pipework.Proofs.Graph.Runs

/-! Reading a graph back as a relation without fuel. What is read of an app depends on the graph alone;
a flow is read step by step, and the fuel of the reader is always enough. -/

namespace Pipework.Graph

open Pipework.Task

variable {g : Graph} {r r' r₁ : Reading} {id : Nat} {n : Node}

/-! ## Apps -/

theorem node?_eq_some (h : g.node? id = some n) : n ∈ g.nodes ∧ n.id = id :=
  ⟨List.mem_of_find?_eq_some h, by simpa using List.find?_some h⟩

/-- Nodes in the order in which they are first named. -/
def addHeads (hs xs : List Nat) : List Nat :=
  xs.foldl (fun hs x => if x ∈ hs then hs else hs ++ [x]) hs

@[simp] theorem addHeads_nil (hs : List Nat) : addHeads hs [] = hs := rfl

theorem addHeads_append (hs xs ys : List Nat) :
    addHeads hs (xs ++ ys) = addHeads (addHeads hs xs) ys := List.foldl_append

theorem addHeads_cons_of_mem {hs : List Nat} {x : Nat} (h : x ∈ hs) (xs : List Nat) :
    addHeads hs (x :: xs) = addHeads hs xs := by simp [addHeads, h]

theorem addHeads_cons_of_not_mem {hs : List Nat} {x : Nat} (h : x ∉ hs) (xs : List Nat) :
    addHeads hs (x :: xs) = addHeads (hs ++ [x]) xs := by simp [addHeads, h]

/-- A transition to the node is written as a jump to its label. -/
def isJumpTarget (g : Graph) (n : Node) : Bool :=
  !(g.predecessors n.id).isEmpty || g.headsSequence n.id

def targetOf (g : Graph) (n : Node) : Target :=
  if n.isMarker then .app ({ n with label := none, properties := [] }.toApp [])
  else match n.label with
    | some label => if g.isJumpTarget n then .label label else .app (n.toApp [])
    | none => .app (n.toApp [])

/-- The sequence head that a transition to the node leads to. -/
def headOf (g : Graph) (n : Node) : Option Nat :=
  if !n.isMarker && n.label.isSome && g.headsSequence n.id then some n.id else none

/-- The app that is read from a node of a flow. -/
def appOf (g : Graph) (n : Node) : App :=
  n.toApp ((g.transitions n.id).map fun t => ⟨t.1, g.targetOf t.2, 0, 0⟩)

def headsOf (g : Graph) (n : Node) : List Nat :=
  (g.transitions n.id).filterMap fun t => g.headOf t.2

theorem predecessors_of_headsSequence (h : g.headsSequence id = true) : g.predecessors id = [] := by
  simp only [headsSequence, Bool.and_eq_true, List.isEmpty_iff] at h
  exact h.1

theorem runs_readTarget {t : Target} : Runs (readTarget g n) r t r' ↔
    t = g.targetOf n ∧ r' = { r with heads := addHeads r.heads (g.headOf n).toList } := by
  unfold readTarget targetOf headOf isJumpTarget
  cases hm : n.isMarker with
  | true => simp
  | false =>
    cases n.label with
    | none => simp
    | some label =>
      cases hp : (g.predecessors n.id).isEmpty <;> cases hh : g.headsSequence n.id
      · simp
      · simp [predecessors_of_headsSequence hh] at hp
      · simp
      · by_cases hid : n.id ∈ r.heads <;> simp [addHead, hid, addHeads, and_comm]

theorem heads_cons (t : Condition × Node) (ts : List (Condition × Node)) :
    (t :: ts).filterMap (fun t => g.headOf t.2) =
      (g.headOf t.2).toList ++ ts.filterMap fun t => g.headOf t.2 := by
  rw [List.filterMap_cons]
  cases g.headOf t.2 <;> rfl

theorem runs_readTransitions {ts : List (Condition × Node)} {us : List Transition} :
    Runs (ts.mapM (readTransition g)) r us r' ↔
      us = ts.map (fun t => ⟨t.1, g.targetOf t.2, 0, 0⟩) ∧
        r' = { r with heads := addHeads r.heads (ts.filterMap fun t => g.headOf t.2) } := by
  induction ts generalizing r us with
  | nil => simp
  | cons t ts ih =>
    simp only [runs_mapM_cons, readTransition, runs_bind, runs_pure, runs_readTarget, ih, heads_cons,
      addHeads_append]
    simp [and_comm]

theorem runs_readApp {a : App} : Runs (readApp g n) r a r' ↔
    a = g.appOf n ∧ r' = { r with heads := addHeads r.heads (g.headsOf n) } := by
  simp only [readApp, runs_bind, runs_readTransitions, runs_pure, appOf, headsOf]
  simp

/-! ## Flows -/

/-- The flow ends at the node. -/
def Halts (g : Graph) (r : Reading) (stop : Option Nat) (id : Nat) : Prop :=
  some id = stop ∨ ∀ n, g.node? id = some n → n.name = endName ∨ id ∈ r.visited

/-- The flow goes on with the node. -/
structure Fresh (g : Graph) (r : Reading) (stop : Option Nat) (id : Nat) (n : Node) : Prop where
  going : some id ≠ stop
  node : g.node? id = some n
  name : n.name ≠ endName
  new : id ∉ r.visited

theorem Fresh.not_halts {stop : Option Nat} (h : Fresh g r stop id n) : ¬ Halts g r stop id := by
  rintro (hs | hn)
  · exact h.going hs
  · exact (hn n h.node).elim h.name h.new

theorem Fresh.eq {stop : Option Nat} {m : Node} (h : Fresh g r stop id n)
    (h' : Fresh g r stop id m) : m = n :=
  Option.some.inj (h'.node.symm.trans h.node)

def Reading.visit (r : Reading) (id : Nat) : Reading := { r with visited := id :: r.visited }

/-- The reading with an app of a flow. -/
def Reading.withApp (r : Reading) (g : Graph) (n : Node) : Reading :=
  ⟨n.id :: r.visited, addHeads r.heads (g.headsOf n)⟩

section

variable (g : Graph) (meets : List Nat → Option Nat → Prop)

mutual

/-- The elements of the flow from `entries` on, where the flows from some entries can meet as `meets`
says. -/
inductive ReadsFlow : Reading → List Nat → Option Nat → List Element → Reading → Prop where
  | nil {r : Reading} {stop : Option Nat} : ReadsFlow r [] stop [] r
  | halt {r : Reading} {stop : Option Nat} {id : Nat} (h : Halts g r stop id) :
      ReadsFlow r [id] stop [] r
  | app {r r' : Reading} {stop : Option Nat} {id : Nat} {n : Node} {es : List Element}
      (h : Fresh g r stop id n) (hs : n.isSync = false)
      (hf : ReadsFlow (r.withApp g n) (g.successors id) stop es r') :
      ReadsFlow r [id] stop (.app (g.appOf n) :: es) r'
  | pass {r r' : Reading} {stop : Option Nat} {id : Nat} {n : Node} {es : List Element}
      (h : Fresh g r stop id n) (hs : n.isSync = true) (hl : ¬ 1 < (g.successors id).length)
      (hf : ReadsFlow (r.visit id) (g.successors id) stop es r') : ReadsFlow r [id] stop es r'
  | fork {r r₁ r' : Reading} {stop join : Option Nat} {id : Nat} {n : Node} {bs : List Sequence}
      {es : List Element} (h : Fresh g r stop id n) (hs : n.isSync = true)
      (hl : 1 < (g.successors id).length) (hj : meets (g.successors id) join)
      (hb : ReadsBranches (r.visit id) (g.successors id) join bs r₁)
      (hf : ReadsFlow r₁ join.toList stop es r') :
      ReadsFlow r [id] stop (.split ⟨n.toLabel, bs, 0, 0⟩ :: es) r'
  | split {r r₁ r' : Reading} {stop join : Option Nat} {entries : List Nat} {bs : List Sequence}
      {es : List Element} (hl : 1 < entries.length) (hj : meets entries join)
      (hb : ReadsBranches r entries join bs r₁) (hf : ReadsFlow r₁ join.toList stop es r') :
      ReadsFlow r entries stop (.split ⟨none, bs, 0, 0⟩ :: es) r'

/-- One branch from each entry. -/
inductive ReadsBranches : Reading → List Nat → Option Nat → List Sequence → Reading → Prop where
  | nil {r : Reading} {join : Option Nat} : ReadsBranches r [] join [] r
  | cons {r r₁ r' : Reading} {join : Option Nat} {entry : Nat} {entries : List Nat}
      {es : List Element} {bs : List Sequence} (hf : ReadsFlow r [entry] join es r₁)
      (hb : ReadsBranches r₁ entries join bs r') :
      ReadsBranches r (entry :: entries) join (⟨es, 0, 0⟩ :: bs) r'

end

/-- The sequences of the heads from a position on. -/
inductive ReadsHeads : Reading → Nat → List Sequence → Reading → Prop where
  | done {r : Reading} {index : Nat} (h : r.heads[index]? = none) : ReadsHeads r index [] r
  | next {r r₁ r' : Reading} {index head : Nat} {es : List Element} {ss : List Sequence}
      (h : r.heads[index]? = some head) (hf : ReadsFlow g meets r [head] none es r₁)
      (hr : ReadsHeads r₁ (index + 1) ss r') : ReadsHeads r index (⟨es, 0, 0⟩ :: ss) r'

end

/-! ## Uniqueness -/

section

variable {meets : List Nat → Option Nat → Prop}

/-- What a flow that goes on with a node starts with, in its three forms. -/
theorem ReadsFlow.of_fresh {stop : Option Nat} {es : List Element} (h : Fresh g r stop id n)
    (hr : ReadsFlow g meets r [id] stop es r') :
    (n.isSync = false ∧ ∃ fs, es = .app (g.appOf n) :: fs ∧
      ReadsFlow g meets (r.withApp g n) (g.successors id) stop fs r') ∨
    (n.isSync = true ∧ ¬ 1 < (g.successors id).length ∧
      ReadsFlow g meets (r.visit id) (g.successors id) stop es r') ∨
    (n.isSync = true ∧ 1 < (g.successors id).length ∧ ∃ join bs fs r₁,
      es = .split ⟨n.toLabel, bs, 0, 0⟩ :: fs ∧ meets (g.successors id) join ∧
        ReadsBranches g meets (r.visit id) (g.successors id) join bs r₁ ∧
          ReadsFlow g meets r₁ join.toList stop fs r') := by
  cases hr with
  | halt hh => exact absurd hh h.not_halts
  | app h' hs hf =>
    obtain rfl := h.eq h'
    exact .inl ⟨hs, _, rfl, hf⟩
  | pass h' hs hl hf =>
    obtain rfl := h.eq h'
    exact .inr (.inl ⟨hs, hl, hf⟩)
  | fork h' hs hl hj hb hf =>
    obtain rfl := h.eq h'
    exact .inr (.inr ⟨hs, hl, _, _, _, _, rfl, hj, hb, hf⟩)
  | split hl => simp at hl

mutual

/-- If it is settled where flows meet, a flow is read in one way. -/
theorem ReadsFlow.unique (hm : ∀ {entries i j}, meets entries i → meets entries j → i = j) :
    {r r₁ r₂ : Reading} → {entries : List Nat} → {stop : Option Nat} → {es fs : List Element} →
      ReadsFlow g meets r entries stop es r₁ → ReadsFlow g meets r entries stop fs r₂ →
        es = fs ∧ r₁ = r₂
  | _, _, _, _, _, _, _, .nil, h => by
    cases h with
    | nil => exact ⟨rfl, rfl⟩
    | split hl => simp at hl
  | _, _, _, _, _, _, _, .halt h, h' => by
    cases h' with
    | halt => exact ⟨rfl, rfl⟩
    | app hf | pass hf | fork hf => exact absurd h hf.not_halts
    | split hl => simp at hl
  | _, _, _, _, _, _, _, .app h hs hf, h' => by
    obtain ⟨-, fs, rfl, hf'⟩ | ⟨hs', -⟩ | ⟨hs', -⟩ := h'.of_fresh h
    · obtain ⟨rfl, rfl⟩ := hf.unique hm hf'
      exact ⟨rfl, rfl⟩
    all_goals simp [hs] at hs'
  | _, _, _, _, _, _, _, .pass h hs hl hf, h' => by
    obtain ⟨hs', -⟩ | ⟨-, -, hf'⟩ | ⟨-, hl', -⟩ := h'.of_fresh h
    · simp [hs] at hs'
    · exact hf.unique hm hf'
    · exact absurd hl' hl
  | _, _, _, _, _, _, _, .fork h hs hl hj hb hf, h' => by
    obtain ⟨hs', -⟩ | ⟨-, hl', -⟩ | ⟨-, -, _, _, _, _, rfl, hj', hb', hf'⟩ := h'.of_fresh h
    · simp [hs] at hs'
    · exact absurd hl hl'
    · obtain rfl := hm hj hj'
      obtain ⟨rfl, rfl⟩ := hb.unique hm hb'
      obtain ⟨rfl, rfl⟩ := hf.unique hm hf'
      exact ⟨rfl, rfl⟩
  | _, _, _, _, _, _, _, .split hl hj hb hf, h' => by
    cases h' with
    | nil => simp at hl
    | halt | app | pass | fork => simp at hl
    | split _ hj' hb' hf' =>
      obtain rfl := hm hj hj'
      obtain ⟨rfl, rfl⟩ := hb.unique hm hb'
      obtain ⟨rfl, rfl⟩ := hf.unique hm hf'
      exact ⟨rfl, rfl⟩

theorem ReadsBranches.unique (hm : ∀ {entries i j}, meets entries i → meets entries j → i = j) :
    {r r₁ r₂ : Reading} → {entries : List Nat} → {join : Option Nat} → {bs cs : List Sequence} →
      ReadsBranches g meets r entries join bs r₁ → ReadsBranches g meets r entries join cs r₂ →
        bs = cs ∧ r₁ = r₂
  | _, _, _, _, _, _, _, .nil, h => by
    cases h
    exact ⟨rfl, rfl⟩
  | _, _, _, _, _, _, _, .cons hf hb, h => by
    cases h with
    | cons hf' hb' =>
      obtain ⟨rfl, rfl⟩ := hf.unique hm hf'
      obtain ⟨rfl, rfl⟩ := hb.unique hm hb'
      exact ⟨rfl, rfl⟩

end

theorem ReadsHeads.unique (hm : ∀ {entries i j}, meets entries i → meets entries j → i = j)
    {r r₁ r₂ : Reading} {index : Nat} {ss rs : List Sequence} (h : ReadsHeads g meets r index ss r₁)
    (h' : ReadsHeads g meets r index rs r₂) : ss = rs ∧ r₁ = r₂ := by
  have hflow := @ReadsFlow.unique g meets hm
  induction h generalizing rs with
  | done h =>
    cases h' with
    | done => exact ⟨rfl, rfl⟩
    | next h' =>
      rw [h] at h'
      cases h'
  | next h hf _ ih =>
    cases h' with
    | done h' =>
      rw [h] at h'
      cases h'
    | next h' hf' hr' =>
      obtain rfl := Option.some.inj (h.symm.trans h')
      obtain ⟨rfl, rfl⟩ := hflow hf hf'
      obtain ⟨rfl, rfl⟩ := ih hr'
      exact ⟨rfl, rfl⟩

end

/-! ## What reading keeps -/

/-- Reading a node of a flow keeps the property. -/
structure Kept (g : Graph) (P : Reading → Prop) : Prop where
  visit : ∀ {r : Reading} {stop : Option Nat} {id : Nat} {n : Node}, Fresh g r stop id n → P r →
    P (r.visit id)
  app : ∀ {r : Reading} {stop : Option Nat} {id : Nat} {n : Node}, Fresh g r stop id n → P r →
    P (r.withApp g n)

section

variable {meets : List Nat → Option Nat → Prop} {P : Reading → Prop}

mutual

theorem ReadsFlow.keeps (hP : Kept g P) : {r r' : Reading} → {entries : List Nat} →
    {stop : Option Nat} → {es : List Element} → ReadsFlow g meets r entries stop es r' → P r → P r'
  | _, _, _, _, _, .nil, h => h
  | _, _, _, _, _, .halt _, h => h
  | _, _, _, _, _, .app hn _ hf, h => hf.keeps hP (hP.app hn h)
  | _, _, _, _, _, .pass hn _ _ hf, h => hf.keeps hP (hP.visit hn h)
  | _, _, _, _, _, .fork hn _ _ _ hb hf, h => hf.keeps hP (hb.keeps hP (hP.visit hn h))
  | _, _, _, _, _, .split _ _ hb hf, h => hf.keeps hP (hb.keeps hP h)

theorem ReadsBranches.keeps (hP : Kept g P) : {r r' : Reading} → {entries : List Nat} →
    {join : Option Nat} → {bs : List Sequence} → ReadsBranches g meets r entries join bs r' →
      P r → P r'
  | _, _, _, _, _, .nil, h => h
  | _, _, _, _, _, .cons hf hb, h => hb.keeps hP (hf.keeps hP h)

end

theorem kept_visited (g : Graph) (x : Nat) : Kept g fun r => x ∈ r.visited :=
  ⟨fun _ => List.mem_cons_of_mem _, fun _ => List.mem_cons_of_mem _⟩

theorem ReadsFlow.visited {entries : List Nat} {stop : Option Nat} {es : List Element}
    (h : ReadsFlow g meets r entries stop es r') : ∀ x ∈ r.visited, x ∈ r'.visited :=
  fun x => h.keeps (kept_visited g x)

theorem ReadsBranches.visited {entries : List Nat} {join : Option Nat} {bs : List Sequence}
    (h : ReadsBranches g meets r entries join bs r') : ∀ x ∈ r.visited, x ∈ r'.visited :=
  fun x => h.keeps (kept_visited g x)

end

theorem mem_addHeads {hs xs : List Nat} {x : Nat} : x ∈ addHeads hs xs ↔ x ∈ hs ∨ x ∈ xs := by
  induction xs generalizing hs with
  | nil => simp
  | cons y ys ih =>
    by_cases hy : y ∈ hs
    · rw [addHeads_cons_of_mem hy, ih, List.mem_cons]
      exact ⟨fun h => h.imp_right .inr, fun h => h.elim .inl fun h => h.elim (fun h => .inl (h ▸ hy)) .inr⟩
    · rw [addHeads_cons_of_not_mem hy, ih, List.mem_append, List.mem_singleton, List.mem_cons, or_assoc]

theorem nodup_addHeads {hs : List Nat} (h : hs.Nodup) (xs : List Nat) : (addHeads hs xs).Nodup := by
  induction xs generalizing hs with
  | nil => exact h
  | cons x xs ih =>
    by_cases hx : x ∈ hs
    · rw [addHeads_cons_of_mem hx]
      exact ih h
    · rw [addHeads_cons_of_not_mem hx]
      exact ih (List.nodup_append.mpr ⟨h, by simp, by grind⟩)

/-- The heads are nodes, each of them once. -/
structure Reading.Heads (g : Graph) (r : Reading) : Prop where
  nodup : r.heads.Nodup
  nodes : ∀ x ∈ r.heads, x ∈ g.nodes.map Node.id

theorem Reading.Heads.length_le (h : r.Heads g) : r.heads.length ≤ g.nodes.length := by
  have := (h.nodup.subperm h.nodes).length_le
  simpa using this

theorem mem_headsOf {x : Nat} (h : x ∈ g.headsOf n) : x ∈ g.nodes.map Node.id := by
  obtain ⟨t, ht, hx⟩ := List.mem_filterMap.mp h
  obtain ⟨l, -, hl⟩ := List.mem_filterMap.mp ht
  unfold headOf at hx
  split at hx
  · obtain rfl := Option.some.inj hx
    cases hc : l.condition with
    | none => simp [hc] at hl
    | some c =>
      cases hn : g.node? l.target with
      | none => simp [hc, hn] at hl
      | some m =>
        simp only [hc, hn] at hl
        obtain rfl := Option.some.inj hl
        exact List.mem_map_of_mem (node?_eq_some hn).1
  · cases hx

theorem heads_empty (g : Graph) : Reading.Heads g {} := ⟨List.nodup_nil, by simp⟩

theorem kept_heads (g : Graph) : Kept g (Reading.Heads g) where
  visit _ h := ⟨h.nodup, h.nodes⟩
  app _ h := ⟨nodup_addHeads h.nodup _, fun x hx => (mem_addHeads.mp hx).elim (h.nodes x) mem_headsOf⟩

/-! ## Fuel -/

/-- The nodes that have not been read. -/
def unread (g : Graph) (r : Reading) : Nat := g.nodes.countP fun n => n.id ∉ r.visited

theorem countP_lt {α : Type} {p q : α → Bool} {as : List α} (h : ∀ a, p a = true → q a = true)
    {a : α} (ha : a ∈ as) (hp : p a = false) (hq : q a = true) : as.countP p < as.countP q := by
  obtain ⟨bs, cs, rfl⟩ := List.append_of_mem ha
  have hbs := List.countP_mono_left (l := bs) fun b _ => h b
  have hcs := List.countP_mono_left (l := cs) fun c _ => h c
  simp only [List.countP_append, List.countP_cons, hp, hq]
  simp
  omega

theorem Fresh.unread_lt {stop : Option Nat} (h : Fresh g r stop id n)
    (hr : r'.visited = id :: r.visited) : unread g r' < unread g r := by
  obtain ⟨hmem, rfl⟩ := node?_eq_some h.node
  refine countP_lt (fun m hm => ?_) hmem ?_ ?_
  · simp only [hr, decide_eq_true_eq, List.mem_cons, not_or] at hm ⊢
    exact hm.2
  · simp [hr]
  · simpa using h.new

theorem unread_le (h : ∀ x ∈ r.visited, x ∈ r'.visited) : unread g r' ≤ unread g r := by
  refine List.countP_mono_left fun m _ hm => ?_
  simp only [decide_eq_true_eq] at hm ⊢
  exact fun hx => hm (h _ hx)

/-- A split reads on from each entry, and a node that is read lowers the number of the unread. -/
def fuelFor (g : Graph) (r : Reading) (entries : List Nat) : Nat :=
  2 * unread g r + min entries.length 2

theorem fuelFor_le (g : Graph) (r : Reading) (entries : List Nat) :
    fuelFor g r entries ≤ 2 * unread g r + 2 := Nat.add_le_add_left (Nat.min_le_right ..) _

theorem fuelFor_join (g : Graph) (r : Reading) (join : Option Nat) :
    fuelFor g r join.toList ≤ 2 * unread g r + 1 := by
  cases join <;> simp [fuelFor]

theorem fuelFor_flow (g : Graph) (r : Reading) (entries : List Nat) :
    fuelFor g r entries ≤ 2 * (g.nodes.length + 2) := by
  have := fuelFor_le g r entries
  have : unread g r ≤ g.nodes.length := List.countP_le_length
  omega

/-- The flows from some entries meet where the reader says they do. -/
def Joins (g : Graph) (entries : List Nat) (join : Option Nat) : Prop := g.joinOf entries = join

theorem readsBranches_of_runs {fuel : Nat} (ih : ∀ {r r' : Reading} {entries : List Nat}
    {stop : Option Nat} {es : List Element}, fuelFor g r entries ≤ fuel →
      Runs (flowWithin g fuel entries stop) r es r' → ReadsFlow g (Joins g) r entries stop es r')
    {entries : List Nat} {join : Option Nat} {ess : List (List Element)}
    (hf : 2 * unread g r + 1 ≤ fuel)
    (h : Runs (entries.mapM fun entry => flowWithin g fuel [entry] join) r ess r') :
    ReadsBranches g (Joins g) r entries join (ess.map fun es => ⟨es, 0, 0⟩) r' := by
  induction entries generalizing r ess with
  | nil =>
    obtain ⟨rfl, rfl⟩ := runs_mapM_nil.mp h
    exact .nil
  | cons entry entries ih' =>
    obtain ⟨es, fss, s, he, hes, rfl⟩ := runs_mapM_cons.mp h
    have hle : fuelFor g r [entry] ≤ fuel := by simpa [fuelFor] using hf
    have he := ih hle he
    have := unread_le (g := g) he.visited
    exact .cons he (ih' (by omega) hes)

theorem runs_readSplit {flow : List Nat → Option Nat → Read (List Element)} {label : Option Label}
    {entries : List Nat} {e : Element} {join : Option Nat} :
    Runs (readSplit g flow label entries) r (e, join) r' ↔ g.joinOf entries = join ∧
      ∃ ess, Runs (entries.mapM fun entry => flow [entry] join) r ess r' ∧
        e = .split ⟨label, ess.map fun es => ⟨es, 0, 0⟩, 0, 0⟩ := by
  simp only [readSplit, runs_bind, runs_pure, Prod.mk.injEq]
  grind

theorem runs_flowWithin_single {fuel : Nat} {stop : Option Nat} {es : List Element}
    (h : Runs (flowWithin g (fuel + 1) [id] stop) r es r') :
    (Halts g r stop id ∧ es = [] ∧ r' = r) ∨ ∃ n, Fresh g r stop id n ∧
      ((n.isSync = false ∧ ∃ fs, Runs (flowWithin g fuel (g.successors id) stop) (r.withApp g n) fs r' ∧
          es = .app (g.appOf n) :: fs) ∨
        (n.isSync = true ∧ ¬ 1 < (g.successors id).length ∧
          Runs (flowWithin g fuel (g.successors id) stop) (r.visit id) es r') ∨
        (n.isSync = true ∧ 1 < (g.successors id).length ∧ ∃ e join s fs,
          Runs (readSplit g (flowWithin g fuel) n.toLabel (g.successors id)) (r.visit id) (e, join) s ∧
            Runs (flowWithin g fuel join.toList stop) s fs r' ∧ es = e :: fs)) := by
  simp only [flowWithin] at h
  split at h
  · next hs =>
    obtain ⟨rfl, rfl⟩ := runs_pure.mp h
    exact .inl ⟨.inl hs, rfl, rfl⟩
  · next hs =>
    split at h
    · next n hn =>
      simp only [runs_bind, runs_get, existsAndEq, true_and] at h
      split at h
      · next hend =>
        obtain ⟨rfl, rfl⟩ := runs_pure.mp h
        refine .inl ⟨.inr fun m hm => ?_, rfl, rfl⟩
        obtain rfl := Option.some.inj (hn.symm.trans hm)
        simpa using hend
      · next hend =>
        simp only [Bool.or_eq_true, decide_eq_true_eq, not_or] at hend
        refine .inr ⟨n, ⟨hs, hn, hend.1, hend.2⟩, ?_⟩
        simp only [runs_bind, visit, runs_modify] at h
        obtain ⟨-, s, rfl, h⟩ := h
        have hid := (node?_eq_some hn).2
        split at h
        · next hsync =>
          split at h
          · next hl =>
            simp only [runs_bind, runs_pure] at h
            obtain ⟨⟨e, join⟩, s, hsplit, fs, _, h, rfl, rfl⟩ := h
            exact .inr (.inr ⟨hsync, hl, e, join, s, fs, hsplit, h, rfl⟩)
          · next hl => exact .inr (.inl ⟨hsync, hl, h⟩)
        · next hsync =>
          simp only [runs_bind, runs_pure, runs_readApp] at h
          obtain ⟨_, s, ⟨rfl, rfl⟩, fs, _, h, rfl, rfl⟩ := h
          exact .inl ⟨by simpa using hsync, fs, by rw [Reading.withApp, hid]; exact h, rfl⟩
    · next hn =>
      obtain ⟨rfl, rfl⟩ := runs_pure.mp h
      exact .inl ⟨.inr fun m hm => (hn m hm).elim, rfl, rfl⟩

theorem readsFlow_of_runs {fuel : Nat} : ∀ {r r' : Reading} {entries : List Nat}
    {stop : Option Nat} {es : List Element}, fuelFor g r entries ≤ fuel →
      Runs (flowWithin g fuel entries stop) r es r' →
        ReadsFlow g (Joins g) r entries stop es r' := by
  induction fuel with
  | zero =>
    intro r r' entries stop es hf h
    obtain rfl : entries = [] := List.length_eq_zero_iff.mp (by unfold fuelFor at hf; omega)
    obtain ⟨rfl, rfl⟩ := runs_pure.mp h
    exact .nil
  | succ fuel ih =>
    intro r r' entries stop es hf h
    match entries with
    | [] =>
      obtain ⟨rfl, rfl⟩ := runs_pure.mp h
      exact .nil
    | [id] =>
      have hf : 2 * unread g r + 1 ≤ fuel + 1 := by simpa [fuelFor] using hf
      obtain ⟨hh, rfl, rfl⟩ | ⟨n, hn, hstep⟩ := runs_flowWithin_single h
      · exact .halt hh
      · have hle := fun (s : Reading) (hs : s.visited = id :: r.visited) => hn.unread_lt hs
        obtain ⟨hs, fs, hn', rfl⟩ | ⟨hs, hl, hn'⟩ | ⟨hs, hl, e, join, s, fs, hsplit, hn', rfl⟩ := hstep
        · have := hle (r.withApp g n) (by rw [Reading.withApp, (node?_eq_some hn.node).2])
          exact .app hn hs (ih (Nat.le_trans (fuelFor_le ..) (by omega)) hn')
        · have := hle (r.visit id) rfl
          exact .pass hn hs hl (ih (Nat.le_trans (fuelFor_le ..) (by omega)) hn')
        · obtain ⟨hj, ess, hb, rfl⟩ := runs_readSplit.mp hsplit
          have := hle (r.visit id) rfl
          have hb := readsBranches_of_runs ih (by omega) hb
          have := unread_le (g := g) hb.visited
          exact .fork hn hs hl hj hb (ih (Nat.le_trans (fuelFor_join ..) (by omega)) hn')
    | a :: b :: entries =>
      simp only [flowWithin, runs_bind, runs_pure] at h
      obtain ⟨⟨e, join⟩, s, hs, fs, _, h, rfl, rfl⟩ := h
      obtain ⟨hj, ess, hb, rfl⟩ := runs_readSplit.mp hs
      have hf : 2 * unread g r + 2 ≤ fuel + 1 := by simpa [fuelFor] using hf
      have hb := readsBranches_of_runs ih (by omega) hb
      have := unread_le (g := g) hb.visited
      exact .split (by simp) hj hb (ih (Nat.le_trans (fuelFor_join ..) (by omega)) h)

theorem readsHeads_of_runs {fuel index : Nat} {ss : List Sequence} (hr : r.Heads g)
    (hf : g.nodes.length ≤ index + fuel) (h : Runs (readHeads g fuel index) r ss r') :
    ReadsHeads g (Joins g) r index ss r' := by
  induction fuel generalizing index r ss with
  | zero =>
    obtain ⟨rfl, rfl⟩ := runs_pure.mp h
    exact .done (List.getElem?_eq_none (Nat.le_trans hr.length_le hf))
  | succ fuel ih =>
    simp only [readHeads, runs_bind, runs_get, existsAndEq, true_and] at h
    split at h
    · next hnone =>
      obtain ⟨rfl, rfl⟩ := runs_pure.mp h
      exact .done hnone
    · next head hhead =>
      simp only [readFlow, runs_bind, runs_pure] at h
      obtain ⟨_, s, ⟨es, _, hes, rfl, rfl⟩, ss, _, h, rfl, rfl⟩ := h
      have hes := readsFlow_of_runs (fuelFor_flow ..) hes
      exact .next hhead hes (ih (hes.keeps (kept_heads g) hr) (by omega) h)

/-- The flow from the start, and the sequences that transitions lead to. -/
structure ReadsGraph (g : Graph) (meets : List Nat → Option Nat → Prop) (start : Node)
    (first : List Element) (rest : List Sequence) (r r' : Reading) : Prop where
  flow : ReadsFlow g meets {} (g.successors start.id) none first r
  heads : ReadsHeads g meets r 0 rest r'

/-- Reading a graph back ends. -/
theorem readsGraph {start : Node} (h : g.named? startName = some start) :
    ∃ first rest r r', ReadsGraph g (Joins g) start first rest r r' ∧
      g.readback.sequences = ⟨first, 0, 0⟩ :: rest := by
  have hr := runs_run (readAll g start) {}
  simp only [readAll, readFlow, runs_bind, runs_pure] at hr
  obtain ⟨_, r, ⟨first, _, hfirst, rfl, rfl⟩, rest, r', hrest, hss, -⟩ := hr
  have hfirst := readsFlow_of_runs (fuelFor_flow ..) hfirst
  have hheads := hfirst.keeps (kept_heads g) (heads_empty g)
  refine ⟨first, rest, r, r', ⟨hfirst, readsHeads_of_runs hheads (by omega) hrest⟩, ?_⟩
  simp only [readback, h]
  exact hss

end Pipework.Graph
