import Pipework.Proofs.Token.Misreading

/-! How a fault is shown in its text. Its line and its column lead back to its offset, and the lines
that are shown can be cut out of the text by bytes: no part is taken that ends outside of the text
or inside a character. -/

namespace Pipework

namespace Text

/-! ## Lines -/

/-- The lines of a text, of which every one but the last ends with a newline. -/
def lines (cs : List Char) : List (List Char) := cs.splitOn '\n'

/-- How long lines are with their newlines. -/
def linesLength (ls : List (List Char)) : Nat := (ls.map fun l => byteLength l + 1).sum

/-- The byte offset at a column of a line, where a line has one column more than characters. -/
def offsetAt? (cs : List Char) : Nat → Nat → Option Nat
  | line + 1, column + 1 => do
    let characters ← (lines cs)[line]?
    if column ≤ characters.length then
      some (linesLength ((lines cs).take line) + byteLength (characters.take column))
    else none
  | _, _ => none

variable {cs front last after : List Char}

theorem lines_cons (c : Char) (cs : List Char) :
    lines (c :: cs) = if c = '\n' then [] :: lines cs else (lines cs).modifyHead (c :: ·) := by
  rw [lines, List.splitOn_cons_eq_if_modifyHead, lines]
  simp

/-- A text has one line more than newlines, and as many bytes as its lines, of which the last has no
newline. -/
theorem lines_measured (cs : List Char) :
    (lines cs).length = cs.count '\n' + 1 ∧ linesLength (lines cs) = byteLength cs + 1 := by
  induction cs with
  | nil => exact ⟨rfl, rfl⟩
  | cons c cs ih =>
    obtain ⟨l, ls, hl⟩ := List.exists_cons_of_ne_nil (List.splitOn_ne_nil '\n' cs)
    rw [show lines cs = l :: ls from hl] at ih
    rw [lines_cons, show lines cs = l :: ls from hl]
    simp only [linesLength, List.length_cons, List.map_cons, List.sum_cons] at ih
    by_cases hc : c = '\n'
    · subst hc
      have hsize : '\n'.utf8Size = 1 := by decide
      simp only [if_true, linesLength, List.length_cons, List.map_cons, List.sum_cons,
        List.count_cons_self, byteLength_nil, byteLength_cons]
      omega
    · simp only [if_neg hc, List.modifyHead_cons, linesLength, List.length_cons, List.map_cons,
        List.sum_cons, List.count_cons_of_ne hc, byteLength_cons]
      omega

theorem newline_notMem_untilNewline (cs : List Char) : '\n' ∉ untilNewline cs := by
  intro hmem
  have := List.mem_takeWhile_imp hmem
  simp at this

theorem newline_notMem_lastLine (cs : List Char) : '\n' ∉ lastLine cs := by
  rw [lastLine, List.mem_reverse]
  exact newline_notMem_untilNewline _

theorem untilNewline_append (h : '\n' ∉ front) :
    untilNewline (front ++ after) = front ++ untilNewline after := by
  refine List.takeWhile_append_of_pos fun c hc => ?_
  exact bne_iff_ne.mpr fun he => h (he ▸ hc)

/-- Behind the first line is nothing, or a newline. -/
theorem exists_untilNewline (cs : List Char) :
    cs = untilNewline cs ∨ ∃ rest, cs = untilNewline cs ++ '\n' :: rest := by
  have hsplit : untilNewline cs ++ cs.dropWhile (· != '\n') = cs := List.takeWhile_append_dropWhile
  have hhead := List.head?_dropWhile_not (· != '\n') cs
  cases hdrop : cs.dropWhile (· != '\n') with
  | nil =>
    rw [hdrop, List.append_nil] at hsplit
    exact .inl hsplit.symm
  | cons c rest =>
    rw [hdrop] at hsplit hhead
    obtain rfl : c = '\n' := by simpa using hhead
    exact .inr ⟨rest, hsplit.symm⟩

/-- Before the last line is nothing, or a newline. -/
theorem exists_lastLine (cs : List Char) :
    cs = lastLine cs ∨ ∃ front, cs = front ++ '\n' :: lastLine cs := by
  rcases exists_untilNewline cs.reverse with h | ⟨rest, h⟩
  · left
    rw [lastLine, ← h, List.reverse_reverse]
  · right
    refine ⟨rest.reverse, ?_⟩
    have hback := congrArg List.reverse h
    rw [List.reverse_reverse] at hback
    rw [lastLine]
    simpa using hback

theorem lines_of_notMem (h : '\n' ∉ cs) : lines cs = [cs] := List.splitOn_eq_singleton h

theorem exists_lines (cs : List Char) : ∃ ls, lines cs = untilNewline cs :: ls := by
  rcases exists_untilNewline cs with h | ⟨rest, h⟩
  · rw [lines_of_notMem (h ▸ newline_notMem_untilNewline cs)]
    exact ⟨[], by rw [← h]⟩
  · refine ⟨lines rest, ?_⟩
    conv => lhs; rw [h]
    exact List.splitOn_append_cons_self_of_not_mem (newline_notMem_untilNewline cs) rest

/-- The lines of a text that is cut in two: those that end before the cut, and the one that the cut
is in. -/
theorem exists_lines_append (front after : List Char) : ∃ before ls,
    lines (front ++ after) = before ++ (lastLine front ++ untilNewline after) :: ls ∧
      before.length = front.count '\n' ∧
        linesLength before + byteLength (lastLine front) = byteLength front := by
  have hline : untilNewline (lastLine front ++ after) = lastLine front ++ untilNewline after :=
    untilNewline_append (newline_notMem_lastLine front)
  obtain ⟨ls, hls⟩ := exists_lines (lastLine front ++ after)
  rw [hline] at hls
  have hcount : (lastLine front).count '\n' = 0 :=
    List.count_eq_zero.mpr (newline_notMem_lastLine front)
  rcases exists_lastLine front with h | ⟨start, h⟩
  · refine ⟨[], ls, ?_, ?_, ?_⟩
    · conv => lhs; rw [h]
      exact hls
    · rw [h, hcount, List.length_nil]
    · rw [← h, linesLength, List.map_nil, List.sum_nil, Nat.zero_add]
  · obtain ⟨hlength, hbytes⟩ := lines_measured start
    refine ⟨lines start, ls, ?_, ?_, ?_⟩
    · conv => lhs; rw [h]
      rw [List.append_assoc, List.cons_append, lines, List.splitOn_append_cons_self]
      exact congrArg (lines start ++ ·) hls
    · conv => rhs; rw [h]
      rw [List.count_append, List.count_cons_self, hcount, hlength]
    · have hsize : '\n'.utf8Size = 1 := by decide
      have hwhole := congrArg byteLength h
      rw [byteLength_append, byteLength_cons] at hwhole
      omega

/-! ## Offsets of newlines -/

/-- Where the first newline is. -/
def firstNewline? : List Char → Option Nat
  | [] => none
  | c :: cs => if c = '\n' then some 0 else (firstNewline? cs).map (c.utf8Size + ·)

/-- Where the last newline is. -/
def lastNewline? : List Char → Option Nat
  | [] => none
  | c :: cs => (lastNewline? cs).map (c.utf8Size + ·) <|> if c = '\n' then some 0 else none

theorem firstNewline?_of_notMem (h : '\n' ∉ cs) : firstNewline? cs = none := by
  induction cs with
  | nil => rfl
  | cons c cs ih =>
    rw [List.mem_cons, not_or] at h
    rw [firstNewline?, if_neg (Ne.symm h.1), ih h.2, Option.map_none]

theorem firstNewline?_append (h : '\n' ∉ front) :
    firstNewline? (front ++ '\n' :: after) = some (byteLength front) := by
  induction front with
  | nil => rfl
  | cons c front ih =>
    rw [List.mem_cons, not_or] at h
    rw [List.cons_append, firstNewline?, if_neg (Ne.symm h.1), ih h.2, Option.map_some,
      byteLength_cons]

theorem lastNewline?_of_notMem (h : '\n' ∉ cs) : lastNewline? cs = none := by
  induction cs with
  | nil => rfl
  | cons c cs ih =>
    rw [List.mem_cons, not_or] at h
    rw [lastNewline?, ih h.2, if_neg (Ne.symm h.1), Option.map_none]
    rfl

theorem lastNewline?_append (h : '\n' ∉ last) :
    lastNewline? (front ++ '\n' :: last) = some (byteLength front) := by
  induction front with
  | nil => rw [List.nil_append, lastNewline?, lastNewline?_of_notMem h]; rfl
  | cons c front ih =>
    rw [List.cons_append, lastNewline?, ih, Option.map_some, byteLength_cons]
    rfl

/-- The first line ends at the first newline, or else with the text. -/
theorem firstNewline?_getD (cs : List Char) :
    (firstNewline? cs).getD (byteLength cs) = byteLength (untilNewline cs) := by
  rcases exists_untilNewline cs with h | ⟨rest, h⟩
  · rw [firstNewline?_of_notMem (h ▸ newline_notMem_untilNewline cs), Option.getD_none, ← h]
  · conv => lhs; rw [h, firstNewline?_append (newline_notMem_untilNewline cs)]
    rfl

/-- The last line starts behind the last newline, or else with the text. -/
theorem exists_head (cs : List Char) : ∃ head, cs = head ++ lastLine cs ∧
    ((lastNewline? cs).map (· + 1)).getD 0 = byteLength head := by
  rcases exists_lastLine cs with h | ⟨front, h⟩
  · refine ⟨[], h, ?_⟩
    rw [h, lastNewline?_of_notMem (newline_notMem_lastLine cs)]
    rfl
  · refine ⟨front ++ ['\n'], by simpa using h, ?_⟩
    rw [h, lastNewline?_append (newline_notMem_lastLine cs), byteLength_append]
    rfl

end Text

namespace Fault

open Text Token

/-! ## Showing a fault by bytes

All places are byte offsets here. A part of a text cannot be taken from behind where it ends, outside
of the text or inside a character, and no number is taken away from a smaller one. -/

def part? (cs : List Char) (start stop : Nat) : Option (List Char) :=
  if start ≤ stop then slice? cs start stop else none

def minus? (m n : Nat) : Option Nat := if n ≤ m then some (m - n) else none

/-- The text up to the fault, or up to its end if the fault is not between characters of it. -/
def textBefore (f : Fault) : List Char :=
  let source := f.expression.toList
  (part? source 0 (min f.offset (byteLength source))).getD source

def columnByBytes? (f : Fault) : Option Nat :=
  match lastNewline? f.textBefore with
  | some newline =>
    (part? f.textBefore (newline + 1) (byteLength f.textBefore)).map fun cs => cs.length + 1
  | none => some (f.textBefore.length + 1)

def excerptByBytes? (f : Fault) : Option String := do
  let source := f.expression.toList
  let start := ((lastNewline? f.textBefore).map (· + 1)).getD 0
  let rest ← part? source start (byteLength source)
  let stop := ((firstNewline? rest).map (start + ·)).getD (byteLength source)
  let line ← part? source start stop
  let indent ← minus? (← f.columnByBytes?) 1
  return String.ofList (line ++ '\n' :: List.replicate indent ' ' ++ ['^'])

theorem part?_append (before part after : List Char) :
    part? (before ++ (part ++ after)) (byteLength before) (byteLength before + byteLength part) =
      some part := by
  rw [part?, if_pos (Nat.le_add_right ..), slice?_append]

theorem textBefore_eq (f : Fault) : f.textBefore = f.split.1 := by
  have hpart : ∀ n, part? f.expression.toList 0 n =
      (splitAtByte? n f.expression.toList).map Prod.fst := by
    intro n
    rw [part?, if_pos (Nat.zero_le n), slice?, splitAtByte?]
    simp only [Option.bind_eq_bind, Option.bind_some, Nat.sub_zero]
    cases splitAtByte? n f.expression.toList <;> rfl
  rw [textBefore, hpart, Fault.split]
  by_cases hle : f.offset ≤ byteLength f.expression.toList
  · rw [Nat.min_eq_left hle]
    cases splitAtByte? f.offset f.expression.toList <;> rfl
  · have hnone : splitAtByte? f.offset f.expression.toList = none := by
      cases hsplit : splitAtByte? f.offset f.expression.toList with
      | none => rfl
      | some p =>
        obtain ⟨hwhole, hlength⟩ := splitAtByte?_eq_some hsplit
        have := congrArg byteLength hwhole
        rw [byteLength_append] at this
        omega
    have hall := splitAtByte?_byteLength f.expression.toList []
    rw [List.append_nil] at hall
    rw [Nat.min_eq_right (Nat.le_of_not_le hle), hall, hnone]
    rfl

theorem columnByBytes?_eq (f : Fault) : f.columnByBytes? = some f.column := by
  rw [columnByBytes?, textBefore_eq, column]
  rcases exists_lastLine f.split.1 with h | ⟨front, h⟩
  · have hnone : lastNewline? f.split.1 = none := by
      rw [h]
      exact lastNewline?_of_notMem (newline_notMem_lastLine f.split.1)
    rw [hnone, ← h]
  · have hnewline : lastNewline? f.split.1 = some (byteLength front) := by
      conv => lhs; rw [h]
      exact lastNewline?_append (newline_notMem_lastLine f.split.1)
    have hpart := part?_append (front ++ ['\n']) (lastLine f.split.1) []
    have hsize : '\n'.utf8Size = 1 := by decide
    rw [List.append_nil, List.append_assoc, List.singleton_append, ← h, byteLength_append,
      byteLength_cons, hsize, byteLength_nil] at hpart
    have hlength := congrArg byteLength h
    rw [byteLength_append, byteLength_cons, hsize, ← Nat.add_assoc] at hlength
    rw [hnewline]
    simp only
    rw [hlength, hpart, Option.map_some]

theorem excerptByBytes?_eq (f : Fault) : f.excerptByBytes? = some f.excerpt := by
  obtain ⟨head, hhead, hstart⟩ := exists_head f.split.1
  have hsource : f.expression.toList = head ++ (lastLine f.split.1 ++ f.split.2) := by
    rw [← List.append_assoc, ← hhead, split_append]
  have hline : untilNewline (lastLine f.split.1 ++ f.split.2) =
      lastLine f.split.1 ++ untilNewline f.split.2 :=
    untilNewline_append (newline_notMem_lastLine f.split.1)
  generalize hrest : lastLine f.split.1 ++ f.split.2 = rest at hsource hline
  -- The line ends at a newline behind the fault, or with the text.
  have hstop : ((firstNewline? rest).map (byteLength head + ·)).getD (byteLength (head ++ rest)) =
      byteLength head + byteLength (untilNewline rest) := by
    rw [← firstNewline?_getD, byteLength_append]
    cases firstNewline? rest <;> rfl
  have htail := part?_append head rest []
  rw [List.append_nil, ← byteLength_append] at htail
  have hpart : part? (head ++ rest) (byteLength head)
      (byteLength head + byteLength (untilNewline rest)) = some (untilNewline rest) := by
    have := part?_append head (untilNewline rest) (rest.dropWhile (· != '\n'))
    rwa [untilNewline, List.takeWhile_append_dropWhile] at this
  have hindent : minus? f.column 1 = some (lastLine f.split.1).length := by
    rw [minus?, column, if_pos (Nat.le_add_left ..), Nat.add_sub_cancel]
  have hshown : f.excerpt = String.ofList
      (untilNewline rest ++ '\n' :: List.replicate (lastLine f.split.1).length ' ' ++ ['^']) := by
    rw [hline]
    rfl
  simp only [excerptByBytes?, textBefore_eq, hstart, hsource, htail, Option.bind_eq_bind,
    Option.bind_some, hstop, hpart, columnByBytes?_eq, hindent, hshown]
  rfl

/-! ## The place of a fault -/

/-- The fault is found again where its line and its column say, and its line is the one shown. -/
structure IsFound (f : Fault) : Prop where
  offset : offsetAt? f.expression.toList f.line f.column = some f.offset
  excerpt : ∃ line, (lines f.expression.toList)[f.line - 1]? = some line ∧
    f.column ≤ line.length + 1 ∧
      f.excerpt = String.ofList (line ++ '\n' :: List.replicate (f.column - 1) ' ' ++ ['^'])

theorem found_of_isBoundary {f : Fault} (h : IsBoundary f.expression.toList f.offset) :
    f.IsFound := by
  obtain ⟨front, after, hsource, hoffset⟩ := h
  have hsplit : f.split = (front, after) := by
    rw [Fault.split, hsource, ← hoffset, splitAtByte?_byteLength, Option.getD_some]
  obtain ⟨before, ls, hlines, hcount, hbytes⟩ := exists_lines_append front after
  have hget : (lines f.expression.toList)[front.count '\n']? =
      some (lastLine front ++ untilNewline after) := by
    rw [hsource, hlines, ← hcount, List.getElem?_append_right (Nat.le_refl _), Nat.sub_self]
    rfl
  have hline : f.line = front.count '\n' + 1 := by rw [line, hsplit]
  have hcolumn : f.column = (lastLine front).length + 1 := by rw [column, hsplit]
  constructor
  · have htake : (lines f.expression.toList).take (front.count '\n') = before := by
      rw [hsource, hlines, ← hcount, List.take_left]
    rw [hline, hcolumn, offsetAt?, hget, htake, Option.bind_eq_bind, Option.bind_some,
      if_pos (by simp), List.take_left, hbytes, hoffset]
  · rw [hline, hcolumn]
    refine ⟨_, hget, by simp, ?_⟩
    simp only [excerpt, hsplit, Nat.add_sub_cancel]

/-- Wherever a fault lies, it is shown without a part of the text that cannot be taken; and if it
lies between characters, it is found again. -/
theorem located (f : Fault) : (IsBoundary f.expression.toList f.offset → f.IsFound) ∧
    f.line = f.textBefore.count '\n' + 1 ∧ f.columnByBytes? = some f.column ∧
      f.excerptByBytes? = some f.excerpt := by
  refine ⟨found_of_isBoundary, ?_, columnByBytes?_eq f, excerptByBytes?_eq f⟩
  rw [line, textBefore_eq]

/-- A fault behind characters of two bytes, on the second line, and one inside such a character. -/
theorem located_wide : ∃ f g : Fault, f.expression = "é\nfé: x\n" ∧ f.offset = 6 ∧ f.IsFound ∧
    f.line = 2 ∧ f.column = 3 ∧ f.excerpt = "fé: x\n  ^" ∧
      g.expression = "é\nfé: x\n" ∧ g.offset = 5 ∧ g.line = 3 ∧ g.columnByBytes? = some 1 ∧
        g.excerptByBytes? = some "\n^" := by
  have hbound : IsBoundary "é\nfé: x\n".toList 6 := ⟨['é', '\n', 'f', 'é'], [':', ' ', 'x', '\n'],
    by decide +kernel, by decide +kernel⟩
  refine ⟨⟨"é\nfé: x\n", 6, .taskMoreInput, [], none, []⟩,
    ⟨"é\nfé: x\n", 5, .taskMoreInput, [], none, []⟩, rfl, rfl, (located _).1 hbound,
    by decide +kernel, by decide +kernel, by decide +kernel, rfl, rfl, by decide +kernel, ?_, ?_⟩
  · rw [(located _).2.2.1]
    decide +kernel
  · rw [(located _).2.2.2]
    decide +kernel

end Fault

end Pipework
