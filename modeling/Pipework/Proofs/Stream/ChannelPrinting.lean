import Pipework.Proofs.Parser.Printed
import Pipework.Proofs.Stream.Channel

/-! Printed channels are cut into views that spell them. -/

namespace Pipework.Stream

open Token Pipework.Parser Read

/-- White space or nothing goes on. -/
def Ends (rest : List Char) : Prop := ∀ c ∈ rest.head?, c = ' '

@[simp] theorem ends_nil : Ends [] := by simp [Ends]

theorem Ends.stopsValue {rest : List Char} (h : Ends rest) : StopsValue rest := fun c hc => by
  rw [h c hc]
  decide

theorem Ends.stopsName {name rest : List Char} (h : Ends rest) : StopsName name rest := by
  cases rest with
  | nil => trivial
  | cons c cs =>
    rw [h c rfl]
    exact stopsName_of_ne (by decide) (by decide) (by decide)

/-! ## Components -/

/-- A name, or an operator that can stand in a component. -/
def IsPart (s : String) : Prop := isWord s = true ∨ s = "*" ∨ s = "/" ∨ s = "#"

/-- A text that can be a component of a destination: names and operators with nothing between. -/
def IsComponentText (s : String) : Prop :=
  ∃ parts, parts ≠ [] ∧ (∀ p ∈ parts, IsPart p) ∧ s = String.join parts

/-- A text of parts, read from its start; `named` tells that a name was before it, with which a
hyphen can go on. -/
def isComponentText (named : Bool) : List Char → Bool
  | [] => true
  | c :: cs =>
    if Text.startsName c then isComponentText true cs
    else if c == '-' then named && isComponentText true cs
    else (c == '*' || c == '/' || c == '#') && isComponentText false cs

theorem isComponentText_append_word {word cs : List Char} {named : Bool} (hn : named = true)
    (hw : (word.all fun d => Text.startsName d || d == '-') = true) :
    isComponentText named (word ++ cs) = isComponentText true cs := by
  subst hn
  induction word with
  | nil => rfl
  | cons c word ih =>
    simp only [List.all_cons, Bool.and_eq_true, Bool.or_eq_true, beq_iff_eq] at hw
    rw [List.cons_append, isComponentText]
    obtain ⟨h | rfl, hw⟩ := hw
    · rw [if_pos h, ih hw]
    · simp [startsName_hyphen, ih hw]

theorem isComponentText_mono {cs : List Char} (h : isComponentText false cs = true) :
    isComponentText true cs = true := by
  cases cs with
  | nil => rfl
  | cons c cs =>
    simp only [isComponentText] at h ⊢
    split at h
    · rwa [if_pos ‹_›]
    · rw [if_neg ‹_›]
      split at h
      · cases h
      · rwa [if_neg ‹_›]

theorem IsPart.isComponentText_append {part : String} (hp : IsPart part) {cs : List Char}
    (h : isComponentText false cs = true) : isComponentText false (part.toList ++ cs) = true := by
  obtain hw | hop := hp
  · unfold isWord at hw
    match part.toList, hw with
    | c :: word, hw =>
      simp only [isNameWord, Bool.and_eq_true] at hw
      rw [List.cons_append, isComponentText, if_pos hw.1, isComponentText_append_word rfl hw.2]
      exact isComponentText_mono h
  · have hs : ∀ c, c = '*' ∨ c = '/' ∨ c = '#' → isComponentText false (c :: cs) = true := by
      intro c hc
      have hs : Text.startsName c = false := by
        obtain rfl | rfl | rfl := hc <;> decide
      have hm : c ≠ '-' := by obtain rfl | rfl | rfl := hc <;> decide
      simpa [isComponentText, hs, hm, h, or_assoc] using hc
    obtain rfl | rfl | rfl := hop
    · exact hs '*' (.inl rfl)
    · exact hs '/' (.inr (.inl rfl))
    · exact hs '#' (.inr (.inr rfl))

theorem IsPart.ne_nil {part : String} (hp : IsPart part) : part.toList ≠ [] := by
  obtain hw | rfl | rfl | rfl := hp
  · intro h
    rw [isWord, h] at hw
    cases hw
  all_goals decide

theorem IsComponentText.toList {text : String} (h : IsComponentText text) :
    text.toList ≠ [] ∧ isComponentText false text.toList = true := by
  obtain ⟨parts, hne, hp, rfl⟩ := h
  rw [String.toList_join]
  refine ⟨?_, ?_⟩
  · obtain ⟨p, hmem⟩ := List.exists_mem_of_ne_nil parts hne
    simpa using ⟨p, hmem, by simpa using (hp p hmem).ne_nil⟩
  · clear hne
    induction parts with
    | nil => rfl
    | cons p parts ih =>
      obtain ⟨hp, hps⟩ := List.forall_mem_cons.mp hp
      exact hp.isComponentText_append (ih hps)

/-- What goes on after a name and is no name is an operator. -/
theorem isComponentText_false {cs : List Char} (h : isComponentText true cs = true)
    (hc : ∀ c ∈ cs.head?, (Text.startsName c || c == '-') = false) :
    isComponentText false cs = true := by
  cases cs with
  | nil => rfl
  | cons c cs =>
    have hc := hc c rfl
    rw [Bool.or_eq_false_iff] at hc
    simp_all [isComponentText]

theorem isComponent_of_isName {k : Kind} (h : k.isName = true) : isComponent k = true := by
  cases k <;> simp_all [Kind.isName, isComponent]

theorem operator?_of_component {c : Char} (h : (c == '*' || c == '/' || c == '#') = true) :
    ∃ k, operator? c = some k ∧ isComponent k = true ∧ k ≠ .equals ∧ k.symbol = String.ofList [c] := by
  simp only [Bool.or_eq_true, beq_iff_eq] at h
  obtain (rfl | rfl) | rfl := h
  · exact ⟨.star, rfl, rfl, by simp, rfl⟩
  · exact ⟨.slash, rfl, rfl, by simp, rfl⟩
  · exact ⟨.hash, rfl, rfl, by simp, rfl⟩

/-- What can be after a component. -/
def StopsComponent (rest : List Char) : Prop := ∀ c ∈ rest.head?, c = ' ' ∨ c = '.'

/-- A name ends where no character of a component goes on with it. -/
theorem stopsName_component {name cs rest : List Char} (hc : isComponentText false cs = true)
    (hp : ∀ c ∈ cs.head?, (Text.startsName c || c == '-') = false) (hr : StopsComponent rest) :
    StopsName name (cs ++ rest) := by
  match cs, rest with
  | [], [] => trivial
  | [], c :: rest =>
    obtain rfl | rfl := hr c rfl <;>
      exact stopsName_of_ne (by decide) (by decide) (by decide)
  | c :: cs, _ =>
    have hp := hp c rfl
    rw [Bool.or_eq_false_iff, beq_eq_false_iff_ne] at hp
    refine stopsName_of_ne hp.1 hp.2 ?_
    rintro rfl
    simp [isComponentText, startsName_gt] at hc

theorem exists_word_append (cs : List Char) : ∃ word tail, cs = word ++ tail ∧
    (word.all fun d => Text.startsName d || d == '-') = true ∧
    ∀ d ∈ tail.head?, (Text.startsName d || d == '-') = false := by
  refine ⟨cs.takeWhile fun d => Text.startsName d || d == '-',
    cs.dropWhile fun d => Text.startsName d || d == '-', List.takeWhile_append_dropWhile.symm,
    List.all_takeWhile, fun d hd => ?_⟩
  have := List.head?_dropWhile_not (fun d => Text.startsName d || d == '-') cs
  rw [Option.mem_def.mp hd] at this
  simpa using this

theorem lexes_componentParts {cs rest : List Char} (hc : isComponentText false cs = true)
    (hr : StopsComponent rest) : ∃ vs parts, Many ComponentPart vs parts ∧
      (parts.flatMap String.toList) = cs ∧ Lexes false (cs ++ rest) vs false rest := by
  induction hn : cs.length using Nat.strongRecOn generalizing cs with
  | ind n ih =>
    subst hn
    match cs with
    | [] => exact ⟨[], [], .nil, rfl, .nil⟩
    | c :: cs =>
      by_cases hs : Text.startsName c = true
      · -- the whole name is one token, and what is left starts with an operator
        obtain ⟨word, tail, rfl, hword, htail⟩ := exists_word_append cs
        rw [isComponentText, if_pos hs, isComponentText_append_word rfl hword] at hc
        have hc := isComponentText_false hc htail
        obtain ⟨vs, parts, hm, hparts, hl⟩ := ih tail.length
          (by rw [List.length_cons, List.length_append]; omega) hc rfl
        have hname : isNameWord (c :: word) = true := by rw [isNameWord, hs, hword]; rfl
        have hpart := @ComponentPart.mk ⟨.ofName (c :: word), true, false⟩
          (isComponent_of_isName (Kind.isName_ofName _)) rfl
        rw [Kind.symbol_ofName] at hpart
        refine ⟨[⟨.ofName (c :: word), true, false⟩] ++ vs, String.ofList (c :: word) :: parts,
          .cons hpart hm, by simp [hparts], ?_⟩
        rw [← List.cons_append, List.append_assoc]
        exact (lexes_glued_name hname (stopsName_component hc htail hr)).trans hl
      · rw [isComponentText, if_neg hs] at hc
        have hm : c ≠ '-' := by
          rintro rfl
          simp at hc
        simp only [beq_iff_eq, hm, if_false, Bool.and_eq_true] at hc
        obtain ⟨k, hk, hi, hq, hsym⟩ := operator?_of_component hc.1
        obtain ⟨vs, parts, hm, hparts, hl⟩ := ih cs.length (by simp) hc.2 rfl
        refine ⟨[⟨k, true, false⟩] ++ vs, String.ofList [c] :: parts, ?_, by simp [hparts], ?_⟩
        · rw [← hsym]
          exact .cons (.mk hi rfl) hm
        · exact (lexes_glued_operator c hk (ne_eof_of_isComponent hi) hq).trans hl

theorem lexes_component {text : String} (hc : IsComponentText text) {rest : List Char}
    (hr : StopsComponent rest) : ∃ first vs, first.glued = true ∧ Component (first :: vs) text ∧
      Lexes false (text.toList ++ rest) (first :: vs) false rest := by
  obtain ⟨hne, hc⟩ := hc.toList
  obtain ⟨vs, parts, hm, hparts, hl⟩ := lexes_componentParts hc hr
  cases hm with
  | nil => exact absurd hparts.symm hne
  | @cons us ws b bs hi hm =>
    obtain @⟨v, hk, hg⟩ := hi
    refine ⟨v, ws, hg, ?_, hl⟩
    have htext : v.kind.symbol ++ String.join bs = text :=
      String.toList_injective (by simpa using hparts)
    exact htext ▸ .mk hk hm

/-! ## Channels -/

/-- A channel whose printed form is read back as that channel. -/
inductive Writable (isSource : Bool) : Channel → Prop
  | destination {text : String} {texts : List String} : (∀ t ∈ text :: texts, IsComponentText t) →
      (isSource = true → texts.length ≠ 1) →
      Writable isSource (.destination (".".intercalate (text :: texts)))
  | labelledTap {stream label : String} : isSource = true → IsComponentText stream →
      IsComponentText label → Writable isSource (.tap stream (some label))
  | tap {stream : String} {more : List String} : isSource = true →
      (∀ n ∈ stream :: more, isWord n = true) →
      Writable isSource (.tap (":".intercalate (stream :: more)) none)
  | named {kind : Channel.Kind} {name : String} {names : List String} :
      (∀ n ∈ name :: names, isWord n = true) →
      Writable isSource (.named kind (":".intercalate (name :: names)))

variable {isSource : Bool} {rest : List Char}

theorem lexes_dottedComponent {text : String} (hc : IsComponentText text)
    (hr : StopsComponent rest) : ∃ vs, DottedComponent vs text ∧
      Lexes false ('.' :: text.toList ++ rest) vs false rest := by
  obtain ⟨first, vs, hg, ht, hl⟩ := lexes_component hc hr
  exact ⟨⟨.dot, true, false⟩ :: first :: vs, .mk rfl rfl hg ht,
    (lexes_glued_operator '.' rfl (by simp) (by simp)).trans hl⟩

theorem prints_destination {text : String} {texts : List String}
    (hc : ∀ t ∈ text :: texts, IsComponentText t) (hr : Ends rest) :
    Prints (":" ++ ".".intercalate (text :: texts)).toList rest fun vs =>
      SpellsChannel isSource vs (channelOf isSource (text :: texts)) := by
  rw [List.forall_mem_cons] at hc
  obtain ⟨ws, hm, hl⟩ := lexes_many (fun t : String => '.' :: t.toList) id DottedComponent StopsComponent
    (fun t ht _ hr => lexes_dottedComponent (hc.2 t ht) hr) (by simp [StopsComponent])
    (show StopsComponent rest from fun c hc => .inl (hr c hc))
  have hs : StopsComponent (texts.flatMap (fun t => '.' :: t.toList) ++ rest) := by
    cases texts with
    | nil => exact fun c hc => .inl (hr c hc)
    | cons t ts => simp [StopsComponent]
  obtain ⟨first, vs, hg, ht, hl'⟩ := lexes_component hc.1 hs
  rw [List.map_id] at hm
  refine ⟨.colon, first :: vs ++ ws, fun _ _ => .destination rfl hg ht hm, fun e gap hgap he => ?_⟩
  rw [String.toList_append, toList_intercalate_cons]
  have := (@lexes_operator e gap _ ':' .colon rfl (by simp) (by simp) hgap he).trans (hl'.trans hl)
  simpa using this

theorem lexes_colonName {name : String} (hn : isWord name = true)
    (hr : ∀ c ∈ rest.head?, c = ' ' ∨ c = ':') : ∃ vs, ColonName vs name ∧
      Lexes false (':' :: name.toList ++ rest) vs false rest := by
  have := @ColonName.mk ⟨.colon, true, false⟩ ⟨.ofName name.toList, true, false⟩ rfl rfl
    (Kind.isName_ofName _) rfl
  rw [Kind.symbol_ofName, String.ofList_toList] at this
  refine ⟨_, this, (lexes_glued_operator ':' rfl (by simp) (by simp)).trans (lexes_glued_name hn ?_)⟩
  cases rest with
  | nil => trivial
  | cons c cs =>
    obtain rfl | rfl := hr c rfl <;>
      exact stopsName_of_ne (by decide) (by decide) (by decide)

/-- A keyword with names after it. -/
theorem prints_keyword (word : String) (names : List String) {ch : Channel}
    (hw : isWord word = true) (hid : Kind.ofName word.toList = .identifier word)
    (hn : ∀ n ∈ names, isWord n = true) (hne : names ≠ []) (hr : Ends rest)
    (hch : ∀ {v vs}, v.kind = .identifier word → Many ColonName vs names →
      SpellsChannel isSource (v :: vs) ch) :
    Prints (word.toList ++ names.flatMap fun n => ':' :: n.toList) rest fun vs =>
      SpellsChannel isSource vs ch := by
  obtain ⟨vs, hm, hl⟩ := lexes_many (fun n : String => ':' :: n.toList) id ColonName
    (fun rest => ∀ c ∈ rest.head?, c = ' ' ∨ c = ':')
    (fun n h _ hr => lexes_colonName (hn n h) hr) (by simp)
    (show ∀ c ∈ rest.head?, _ from fun c hc => .inl (hr c hc))
  rw [List.map_id] at hm
  refine ⟨.identifier word, vs, fun _ _ => hch rfl hm, fun e gap hg he => ?_⟩
  have hs : StopsName word.toList (names.flatMap (fun n => ':' :: n.toList) ++ rest) := by
    cases names with
    | nil => exact absurd rfl hne
    | cons n ns => exact stopsName_of_ne (by decide) (by decide) (by decide)
  have := (lexes_name hw hs hg he).trans hl
  rw [hid] at this
  simpa using this

theorem prints_channel {ch : Channel} (h : Writable isSource ch) (hr : Ends rest) :
    Prints ch.render.toList rest fun vs => SpellsChannel isSource vs ch := by
  cases h with
  | @destination text texts hc hl =>
    have hch : channelOf isSource (text :: texts) = .destination (".".intercalate (text :: texts)) := by
      match texts, hl with
      | [], _ | _ :: _ :: _, _ => rfl
      | [_], hl => simpa [channelOf] using fun h => hl h rfl
    have hp : Prints _ rest fun vs => SpellsChannel isSource vs (channelOf isSource (text :: texts)) :=
      prints_destination hc hr
    rwa [hch] at hp
  | @labelledTap stream label hs hst hlab =>
    subst hs
    have htext : (Channel.tap stream (some label)).render = ":" ++ ".".intercalate [stream, label] := by
      simp [Channel.render, String.append_assoc]
    rw [htext]
    exact prints_destination (List.forall_mem_cons.mpr ⟨hst, by simpa using hlab⟩) hr
  | @tap stream more hs hn =>
    have htext : (Channel.tap (":".intercalate (stream :: more)) none).render.toList =
        "tap".toList ++ ("stream" :: stream :: more).flatMap fun n => ':' :: n.toList := by
      simp [Channel.render, toList_intercalate_cons, -String.toList_intercalate]
    rw [htext]
    exact prints_keyword "tap" ("stream" :: stream :: more) (by decide) (by decide)
      (List.forall_mem_cons.mpr ⟨by decide, hn⟩) (by simp) hr fun hk hm => .tap hs hk hm
  | @named kind name names hn =>
    have htext : (Channel.named kind (":".intercalate (name :: names))).render.toList =
        kind.name.toList ++ (name :: names).flatMap fun n => ':' :: n.toList := by
      simp [Channel.render, toList_intercalate_cons, -String.toList_intercalate]
    rw [htext]
    exact prints_keyword kind.name (name :: names) (by cases kind <;> decide)
      (by cases kind <;> decide) hn (by simp) hr fun hk hm => .named hk hm (by simp)

end Pipework.Stream
