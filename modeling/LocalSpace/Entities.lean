import LocalSpace.Library.Replacing

/-!
# Entities

`gateway.rs`: the entities of a page are decoded one after another, each wherever it stands in the
text that the ones before have left (`decode_entities`). The ampersand comes before the others, so
that what was escaped once can be decoded twice: a text that holds an entity is not what is read
when it was escaped.
-/

namespace LocalSpace

namespace Net

open Library

/-! ### Decoding -/

/-- `decode_entities`: whole-text replacements, in the source's order. -/
def decodeEntities (s : List Char) : List Char :=
  replaceAll "&apos;".toList ['\''] <| replaceAll "&#39;".toList ['\''] <|
    replaceAll "&quot;".toList ['"'] <| replaceAll "&gt;".toList ['>'] <|
    replaceAll "&lt;".toList ['<'] <| replaceAll "&amp;".toList ['&'] <|
    replaceAll "&nbsp;".toList [' '] s

/-- A text with its markup escaped, the ampersand first. -/
def escape (t : List Char) : List Char :=
  replaceAll ['\''] "&#39;".toList <| replaceAll ['"'] "&quot;".toList <|
    replaceAll ['>'] "&gt;".toList <| replaceAll ['<'] "&lt;".toList <|
    replaceAll ['&'] "&amp;".toList t

/-! ### The entities after the ampersand -/

inductive Entity where
  | lt | gt | quot | number | apos
  deriving DecidableEq

namespace Entity

/-- What stands after the ampersand. -/
@[grind =]
def tail : Entity → List Char
  | lt => ['l', 't', ';']
  | gt => ['g', 't', ';']
  | quot => ['q', 'u', 'o', 't', ';']
  | number => ['#', '3', '9', ';']
  | apos => ['a', 'p', 'o', 's', ';']

@[grind =]
def text (e : Entity) : List Char :=
  '&' :: e.tail

@[grind =]
def char : Entity → Char
  | lt => '<'
  | gt => '>'
  | quot => '"'
  | number | apos => '\''

/-- The entity a character is escaped by. -/
@[grind =]
def ofChar (c : Char) : Option Entity :=
  if c = '<' then some lt
  else if c = '>' then some gt
  else if c = '"' then some quot
  else if c = '\'' then some number
  else none

variable {e f : Entity} {c : Char} {l : List Char}

/-- The characters of entities' names stand for themselves. -/
theorem tail_plain (h : c ∈ e.tail) : c ≠ '&' ∧ ∀ f : Entity, c ≠ f.char := by
  have hplain : ∀ c ∈ e.tail, c ∉ ['&', '<', '>', '"', '\''] := by
    cases e <;> simp [tail]
  have hchar : ∀ f : Entity, f.char ∈ ['&', '<', '>', '"', '\''] := fun f => by
    cases f <;> decide
  refine ⟨fun heq => hplain c h (heq ▸ List.mem_cons_self), fun f heq => hplain c h ?_⟩
  rw [heq]
  exact hchar f

theorem amp_notMem_tail (e : Entity) : '&' ∉ e.tail := fun h => (tail_plain h).1 rfl

theorem char_ne_amp (e : Entity) : e.char ≠ '&' := by
  cases e <;> decide

/-- Entities differ in the first letter of their names. -/
theorem not_prefix (h : e ≠ f) : ¬e.text <+: f.text ++ l := by
  intro hbegins
  have htail := (List.cons_prefix_cons.mp hbegins).2
  cases e <;> cases f <;> first
    | exact h rfl
    | exact absurd (List.cons_prefix_cons.mp htail).1 (by decide)

theorem ofChar_char (h : ofChar c = some e) : e.char = c := by
  simp only [ofChar] at h
  split_ifs at h with h1 h2 h3 h4 <;> (cases h; simp [char, *])

end Entity

/-! ### A text as it is decoded, entity by entity -/

/-- A piece of a text: an entity that it holds, or a character. -/
inductive Token where
  | entity (e : Entity)
  | plain (c : Char)

namespace Token

/-- The piece as it stands in the text. -/
@[grind =]
def text : Token → List Char
  | entity e => e.text
  | plain c => [c]

/-- The entity that is still to be decoded for a piece, once its text was escaped. -/
def pending : Token → Option Entity
  | entity e => some e
  | plain c => Entity.ofChar c

/-- The character that is read in the end. -/
@[grind =]
def char : Token → Char
  | entity e => e.char
  | plain c => c

/-- The piece when some entities are decoded. -/
@[grind =]
def render (decoded : Entity → Bool) (k : Token) : List Char :=
  match k.pending with
  | some e => if decoded e then [k.char] else e.text
  | none => [k.char]

end Token

/-- The text of some pieces. -/
@[grind =]
def textOf (ks : List Token) : List Char :=
  ks.flatMap Token.text

def renderAll (decoded : Entity → Bool) (ks : List Token) : List Char :=
  ks.flatMap (Token.render decoded)

/-- No entity is cut: a text's own ampersand does not begin one. -/
def Whole : List Token → Prop
  | [] => True
  | .plain c :: ks => (∀ e : Entity, ¬e.text <+: c :: textOf ks) ∧ Whole ks
  | .entity _ :: ks => Whole ks

/-- Every text is cut into its entities and characters. -/
theorem exists_whole (t : List Char) : ∃ ks, textOf ks = t ∧ Whole ks := by
  induction h : t.length using Nat.strong_induction_on generalizing t with
  | h n ih =>
    subst h
    cases t with
    | nil => exact ⟨[], rfl, trivial⟩
    | cons c l =>
      by_cases hentity : ∃ e : Entity, e.text <+: c :: l
      · obtain ⟨e, rest, hrest⟩ := hentity
        have hshort : rest.length < (c :: l).length := by
          rw [← hrest, Entity.text, List.length_append, List.length_cons]
          omega
        obtain ⟨ks, htext, hwhole⟩ := ih _ hshort rest rfl
        refine ⟨.entity e :: ks, ?_, hwhole⟩
        rw [← hrest, ← htext]
        rfl
      · obtain ⟨ks, htext, hwhole⟩ := ih _ (Nat.lt_succ_self l.length) l rfl
        refine ⟨.plain c :: ks, ?_, fun e hbegins => hentity ⟨e, htext ▸ hbegins⟩, hwhole⟩
        rw [← htext]
        rfl

section Rendering

variable {decoded : Entity → Bool} {k : Token} {ks : List Token} {e : Entity} {q : List Char}

theorem pending_char (h : k.pending = some e) : k.char = e.char := by
  cases k with
  | entity f =>
    cases h
    rfl
  | plain c => exact (Entity.ofChar_char h).symm

/-- A name's characters in what is rendered are characters of the text. -/
theorem prefix_text (hq : ∀ c ∈ q, c ≠ '&' ∧ ∀ f : Entity, c ≠ f.char)
    (h : q <+: renderAll decoded ks) : q <+: textOf ks := by
  induction q generalizing ks with
  | nil => exact List.nil_prefix
  | cons c q ih =>
    obtain ⟨hamp, hchar⟩ := hq c List.mem_cons_self
    cases ks with
    | nil => exact absurd h.length_le (by simp [renderAll])
    | cons k ks =>
      change c :: q <+: k.render decoded ++ renderAll decoded ks at h
      rw [Token.render] at h
      cases hpending : k.pending with
      | some e =>
        -- What is escaped is an ampersand, or the character of an entity.
        rw [hpending] at h
        dsimp only at h
        split at h
        · exact absurd (List.cons_prefix_cons.mp h).1 (pending_char hpending ▸ hchar e)
        · exact absurd (List.cons_prefix_cons.mp h).1 hamp
      | none =>
        rw [hpending] at h
        obtain ⟨rfl, hrest⟩ := List.cons_prefix_cons.mp h
        have htail := ih (fun c hc => hq c (List.mem_cons_of_mem _ hc)) hrest
        cases k with
        | entity e => cases hpending
        | plain c => exact List.cons_prefix_cons.mpr ⟨rfl, htail⟩

/-- **One entity is decoded**, wherever it is pending. -/
theorem replaceAll_renderAll (hwhole : Whole ks) (he : decoded e = false) :
    replaceAll e.text [e.char] (renderAll decoded ks) =
      renderAll (Function.update decoded e true) ks := by
  induction ks with
  | nil => exact replaceAll_nil
  | cons k ks ih =>
    have hrest : Whole ks := by
      cases k with
      | entity f => exact hwhole
      | plain c => exact hwhole.2
    change replaceAll e.text [e.char] (k.render decoded ++ renderAll decoded ks) =
      k.render (Function.update decoded e true) ++ renderAll (Function.update decoded e true) ks
    rw [Token.render, Token.render]
    cases hpending : k.pending with
    | some f =>
      dsimp only
      rw [pending_char hpending]
      by_cases hf : f = e
      · subst hf
        have hne : f.text ≠ [] := List.cons_ne_nil _ _
        rw [he, if_neg Bool.false_ne_true, replaceAll_pattern_append hne, Function.update_self,
          if_pos rfl, ih hrest]
      · rw [Function.update_of_ne hf]
        split
        · rw [List.singleton_append, Entity.text, replaceAll_cons_of_ne f.char_ne_amp, ← Entity.text,
            ih hrest]
          rfl
        · have hnot : ¬e.text <+: '&' :: (f.tail ++ renderAll decoded ks) :=
            Entity.not_prefix (Ne.symm hf)
          change replaceAll e.text [e.char] ('&' :: (f.tail ++ renderAll decoded ks)) =
            '&' :: (f.tail ++ renderAll (Function.update decoded e true) ks)
          rw [replaceAll_cons hnot, ← ih hrest, Entity.text,
            replaceAll_append_of_notMem f.amp_notMem_tail]
    | none =>
      cases k with
      | entity f => cases hpending
      | plain c =>
        have hnot : ¬e.text <+: c :: renderAll decoded ks := fun hbegins => by
          obtain ⟨rfl, htail⟩ := List.cons_prefix_cons.mp hbegins
          exact hwhole.1 e (List.cons_prefix_cons.mpr
            ⟨rfl, prefix_text (fun c hc => Entity.tail_plain hc) htail⟩)
        exact (replaceAll_cons hnot).trans (congrArg (c :: ·) (ih hrest))

end Rendering

/-! ### What is escaped -/

/-- A character of markup, escaped; the ampersand stays. -/
@[grind =]
def markup (c : Char) : List Char :=
  ((Entity.ofChar c).map Entity.text).getD [c]

/-- How a character is escaped. -/
@[grind =]
def escaped (c : Char) : List Char :=
  if c = '&' then "&amp;".toList else markup c

theorem escape_eq (t : List Char) : escape t = t.flatMap escaped := by
  simp only [escape, replaceAll_singleton, List.flatMap_assoc]
  congr 1
  funext c
  by_cases hamp : c = '&'
  · subst hamp
    decide
  · by_cases hlt : c = '<'
    · subst hlt
      decide
    · by_cases hgt : c = '>'
      · subst hgt
        decide
      · by_cases hquot : c = '"'
        · subst hquot
          decide
        · by_cases hapos : c = '\''
          · subst hapos
            decide
          · simp only [escaped, markup, Entity.ofChar, hamp, hlt, hgt, hquot, hapos, if_false,
              List.flatMap_cons, List.flatMap_nil, List.append_nil, Option.map_none,
              Option.getD_none]

section Stages

variable {name new l t : List Char} {c : Char}

/-- An entity of another name is not decoded. -/
theorem replaceAll_text {e : Entity} (h : ∀ l, ¬name <+: e.tail ++ l) :
    replaceAll ('&' :: name) new (e.text ++ l) = e.text ++ replaceAll ('&' :: name) new l := by
  have hnot : ¬ '&' :: name <+: '&' :: (e.tail ++ l) := fun hbegins =>
    h l (List.cons_prefix_cons.mp hbegins).2
  change replaceAll _ new ('&' :: (e.tail ++ l)) = '&' :: (e.tail ++ _)
  rw [replaceAll_cons hnot, replaceAll_append_of_notMem e.amp_notMem_tail]

theorem replaceAll_markup (h : ∀ (e : Entity) l, ¬name <+: e.tail ++ l) (hc : c ≠ '&') :
    replaceAll ('&' :: name) new (markup c ++ l) =
      markup c ++ replaceAll ('&' :: name) new l := by
  rw [markup]
  cases Entity.ofChar c with
  | none => exact replaceAll_cons_of_ne hc
  | some e => exact replaceAll_text (h e)

theorem nbsp_not_prefix (e : Entity) (l : List Char) :
    ¬"nbsp;".toList <+: e.tail ++ l := by
  cases e <;> simp [Entity.tail]

theorem amp_not_prefix (e : Entity) (l : List Char) :
    ¬"amp;".toList <+: e.tail ++ l := by
  cases e <;> simp [Entity.tail]

/-- The no-break space is not in what was escaped. -/
theorem replaceAll_nbsp (t : List Char) :
    replaceAll "&nbsp;".toList [' '] (t.flatMap escaped) = t.flatMap escaped := by
  induction t with
  | nil => exact replaceAll_nil
  | cons c t ih =>
    rw [List.flatMap_cons, escaped]
    split
    · have hnot : ¬"nbsp;".toList <+: "amp;".toList ++ t.flatMap escaped := by
        simp
      have hmem : '&' ∉ "amp;".toList := by
        decide
      change replaceAll ('&' :: "nbsp;".toList) [' ']
        ('&' :: ("amp;".toList ++ t.flatMap escaped)) = _
      rw [replaceAll_cons fun hbegins => hnot (List.cons_prefix_cons.mp hbegins).2,
        replaceAll_append_of_notMem hmem]
      exact congrArg ("&amp;".toList ++ ·) ih
    · rename_i hc
      exact (replaceAll_markup nbsp_not_prefix hc).trans (congrArg (markup c ++ ·) ih)

/-- The ampersand is decoded, and with it the entities that the text held begin again. -/
theorem replaceAll_amp (t : List Char) :
    replaceAll "&amp;".toList ['&'] (t.flatMap escaped) = t.flatMap markup := by
  induction t with
  | nil => exact replaceAll_nil
  | cons c t ih =>
    rw [List.flatMap_cons, List.flatMap_cons, escaped]
    split
    · rename_i hc
      subst hc
      have hne : "&amp;".toList ≠ [] := by
        decide
      rw [replaceAll_pattern_append hne, ih]
      rfl
    · rename_i hc
      exact (replaceAll_markup amp_not_prefix hc).trans (congrArg (markup c ++ ·) ih)

/-- A text's pieces, none of them decoded. -/
theorem flatMap_markup (ks : List Token) :
    (textOf ks).flatMap markup = renderAll (fun _ => false) ks := by
  have hkeep : ∀ l : List Char, (∀ c ∈ l, ∀ f : Entity, c ≠ f.char) → l.flatMap markup = l := by
    intro l hl
    induction l with
    | nil => rfl
    | cons c l ih =>
      have hnone : Entity.ofChar c = none := by
        cases hof : Entity.ofChar c with
        | none => rfl
        | some e =>
          exact absurd (Entity.ofChar_char hof).symm (hl c List.mem_cons_self e)
      rw [List.flatMap_cons, markup, hnone, ih fun c hc => hl c (List.mem_cons_of_mem _ hc)]
      rfl
  induction ks with
  | nil => rfl
  | cons k ks ih =>
    change (k.text ++ textOf ks).flatMap markup = k.render _ ++ renderAll _ ks
    rw [List.flatMap_append, ih]
    congr 1
    cases k with
    | entity e =>
      change markup '&' ++ e.tail.flatMap markup = e.text
      rw [hkeep e.tail fun c hc => (Entity.tail_plain hc).2]
      rfl
    | plain c =>
      change markup c ++ [] = _
      rw [List.append_nil, markup, Token.render, Token.pending]
      cases Entity.ofChar c <;> rfl

end Stages

/-! ### What is read when a text was escaped -/

/-- Everything is decoded. -/
theorem renderAll_true (ks : List Token) : renderAll (fun _ => true) ks = ks.map Token.char := by
  induction ks with
  | nil => rfl
  | cons k ks ih =>
    change k.render _ ++ renderAll _ ks = k.char :: ks.map Token.char
    rw [ih, Token.render]
    cases k.pending <;> rfl

/-- **What is read when a text was escaped**: the text, its entities decoded. -/
theorem decodeEntities_escape {ks : List Token} (hwhole : Whole ks) :
    decodeEntities (escape (textOf ks)) = ks.map Token.char := by
  have hall : (fun _ => true) = Function.update (Function.update (Function.update (Function.update
      (Function.update (fun _ => false) Entity.lt true) Entity.gt true) Entity.quot true)
      Entity.number true) Entity.apos true := by
    funext e
    cases e <;> rfl
  rw [← renderAll_true, hall, ← replaceAll_renderAll hwhole rfl, ← replaceAll_renderAll hwhole rfl,
    ← replaceAll_renderAll hwhole rfl, ← replaceAll_renderAll hwhole rfl,
    ← replaceAll_renderAll hwhole rfl, ← flatMap_markup, ← replaceAll_amp, decodeEntities,
    escape_eq, replaceAll_nbsp]
  rfl

theorem infix_textOf {e : Entity} {ks : List Token} (h : .entity e ∈ ks) :
    e.text <:+: textOf ks :=
  List.infix_of_mem_flatten (List.mem_map_of_mem (f := Token.text) h)

/-- An entity that a text holds is one of its pieces. -/
theorem not_infix {ks : List Token} (hwhole : Whole ks) (hplain : ∀ e, .entity e ∉ ks)
    (e : Entity) : ¬e.text <:+: textOf ks := by
  induction ks with
  | nil => exact fun h => absurd (List.infix_nil.mp h) (List.cons_ne_nil _ _)
  | cons k ks ih =>
    cases k with
    | entity f => exact absurd List.mem_cons_self (hplain f)
    | plain c =>
      intro h
      rcases List.infix_cons_iff.mp h with hbegins | hrest
      · exact hwhole.1 e hbegins
      · exact ih hwhole.2 (fun f hf => hplain f (List.mem_cons_of_mem _ hf)) hrest

theorem map_char_of_plain {ks : List Token} (hplain : ∀ e, .entity e ∉ ks) :
    ks.map Token.char = textOf ks := by
  induction ks with
  | nil => rfl
  | cons k ks ih =>
    cases k with
    | entity f => exact absurd List.mem_cons_self (hplain f)
    | plain c => exact congrArg (c :: ·) (ih fun f hf => hplain f (List.mem_cons_of_mem _ hf))

theorem length_le_textOf (ks : List Token) : ks.length ≤ (textOf ks).length := by
  induction ks with
  | nil => exact le_rfl
  | cons k ks ih =>
    have hk : 0 < k.text.length := by
      cases k <;> exact Nat.succ_pos _
    change ks.length + 1 ≤ (k.text ++ textOf ks).length
    rw [List.length_append]
    omega

/-- An entity is longer than the character it stands for. -/
theorem length_lt_textOf {e : Entity} {ks : List Token} (h : .entity e ∈ ks) :
    ks.length < (textOf ks).length := by
  obtain ⟨front, back, rfl⟩ := List.append_of_mem h
  have hfront := length_le_textOf front
  have hback := length_le_textOf back
  have htext : textOf (front ++ .entity e :: back) = textOf front ++ (e.text ++ textOf back) := by
    simp [textOf, Token.text]
  have he : 1 < e.text.length := by
    cases e <;> decide
  rw [htext]
  simp only [List.length_append, List.length_cons]
  omega

/-- **An escaped text is read as it was** exactly when it holds none of the entities that are
decoded after the ampersand. -/
theorem decode_escape_iff (t : List Char) :
    decodeEntities (escape t) = t ↔ ∀ e : Entity, ¬e.text <:+: t := by
  obtain ⟨ks, rfl, hwhole⟩ := exists_whole t
  rw [decodeEntities_escape hwhole]
  constructor
  · intro h
    refine not_infix hwhole fun e he => ?_
    have hlength := congrArg List.length h
    rw [List.length_map] at hlength
    exact absurd hlength (Nat.ne_of_lt (length_lt_textOf he))
  · intro h
    exact map_char_of_plain fun e he => h e (infix_textOf he)

/-- A text that shows an entity is not read as it was. -/
theorem entity_decoded_twice :
    ¬∀ t : List Char, '\u00a0' ∉ t → decodeEntities (escape t) = t := by
  intro h
  exact absurd (h "&lt;".toList (by decide)) (by decide)

end Net

end LocalSpace
