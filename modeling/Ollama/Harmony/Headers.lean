import Ollama.Harmony.Parser

/-!
# Headers of harmony messages

The headers that a model writes, and that `parseHeader` reads them.
-/

namespace Ollama.Parsers.Bytes

open Lib Utf8 List

variable {cs w : List Char} {c : Char}

/-! ## §1  Trimming -/

/-- A character whose last byte is ASCII is that byte. -/
theorem toNat_of_getLast {b : UInt8} (h : (String.utf8EncodeChar c).getLast? = some b)
    (hb : b.toNat < 0x80) : c.toNat = b.toNat := by
  unfold String.utf8EncodeChar at h
  simp only at h
  split at h
  · next hlow =>
    rw [getLast?_singleton] at h
    have hbyte := congrArg UInt8.toNat (Option.some.inj h)
    rw [UInt8.toNat_ofNat'] at hbyte
    have : c.toNat = c.val.toNat := rfl
    omega
  · have hcont : ∀ v : ℕ, 0x80 ≤ (UInt8.ofNat (v % 0x40 + 0x80)).toNat := by
      intro v
      rw [UInt8.toNat_ofNat']
      omega
    split at h
    · cases Option.some.inj h
      exact absurd hb (Nat.not_lt.mpr (hcont _))
    split at h
    · cases Option.some.inj h
      exact absurd hb (Nat.not_lt.mpr (hcont _))
    · cases Option.some.inj h
      exact absurd hb (Nat.not_lt.mpr (hcont _))

/-- Trimming leaves a text alone that begins in a visible ASCII byte and ends in a visible
character. -/
theorem trimSpace_visible {b : UInt8} (hb : (encode (cs ++ [c])).head? = some b)
    (hlow : b < 0x80) (hb' : asciiSpace b = false) (hc : isSpace c = false) :
    trimSpace (encode (cs ++ [c])) = encode (cs ++ [c]) := by
  have hfront : (encode (cs ++ [c])).dropWhile asciiSpace = encode (cs ++ [c]) := by
    cases hs : encode (cs ++ [c]) with
    | nil => rfl
    | cons x s =>
      rw [hs] at hb
      cases hb
      exact dropWhile_cons_of_neg (by rw [hb']; exact Bool.false_ne_true)
  have hlast : ∀ x, (encode (cs ++ [c])).getLast? = some x → asciiSpace x = false := by
    intro x hx
    rw [encode_append, encode_cons, encode_nil, append_nil] at hx
    obtain ⟨y, rest, hshape, -, -⟩ := utf8EncodeChar_shape c
    have hne : String.utf8EncodeChar c ≠ [] := by
      rw [hshape]
      exact cons_ne_nil y rest
    rw [getLast?_append_of_ne_nil _ hne] at hx
    by_contra hspace
    rw [Bool.not_eq_false] at hspace
    have hmem : x ∈ ([9, 10, 11, 12, 13, 32] : List UInt8) := of_decide_eq_true hspace
    have hnat : c.toNat = x.toNat := toNat_of_getLast hx (by
      revert hmem
      simp only [mem_cons, not_mem_nil, or_false]
      rintro (rfl | rfl | rfl | rfl | rfl | rfl) <;> decide)
    have hyes : isSpace c = true := by
      unfold isSpace
      rw [hnat]
      revert hmem
      simp only [mem_cons, not_mem_nil, or_false]
      rintro (rfl | rfl | rfl | rfl | rfl | rfl) <;> decide
    rw [hyes] at hc
    cases hc
  have hback : (encode (cs ++ [c])).rdropWhile asciiSpace = encode (cs ++ [c]) := by
    rw [rdropWhile_eq_self_iff]
    intro hne
    rw [hlast _ (getLast?_eq_getLast_of_ne_nil hne)]
    exact Bool.false_ne_true
  unfold trimSpace
  simp only
  rw [hfront, hb]
  simp only
  rw [if_neg (by rw [UInt8.not_le]; exact hlow), hback]
  cases hend : (encode (cs ++ [c])).getLast? with
  | none =>
    rw [getLast?_eq_none_iff] at hend
    rw [hend] at hb
    cases hb
  | some x =>
    simp only
    split
    · rw [runeBytes_encode, map_append, map_singleton, rdropWhile_concat_neg,
        ← map_singleton, ← map_append, ofRunes_rune]
      show ¬isSpace c = true
      rw [hc]
      exact Bool.false_ne_true
    · rfl

/-! ## §2  The first word -/

/-- The first word of a text, and what is after it. -/
theorem span_word (hw : Solid w) (hcs : ∀ c ∈ cs.head?, isSpace c = true) :
    ofRunes ((runeBytes (encode (w ++ cs))).takeWhile (!isSpaceRune ·)) = encode w ∧
      ofRunes ((runeBytes (encode (w ++ cs))).dropWhile (!isSpaceRune ·)) = encode cs := by
  have hall : ∀ r ∈ w.map rune, (!isSpaceRune r) = true := by
    intro r hr
    rw [rune_solid hw r hr]
    rfl
  have hrest : (cs.map rune).takeWhile (!isSpaceRune ·) = [] ∧
      (cs.map rune).dropWhile (!isSpaceRune ·) = cs.map rune := by
    cases cs with
    | nil => exact ⟨rfl, rfl⟩
    | cons c cs =>
      have hc : ¬(!isSpaceRune (rune c)) = true := by
        show ¬(!isSpace c) = true
        rw [hcs c rfl]
        exact Bool.false_ne_true
      exact ⟨takeWhile_cons_of_neg hc, dropWhile_cons_of_neg hc⟩
  rw [runeBytes_encode, map_append, takeWhile_append_of_pos hall,
    dropWhile_append_of_pos hall, hrest.1, hrest.2, append_nil]
  exact ⟨ofRunes_rune w, ofRunes_rune cs⟩

end Ollama.Parsers.Bytes

namespace Ollama.Lib

/-! ## §3  Marks in a text -/

variable {α : Type} [DecidableEq α] {c : α} {x y t : List α}

/-- Two texts without a mark, where the second begins with none of what is within the mark. -/
theorem cut_append_none (ht : t ≠ []) (hx : cut x t = none) (hy : cut y t = none)
    (hhead : ∀ a ∈ y.head?, a ∉ t.tail) : cut (x ++ y) t = none := by
  refine (cut_eq_none ht).mpr fun i ho => ?_
  rcases Nat.lt_or_ge i x.length with hi | hi
  · by_cases hle : i + t.length ≤ x.length
    · exact (cut_eq_none ht).mp hx i (ho.of_append hle)
    -- the mark would go over the end of the first text
    have hin : x.length - i < t.length := by omega
    have hget := ho.getElem? hin
    rw [Nat.add_sub_cancel' hi.le, List.getElem?_append_right (Nat.le_refl _), Nat.sub_self] at hget
    obtain ⟨a, ha⟩ : ∃ a, t[x.length - i]? = some a := ⟨_, List.getElem?_eq_getElem hin⟩
    rw [ha, ← List.head?_eq_getElem?] at hget
    refine hhead a hget ?_
    obtain ⟨b, u, rfl⟩ := List.exists_cons_of_ne_nil ht
    obtain ⟨k, hk⟩ := Nat.exists_eq_succ_of_ne_zero (Nat.sub_ne_zero_of_lt hi)
    rw [hk, List.getElem?_cons_succ] at ha
    exact List.mem_of_getElem? ha
  · obtain ⟨j, rfl⟩ := Nat.exists_eq_add_of_le hi
    exact (cut_eq_none ht).mp hy j ((occurs_append_right x y t j).mp ho)

theorem cut_plain_append (ht : Marked c t) (hx : c ∉ x) (hy : cut y t = none) :
    cut (x ++ y) t = none := by
  rw [cut_prepend ht.ne_nil fun i hi ho => ?_, hy]
  · rfl
  · have hget := ho.getElem? (k := 0) (List.length_pos_iff.mpr ht.ne_nil)
    rw [Nat.add_zero, ht.getElem?_zero, List.getElem?_append_left hi] at hget
    exact hx (List.mem_of_getElem? hget)

theorem cut_marked_append (ht : Marked c t) (hx : Marked c x) (hlen : t.length ≤ x.length)
    (hnone : cut x t = none) (hy : cut y t = none) : cut (x ++ y) t = none := by
  rw [cut_prepend ht.ne_nil fun i hi ho => ?_, hy]
  · rfl
  rcases Nat.eq_zero_or_pos i with rfl | hpos
  · exact (cut_eq_none ht.ne_nil).mp hnone 0 (ho.of_append (by omega))
  · have hget := ho.getElem? (k := 0) (List.length_pos_iff.mpr ht.ne_nil)
    rw [Nat.add_zero, ht.getElem?_zero, List.getElem?_append_left hi] at hget
    exact hx.getElem?_ne hpos hget

end Ollama.Lib

namespace Ollama.Harmony

open Lib Parsers Bytes Utf8

/-! ## §4  Headers -/

def harmonyMarks : List Bytes :=
  [lit "<|start|>", lit "<|message|>", lit "<|end|>", lit "<|channel|>", lit "<|constrain|>"]

def Unmarked (t : Bytes) : Prop := ∀ mark ∈ harmonyMarks, cut t mark = none

instance (t : Bytes) : Decidable (Unmarked t) := inferInstanceAs (Decidable (∀ _ ∈ _, _))

inductive HarmonyChannel
  | analysis
  | commentary
  | final
  deriving DecidableEq

def HarmonyChannel.name : HarmonyChannel → Text
  | .analysis => "analysis".toList
  | .commentary => "commentary".toList
  | .final => "final".toList

/-- A header that a model writes: the recipient stands before the channel or after it, and the
type of the content may follow, with a space before it or not. -/
structure WrittenHeader where
  channel : HarmonyChannel
  recipient : Option Text
  recipientFirst : Bool
  contentType : Option (Bool × Text)
  recipient_spec : ∀ r ∈ recipient, channel ≠ .final ∧ r ≠ [] ∧ Solid r ∧ Unmarked (encode r)
  contentType_spec : ∀ x ∈ contentType, Solid x.2 ∧ Unmarked (encode x.2)

namespace WrittenHeader

def recipientText (h : WrittenHeader) : Text :=
  match h.recipient with
  | some r => " to=".toList ++ r
  | none => []

def contentTypeText (h : WrittenHeader) : Text :=
  match h.contentType with
  | some (spaced, type) => (if spaced then [' '] else []) ++ ("<|constrain|>".toList ++ type)
  | none => []

def text (h : WrittenHeader) : Text :=
  "assistant".toList ++ ((if h.recipientFirst then h.recipientText else []) ++
    ("<|channel|>".toList ++ (h.channel.name ++
      ((if h.recipientFirst then [] else h.recipientText) ++ h.contentTypeText))))

variable {h : WrittenHeader} {t u : Text}

def EndsVisible (t : Text) : Prop := ∀ c ∈ t.getLast?, isSpace c = false

theorem EndsVisible.append (ht : EndsVisible t) (hu : EndsVisible u) : EndsVisible (t ++ u) := by
  intro c hc
  rw [List.getLast?_append] at hc
  cases hlast : u.getLast? with
  | none =>
    rw [hlast] at hc
    exact ht c hc
  | some d =>
    rw [hlast] at hc
    cases hc
    exact hu c hlast

theorem EndsVisible.of_solid (ht : Solid t) : EndsVisible t := fun c hc =>
  ht c (List.mem_of_getLast? hc)

theorem trimSpace_assistant (ht : EndsVisible t) :
    trimSpace (encode ("assistant".toList ++ t)) = encode ("assistant".toList ++ t) := by
  have hends : EndsVisible ("assistant".toList ++ t) :=
    (EndsVisible.of_solid (by decide)).append ht
  have hne : "assistant".toList ++ t ≠ [] := List.append_ne_nil_of_left_ne_nil (by decide) t
  have hhead : (encode ("assistant".toList ++ t)).head? = some 97 := by
    rfl
  obtain ⟨c, hc⟩ : ∃ c, ("assistant".toList ++ t).getLast? = some c :=
    ⟨_, List.getLast?_eq_getLast_of_ne_nil hne⟩
  have hsplit : "assistant".toList ++ t = ("assistant".toList ++ t).dropLast ++ [c] :=
    (List.dropLast_append_getLast? c hc).symm
  rw [hsplit] at hhead ⊢
  exact trimSpace_visible hhead (by decide) (by decide) (hends c hc)

theorem recipientText_ends (h : WrittenHeader) : EndsVisible h.recipientText := by
  have hspec := h.recipient_spec
  unfold recipientText
  cases hr : h.recipient with
  | none => exact nofun
  | some r =>
    obtain ⟨-, -, hsolid, -⟩ := hspec r hr
    exact EndsVisible.append (fun c hc => by cases hc; decide) (.of_solid hsolid)

theorem recipientText_head (h : WrittenHeader) : ∀ c ∈ h.recipientText.head?, c = ' ' := by
  unfold recipientText
  cases h.recipient with
  | none => exact nofun
  | some r =>
    intro c hc
    cases hc
    rfl

/-- The recipient's part has no mark that stands before it or in it. -/
theorem recipientText_unmarked (h : WrittenHeader) : Unmarked (encode h.recipientText) := by
  have hspec := h.recipient_spec
  unfold recipientText
  cases hr : h.recipient with
  | none => decide
  | some r =>
    obtain ⟨-, -, -, hunmarked⟩ := hspec r hr
    intro mark hmark
    have hmarked : Marked 60 mark := by
      revert mark
      decide
    rw [encode_append]
    exact cut_plain_append hmarked (by decide) (hunmarked mark hmark)

theorem before_unmarked (h : WrittenHeader) (b : Bool) :
    Unmarked (encode ("assistant".toList ++ if b then h.recipientText else [])) := by
  intro mark hmark
  have hmarked : Marked 60 mark := by
    revert mark
    decide
  rw [encode_append]
  refine cut_plain_append hmarked (by decide) ?_
  cases b with
  | true => exact h.recipientText_unmarked mark hmark
  | false => exact cut_nil hmarked.ne_nil

theorem encode_head_space (ht : ∀ c ∈ t.head?, c = ' ') : ∀ b ∈ (encode t).head?, b = 32 := by
  cases t with
  | nil => exact nofun
  | cons c t =>
    rw [ht c rfl]
    intro b hb
    cases hb
    rfl

/-- The channel with a recipient after it has no mark but its own. -/
theorem channel_unmarked (h : WrittenHeader) (b : Bool) {mark : Bytes}
    (hmark : mark = lit "<|message|>" ∨ mark = lit "<|constrain|>") :
    cut (encode ("<|channel|>".toList ++ (h.channel.name ++ if b then [] else h.recipientText)))
      mark = none := by
  have hne : mark ≠ [] := by rcases hmark with rfl | rfl <;> decide
  rw [← List.append_assoc, encode_append]
  refine cut_append_none hne ?_ ?_ fun x hx => ?_
  · rcases hmark with rfl | rfl <;> cases h.channel <;> decide +kernel
  · cases b with
    | true => exact cut_nil hne
    | false =>
      exact h.recipientText_unmarked mark (by rcases hmark with rfl | rfl <;> decide)
  have hspace : x = 32 := by
    cases b with
    | true => cases hx
    | false => exact encode_head_space h.recipientText_head x hx
  rw [hspace]
  rcases hmark with rfl | rfl <;> decide

/-- Before its content type a header has neither of the two marks that end its parts. -/
theorem front_unmarked (h : WrittenHeader) (b : Bool) {mark : Bytes}
    (hmark : mark = lit "<|message|>" ∨ mark = lit "<|constrain|>") :
    cut (encode ("assistant".toList ++ ((if b then h.recipientText else []) ++
      ("<|channel|>".toList ++ (h.channel.name ++ if b then [] else h.recipientText)))))
      mark = none := by
  have hne : mark ≠ [] := by rcases hmark with rfl | rfl <;> decide
  rw [← List.append_assoc, encode_append]
  refine cut_append_none hne (h.before_unmarked b mark ?_) (h.channel_unmarked b hmark) ?_
  · rcases hmark with rfl | rfl <;> decide
  · intro x hx
    cases hx
    rcases hmark with rfl | rfl <;> decide

theorem contentTypeText_message (h : WrittenHeader) :
    cut (encode h.contentTypeText) (lit "<|message|>") = none := by
  have hspec := h.contentType_spec
  unfold contentTypeText
  cases hx : h.contentType with
  | none => decide
  | some x =>
    obtain ⟨spaced, type⟩ := x
    obtain ⟨-, hunmarked⟩ := hspec (spaced, type) hx
    have htype : cut (encode ("<|constrain|>".toList ++ type)) (lit "<|message|>") = none := by
      rw [encode_append]
      exact cut_marked_append (c := 60) (by decide) (by decide) (by decide) (by decide)
        (hunmarked _ (by decide))
    rw [encode_append]
    refine cut_plain_append (c := 60) (by decide) ?_ htype
    cases spaced <;> decide

theorem contentTypeText_head (h : WrittenHeader) :
    ∀ b ∈ (encode h.contentTypeText).head?, b = 32 ∨ b = 60 := by
  unfold contentTypeText
  rcases h.contentType with - | ⟨spaced, type⟩
  · exact nofun
  intro b hb
  cases spaced with
  | true =>
    cases hb
    exact .inl rfl
  | false =>
    cases hb
    exact .inr rfl

theorem text_message (h : WrittenHeader) : cut (encode h.text) (lit "<|message|>") = none := by
  have hfront := @front_unmarked h h.recipientFirst (lit "<|message|>") (.inl rfl)
  have htext : h.text = "assistant".toList ++ ((if h.recipientFirst then h.recipientText else []) ++
      ("<|channel|>".toList ++ (h.channel.name ++ if h.recipientFirst then [] else
        h.recipientText))) ++ h.contentTypeText := by
    unfold text
    simp only [List.append_assoc]
  rw [htext, encode_append]
  refine cut_append_none (by decide) hfront h.contentTypeText_message fun b hb => ?_
  rcases h.contentTypeText_head b hb with rfl | rfl <;> decide

def separated (h : WrittenHeader) : Text :=
  match h.contentType with
  | some (spaced, type) => (if spaced then [' '] else []) ++ (" <|constrain|>".toList ++ type)
  | none => []

theorem separated_ends (h : WrittenHeader) : EndsVisible h.separated := by
  have hspec := h.contentType_spec
  unfold separated
  cases hx : h.contentType with
  | none => exact nofun
  | some x =>
    obtain ⟨hsolid, -⟩ := hspec x hx
    have htype : EndsVisible (" <|constrain|>".toList ++ x.2) :=
      EndsVisible.append (fun c hc => by cases hc; decide) (.of_solid hsolid)
    intro c hc
    have hne : " <|constrain|>".toList ++ x.2 ≠ [] := List.append_ne_nil_of_left_ne_nil (by decide) _
    rw [List.getLast?_append_of_ne_nil _ hne] at hc
    exact htype c hc

theorem separated_head (h : WrittenHeader) : ∀ c ∈ h.separated.head?, isSpace c = true := by
  unfold separated
  rcases h.contentType with - | ⟨spaced, type⟩
  · exact nofun
  · intro c hc
    cases spaced <;> cases hc <;> decide

/-- The first step of `parseHeader`. -/
def separateConstrain (raw : Bytes) : Bytes :=
  match cut raw (lit "<|constrain|>") with
  | some (before, after) => trimSpace (before ++ (lit " <|constrain|>" ++ after))
  | none => raw

def takeChannel (raw : Bytes) : Bytes × Bytes :=
  match cut raw (lit "<|channel|>") with
  | some (before, after) =>
      (ofRunes ((runeBytes after).takeWhile (!isSpaceRune ·)),
        trimSpace (before ++ ofRunes ((runeBytes after).dropWhile (!isSpaceRune ·))))
  | none => ([], raw)

/-- The third step, the role and the recipient among the words. -/
def takeRole (channel : Bytes) : List Bytes → HarmonyHeader
  | [] => ⟨[], channel, []⟩
  | role :: tokens =>
      let (role, recipient) :=
        if lit "to=" <+: role then (lit "tool", role.drop 3) else (role, [])
      match recipient, tokens with
      | [], token :: _ =>
          if lit "to=" <+: token then ⟨role, channel, token.drop 3⟩ else ⟨role, channel, []⟩
      | recipient, _ => ⟨role, channel, recipient⟩

theorem parseHeader_eq (raw : Bytes) :
    parseHeader raw = takeRole (takeChannel (separateConstrain raw)).1
      (fields (takeChannel (separateConstrain raw)).2) := rfl

theorem separateConstrain_text (h : WrittenHeader) : separateConstrain (encode h.text) =
    encode ("assistant".toList ++ ((if h.recipientFirst then h.recipientText else []) ++
      ("<|channel|>".toList ++ (h.channel.name ++
        ((if h.recipientFirst then [] else h.recipientText) ++ h.separated))))) := by
  have hfront := @front_unmarked h h.recipientFirst (lit "<|constrain|>") (.inr rfl)
  have hname : EndsVisible h.channel.name := .of_solid (by cases h.channel <;> decide)
  have hif : ∀ b : Bool, EndsVisible (if b then h.recipientText else []) ∧
      EndsVisible (if b then [] else h.recipientText) := by
    intro b
    cases b
    · exact ⟨nofun, h.recipientText_ends⟩
    · exact ⟨h.recipientText_ends, nofun⟩
  have hends : EndsVisible ((if h.recipientFirst then h.recipientText else []) ++
      ("<|channel|>".toList ++ (h.channel.name ++
        ((if h.recipientFirst then [] else h.recipientText) ++ h.separated)))) :=
    (hif _).1.append ((EndsVisible.of_solid (by decide)).append (hname.append
      ((hif _).2.append h.separated_ends)))
  generalize hR : (if h.recipientFirst then [] else h.recipientText) = R at *
  generalize hP : (if h.recipientFirst then h.recipientText else []) = P at *
  unfold text
  rw [hR, hP]
  revert hends
  unfold separated contentTypeText
  rcases h.contentType with - | ⟨spaced, type⟩
  · intro _
    unfold separateConstrain
    rw [List.append_nil, hfront]
  intro hends
  have hsp : cut (encode ("assistant".toList ++ (P ++ ("<|channel|>".toList ++
      (h.channel.name ++ R)))) ++ encode (if spaced = true then [' '] else []))
        (lit "<|constrain|>") = none := by
    refine cut_append_none (by decide) hfront ?_ ?_
    · cases spaced <;> decide
    intro b hb
    cases spaced
    · cases hb
    · cases hb
      decide
  have hcut := cut_marked_self (c := 60) (y := encode type) (by decide) (t := lit "<|constrain|>")
    (x := encode ("assistant".toList ++ (P ++ ("<|channel|>".toList ++
      (h.channel.name ++ R)))) ++ encode (if spaced = true then [' '] else []))
  rw [hsp] at hcut
  have hsplit : encode ("assistant".toList ++ (P ++ ("<|channel|>".toList ++ (h.channel.name ++
      (R ++ ((if spaced = true then [' '] else []) ++ ("<|constrain|>".toList ++ type))))))) =
      encode ("assistant".toList ++ (P ++ ("<|channel|>".toList ++ (h.channel.name ++ R)))) ++
        encode (if spaced = true then [' '] else []) ++ (lit "<|constrain|>" ++ encode type) := by
    simp only [encode_append, List.append_assoc]
    rfl
  unfold separateConstrain
  rw [hsplit, hcut]
  dsimp only
  rw [← trimSpace_assistant hends]
  congr 1
  simp only [encode_append, List.append_assoc]
  rfl

/-- The words of a header without its channel. -/
theorem fields_words (h : WrittenHeader) :
    ∃ more, fields (encode ("assistant".toList ++ (h.recipientText ++ h.separated))) =
      lit "assistant" ::
        ((match h.recipient with | some r => [lit "to=" ++ encode r] | none => []) ++ more) ∧
      (h.recipient = none → ∀ word ∈ more.head?, ¬lit "to=" <+: word) := by
  have hspec := h.recipient_spec
  have hspec' := h.contentType_spec
  have hwords : ∀ {w : Text}, Solid w → w ≠ [] → ∃ more,
      fields (encode (w ++ h.separated)) = encode w :: more ∧
        ∀ word ∈ more.head?, ¬lit "to=" <+: word := by
    intro w hw hne
    unfold separated
    rcases hx : h.contentType with - | ⟨spaced, type⟩
    · refine ⟨[], ?_, nofun⟩
      rw [List.append_nil, fields_word hw hne]
    obtain ⟨hsolid, -⟩ := hspec' (spaced, type) hx
    have htype : Solid ("<|constrain|>".toList ++ type) := Solid.append (by decide) hsolid
    have hlast : fields (encode (' ' :: ("<|constrain|>".toList ++ type))) =
        [encode ("<|constrain|>".toList ++ type)] := by
      rw [fields_space (by decide),
        fields_word htype (List.append_ne_nil_of_left_ne_nil (by decide) type)]
    refine ⟨[encode ("<|constrain|>".toList ++ type)], ?_, ?_⟩
    · cases spaced with
      | true =>
        show fields (encode (w ++ ' ' :: (' ' :: ("<|constrain|>".toList ++ type)))) = _
        rw [fields_word_append hw hne (by decide), hlast]
      | false =>
        show fields (encode (w ++ ' ' :: ("<|constrain|>".toList ++ type))) = _
        rw [fields_word_append hw hne (by decide),
          fields_word htype (List.append_ne_nil_of_left_ne_nil (by decide) type)]
    · intro word hword hto
      cases hword
      obtain ⟨rest, hrest⟩ := hto
      exact absurd (List.cons.inj hrest).1 (by decide)
  unfold recipientText
  cases hr : h.recipient with
  | none =>
    obtain ⟨more, hmore, hhead⟩ := hwords (w := "assistant".toList) (by decide) (by decide)
    exact ⟨more, hmore, fun _ => hhead⟩
  | some r =>
    obtain ⟨-, -, hsolid, -⟩ := hspec r hr
    have hto : Solid ("to=".toList ++ r) := Solid.append (by decide) hsolid
    obtain ⟨more, hmore, -⟩ := hwords hto (List.append_ne_nil_of_left_ne_nil (by decide) r)
    refine ⟨more, ?_, nofun⟩
    show fields (encode ("assistant".toList ++ ' ' :: ("to=".toList ++ r ++ h.separated))) = _
    rw [fields_word_append (by decide) (by decide) (by decide), hmore, encode_append]
    rfl

/-- **Headers.** A header is read as it was written. -/
theorem parseHeader_text (h : WrittenHeader) : parseHeader (encode h.text) =
      ⟨lit "assistant", encode h.channel.name, encode (h.recipient.getD [])⟩ := by
  have hconstrain := h.separateConstrain_text
  have hbefore := h.before_unmarked h.recipientFirst (lit "<|channel|>") (by decide)
  have hname : Solid h.channel.name := by cases h.channel <;> decide
  obtain ⟨more, hmore, hhead⟩ := h.fields_words
  have hjoin : "assistant".toList ++ (if h.recipientFirst then h.recipientText else []) ++
      ((if h.recipientFirst then [] else h.recipientText) ++ h.separated) =
        "assistant".toList ++ (h.recipientText ++ h.separated) := by
    cases h.recipientFirst <;> simp
  have hrest : ∀ c ∈ ((if h.recipientFirst then [] else h.recipientText) ++ h.separated).head?,
      isSpace c = true := by
    have hsep := h.separated_head
    intro c hc
    cases hfirst : h.recipientFirst with
    | true =>
      rw [hfirst] at hc
      exact hsep c hc
    | false =>
      rw [hfirst] at hc
      cases hrec : h.recipientText with
      | nil =>
        rw [if_neg Bool.false_ne_true, hrec] at hc
        exact hsep c hc
      | cons d t =>
        have hspace := h.recipientText_head d (by rw [hrec]; rfl)
        rw [if_neg Bool.false_ne_true, hrec] at hc
        cases hc
        rw [hspace]
        decide
  have htrim : EndsVisible (h.recipientText ++ h.separated) :=
    h.recipientText_ends.append h.separated_ends
  generalize (if h.recipientFirst then [] else h.recipientText) ++ h.separated = R at *
  have hchannel : cut (encode ("assistant".toList ++
      ((if h.recipientFirst then h.recipientText else []) ++ ("<|channel|>".toList ++
        (h.channel.name ++ R))))) (lit "<|channel|>") =
      some (encode ("assistant".toList ++ if h.recipientFirst then h.recipientText else []),
        encode (h.channel.name ++ R)) := by
    have hcut := cut_marked_self (c := 60) (t := lit "<|channel|>")
      (x := encode ("assistant".toList ++ if h.recipientFirst then h.recipientText else []))
      (y := encode (h.channel.name ++ R)) (by decide)
    rw [hbefore] at hcut
    refine Eq.trans (congrArg (cut · (lit "<|channel|>")) ?_) hcut
    simp only [encode_append, List.append_assoc]
    rfl
  obtain ⟨hspan, hspan'⟩ := span_word hname hrest
  have htake : takeChannel (separateConstrain (encode h.text)) =
      (encode h.channel.name, encode ("assistant".toList ++ (h.recipientText ++ h.separated))) := by
    unfold takeChannel
    rw [hconstrain, hchannel]
    dsimp only
    rw [hspan, hspan', ← encode_append, hjoin, trimSpace_assistant htrim]
  rw [parseHeader_eq, htake]
  rw [hmore]
  unfold takeRole
  dsimp only
  rw [if_neg (by decide)]
  cases hr : h.recipient with
  | none =>
    have hno := hhead hr
    rw [List.nil_append]
    cases more with
    | nil => rfl
    | cons word more =>
      dsimp only
      rw [if_neg (hno word rfl)]
      rfl
  | some r =>
    rfl

end WrittenHeader

end Ollama.Harmony
