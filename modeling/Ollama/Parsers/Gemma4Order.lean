import Ollama.Parsers.Gemma4Chunks

/-!
# The order of tags in gemma4

A text may be cut anywhere exactly when no tool call is opened before a thinking tag in
one stretch of content. For the other direction the visible characters are counted: when
the thinking tag is looked for first, the tag of the tool call is returned as content.
-/

namespace Ollama.Parsers

open Lib List

namespace Gemma4Parser

variable {τ : Type} {parseToolCall : Text → Except Error τ} {p q : Gemma4Parser}
  {en k k' : Bool} {t b a x y : Text}

/-! ## §1  Counting -/

def chars (r : Response τ) : ℕ := r.content.length + r.thinking.length

def visibleLen (s : Text) : ℕ := (visible s).length

theorem chars_append (r r' : Response τ) : chars (r ++ r') = chars r + chars r' := by
  unfold chars
  rw [Response.content_append, Response.thinking_append, length_append, length_append]
  omega

theorem visibleLen_append (s s' : Text) : visibleLen (s ++ s') = visibleLen s + visibleLen s' := by
  unfold visibleLen
  rw [visible_append, length_append]

theorem chars_ofContent (s : Text) : chars (ofContent s : Response τ) = visibleLen s := rfl

theorem chars_ofThinking (s : Text) : chars (ofThinking true s : Response τ) = visibleLen s :=
  Nat.zero_add _

theorem chars_toolCallEvent (en : Bool) (s : Text) :
    chars (collect en (toolCallEvent parseToolCall s)).seen = 0 := by
  unfold toolCallEvent
  cases parseToolCall s <;> rfl

theorem visibleLen_trimLeft (s : Text) : visibleLen (trimLeft s) = visibleLen s :=
  congrArg List.length (visible_trimLeft s)

theorem visibleLen_le_of_suffix {s s' : Text} (h : s <:+ s') : visibleLen s ≤ visibleLen s' := by
  obtain ⟨d, rfl⟩ := h
  rw [visibleLen_append]
  omega

theorem visibleLen_cut {tag : Text} (htag : tag ≠ []) (h : cut t tag = some (b, a)) :
    visibleLen t = visibleLen b + visibleLen tag + visibleLen a := by
  rw [((cut_eq_some htag).mp h).1, visibleLen_append, visibleLen_append]
  omega

theorem stripped_suffix (s : Text) : stripped s <:+ s := by
  unfold stripped
  split
  · exact drop_suffix _ _
  · exact suffix_refl s

theorem chars_reading_toolCall_plain (h : cut t gemma4ToolCallCloseTag = none) :
    chars (reading parseToolCall ⟨.collectingToolCall, t, en, k⟩) = 0 := by
  by_cases hne : t = []
  · subst hne
    rfl
  have heat : eat parseToolCall true ⟨.collectingToolCall, t, en, k⟩ =
      (toolCallEvent parseToolCall t, ⟨.collectingContent, [], en, k⟩, false) := by
    unfold eat
    rw [if_neg hne]
    unfold eatToolCall
    rw [h]
    exact if_pos ⟨rfl, hne⟩
  rw [reading_last heat]
  exact chars_toolCallEvent en t

/-- No more is returned than is there. -/
theorem chars_reading_le (p : Gemma4Parser) :
    chars (reading parseToolCall p) ≤ visibleLen p.buffer := by
  induction hn : p.turns using Nat.strong_induction_on generalizing p with
  | _ n ih =>
    have hthink : ∀ s en k, 2 * s.length ≤ n → chars (reading parseToolCall
        ⟨.collectingThinking, s, en, k⟩) ≤ visibleLen s := by
      intro s en k hle
      have hplain : ∀ s, 2 * s.length ≤ n → chars (reading parseToolCall
          ⟨.collectingThinking, s, en, false⟩) ≤ visibleLen s := by
        intro s hle
        have hen : ∀ s, chars (ofThinking en s : Response τ) ≤ visibleLen s := by
          intro s
          cases en with
          | true => rw [chars_ofThinking]
          | false => exact Nat.zero_le _
        cases h : cut s gemma4ThinkingCloseTag with
        | none =>
          rw [reading_thinking_plain h]
          exact hen s
        | some x =>
          have heat : eat parseToolCall true ⟨.collectingThinking, s, en, false⟩ = _ :=
            eat_thinking_close h
          have hlt := turns_lt heat
          rw [reading_thinking_close h, chars_append, visibleLen_cut (by decide) h]
          have := hen x.1
          have hvis : visibleLen (trimLeft x.2) = visibleLen x.2 := visibleLen_trimLeft _
          have : chars (reading parseToolCall ⟨.collectingContent, trimLeft x.2, en, false⟩) ≤
            visibleLen (trimLeft x.2) := ih _ (Nat.lt_of_lt_of_le hlt hle) _ rfl
          omega
      cases k with
      | false => exact hplain s hle
      | true =>
        have hsuf := stripped_suffix s
        have hlen := hsuf.length_le
        rw [reading_thinking_strip]
        exact (hplain _ (by omega)).trans (visibleLen_le_of_suffix hsuf)
    obtain ⟨state, t, en, k⟩ := p
    cases state with
    | collectingContent =>
      cases h : cut t gemma4ThinkingOpenTag with
      | some x =>
        have hlen := cut_length (by decide) h
        rw [reading_content_thinking h, chars_append, chars_ofContent, visibleLen_cut (by decide) h]
        have hturns : 2 * t.length = n := hn
        have := hthink x.2 en true (by omega)
        omega
      | none =>
        cases h' : cut t gemma4ToolCallOpenTag with
        | some x =>
          have heat : eat parseToolCall true ⟨.collectingContent, t, en, k⟩ = _ :=
            eat_content_toolCall h h'
          have hlt := turns_lt heat
          have hrest : chars (reading parseToolCall ⟨.collectingToolCall, x.2, en, k⟩) ≤
            visibleLen x.2 := ih _ (Nat.lt_of_lt_of_eq hlt hn) _ rfl
          rw [reading_content_toolCall h h', chars_append, chars_ofContent,
            visibleLen_cut (by decide) h']
          omega
        | none =>
          rw [reading_content_plain h h', chars_ofContent]
    | collectingThinking => exact hthink t en k (Nat.le_of_eq hn)
    | collectingToolCall =>
      cases h : cut t gemma4ToolCallCloseTag with
      | none =>
        rw [chars_reading_toolCall_plain h]
        exact Nat.zero_le _
      | some x =>
        have heat : eat parseToolCall true ⟨.collectingToolCall, t, en, k⟩ = _ :=
          eat_toolCall_close h
        have hlt := turns_lt heat
        have hrest : chars (reading parseToolCall
            ⟨.ignoringPostToolCallNoise, trimLeft x.2, en, k⟩) ≤ visibleLen (trimLeft x.2) :=
          ih _ (Nat.lt_of_lt_of_eq hlt hn) _ rfl
        rw [reading_toolCall_close h, chars_append, chars_toolCallEvent,
          visibleLen_cut (by decide) h]
        rw [visibleLen_trimLeft] at hrest
        omega
    | ignoringPostToolCallNoise =>
      have hsuf := skipNoise_suffix t
      have hlen := hsuf.length_le
      rw [reading_noise]
      split
      · exact Nat.zero_le _
      · have hturns : 2 * t.length + 1 = n := hn
        have hrest : chars (reading parseToolCall ⟨.collectingContent, skipNoise t, en, k⟩) ≤
            visibleLen (skipNoise t) :=
          ih (2 * (skipNoise t).length) (by omega) _ rfl
        exact hrest.trans (visibleLen_le_of_suffix hsuf)

/-- Outside thinking the channel name is of no concern. -/
theorem reading_flag (p : Gemma4Parser) (h : p.state ≠ .collectingThinking) (k : Bool) :
    reading parseToolCall { p with needsChannelNameStrip := k } = reading parseToolCall p := by
  induction hn : p.turns using Nat.strong_induction_on generalizing p with
  | _ n ih =>
    obtain ⟨state, t, en, k'⟩ := p
    cases state with
    | collectingContent =>
      cases h₁ : cut t gemma4ThinkingOpenTag with
      | some x => rw [reading_content_thinking h₁, reading_content_thinking h₁]
      | none =>
        cases h₂ : cut t gemma4ToolCallOpenTag with
        | some x =>
          have heat : eat parseToolCall true ⟨.collectingContent, t, en, k'⟩ = _ :=
            eat_content_toolCall h₁ h₂
          have hlt := turns_lt heat
          rw [reading_content_toolCall h₁ h₂, reading_content_toolCall h₁ h₂]
          exact congrArg _ (ih _ (Nat.lt_of_lt_of_eq hlt hn) ⟨.collectingToolCall, x.2, en, k'⟩ nofun rfl)
        | none => rw [reading_content_plain h₁ h₂, reading_content_plain h₁ h₂]
    | collectingThinking => exact absurd rfl h
    | collectingToolCall =>
      cases h₁ : cut t gemma4ToolCallCloseTag with
      | some x =>
        have heat : eat parseToolCall true ⟨.collectingToolCall, t, en, k'⟩ = _ :=
          eat_toolCall_close h₁
        have hlt := turns_lt heat
        rw [reading_toolCall_close h₁, reading_toolCall_close h₁]
        exact congrArg _ (ih _ (Nat.lt_of_lt_of_eq hlt hn) ⟨.ignoringPostToolCallNoise, trimLeft x.2, en, k'⟩ nofun rfl)
      | none =>
        by_cases hne : t = []
        · subst hne
          rw [reading_last (eat_nil true rfl), reading_last (eat_nil true rfl)]
        have heat : ∀ k, eat parseToolCall true ⟨.collectingToolCall, t, en, k⟩ =
            (toolCallEvent parseToolCall t, ⟨.collectingContent, [], en, k⟩, false) := by
          intro k
          unfold eat
          rw [if_neg hne]
          unfold eatToolCall
          rw [h₁]
          exact if_pos ⟨rfl, hne⟩
        rw [reading_last (heat k), reading_last (heat k')]
    | ignoringPostToolCallNoise =>
      have hlen := (skipNoise_suffix t).length_le
      rw [reading_noise, reading_noise]
      split
      · rfl
      · have hturns : 2 * t.length + 1 = n := hn
        exact ih (2 * (skipNoise t).length) (by omega)
          ⟨.collectingContent, skipNoise t, en, k'⟩ nofun rfl

theorem reading_content_flag (k k' : Bool) : reading parseToolCall ⟨.collectingContent, t, en, k⟩ =
      reading parseToolCall ⟨.collectingContent, t, en, k'⟩ :=
  reading_flag ⟨.collectingContent, t, en, k'⟩ nofun k

theorem not_occurs_closeTag {tag s : Text}
    (htag : tag ∈ [gemma4ThinkingOpenTag, gemma4ToolCallOpenTag]) {i : ℕ}
    (hi : i < gemma4ToolCallCloseTag.length) : ¬Occurs tag (gemma4ToolCallCloseTag ++ s) i := by
  have hmarked : ∀ tag ∈ [gemma4ThinkingOpenTag, gemma4ToolCallOpenTag], Marked '<' tag ∧
      ¬tag <+: gemma4ToolCallCloseTag ∧ ¬gemma4ToolCallCloseTag <+: tag := by decide
  obtain ⟨hm, hne, hne'⟩ := hmarked tag htag
  intro ho
  have hclose : Occurs gemma4ToolCallCloseTag (gemma4ToolCallCloseTag ++ s) 0 :=
    occurs_middle [] gemma4ToolCallCloseTag s
  rcases Nat.eq_zero_or_pos i with rfl | hpos
  · rcases prefix_or_prefix_of_prefix ho hclose with hp | hp
    · exact hne hp
    · exact hne' hp
  · have := hclose.apart (c := '<') (by decide) hm ho hpos
    omega

theorem chars_content_skipNoise (t : Text) :
    chars (reading parseToolCall ⟨.collectingContent, skipNoise t, en, k⟩) ≤
      chars (reading parseToolCall ⟨.collectingContent, t, en, k⟩) := by
  have htag : gemma4ToolCallCloseTag.length = 12 := by decide
  induction hn : t.length using Nat.strong_induction_on generalizing t with
  | _ n ih =>
    obtain ⟨w, hw, ht⟩ := trimLeft_spec t
    have htrim : reading parseToolCall ⟨.collectingContent, t, en, k⟩ =
        reading parseToolCall ⟨.collectingContent, trimLeft t, en, k⟩ := by
      conv_lhs => rw [ht]
      exact reading_content_blank hw _
    rw [htrim, skipNoise_eq]
    split
    · next hpre =>
      obtain ⟨s, hs⟩ := hpre
      have hle := trimLeft_length_le t
      rw [← hs, length_append] at hle
      rw [← hs, drop_left,
        reading_content_prepend fun tag htag i hi => not_occurs_closeTag htag hi, chars_append]
      exact (ih s.length (by omega) s rfl).trans (Nat.le_add_left _ _)
    · exact Nat.le_refl _

theorem chars_noise_le (parseToolCall : Text → Except Error τ) (en k : Bool) (t : Text) :
    chars (reading parseToolCall ⟨.ignoringPostToolCallNoise, t, en, k⟩) ≤
      chars (reading parseToolCall ⟨.collectingContent, t, en, k⟩) := by
  rw [reading_noise]
  split
  · exact Nat.zero_le _
  · exact chars_content_skipNoise t

/-! ## §2  More text, more characters -/

/-- The noise after a tool call is over before `y`, or with it. -/
theorem reading_noise_close (parseToolCall : Text → Except Error τ) (en k : Bool) (y x : Text) :
    reading parseToolCall ⟨.ignoringPostToolCallNoise, y ++ (gemma4ToolCallCloseTag ++ x), en, k⟩ =
        reading parseToolCall ⟨.ignoringPostToolCallNoise, x, en, k⟩ ∨
      ∃ y', y' <:+ y ∧ reading parseToolCall
            ⟨.ignoringPostToolCallNoise, y ++ (gemma4ToolCallCloseTag ++ x), en, k⟩ =
          reading parseToolCall ⟨.collectingContent, y' ++ (gemma4ToolCallCloseTag ++ x), en, k⟩ := by
  obtain ⟨htrim, hclose⟩ := skipNoise_spec y
  rw [reading_noise, ← skipNoise_append]
  cases hs : skipNoise y with
  | nil =>
    refine Or.inl ?_
    have hx : skipNoise (gemma4ToolCallCloseTag ++ x) = skipNoise x := by
      rw [skipNoise_eq]
      have ht : trimLeft (gemma4ToolCallCloseTag ++ x) = gemma4ToolCallCloseTag ++ x := rfl
      rw [ht, if_pos (prefix_append _ _), drop_left]
    rw [nil_append, hx, reading_noise x]
  | cons r s =>
    refine Or.inr ⟨r :: s, hs ▸ skipNoise_suffix y, ?_⟩
    rw [hs] at htrim hclose
    have hr : isSpace r = false := by
      by_contra hr
      have hle := trimLeft_length_le s
      have hlen := congrArg List.length htrim
      unfold trimLeft at hlen hle
      rw [dropWhile_cons_of_pos (by simpa using hr), length_cons] at hlen
      omega
    have htrim' : trimLeft (r :: s ++ (gemma4ToolCallCloseTag ++ x)) =
        r :: s ++ (gemma4ToolCallCloseTag ++ x) :=
      dropWhile_cons_of_neg (by simp [hr])
    have hnot : ¬gemma4ToolCallCloseTag <+: r :: s ++ (gemma4ToolCallCloseTag ++ x) := by
      intro hpre
      have ho : Occurs gemma4ToolCallCloseTag (r :: s ++ (gemma4ToolCallCloseTag ++ x)) 0 := hpre
      have hend := ho.apart (c := '<') (by decide) (by decide)
        (occurs_middle (r :: s) gemma4ToolCallCloseTag x) (Nat.zero_lt_succ _)
      exact hclose (prefix_of_prefix_length_le hpre (prefix_append _ _) (by omega))
    have hskip : skipNoise (r :: s ++ (gemma4ToolCallCloseTag ++ x)) =
        r :: s ++ (gemma4ToolCallCloseTag ++ x) := by
      rw [skipNoise_eq, htrim', if_neg hnot]
    rw [hskip, if_neg fun hpre => ?_]
    have := hpre.length_le
    simp only [length_append, length_cons] at this
    omega

theorem reading_noise_trimLeft (t : Text) :
    reading parseToolCall ⟨.ignoringPostToolCallNoise, trimLeft t, en, k⟩ =
      reading parseToolCall ⟨.ignoringPostToolCallNoise, t, en, k⟩ := by
  rw [reading_noise, reading_noise t, skipNoise_trimLeft]

theorem reading_content_trimLeft (t : Text) :
    reading parseToolCall ⟨.collectingContent, trimLeft t, en, k⟩ =
      reading parseToolCall ⟨.collectingContent, t, en, k⟩ := by
  obtain ⟨w, hw, ht⟩ := trimLeft_spec t
  conv_rhs => rw [ht]
  exact (reading_content_blank hw _).symm

theorem chars_toolCall_close (h : cut t gemma4ToolCallCloseTag = some (b, a)) :
    chars (reading parseToolCall ⟨.collectingToolCall, t, en, k⟩) =
      chars (reading parseToolCall ⟨.ignoringPostToolCallNoise, a, en, k⟩) := by
  rw [reading_toolCall_close h, chars_append, chars_toolCallEvent, Nat.zero_add,
    reading_noise_trimLeft]

/-- A tag ends the channel name. -/
theorem stripped_mark {tag : Text} (htag : Marked '<' tag) (d s : Text) :
    stripped (d ++ (tag ++ s)) = stripped d ++ (tag ++ s) := by
  by_cases hname : d <+: gemma4ChannelName → gemma4ChannelName <+: d
  · exact stripped_append hname _
  obtain ⟨hpre, hnot⟩ := Classical.not_imp.mp hname
  have hnot' : ¬gemma4ChannelName <+: d ++ (tag ++ s) := by
    intro hp
    have hlt : d.length < gemma4ChannelName.length := by
      by_contra hle
      exact hnot (prefix_of_prefix_length_le hp (prefix_append _ _) (by omega))
    have hc : (d ++ (tag ++ s))[d.length]? = some '<' := by
      have := (occurs_middle d tag s).getElem? (k := 0) (length_pos_iff.mpr htag.ne_nil)
      rwa [Nat.add_zero, htag.getElem?_zero] at this
    obtain ⟨u, hu⟩ := hp
    rw [← hu, getElem?_append_left hlt] at hc
    exact absurd (mem_of_getElem? hc) (by decide)
  unfold stripped
  rw [if_neg hnot, if_neg hnot']

/-- Where no thinking follows: a tool call and its noise leave no more than the noise. -/
theorem chars_noise_le_of_none (parseToolCall : Text → Except Error τ) (en k : Bool) :
    ∀ n (y : Text), y.length ≤ n →
    cut (y ++ (gemma4ToolCallCloseTag ++ x)) gemma4ThinkingOpenTag = none →
    chars (reading parseToolCall ⟨.ignoringPostToolCallNoise, x, en, k⟩) ≤
      chars (reading parseToolCall
        ⟨.collectingContent, y ++ (gemma4ToolCallCloseTag ++ x), en, k⟩) := by
  intro n
  induction n with
  | zero =>
    intro y hy hnone
    obtain rfl := length_eq_zero_iff.mp (Nat.le_zero.mp hy)
    rw [nil_append, reading_content_prepend fun tag htag i hi => not_occurs_closeTag htag hi,
      chars_append]
    exact (chars_noise_le _ _ _ x).trans (Nat.le_add_left _ _)
  | succ n ih =>
    intro y hy hnone
    have hx : cut x gemma4ThinkingOpenTag = none := by
      refine cut_none_of_suffix (by decide) hnone ⟨y ++ gemma4ToolCallCloseTag, ?_⟩
      rw [append_assoc]
    cases h : cut (y ++ (gemma4ToolCallCloseTag ++ x)) gemma4ToolCallOpenTag with
    | none =>
      rw [reading_content_plain hnone h, chars_ofContent]
      refine (chars_reading_le _).trans (visibleLen_le_of_suffix ?_)
      exact ⟨y ++ gemma4ToolCallCloseTag, append_assoc _ _ _⟩
    | some z =>
      rw [reading_content_toolCall hnone h, chars_append, chars_ofContent]
      rcases cut_marked (c := '<') (by decide) (by decide) (by decide) (by decide) h with
        ⟨d, hyd, ha⟩ | ⟨d, hxd, hb⟩
      · -- the tool call is opened in `y`: its text ends at a close tag in `y`, or at this one
        have hylen : y.length = z.1.length + gemma4ToolCallOpenTag.length + d.length := by
          rw [hyd, length_append, length_append]
          omega
        have htag : gemma4ToolCallOpenTag.length = 12 := by decide
        have hcut := cut_marked_self (c := '<') (t := gemma4ToolCallCloseTag) (x := d) (y := x)
          (by decide)
        cases hd : cut d gemma4ToolCallCloseTag with
        | none =>
          rw [hd] at hcut
          rw [ha, chars_toolCall_close hcut]
          omega
        | some e =>
          rw [hd] at hcut
          rw [ha, chars_toolCall_close hcut]
          have helen := cut_length (by decide) hd
          rcases reading_noise_close parseToolCall en k e.2 x with heq | ⟨y', hsuf, heq⟩
          · rw [heq]
            omega
          rw [heq]
          have hlen := hsuf.length_le
          obtain ⟨w, hw⟩ := hsuf
          have hnone' : cut (y' ++ (gemma4ToolCallCloseTag ++ x)) gemma4ThinkingOpenTag = none := by
            refine cut_none_of_suffix (by decide) hnone ⟨z.1 ++ (gemma4ToolCallOpenTag ++
              (e.1 ++ (gemma4ToolCallCloseTag ++ w))), ?_⟩
            rw [hyd, ((cut_eq_some (by decide)).mp hd).1, ← hw]
            simp only [append_assoc]
          have := ih y' (by omega) hnone'
          omega
      · -- it is opened after the close tag
        rw [hb, visibleLen_append, visibleLen_append]
        have hp : cut ((y ++ gemma4ToolCallCloseTag) ++ x) gemma4ToolCallOpenTag =
            some ((y ++ gemma4ToolCallCloseTag) ++ d, z.2) := by
          rw [append_assoc, append_assoc, ← hb]
          exact h
        have hle := chars_noise_le parseToolCall en k x
        rw [reading_content_toolCall hx (cut_tail (by decide) hp), chars_append,
          chars_ofContent] at hle
        omega

theorem reading_thinking_strip_mark {tag : Text} (htag : Marked '<' tag) (d s : Text) :
    reading parseToolCall ⟨.collectingThinking, d ++ (tag ++ s), en, true⟩ =
      reading parseToolCall ⟨.collectingThinking, stripped d ++ (tag ++ s), en, false⟩ := by
  rw [reading_thinking_strip, stripped_mark htag]

section

variable (parseToolCall : Text → Except Error τ)

/-- Reading a stretch of content in thinking, and the close tag with it, gives up no more
than the tag. -/
theorem chars_content_close_le (k : Bool) (y x : Text)
    (hclose : cut y gemma4ThinkingCloseTag = none) :
    chars (reading parseToolCall
        ⟨.collectingContent, y ++ (gemma4ThinkingCloseTag ++ x), true, k⟩) ≤
      visibleLen y + 10 + chars (reading parseToolCall ⟨.collectingContent, x, true, k⟩) := by
  have hvis : visibleLen gemma4ThinkingCloseTag = 10 := by decide
  induction hn : y.length using Nat.strong_induction_on generalizing y with
  | _ n ih =>
    cases h : cut (y ++ (gemma4ThinkingCloseTag ++ x)) gemma4ThinkingOpenTag with
    | some z =>
      rw [reading_content_thinking h, chars_append, chars_ofContent]
      rcases cut_marked (c := '<') (by decide) (by decide) (by decide) (by decide) h with
        ⟨d, hyd, ha⟩ | ⟨d, hxd, hb⟩
      · -- thinking is opened in `y`, and closed by the close tag
        have hsuf := stripped_suffix d
        have hdclose : cut (stripped d) gemma4ThinkingCloseTag = none := by
          refine cut_none_of_suffix (by decide) hclose (hsuf.trans ⟨z.1 ++ gemma4ThinkingOpenTag, ?_⟩)
          rw [hyd, append_assoc]
        have hcut := cut_marked_self (c := '<') (t := gemma4ThinkingCloseTag) (x := stripped d)
          (y := x) (by decide)
        rw [hdclose] at hcut
        rw [ha, reading_thinking_strip_mark (by decide), reading_thinking_close hcut,
          chars_append, chars_ofThinking, reading_content_trimLeft, reading_content_flag false k,
          hyd, visibleLen_append, visibleLen_append]
        have := visibleLen_le_of_suffix hsuf
        omega
      · have hp : cut ((y ++ gemma4ThinkingCloseTag) ++ x) gemma4ThinkingOpenTag =
            some ((y ++ gemma4ThinkingCloseTag) ++ d, z.2) := by
          rw [append_assoc, append_assoc, ← hb]
          exact h
        rw [reading_content_thinking (cut_tail (by decide) hp), chars_append, chars_ofContent, hb,
          visibleLen_append, visibleLen_append]
        omega
    | none =>
      have hx : cut x gemma4ThinkingOpenTag = none := by
        refine cut_none_of_suffix (by decide) h ⟨y ++ gemma4ThinkingCloseTag, ?_⟩
        rw [append_assoc]
      cases h' : cut (y ++ (gemma4ThinkingCloseTag ++ x)) gemma4ToolCallOpenTag with
      | none =>
        have hx' : cut x gemma4ToolCallOpenTag = none := by
          refine cut_none_of_suffix (by decide) h' ⟨y ++ gemma4ThinkingCloseTag, ?_⟩
          rw [append_assoc]
        rw [reading_content_plain h h', reading_content_plain hx hx', chars_ofContent,
          chars_ofContent, visibleLen_append, visibleLen_append]
        omega
      | some z =>
        rw [reading_content_toolCall h h', chars_append, chars_ofContent]
        rcases cut_marked (c := '<') (by decide) (by decide) (by decide) (by decide) h' with
          ⟨d, hyd, ha⟩ | ⟨d, hxd, hb⟩
        · cases hd : cut z.2 gemma4ToolCallCloseTag with
          | none =>
            rw [chars_reading_toolCall_plain hd, hyd, visibleLen_append]
            omega
          | some e =>
            rw [chars_toolCall_close hd]
            rw [ha] at hd
            have hylen : y.length = z.1.length + gemma4ToolCallOpenTag.length + d.length := by
              rw [hyd, length_append, length_append]
              omega
            have hyvis : visibleLen y = visibleLen z.1 + visibleLen gemma4ToolCallOpenTag +
                visibleLen d := by
              rw [hyd, visibleLen_append, visibleLen_append]
              omega
            rcases cut_marked (c := '<') (by decide) (by decide) (by decide) (by decide) hd with
              ⟨g, hdg, he⟩ | ⟨g, hxg, -⟩
            · -- the tool call is closed in `y` as well
              have hgsuf : g <:+ y := ⟨z.1 ++ (gemma4ToolCallOpenTag ++
                (e.1 ++ gemma4ToolCallCloseTag)), by rw [hyd, hdg]; simp only [append_assoc]⟩
              have hdlen : d.length = e.1.length + gemma4ToolCallCloseTag.length + g.length := by
                rw [hdg, length_append, length_append]
                omega
              have htag : gemma4ToolCallCloseTag.length = 12 := by decide
              have hg := ih g.length (by omega) g (cut_none_of_suffix (by decide) hclose hgsuf) rfl
              have hnoise := chars_noise_le parseToolCall true k e.2
              rw [he] at hnoise ⊢
              have hgvis := visibleLen_le_of_suffix (show g <:+ d from ⟨e.1 ++
                gemma4ToolCallCloseTag, by rw [hdg, append_assoc]⟩)
              omega
            · -- it is closed after the close tag
              have hnone : cut (g ++ (gemma4ToolCallCloseTag ++ e.2)) gemma4ThinkingOpenTag =
                  none := hxg ▸ hx
              have hnoise := chars_noise_le_of_none parseToolCall true k g.length g
                (Nat.le_refl _) hnone
              rw [← hxg] at hnoise
              omega
        · have hp : cut ((y ++ gemma4ThinkingCloseTag) ++ x) gemma4ToolCallOpenTag =
              some ((y ++ gemma4ThinkingCloseTag) ++ d, z.2) := by
            rw [append_assoc, append_assoc, ← hb]
            exact h'
          rw [reading_content_toolCall hx (cut_tail (by decide) hp), chars_append,
            chars_ofContent, hb, visibleLen_append, visibleLen_append]
          omega

/-- A tool call and its noise leave no more than what would be returned of the text around
its close tag. -/
theorem chars_noise_le_close (x : Text) :
    ∀ n (y : Text), y.length ≤ n →
    (∀ k, chars (reading parseToolCall ⟨.ignoringPostToolCallNoise, x, true, k⟩) ≤
      chars (reading parseToolCall
        ⟨.collectingContent, y ++ (gemma4ToolCallCloseTag ++ x), true, k⟩)) ∧
    ∀ k, chars (reading parseToolCall ⟨.ignoringPostToolCallNoise, x, true, k⟩) ≤
      chars (reading parseToolCall
        ⟨.collectingThinking, y ++ (gemma4ToolCallCloseTag ++ x), true, false⟩) := by
  have hsuf : ∀ y : Text, x <:+ y ++ (gemma4ToolCallCloseTag ++ x) := fun y =>
    ⟨y ++ gemma4ToolCallCloseTag, append_assoc _ _ _⟩
  intro n
  induction n using Nat.strong_induction_on with
  | _ n ih =>
    intro y hy
    refine ⟨fun k => ?_, fun k => ?_⟩
    · cases h : cut (y ++ (gemma4ToolCallCloseTag ++ x)) gemma4ThinkingOpenTag with
      | none => exact chars_noise_le_of_none parseToolCall true k _ y (Nat.le_refl _) h
      | some z =>
        rw [reading_content_thinking h, chars_append, chars_ofContent]
        rcases cut_marked (c := '<') (by decide) (by decide) (by decide) (by decide) h with
          ⟨d, hyd, ha⟩ | ⟨d, hxd, hb⟩
        · -- thinking is opened in `y`
          have hlen := (stripped_suffix d).length_le
          have hylen : y.length = z.1.length + gemma4ThinkingOpenTag.length + d.length := by
            rw [hyd, length_append, length_append]
            omega
          have htag : gemma4ThinkingOpenTag.length = 10 := by decide
          rw [ha, reading_thinking_strip_mark (by decide)]
          have := (ih (stripped d).length (by omega) (stripped d) (Nat.le_refl _)).2 k
          omega
        · have hp : cut ((y ++ gemma4ToolCallCloseTag) ++ x) gemma4ThinkingOpenTag =
              some ((y ++ gemma4ToolCallCloseTag) ++ d, z.2) := by
            rw [append_assoc, append_assoc, ← hb]
            exact h
          have hle := chars_noise_le parseToolCall true k x
          rw [reading_content_thinking (cut_tail (by decide) hp), chars_append,
            chars_ofContent] at hle
          rw [hb, visibleLen_append, visibleLen_append]
          omega
    · cases h : cut (y ++ (gemma4ToolCallCloseTag ++ x)) gemma4ThinkingCloseTag with
      | none =>
        rw [reading_thinking_plain h, chars_ofThinking]
        exact (chars_reading_le _).trans (visibleLen_le_of_suffix (hsuf y))
      | some z =>
        rw [reading_thinking_close h, chars_append, chars_ofThinking, reading_content_trimLeft,
          reading_content_flag false k]
        rcases cut_marked (c := '<') (by decide) (by decide) (by decide) (by decide) h with
          ⟨d, hyd, ha⟩ | ⟨d, hxd, hb⟩
        · have hylen : y.length = z.1.length + gemma4ThinkingCloseTag.length + d.length := by
            rw [hyd, length_append, length_append]
            omega
          have htag : gemma4ThinkingCloseTag.length = 10 := by decide
          rw [ha]
          have := (ih d.length (by omega) d (Nat.le_refl _)).1 k
          omega
        · -- thinking goes on past the close tag of the tool call
          have hdclose : cut d gemma4ThinkingCloseTag = none := by
            have hbclose := cut_before (by decide) h
            rw [hb, ← append_assoc] at hbclose
            exact cut_none_of_suffix (by decide) hbclose (suffix_append _ _)
          have hle := chars_noise_le parseToolCall true k x
          have hback := chars_content_close_le parseToolCall k d z.2 hdclose
          have hvis : visibleLen gemma4ToolCallCloseTag = 12 := by decide
          rw [hb, visibleLen_append, visibleLen_append, hvis]
          rw [hxd] at hle ⊢
          omega

/-- **The tag is counted.** Where a tool call is opened before a thinking tag, reading the
text from there as content returns more than reading it as a tool call. -/
theorem chars_toolCall_lt (k : Bool)
    (h : cut (gemma4ToolCallOpenTag ++ y) gemma4ThinkingOpenTag = some (b, a)) :
    chars (reading parseToolCall ⟨.collectingToolCall, y, true, k⟩) <
      chars (reading parseToolCall ⟨.collectingContent, gemma4ToolCallOpenTag ++ y, true, k⟩) := by
  have hvis : visibleLen gemma4ToolCallOpenTag = 12 := by decide
  rw [reading_content_thinking h, chars_append, chars_ofContent]
  have h' : cut ([] ++ (gemma4ToolCallOpenTag ++ y)) gemma4ThinkingOpenTag = some (b, a) := h
  rcases cut_marked (c := '<') (by decide) (by decide) (by decide) (by decide) h' with
    ⟨d, hnil, -⟩ | ⟨d, hyd, hb⟩
  · have := congrArg List.length hnil
    have htag : gemma4ThinkingOpenTag.length = 10 := by decide
    rw [length_append, length_append, length_nil] at this
    omega
  rw [nil_append] at hb
  have hbefore : cut d gemma4ThinkingOpenTag = none := by
    have hbclose := cut_before (by decide) h
    rw [hb] at hbclose
    exact cut_none_of_suffix (by decide) hbclose (suffix_append _ _)
  rw [hb, visibleLen_append, hvis]
  cases hd : cut y gemma4ToolCallCloseTag with
  | none =>
    rw [chars_reading_toolCall_plain hd]
    omega
  | some e =>
    rw [chars_toolCall_close hd]
    rw [hyd] at hd
    rcases cut_marked (c := '<') (by decide) (by decide) (by decide) (by decide) hd with
      ⟨g, hdg, he⟩ | ⟨g, hag, -⟩
    · -- the tool call is closed before thinking is opened
      have hgsuf : g <:+ d := ⟨e.1 ++ gemma4ToolCallCloseTag, by rw [hdg, append_assoc]⟩
      have hcut := cut_marked_self (c := '<') (t := gemma4ThinkingOpenTag) (x := g) (y := a)
        (by decide)
      rw [cut_none_of_suffix (by decide) hbefore hgsuf] at hcut
      have hle := chars_noise_le parseToolCall true k e.2
      rw [he, reading_content_thinking hcut, chars_append, chars_ofContent] at hle
      rw [he]
      have := visibleLen_le_of_suffix hgsuf
      omega
    · -- it would be closed inside the thinking
      have hle := (chars_noise_le_close parseToolCall e.2 _ (stripped g) (Nat.le_refl _)).2 k
      rw [← reading_thinking_strip_mark (by decide), ← hag] at hle
      omega

/-! ## §3  The cut after the tag -/

/-- Where a tool call is opened before a thinking tag, the text can be cut after its tag,
and the parser then takes the tool call for one. -/
theorem exists_toolCall_cut (t : Text) (k : Bool)
    (h : ¬ToolCallsLast t) :
    ∃ x y es k', t = x ++ y ∧ parseEvents parseToolCall false ⟨.collectingContent, x, true, k⟩ =
        (es, ⟨.collectingToolCall, [], true, k'⟩) ∧
      reading parseToolCall ⟨.collectingContent, t, true, k⟩ = (collect true es).seen ++
        reading parseToolCall ⟨.collectingContent, gemma4ToolCallOpenTag ++ y, true, k'⟩ ∧
      ∃ b a, cut (gemma4ToolCallOpenTag ++ y) gemma4ThinkingOpenTag = some (b, a) := by
  induction hn : t.length using Nat.strong_induction_on generalizing t k with
  | _ n ih =>
    cases hcut : cut t gemma4ThinkingOpenTag with
    | none => exact absurd (.plain hcut) h
    | some z =>
      obtain ⟨b, a⟩ := z
      have ht := ((cut_eq_some (by decide)).mp hcut).1
      have hb := cut_before (by decide) hcut
      cases hbtool : cut b gemma4ToolCallOpenTag with
      | some z =>
        -- the cut is after this tag
        obtain ⟨b₁, b₂⟩ := z
        have hbsplit := ((cut_eq_some (by decide)).mp hbtool).1
        have hthink : cut (b₁ ++ gemma4ToolCallOpenTag) gemma4ThinkingOpenTag = none := by
          refine cut_none_of_front (by decide) hb ⟨b₂, ?_⟩
          rw [hbsplit, append_assoc]
        have htool : cut (b₁ ++ gemma4ToolCallOpenTag) gemma4ToolCallOpenTag = some (b₁, []) := by
          have hself := cut_marked_self (c := '<') (t := gemma4ToolCallOpenTag) (x := b₁) (y := [])
            (by decide)
          rw [cut_before (by decide) hbtool, append_nil] at hself
          exact hself
        have hrest : cut (gemma4ToolCallOpenTag ++ (b₂ ++ (gemma4ThinkingOpenTag ++ a)))
            gemma4ThinkingOpenTag = some (gemma4ToolCallOpenTag ++ b₂, a) := by
          refine cut_tail (p := b₁) (by decide) ?_
          rw [← hbsplit, ← hcut, ht, hbsplit]
          simp only [append_assoc]
        refine ⟨b₁ ++ gemma4ToolCallOpenTag, b₂ ++ (gemma4ThinkingOpenTag ++ a),
          contentEvent (trimRight b₁) ++ [], k, ?_, ?_, ?_, _, _, hrest⟩
        · rw [ht, hbsplit]
          simp only [append_assoc]
        · rw [parseEvents_more (eat_content_toolCall hthink htool), parseEvents_last (eat_nil _ rfl)]
        · rw [reading_content_thinking hcut, reading_content_thinking hrest, append_nil,
            seen_contentEvent_trimRight, ← Response.append_assoc, ← ofContent_append, hbsplit]
      | none =>
        -- the thinking is closed, and the tag is in what follows it
        obtain ⟨th, c, hclose, hc⟩ : ∃ th c, cut a gemma4ThinkingCloseTag = some (th, c) ∧
            ¬ToolCallsLast c := by
          by_contra hall
          refine h (.thinking hcut hbtool fun th c hclose => ?_)
          by_contra hc
          exact hall ⟨th, c, hclose, hc⟩
        obtain ⟨w, hw, hcw⟩ := trimLeft_spec c
        have hc' : ¬ToolCallsLast (trimLeft c) := fun hlast =>
          hc (hcw ▸ hlast.blank_append hw)
        have hlen := cut_length (by decide) hcut
        have hlen' := cut_length (by decide) hclose
        have htrim := trimLeft_length_le c
        have htag : gemma4ThinkingOpenTag.length = 10 := by decide
        obtain ⟨x, y, es, k', hxy, hparse, hreading, hrest⟩ :=
          ih (trimLeft c).length (by omega) (trimLeft c) false hc' rfl
        have ha := ((cut_eq_some (by decide)).mp hclose).1
        have hthclose := cut_none_of_suffix (by decide) (cut_before (by decide) hclose)
          (stripped_suffix th)
        have hx : trimLeft (w ++ x) = x := by
          rw [trimLeft_append_of_blank hw]
          refine trimLeft_of_prefix ⟨y, hxy.symm⟩ ?_
          have hidem := trimLeft_append c []
          rwa [append_nil, append_nil] at hidem
        have hself := cut_marked_self (c := '<') (t := gemma4ThinkingOpenTag) (x := b)
          (y := th ++ (gemma4ThinkingCloseTag ++ (w ++ x))) (by decide)
        rw [hb] at hself
        have hself' : ∀ u, cut (stripped th ++ (gemma4ThinkingCloseTag ++ u))
            gemma4ThinkingCloseTag = some (stripped th, u) := by
          intro u
          have hs := cut_marked_self (c := '<') (t := gemma4ThinkingCloseTag) (x := stripped th)
            (y := u) (by decide)
          rwa [hthclose] at hs
        have hmem : '<' ∈ th ++ (gemma4ThinkingCloseTag ++ (w ++ x)) :=
          mem_append_right _ (mem_append_left _ (by decide))
        have hstrip : eat parseToolCall false ⟨.collectingThinking,
              th ++ (gemma4ThinkingCloseTag ++ (w ++ x)), true, true⟩ =
            eat parseToolCall false ⟨.collectingThinking,
              stripped (th ++ (gemma4ThinkingCloseTag ++ (w ++ x))), true, false⟩ :=
          eat_thinking_strip (ne_nil_of_mem hmem)
            fun _ hpre => absurd (hpre.subset hmem) (by decide)
        refine ⟨b ++ (gemma4ThinkingOpenTag ++ (th ++ (gemma4ThinkingCloseTag ++ (w ++ x)))), y,
          contentEvent (trimRight b) ++ (thinkingEvent (trimRight (stripped th)) ++ es), k', ?_, ?_,
          ?_, hrest⟩
        · rw [ht, ha, hcw, hxy]
          simp only [append_assoc]
        · rw [stripped_mark (by decide), eat_thinking_close (hself' _), hx] at hstrip
          rw [parseEvents_more (eat_content_thinking hself), parseEvents_more hstrip, hparse]
        · rw [reading_content_thinking hcut, ha, reading_thinking_strip_mark (by decide),
            reading_thinking_close (hself' c), hreading, collect_append, collect_append,
            Response.seen_append, Response.seen_append, seen_contentEvent_trimRight,
            seen_thinkingEvent_trimRight, Response.append_assoc, Response.append_assoc]

end

/-! ## §4  Every cut -/

theorem outcome_content_of_plain (p : Gemma4Parser) (chunks : List Text) (hne : chunks ≠ [])
    (hp : p = init en) (h : cut chunks.flatten gemma4ThinkingOpenTag = none)
    (h' : cut chunks.flatten gemma4ToolCallOpenTag = none) :
    outcome (add parseToolCall) p chunks = ofContent chunks.flatten := by
  subst hp
  have happ : Apart (feed (init en) chunks.flatten) := ToolCallsLast.plain h
  rw [outcome_eq_reading chunks _ hne happ]
  exact reading_content_plain h h'

/-- **Every cut.** For every text, every cut of it gives what the whole text in one call
gives, with thinking support on and off, and loses nothing of a text without tags, if and
only if no tool call is opened before a thinking tag in one stretch of content. -/
theorem chunk_independent_iff (parseToolCall : Text → Except Error τ) (text : Text) :
    (∀ (hasThinkingSupport : Bool) (chunks : List Text), chunks ≠ [] → chunks.flatten = text →
      outcome (add parseToolCall) (init hasThinkingSupport) chunks =
        outcome (add parseToolCall) (init hasThinkingSupport) [text] ∧
      ((∀ tag ∈ [gemma4ThinkingOpenTag, gemma4ThinkingCloseTag, gemma4ToolCallOpenTag,
          gemma4ToolCallCloseTag], cut text tag = none) →
        (outcome (add parseToolCall) (init hasThinkingSupport) chunks).content = visible text)) ↔
    ToolCallsLast text := by
  constructor
  · intro hall
    by_contra hnot
    obtain ⟨x, y, es, k, rfl, hparse, hreading, b, a, hcut⟩ :=
      exists_toolCall_cut parseToolCall text false hnot
    have hxy : ([x, y] : List Text).flatten = x ++ y := by
      rw [flatten_cons, flatten_cons, flatten_nil, append_nil]
    have heq := (hall true [x, y] (cons_ne_nil _ _) hxy).1
    rw [outcome_cons, outcome_last, outcome_last] at heq
    have hfeed : feed (init true) x = ⟨.collectingContent, x, true, false⟩ := rfl
    have hfeed' : feed (init true) (x ++ y) = ⟨.collectingContent, x ++ y, true, false⟩ := rfl
    rw [hfeed, hfeed', hparse, hreading] at heq
    have hchars := congrArg chars heq
    rw [chars_append, chars_append] at hchars
    have hlt := chars_toolCall_lt parseToolCall k hcut
    have hsame : chars (reading parseToolCall (feed ⟨.collectingToolCall, [], true, k⟩ y)) =
        chars (reading parseToolCall ⟨.collectingToolCall, y, true, k⟩) := rfl
    change chars (collect true es).seen + chars (reading parseToolCall
      (feed ⟨.collectingToolCall, [], true, k⟩ y)) = _ at hchars
    omega
  · rintro h en chunks hne rfl
    have happ : Apart (feed (init en) chunks.flatten) := h
    refine ⟨?_, fun htags => ?_⟩
    · rw [outcome_eq_reading chunks _ hne happ, outcome_last]
    · rw [outcome_content_of_plain _ chunks hne rfl (htags _ (by decide)) (htags _ (by decide))]
      rfl

/-- The name of a tool call without arguments. -/
def bareCall (content : Text) : Except Error Text :=
  if content = "call:f\x7b\x7d".toList then .ok "f".toList
  else .error "expected 'call:' prefix"

/-- A tool call that thinking follows is read as a tool call when its chunk ends before
the thinking tag, and returned as content when it does not. -/
theorem tool_call_read_as_content :
    ¬ ∀ (text : Text) (hasThinkingSupport : Bool) (chunks : List Text), chunks ≠ [] →
      chunks.flatten = text →
      outcome (add bareCall) (init hasThinkingSupport) chunks =
        outcome (add bareCall) (init hasThinkingSupport) [text] := by
  intro hall
  have h := hall _ true ["<|tool_call>call:f\x7b\x7d<tool_call|>".toList,
    "<|channel>thought\nb".toList] (by decide) rfl
  revert h
  decide +kernel

end Gemma4Parser

end Ollama.Parsers
