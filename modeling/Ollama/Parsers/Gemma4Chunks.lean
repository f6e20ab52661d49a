import Ollama.Parsers.Gemma4

/-!
# Gemma4 reads chunks as it reads the whole text

What a parser returns for all the text to come is its reading. A turn of the loop, on
what has arrived so far, takes off the reading what it returns.
-/

namespace Ollama.Parsers

open Lib List

namespace Gemma4Parser

variable {τ : Type} {parseToolCall : Text → Except Error τ} {p q : Gemma4Parser}
  {done en k : Bool} {t b a : Text}

/-! ## §1  Turns -/

theorem eat_nil (done : Bool) (h : p.buffer = []) : eat parseToolCall done p = ([], p, false) :=
  if_pos h

theorem ne_nil_of_cut {tag : Text} (htag : 0 < tag.length) (h : cut t tag = some (b, a)) :
    t ≠ [] := by
  rintro rfl
  have := cut_length (ne_nil_of_length_pos htag) h
  rw [length_nil] at this
  omega

theorem eat_content_thinking (h : cut t gemma4ThinkingOpenTag = some (b, a)) :
    eat parseToolCall done ⟨.collectingContent, t, en, k⟩ =
      (contentEvent (trimRight b), ⟨.collectingThinking, a, en, true⟩, true) := by
  unfold eat
  rw [if_neg (ne_nil_of_cut (by decide) h)]
  unfold eatContent
  rw [h]

theorem eat_content_toolCall (h : cut t gemma4ThinkingOpenTag = none)
    (h' : cut t gemma4ToolCallOpenTag = some (b, a)) :
    eat parseToolCall done ⟨.collectingContent, t, en, k⟩ =
      (contentEvent (trimRight b), ⟨.collectingToolCall, a, en, k⟩, true) := by
  unfold eat
  rw [if_neg (ne_nil_of_cut (by decide) h')]
  unfold eatContent
  rw [h, h']

theorem overlap_le_longestOverlap {s : Text} {tags : List Text} {tag : Text} (h : tag ∈ tags) :
    overlap s tag ≤ longestOverlap s tags := by
  have hgen : ∀ tags : List Text, ∀ n, (n ≤ tags.foldl (fun m tag => max m (overlap s tag)) n) ∧
      ∀ tag ∈ tags, overlap s tag ≤ tags.foldl (fun m tag => max m (overlap s tag)) n := by
    intro tags
    induction tags with
    | nil => exact fun n => ⟨Nat.le_refl n, fun _ h => absurd h not_mem_nil⟩
    | cons x tags ih =>
      intro n
      obtain ⟨hle, hmem⟩ := ih (max n (overlap s x))
      refine ⟨(Nat.le_max_left _ _).trans hle, fun tag htag => ?_⟩
      rcases mem_cons.mp htag with rfl | htag
      · exact (Nat.le_max_right _ _).trans hle
      · exact hmem tag htag
  exact (hgen tags 0).2 tag h

theorem longestOverlap_le (s : Text) (tags : List Text) : longestOverlap s tags ≤ s.length := by
  have hgen : ∀ tags : List Text, ∀ n, n ≤ s.length →
      tags.foldl (fun m tag => max m (overlap s tag)) n ≤ s.length := by
    intro tags
    induction tags with
    | nil => exact fun n hn => hn
    | cons x tags ih => exact fun n hn => ih _ (Nat.max_le.mpr ⟨hn, overlap_le_left s x⟩)
  exact hgen tags 0 (Nat.zero_le _)

/-- Without a tag some text is returned, and the end of it that may begin one is kept. -/
theorem eat_content_plain (parseToolCall : Text → Except Error τ) (done en k : Bool)
    (h : cut t gemma4ThinkingOpenTag = none)
    (h' : cut t gemma4ToolCallOpenTag = none) :
    ∃ d x, t = d ++ x ∧ eat parseToolCall done ⟨.collectingContent, t, en, k⟩ =
        (contentEvent d, ⟨.collectingContent, x, en, k⟩, false) ∧
      (done = true → x = []) ∧
      (done = false → ∀ tag ∈ [gemma4ThinkingOpenTag, gemma4ToolCallOpenTag],
        overlap t tag ≤ x.length) := by
  by_cases hne : t = []
  · refine ⟨[], [], hne, ?_, fun _ => rfl, fun _ tag _ => ?_⟩
    · subst hne
      exact eat_nil done rfl
    · have := overlap_le_left t tag
      rwa [hne] at this ⊢
  · have heat : eat parseToolCall done ⟨.collectingContent, t, en, k⟩ =
        eatContent done ⟨.collectingContent, t, en, k⟩ := if_neg hne
    rw [heat]
    unfold eatContent
    rw [h, h']
    by_cases hov : done = false ∧
        0 < longestOverlap t [gemma4ThinkingOpenTag, gemma4ToolCallOpenTag]
    · rw [if_pos hov]
      refine ⟨_, _, (take_append_drop _ t).symm, rfl, fun hd => ?_, fun _ tag htag => ?_⟩
      · rw [hd] at hov
        exact absurd hov.1 (by decide)
      · obtain ⟨w, x, -, hx, -, hdrop⟩ := ambiguousStart_spec (longestOverlap_le t
          [gemma4ThinkingOpenTag, gemma4ToolCallOpenTag])
        have := overlap_le_longestOverlap (s := t) htag
        rw [hdrop, length_append]
        omega
    · rw [if_neg hov]
      refine ⟨t, [], (append_nil t).symm, rfl, fun _ => rfl, fun hd tag htag => ?_⟩
      have := overlap_le_longestOverlap (s := t) htag
      have hzero : ¬0 < longestOverlap t [gemma4ThinkingOpenTag, gemma4ToolCallOpenTag] :=
        fun hlt => hov ⟨hd, hlt⟩
      omega

theorem eat_thinking_close (h : cut t gemma4ThinkingCloseTag = some (b, a)) :
    eat parseToolCall done ⟨.collectingThinking, t, en, false⟩ =
      (thinkingEvent (trimRight b), ⟨.collectingContent, trimLeft a, en, false⟩, true) := by
  unfold eat
  rw [if_neg (ne_nil_of_cut (by decide) h)]
  show eatThought done _ = _
  unfold eatThought
  rw [h]

theorem eat_thinking_plain (parseToolCall : Text → Except Error τ) (done en : Bool)
    (h : cut t gemma4ThinkingCloseTag = none) :
    ∃ d x, t = d ++ x ∧ eat parseToolCall done ⟨.collectingThinking, t, en, false⟩ =
        (thinkingEvent d, ⟨.collectingThinking, x, en, false⟩, false) ∧
      (done = true → x = []) ∧
      (done = false → overlap t gemma4ThinkingCloseTag ≤ x.length) := by
  by_cases hne : t = []
  · refine ⟨[], [], hne, ?_, fun _ => rfl, fun _ => ?_⟩
    · subst hne
      exact eat_nil done rfl
    · have := overlap_le_left t gemma4ThinkingCloseTag
      rwa [hne] at this ⊢
  · have heat : eat parseToolCall done ⟨.collectingThinking, t, en, false⟩ =
        eatThought done ⟨.collectingThinking, t, en, false⟩ := if_neg hne
    rw [heat]
    unfold eatThought
    rw [h]
    cases done with
    | true => exact ⟨t, [], (append_nil t).symm, rfl, fun _ => rfl, nofun⟩
    | false =>
      refine ⟨_, _, (take_append_drop _ t).symm, rfl, nofun, fun _ => ?_⟩
      obtain ⟨w, x, -, hx, -, hdrop⟩ :=
        ambiguousStart_spec (overlap_le_left t gemma4ThinkingCloseTag)
      rw [hdrop, length_append]
      omega

theorem eat_toolCall_close (h : cut t gemma4ToolCallCloseTag = some (b, a)) :
    eat parseToolCall done ⟨.collectingToolCall, t, en, k⟩ =
      (toolCallEvent parseToolCall b, ⟨.ignoringPostToolCallNoise, trimLeft a, en, k⟩, true) := by
  unfold eat
  rw [if_neg (ne_nil_of_cut (by decide) h)]
  unfold eatToolCall
  rw [h]

theorem eat_toolCall_plain (h : cut t gemma4ToolCallCloseTag = none) :
    eat parseToolCall false ⟨.collectingToolCall, t, en, k⟩ =
      ([], ⟨.collectingToolCall, t, en, k⟩, false) := by
  by_cases hne : t = []
  · exact eat_nil false hne
  unfold eat
  rw [if_neg hne]
  unfold eatToolCall
  rw [h]
  exact if_neg fun hd => Bool.false_ne_true hd.1

def stripped (t : Text) : Text :=
  if gemma4ChannelName <+: t then t.drop gemma4ChannelName.length else t

theorem eatThought_nil (done en k : Bool) :
    eatThought (τ := τ) done ⟨.collectingThinking, [], en, k⟩ =
      ([], ⟨.collectingThinking, [], en, k⟩, false) := by
  cases done <;> rfl

/-- Once the channel name is there, or cannot come any more, it is cut off. -/
theorem eat_thinking_strip (hne : t ≠ [])
    (h : done = false → t <+: gemma4ChannelName → gemma4ChannelName <+: t) :
    eat parseToolCall done ⟨.collectingThinking, t, en, true⟩ =
      eat parseToolCall done ⟨.collectingThinking, stripped t, en, false⟩ := by
  have hstrip : stripChannelName done ⟨.collectingThinking, t, en, true⟩ =
      some ⟨.collectingThinking, stripped t, en, false⟩ := by
    unfold stripChannelName stripped
    rw [if_pos rfl]
    by_cases hname : gemma4ChannelName <+: t
    · rw [if_pos hname, if_pos hname]
    rw [if_neg hname, if_neg hname]
    refine if_neg fun hwait => hname (h hwait.1 ?_)
    rcases hwait.2 with heq | hpre
    · rw [show t = "thought".toList from heq]
      decide
    · exact hpre
  have heat : eat parseToolCall done ⟨.collectingThinking, t, en, true⟩ =
      eatThought done ⟨.collectingThinking, stripped t, en, false⟩ := by
    unfold eat
    rw [if_neg hne]
    unfold eatThinking
    rw [hstrip]
  rw [heat]
  by_cases hs : stripped t = []
  · rw [hs, eatThought_nil]
    exact (eat_nil done rfl).symm
  · exact (if_neg hs).symm

theorem eat_thinking_wait (hpre : t <+: gemma4ChannelName) (hname : ¬gemma4ChannelName <+: t) :
    eat parseToolCall false ⟨.collectingThinking, t, en, true⟩ =
      ([], ⟨.collectingThinking, t, en, true⟩, false) := by
  by_cases hne : t = []
  · exact eat_nil false hne
  have hstrip : stripChannelName false ⟨.collectingThinking, t, en, true⟩ = none := by
    unfold stripChannelName
    rw [if_pos rfl, if_neg hname]
    exact if_pos ⟨rfl, Or.inr hpre⟩
  unfold eat
  rw [if_neg hne]
  unfold eatThinking
  rw [hstrip]

/-! Noise after a tool call. -/

theorem skipCloseTags_enough : ∀ n m (s : Text), s.length ≤ n → s.length ≤ m →
    skipCloseTags n s = skipCloseTags m s := by
  have htag : gemma4ToolCallCloseTag.length = 12 := by decide
  intro n
  induction n with
  | zero =>
    intro m s hn hm
    have hs : s = [] := length_eq_zero_iff.mp (Nat.le_zero.mp hn)
    subst hs
    cases m with
    | zero => rfl
    | succ m => exact (if_neg (by decide)).symm
  | succ n ih =>
    intro m s hn hm
    by_cases hpre : gemma4ToolCallCloseTag <+: s
    · have hlen := hpre.length_le
      obtain ⟨m, rfl⟩ := Nat.exists_eq_succ_of_ne_zero (by omega : m ≠ 0)
      unfold skipCloseTags
      rw [if_pos hpre, if_pos hpre]
      have htrim := trimLeft_length_le (s.drop gemma4ToolCallCloseTag.length)
      rw [length_drop] at htrim
      exact ih m _ (by omega) (by omega)
    · unfold skipCloseTags
      rw [if_neg hpre]
      cases m with
      | zero => rfl
      | succ m => exact (if_neg hpre).symm

theorem skipNoise_eq (s : Text) : skipNoise s =
      if gemma4ToolCallCloseTag <+: trimLeft s then
        skipNoise ((trimLeft s).drop gemma4ToolCallCloseTag.length)
      else trimLeft s := by
  have htag : gemma4ToolCallCloseTag.length = 12 := by decide
  have hle := trimLeft_length_le s
  unfold skipNoise
  split
  · next hpre =>
    have hlen := hpre.length_le
    obtain ⟨n, hn⟩ := Nat.exists_eq_succ_of_ne_zero (by omega : s.length ≠ 0)
    have htrim := trimLeft_length_le ((trimLeft s).drop gemma4ToolCallCloseTag.length)
    rw [length_drop] at htrim
    rw [hn, skipCloseTags, if_pos hpre, length_drop]
    exact skipCloseTags_enough _ _ _ (by omega) (by omega)
  · next hpre =>
    cases s.length with
    | zero => rfl
    | succ n => exact if_neg hpre

theorem skipNoise_trimLeft (s : Text) : skipNoise (trimLeft s) = skipNoise s := by
  have hidem : trimLeft (trimLeft s) = trimLeft s := by
    have h := trimLeft_append s []
    rwa [append_nil, append_nil] at h
  rw [skipNoise_eq, skipNoise_eq s, hidem]

/-- The text after the noise begins with something else. -/
theorem skipNoise_spec (s : Text) :
    trimLeft (skipNoise s) = skipNoise s ∧ ¬gemma4ToolCallCloseTag <+: skipNoise s := by
  have htag : gemma4ToolCallCloseTag.length = 12 := by decide
  induction hn : s.length using Nat.strong_induction_on generalizing s with
  | _ n ih =>
    rw [skipNoise_eq]
    split
    · next hpre =>
      have hlen := hpre.length_le
      have hle := trimLeft_length_le s
      refine ih ((trimLeft s).drop gemma4ToolCallCloseTag.length).length ?_ _ rfl
      rw [length_drop]
      omega
    · next hpre =>
      have h := trimLeft_append s []
      rw [append_nil, append_nil] at h
      exact ⟨h, hpre⟩

/-- Noise can be skipped as it comes. -/
theorem skipNoise_append (s u : Text) : skipNoise (skipNoise s ++ u) = skipNoise (s ++ u) := by
  have htag : gemma4ToolCallCloseTag.length = 12 := by decide
  induction hn : s.length using Nat.strong_induction_on generalizing s with
  | _ n ih =>
    rw [skipNoise_eq s]
    split
    · next hpre =>
      have hlen := hpre.length_le
      have hle := trimLeft_length_le s
      rw [ih _ (by rw [length_drop]; omega) _ rfl]
      have htrim : trimLeft (s ++ u) = trimLeft s ++ u := by
        rw [← trimLeft_append]
        obtain ⟨y, hy⟩ := hpre
        rw [← hy]
        rfl
      rw [skipNoise_eq (s ++ u), htrim, if_pos (hpre.trans (prefix_append _ _)),
        drop_append_of_le_length hlen]
    · rw [skipNoise_eq, trimLeft_append, ← skipNoise_eq]

theorem eat_noise_wait (parseToolCall : Text → Except Error τ) (done en k : Bool)
    (h : skipNoise t <+: gemma4ToolCallCloseTag) :
    ∃ q, eat parseToolCall done ⟨.ignoringPostToolCallNoise, t, en, k⟩ = ([], q, false) ∧
      q.thinkingEnabled = en ∧
      (done = false → q = ⟨.ignoringPostToolCallNoise, skipNoise t, en, k⟩) := by
  by_cases hne : t = []
  · subst hne
    exact ⟨_, eat_nil done rfl, rfl, fun _ => rfl⟩
  have heat : eat parseToolCall done ⟨.ignoringPostToolCallNoise, t, en, k⟩ =
      eatNoise done ⟨.ignoringPostToolCallNoise, t, en, k⟩ := if_neg hne
  rw [heat]
  unfold eatNoise
  by_cases hs : skipNoise t = []
  · rw [if_pos hs, hs]
    exact ⟨_, rfl, rfl, fun _ => rfl⟩
  · rw [if_neg hs, if_pos h]
    cases done with
    | true => exact ⟨_, rfl, rfl, nofun⟩
    | false => exact ⟨_, rfl, rfl, fun _ => rfl⟩

theorem eat_noise_content (h : ¬skipNoise t <+: gemma4ToolCallCloseTag) :
    eat parseToolCall done ⟨.ignoringPostToolCallNoise, t, en, k⟩ =
      ([], ⟨.collectingContent, skipNoise t, en, k⟩, true) := by
  have hs : skipNoise t ≠ [] := fun hnil => h (hnil ▸ List.nil_prefix)
  have hne : t ≠ [] := by
    rintro rfl
    exact hs rfl
  unfold eat
  rw [if_neg hne]
  unfold eatNoise
  rw [if_neg hs, if_neg h]

/-! ## §2  Readings -/

theorem collect_append (thinkingEnabled : Bool) (es es' : List (Gemma4Event τ)) :
    collect thinkingEnabled (es ++ es') =
      collect thinkingEnabled es ++ collect thinkingEnabled es' := by
  induction es with
  | nil => rfl
  | cons e es ih =>
    cases e <;> simp only [cons_append, collect, ih, Response.append_assoc]

def ofContent (s : Text) : Response τ := ⟨visible s, [], [], none⟩

def ofThinking (thinkingEnabled : Bool) (s : Text) : Response τ :=
  ⟨[], if thinkingEnabled then visible s else [], [], none⟩

theorem ofContent_append (s u : Text) :
    (ofContent (s ++ u) : Response τ) = ofContent s ++ ofContent u :=
  Response.ext' (visible_append s u) rfl rfl rfl

theorem ofThinking_append (en : Bool) (s u : Text) :
    (ofThinking en (s ++ u) : Response τ) = ofThinking en s ++ ofThinking en u := by
  refine Response.ext' rfl ?_ rfl rfl
  cases en with
  | true => exact visible_append s u
  | false => rfl

theorem seen_contentEvent (en : Bool) (s : Text) :
    (collect en (contentEvent s : List (Gemma4Event τ))).seen = ofContent s := by
  unfold contentEvent
  split
  · next h =>
    rw [h]
    rfl
  · exact Response.ext' (congrArg visible (append_nil s)) rfl rfl rfl

theorem seen_thinkingEvent (en : Bool) (s : Text) :
    (collect en (thinkingEvent s : List (Gemma4Event τ))).seen = ofThinking en s := by
  unfold thinkingEvent
  split
  · next h =>
    rw [h]
    cases en <;> rfl
  · refine Response.ext' rfl ?_ rfl rfl
    cases en with
    | true => exact congrArg visible (append_nil s)
    | false => rfl

theorem seen_contentEvent_trimRight (en : Bool) (s : Text) :
    (collect en (contentEvent (trimRight s) : List (Gemma4Event τ))).seen = ofContent s := by
  rw [seen_contentEvent]
  exact Response.ext' (visible_trimRight s) rfl rfl rfl

theorem seen_thinkingEvent_trimRight (en : Bool) (s : Text) :
    (collect en (thinkingEvent (trimRight s) : List (Gemma4Event τ))).seen = ofThinking en s := by
  rw [seen_thinkingEvent]
  refine Response.ext' rfl ?_ rfl rfl
  show (if en then visible (trimRight s) else []) = if en then visible s else []
  rw [visible_trimRight]

/-- What `Add` returns in its last call, when the text in the buffer is all there is,
with whitespace removed. -/
def reading (parseToolCall : Text → Except Error τ) (p : Gemma4Parser) : Response τ :=
  (collect p.thinkingEnabled (parseEvents parseToolCall true p).1).seen

theorem parseEvents_eq (parseToolCall : Text → Except Error τ) (done : Bool) (p : Gemma4Parser) :
    parseEvents parseToolCall done p =
      if (eat parseToolCall done p).2.2 then
        ((eat parseToolCall done p).1 ++
          (parseEvents parseToolCall done (eat parseToolCall done p).2.1).1,
          (parseEvents parseToolCall done (eat parseToolCall done p).2.1).2)
      else ((eat parseToolCall done p).1, (eat parseToolCall done p).2.1) := by
  have hμ : ∀ p, (eat parseToolCall done p).2.2 = true →
      (eat parseToolCall done p).2.1.turns < p.turns := fun _ h => eat_turns h
  unfold parseEvents
  rw [drain_succ]
  split
  · next h => rw [drain_enough turns hμ p.turns _ (hμ p h)]
  · rfl

variable {es : List (Gemma4Event τ)}

theorem parseEvents_more (h : eat parseToolCall done p = (es, q, true)) :
    parseEvents parseToolCall done p =
      (es ++ (parseEvents parseToolCall done q).1, (parseEvents parseToolCall done q).2) := by
  rw [parseEvents_eq, h]
  rfl

theorem parseEvents_last (h : eat parseToolCall done p = (es, q, false)) :
    parseEvents parseToolCall done p = (es, q) := by
  rw [parseEvents_eq, h]
  rfl

theorem reading_more (h : eat parseToolCall true p = (es, q, true))
    (hen : q.thinkingEnabled = p.thinkingEnabled) :
    reading parseToolCall p = (collect p.thinkingEnabled es).seen ++ reading parseToolCall q := by
  unfold reading
  rw [parseEvents_more h, collect_append, Response.seen_append, hen]

theorem reading_last (h : eat parseToolCall true p = (es, q, false)) :
    reading parseToolCall p = (collect p.thinkingEnabled es).seen := by
  unfold reading
  rw [parseEvents_last h]

theorem reading_congr (h : eat parseToolCall true p = eat parseToolCall true q)
    (hen : q.thinkingEnabled = p.thinkingEnabled) :
    reading parseToolCall p = reading parseToolCall q := by
  unfold reading
  rw [hen, parseEvents_eq, parseEvents_eq _ _ q, h]

/-! ## §3  The readings of the states -/

theorem reading_content_thinking (h : cut t gemma4ThinkingOpenTag = some (b, a)) :
    reading parseToolCall ⟨.collectingContent, t, en, k⟩ =
      ofContent b ++ reading parseToolCall ⟨.collectingThinking, a, en, true⟩ := by
  rw [reading_more (eat_content_thinking h) rfl, seen_contentEvent_trimRight]

theorem reading_content_toolCall (h : cut t gemma4ThinkingOpenTag = none)
    (h' : cut t gemma4ToolCallOpenTag = some (b, a)) :
    reading parseToolCall ⟨.collectingContent, t, en, k⟩ =
      ofContent b ++ reading parseToolCall ⟨.collectingToolCall, a, en, k⟩ := by
  rw [reading_more (eat_content_toolCall h h') rfl, seen_contentEvent_trimRight]

theorem reading_content_plain (h : cut t gemma4ThinkingOpenTag = none)
    (h' : cut t gemma4ToolCallOpenTag = none) :
    reading parseToolCall ⟨.collectingContent, t, en, k⟩ = ofContent t := by
  obtain ⟨d, x, ht, heat, hx, -⟩ := eat_content_plain parseToolCall true en k h h'
  rw [reading_last heat, seen_contentEvent, ht, hx rfl, append_nil]

theorem reading_thinking_close (h : cut t gemma4ThinkingCloseTag = some (b, a)) :
    reading parseToolCall ⟨.collectingThinking, t, en, false⟩ =
      ofThinking en b ++ reading parseToolCall ⟨.collectingContent, trimLeft a, en, false⟩ := by
  rw [reading_more (eat_thinking_close h) rfl, seen_thinkingEvent_trimRight]

theorem reading_thinking_plain (h : cut t gemma4ThinkingCloseTag = none) :
    reading parseToolCall ⟨.collectingThinking, t, en, false⟩ = ofThinking en t := by
  obtain ⟨d, x, ht, heat, hx, -⟩ := eat_thinking_plain parseToolCall true en h
  rw [reading_last heat, seen_thinkingEvent, ht, hx rfl, append_nil]

theorem reading_thinking_strip (t : Text) :
    reading parseToolCall ⟨.collectingThinking, t, en, true⟩ =
      reading parseToolCall ⟨.collectingThinking, stripped t, en, false⟩ := by
  by_cases hne : t = []
  · subst hne
    rw [reading_last (eat_nil true rfl), reading_last (eat_nil true rfl)]
  · exact reading_congr (eat_thinking_strip hne nofun) rfl

theorem reading_toolCall_close (h : cut t gemma4ToolCallCloseTag = some (b, a)) :
    reading parseToolCall ⟨.collectingToolCall, t, en, k⟩ =
      (collect en (toolCallEvent parseToolCall b)).seen ++
        reading parseToolCall ⟨.ignoringPostToolCallNoise, trimLeft a, en, k⟩ :=
  reading_more (eat_toolCall_close h) rfl

theorem reading_noise (t : Text) : reading parseToolCall ⟨.ignoringPostToolCallNoise, t, en, k⟩ =
      if skipNoise t <+: gemma4ToolCallCloseTag then .none
      else reading parseToolCall ⟨.collectingContent, skipNoise t, en, k⟩ := by
  split
  · next h =>
    obtain ⟨q, heat, -, -⟩ := eat_noise_wait parseToolCall true en k h
    rw [reading_last heat]
    rfl
  · next h =>
    rw [reading_more (eat_noise_content h) rfl]
    rfl

variable {d s : Text}

/-- Text in which no tag begins is content, whatever follows. -/
theorem reading_content_prepend
    (h : ∀ tag ∈ [gemma4ThinkingOpenTag, gemma4ToolCallOpenTag], ∀ i < d.length,
      ¬Occurs tag (d ++ s) i) :
    reading parseToolCall ⟨.collectingContent, d ++ s, en, k⟩ =
      ofContent d ++ reading parseToolCall ⟨.collectingContent, s, en, k⟩ := by
  have h₁ := cut_prepend (by decide) (h gemma4ThinkingOpenTag (by decide))
  have h₂ := cut_prepend (by decide) (h gemma4ToolCallOpenTag (by decide))
  cases hs₁ : cut s gemma4ThinkingOpenTag with
  | some x =>
    rw [hs₁] at h₁
    rw [reading_content_thinking h₁, reading_content_thinking hs₁, ofContent_append,
      Response.append_assoc]
  | none =>
    rw [hs₁] at h₁
    cases hs₂ : cut s gemma4ToolCallOpenTag with
    | some x =>
      rw [hs₂] at h₂
      rw [reading_content_toolCall h₁ h₂, reading_content_toolCall hs₁ hs₂, ofContent_append,
        Response.append_assoc]
    | none =>
      rw [hs₂] at h₂
      rw [reading_content_plain h₁ h₂, reading_content_plain hs₁ hs₂, ofContent_append]

theorem reading_content_blank {w : Text} (hw : Blank w) (s : Text) :
    reading parseToolCall ⟨.collectingContent, w ++ s, en, k⟩ =
      reading parseToolCall ⟨.collectingContent, s, en, k⟩ := by
  have hmarked : ∀ tag ∈ [gemma4ThinkingOpenTag, gemma4ToolCallOpenTag], Marked '<' tag := by
    decide
  rw [reading_content_prepend fun tag htag i hi => not_occurs_of_blank (hmarked tag htag) hw hi]
  unfold ofContent
  rw [visible_eq_nil.mpr hw]
  rfl

theorem reading_thinking_prepend (h : ∀ i < d.length, ¬Occurs gemma4ThinkingCloseTag (d ++ s) i) :
    reading parseToolCall ⟨.collectingThinking, d ++ s, en, false⟩ =
      ofThinking en d ++ reading parseToolCall ⟨.collectingThinking, s, en, false⟩ := by
  have h₁ := cut_prepend (by decide) h
  cases hs : cut s gemma4ThinkingCloseTag with
  | some x =>
    rw [hs] at h₁
    rw [reading_thinking_close h₁, reading_thinking_close hs, ofThinking_append,
      Response.append_assoc]
  | none =>
    rw [hs] at h₁
    rw [reading_thinking_plain h₁, reading_thinking_plain hs, ofThinking_append]

/-! ## §4  Texts whose tags are told apart -/

/-- In a text that begins in content, no tool call is opened before a thinking tag in
the same stretch of content. -/
inductive ToolCallsLast : Text → Prop
  | plain {t : Text} (h : cut t gemma4ThinkingOpenTag = none) : ToolCallsLast t
  | thinking {t b a : Text} (h : cut t gemma4ThinkingOpenTag = some (b, a))
      (hb : cut b gemma4ToolCallOpenTag = none)
      (ha : ∀ th c, cut a gemma4ThinkingCloseTag = some (th, c) → ToolCallsLast c) :
      ToolCallsLast t

/-- The text to come has its tags told apart, from the state on. -/
def Apart (p : Gemma4Parser) : Prop :=
  match p.state with
  | .collectingContent => ToolCallsLast p.buffer
  | .collectingThinking =>
      ∀ th c, cut p.buffer gemma4ThinkingCloseTag = some (th, c) → ToolCallsLast c
  | .collectingToolCall => cut p.buffer gemma4ThinkingOpenTag = none
  | .ignoringPostToolCallNoise => cut p.buffer gemma4ThinkingOpenTag = none

theorem ToolCallsLast.of_prepend (h : ToolCallsLast (d ++ s))
    (hd : ∀ i < d.length, ¬Occurs gemma4ThinkingOpenTag (d ++ s) i) : ToolCallsLast s := by
  have hcut := cut_prepend (by decide) hd
  cases h with
  | plain h => exact .plain (cut_none_of_suffix (by decide) h (suffix_append d s))
  | @thinking _ b a h hb ha =>
    rw [h] at hcut
    cases hs : cut s gemma4ThinkingOpenTag with
    | none =>
      rw [hs] at hcut
      cases hcut
    | some x =>
      rw [hs] at hcut
      cases hcut
      exact .thinking hs (cut_none_of_suffix (by decide) hb (suffix_append d x.1)) ha

/-- White space before a text holds no tag. -/
theorem ToolCallsLast.blank_append {w s : Text} (hw : Blank w) (h : ToolCallsLast s) :
    ToolCallsLast (w ++ s) := by
  have hcut := cut_prepend (s := s) (d := w) (show gemma4ThinkingOpenTag ≠ [] by decide)
    fun i hi => not_occurs_of_blank (by decide) hw hi
  cases h with
  | plain h =>
    rw [h] at hcut
    exact .plain hcut
  | @thinking _ b a h hb ha =>
    rw [h] at hcut
    refine .thinking hcut ?_ ha
    have hcut' := cut_prepend (s := b) (d := w) (show gemma4ToolCallOpenTag ≠ [] by decide)
      fun i hi => not_occurs_of_blank (by decide) hw hi
    rw [hb] at hcut'
    exact hcut'

theorem ToolCallsLast.trimLeft {s u : Text} (h : ToolCallsLast (s ++ u)) :
    ToolCallsLast (trimLeft s ++ u) := by
  obtain ⟨w, hw, hs⟩ := trimLeft_spec s
  rw [hs, append_assoc] at h
  exact h.of_prepend fun i hi => not_occurs_of_blank (by decide) hw hi

/-- Once a tool call is opened, no thinking tag follows. -/
theorem ToolCallsLast.after_toolCall {s u b a : Text} (h : ToolCallsLast (s ++ u))
    (hs : cut s gemma4ThinkingOpenTag = none) (hs' : cut s gemma4ToolCallOpenTag = some (b, a)) :
    cut (s ++ u) gemma4ThinkingOpenTag = none := by
  cases h with
  | plain h => exact h
  | @thinking _ b' a' h hb ha =>
    obtain ⟨hsplit, -⟩ := (cut_eq_some (by decide)).mp h
    have htool : Occurs gemma4ToolCallOpenTag (s ++ u) b.length := by
      obtain ⟨rfl, -⟩ := (cut_eq_some (by decide)).mp hs'
      unfold Occurs
      rw [append_assoc, drop_left, append_assoc]
      exact prefix_append _ _
    have hthink : Occurs gemma4ThinkingOpenTag (s ++ u) b'.length := by
      unfold Occurs
      rw [hsplit, drop_left]
      exact prefix_append _ _
    have hlen := cut_length (by decide) hs'
    have hlt : gemma4ThinkingOpenTag.length = 10 := by decide
    have hlt' : gemma4ToolCallOpenTag.length = 12 := by decide
    rcases Nat.lt_trichotomy b.length b'.length with hcmp | hcmp | hcmp
    · -- the tool call would stand in the content before the thinking tag
      have hend := htool.apart (c := '<') (by decide) (by decide) hthink hcmp
      rw [hsplit] at htool
      exact absurd (htool.of_append hend) ((cut_eq_none (by decide)).mp hb _)
    · -- two tags at one place
      rw [← hcmp] at hthink
      exact absurd (prefix_of_prefix_length_le hthink htool (by decide)) (by decide)
    · exact absurd (hthink.of_append (by omega)) ((cut_eq_none (by decide)).mp hs _)

/-! ## §5  One turn -/

def feed (p : Gemma4Parser) (u : Text) : Gemma4Parser := { p with buffer := p.buffer ++ u }

/-- What is returned by a turn (or several) that lead from `p` to `q` is taken off the
reading of `p`, whatever comes after it. -/
structure Takes (parseToolCall : Text → Except Error τ) (p : Gemma4Parser)
    (es : List (Gemma4Event τ)) (q : Gemma4Parser) (u : Text) : Prop where
  reading : reading parseToolCall (p.feed u) =
    (collect p.thinkingEnabled es).seen ++ reading parseToolCall (q.feed u)
  apart : Apart (q.feed u)
  thinkingEnabled : q.thinkingEnabled = p.thinkingEnabled

variable {u : Text}

theorem eat_content_takes (h : Apart (feed ⟨.collectingContent, t, en, k⟩ u)) :
    Takes parseToolCall ⟨.collectingContent, t, en, k⟩
      (eat parseToolCall false ⟨.collectingContent, t, en, k⟩).1
      (eat parseToolCall false ⟨.collectingContent, t, en, k⟩).2.1 u := by
  have hlast : ToolCallsLast (t ++ u) := h
  cases h₁ : cut t gemma4ThinkingOpenTag with
  | some x =>
    rw [eat_content_thinking h₁]
    have hcut := cut_append (by decide) h₁ u
    refine ⟨?_, ?_, rfl⟩
    · show reading parseToolCall ⟨.collectingContent, t ++ u, en, k⟩ = _
      rw [reading_content_thinking hcut, seen_contentEvent_trimRight]
      rfl
    cases hlast with
    | plain h =>
      rw [hcut] at h
      cases h
    | thinking h hb ha =>
      rw [hcut] at h
      cases h
      exact ha
  | none =>
    cases h₂ : cut t gemma4ToolCallOpenTag with
    | some x =>
      have hnone := hlast.after_toolCall h₁ h₂
      rw [eat_content_toolCall h₁ h₂]
      have hcut := cut_append (by decide) h₂ u
      refine ⟨?_, ?_, rfl⟩
      · show reading parseToolCall ⟨.collectingContent, t ++ u, en, k⟩ = _
        rw [reading_content_toolCall hnone hcut, seen_contentEvent_trimRight]
        rfl
      · refine cut_none_of_suffix (by decide) hnone ⟨x.1 ++ gemma4ToolCallOpenTag, ?_⟩
        rw [append_assoc]
        exact ((cut_eq_some (by decide)).mp hcut).1.symm
    | none =>
      obtain ⟨d, y, ht, heat, -, hov⟩ := eat_content_plain parseToolCall false en k h₁ h₂
      have hd : ∀ tag ∈ [gemma4ThinkingOpenTag, gemma4ToolCallOpenTag], ∀ i < d.length,
          ¬Occurs tag (d ++ (y ++ u)) i := by
        intro tag htag i hi
        have hle := hov rfl tag htag
        have hnone : cut t tag = none ∧ tag ≠ [] := by
          rcases mem_cons.mp htag with rfl | htag
          · exact ⟨h₁, by decide⟩
          · rw [mem_singleton.mp htag]
            exact ⟨h₂, by decide⟩
        rw [ht] at hle hnone
        rw [← append_assoc]
        refine not_occurs_of_overlap hnone.2 hnone.1 ?_ u
        rw [length_append]
        omega
      rw [heat]
      have hsplit : t ++ u = d ++ (y ++ u) := by rw [ht, append_assoc]
      refine ⟨?_, ?_, rfl⟩
      · show reading parseToolCall ⟨.collectingContent, t ++ u, en, k⟩ = _
        rw [hsplit, reading_content_prepend hd, seen_contentEvent]
        rfl
      · rw [hsplit] at hlast
        exact hlast.of_prepend (hd _ (by decide))

theorem eat_thought_takes (parseToolCall : Text → Except Error τ)
    (h : Apart (feed ⟨.collectingThinking, t, en, false⟩ u)) :
    Takes parseToolCall ⟨.collectingThinking, t, en, false⟩
      (eat parseToolCall false ⟨.collectingThinking, t, en, false⟩).1
      (eat parseToolCall false ⟨.collectingThinking, t, en, false⟩).2.1 u := by
  have hlast : ∀ th c, cut (t ++ u) gemma4ThinkingCloseTag = some (th, c) → ToolCallsLast c := h
  cases h₁ : cut t gemma4ThinkingCloseTag with
  | some x =>
    rw [eat_thinking_close h₁]
    have hcut := cut_append (by decide) h₁ u
    refine ⟨?_, (hlast _ _ hcut).trimLeft, rfl⟩
    show reading parseToolCall ⟨.collectingThinking, t ++ u, en, false⟩ = _
    rw [reading_thinking_close hcut, seen_thinkingEvent_trimRight]
    -- what is trimmed before the chunk ends may be more or less
    obtain ⟨w, hw, hs⟩ := trimLeft_spec (trimLeft x.2 ++ u)
    rw [trimLeft_append] at hs
    show _ = ofThinking en x.1 ++ reading parseToolCall ⟨.collectingContent, _ ++ u, en, false⟩
    rw [hs, reading_content_blank hw]
  | none =>
    obtain ⟨d, y, ht, heat, -, hov⟩ := eat_thinking_plain parseToolCall false en h₁
    have hle := hov rfl
    have hd : ∀ i < d.length, ¬Occurs gemma4ThinkingCloseTag (d ++ (y ++ u)) i := by
      intro i hi
      rw [ht] at hle h₁
      rw [← append_assoc]
      refine not_occurs_of_overlap (by decide) h₁ ?_ u
      rw [length_append]
      omega
    rw [heat]
    have hsplit : t ++ u = d ++ (y ++ u) := by rw [ht, append_assoc]
    refine ⟨?_, ?_, rfl⟩
    · show reading parseToolCall ⟨.collectingThinking, t ++ u, en, false⟩ = _
      rw [hsplit, reading_thinking_prepend hd, seen_thinkingEvent]
      rfl
    · intro th c hcut
      have hcut' := cut_prepend (by decide) hd
      have hy : cut (y ++ u) gemma4ThinkingCloseTag = some (th, c) := hcut
      rw [hy, ← hsplit] at hcut'
      exact hlast _ _ hcut'

theorem stripped_append (h : t <+: gemma4ChannelName → gemma4ChannelName <+: t) (u : Text) :
    stripped (t ++ u) = stripped t ++ u := by
  unfold stripped
  by_cases hname : gemma4ChannelName <+: t
  · rw [if_pos hname, if_pos (hname.trans (prefix_append t u)),
      drop_append_of_le_length hname.length_le]
  · rw [if_neg hname, if_neg fun hname' => ?_]
    rcases prefix_or_prefix_of_prefix hname' (prefix_append t u) with hp | hp
    · exact hname hp
    · exact hname (h hp)

/-- The channel name holds no tag. -/
theorem apart_stripped (h : Apart ⟨.collectingThinking, t, en, true⟩) :
    Apart ⟨.collectingThinking, stripped t, en, false⟩ := by
  have hclose : ∀ th c, cut t gemma4ThinkingCloseTag = some (th, c) → ToolCallsLast c := h
  intro th c hcut
  have hs : cut (stripped t) gemma4ThinkingCloseTag = some (th, c) := hcut
  unfold stripped at hs
  split at hs
  · next hname =>
    obtain ⟨y, rfl⟩ := hname
    rw [drop_left] at hs
    have hcut' := cut_prepend (s := y) (d := gemma4ChannelName)
      (show gemma4ThinkingCloseTag ≠ [] by decide) fun i hi ho => ?_
    · rw [hs] at hcut'
      exact hclose _ _ hcut'
    · have hc := ho.getElem? (k := 0) (by decide)
      rw [Nat.add_zero, getElem?_append_left hi] at hc
      exact absurd (mem_of_getElem? hc) (by decide)
  · exact hclose _ _ hs

theorem eat_thinking_takes (h : Apart (feed ⟨.collectingThinking, t, en, true⟩ u)) :
    Takes parseToolCall ⟨.collectingThinking, t, en, true⟩
      (eat parseToolCall false ⟨.collectingThinking, t, en, true⟩).1
      (eat parseToolCall false ⟨.collectingThinking, t, en, true⟩).2.1 u := by
  by_cases hname : t <+: gemma4ChannelName → gemma4ChannelName <+: t
  · have hne : t ≠ [] := by
      rintro rfl
      exact absurd (hname List.nil_prefix) (by decide)
    have happ := stripped_append hname u
    have hstrip : Apart (feed ⟨.collectingThinking, stripped t, en, false⟩ u) := by
      have h' := apart_stripped h
      rw [happ] at h'
      exact h'
    have htakes := eat_thought_takes parseToolCall hstrip
    rw [eat_thinking_strip hne fun _ => hname]
    refine ⟨?_, htakes.apart, htakes.thinkingEnabled⟩
    show reading parseToolCall ⟨.collectingThinking, t ++ u, en, true⟩ = _
    rw [reading_thinking_strip, happ]
    exact htakes.reading
  · obtain ⟨hpre, hnot⟩ := Classical.not_imp.mp hname
    rw [eat_thinking_wait hpre hnot]
    exact ⟨rfl, h, rfl⟩

theorem eat_toolCall_takes (h : Apart (feed ⟨.collectingToolCall, t, en, k⟩ u)) :
    Takes parseToolCall ⟨.collectingToolCall, t, en, k⟩
      (eat parseToolCall false ⟨.collectingToolCall, t, en, k⟩).1
      (eat parseToolCall false ⟨.collectingToolCall, t, en, k⟩).2.1 u := by
  have hnone : cut (t ++ u) gemma4ThinkingOpenTag = none := h
  cases h₁ : cut t gemma4ToolCallCloseTag with
  | some x =>
    rw [eat_toolCall_close h₁]
    have hcut := cut_append (by decide) h₁ u
    refine ⟨?_, ?_, rfl⟩
    · show reading parseToolCall ⟨.collectingToolCall, t ++ u, en, k⟩ = _ ++
        reading parseToolCall ⟨.ignoringPostToolCallNoise, trimLeft x.2 ++ u, en, k⟩
      rw [reading_toolCall_close hcut, reading_noise, reading_noise, skipNoise_trimLeft,
        ← skipNoise_trimLeft (trimLeft x.2 ++ u), trimLeft_append, skipNoise_trimLeft]
    show cut (trimLeft x.2 ++ u) gemma4ThinkingOpenTag = none
    obtain ⟨w, -, hw⟩ := trimLeft_spec x.2
    refine cut_none_of_suffix (by decide) hnone ⟨x.1 ++ (gemma4ToolCallCloseTag ++ w), ?_⟩
    rw [((cut_eq_some (by decide)).mp h₁).1]
    conv_rhs => rw [hw]
    simp only [append_assoc]
  | none =>
    rw [eat_toolCall_plain h₁]
    exact ⟨rfl, h, rfl⟩

theorem skipNoise_suffix (s : Text) : skipNoise s <:+ s := by
  have htag : gemma4ToolCallCloseTag.length = 12 := by decide
  induction hn : s.length using Nat.strong_induction_on generalizing s with
  | _ n ih =>
    have htrim : trimLeft s <:+ s := dropWhile_suffix _
    rw [skipNoise_eq]
    split
    · next hpre =>
      have hlen := hpre.length_le
      have hle := trimLeft_length_le s
      have hsuf := ih ((trimLeft s).drop gemma4ToolCallCloseTag.length).length
        (by rw [length_drop]; omega) _ rfl
      exact hsuf.trans ((drop_suffix _ _).trans htrim)
    · exact htrim

/-- What begins with something else than noise stays when text is added. -/
theorem skipNoise_append_of_tag_apart (h : ¬skipNoise t <+: gemma4ToolCallCloseTag) (u : Text) :
    skipNoise (t ++ u) = skipNoise t ++ u := by
  obtain ⟨htrim, hclose⟩ := skipNoise_spec t
  have hne : skipNoise t ≠ [] := fun hnil => h (hnil ▸ List.nil_prefix)
  rw [← skipNoise_append, skipNoise_eq]
  have htrim' : trimLeft (skipNoise t ++ u) = skipNoise t ++ u := by
    cases hs : skipNoise t with
    | nil => exact absurd hs hne
    | cons r s =>
      rw [hs] at htrim
      have hr : isSpace r = false := by
        by_contra hr
        have := trimLeft_length_le s
        have hlen := congrArg List.length htrim
        unfold trimLeft at hlen this
        rw [dropWhile_cons_of_pos (by simpa using hr), length_cons] at hlen
        omega
      exact dropWhile_cons_of_neg (by simp [hr])
  rw [htrim', if_neg fun hpre => ?_]
  rcases prefix_or_prefix_of_prefix hpre (prefix_append (skipNoise t) u) with hp | hp
  · exact hclose hp
  · exact h hp

theorem eat_noise_takes (h : Apart (feed ⟨.ignoringPostToolCallNoise, t, en, k⟩ u)) :
    Takes parseToolCall ⟨.ignoringPostToolCallNoise, t, en, k⟩
      (eat parseToolCall false ⟨.ignoringPostToolCallNoise, t, en, k⟩).1
      (eat parseToolCall false ⟨.ignoringPostToolCallNoise, t, en, k⟩).2.1 u := by
  have hnone : cut (t ++ u) gemma4ThinkingOpenTag = none := h
  have hskip : cut (skipNoise t ++ u) gemma4ThinkingOpenTag = none := by
    obtain ⟨d, hd⟩ := skipNoise_suffix t
    refine cut_none_of_suffix (by decide) hnone ⟨d, ?_⟩
    rw [← append_assoc, hd]
  by_cases hwait : skipNoise t <+: gemma4ToolCallCloseTag
  · obtain ⟨q, heat, -, hq⟩ := eat_noise_wait parseToolCall false en k hwait
    rw [heat, hq rfl]
    refine ⟨?_, hskip, rfl⟩
    show reading parseToolCall ⟨.ignoringPostToolCallNoise, t ++ u, en, k⟩ =
      reading parseToolCall ⟨.ignoringPostToolCallNoise, skipNoise t ++ u, en, k⟩
    rw [reading_noise, reading_noise, skipNoise_append]
  · rw [eat_noise_content hwait]
    refine ⟨?_, .plain hskip, rfl⟩
    show reading parseToolCall ⟨.ignoringPostToolCallNoise, t ++ u, en, k⟩ =
      reading parseToolCall ⟨.collectingContent, skipNoise t ++ u, en, k⟩
    have hadd := skipNoise_append_of_tag_apart hwait u
    rw [reading_noise, hadd, if_neg fun hpre => hwait ((prefix_append _ u).trans hpre)]

/-- **One turn.** Whatever has arrived, a turn takes off the reading what it returns. -/
theorem eat_takes (parseToolCall : Text → Except Error τ) (p : Gemma4Parser) (h : Apart (p.feed u)) :
    Takes parseToolCall p (eat parseToolCall false p).1 (eat parseToolCall false p).2.1 u := by
  obtain ⟨state, t, en, k⟩ := p
  cases state with
  | collectingContent => exact eat_content_takes h
  | collectingThinking =>
    cases k with
    | true => exact eat_thinking_takes h
    | false => exact eat_thought_takes parseToolCall h
  | collectingToolCall => exact eat_toolCall_takes h
  | ignoringPostToolCallNoise => exact eat_noise_takes h

/-! ## §6  Runs -/

/-- The loop takes off the reading what it returns. -/
theorem parseEvents_takes (parseToolCall : Text → Except Error τ) (p : Gemma4Parser) (h : Apart (p.feed u)) :
    Takes parseToolCall p (parseEvents parseToolCall false p).1
      (parseEvents parseToolCall false p).2 u := by
  have hμ : ∀ p, (eat parseToolCall false p).2.2 = true →
      (eat parseToolCall false p).2.1.turns < p.turns := fun _ h => eat_turns h
  have hrule := drain_rule turns hμ
    (P := fun p es q => Apart (p.feed u) → Takes parseToolCall p es q u)
    (fun p _ hp => eat_takes parseToolCall p hp)
    (fun p es q _ hq hp => by
      have hturn := eat_takes parseToolCall p hp
      have hrest := hq hturn.apart
      refine ⟨?_, hrest.apart, hrest.thinkingEnabled.trans hturn.thinkingEnabled⟩
      rw [hturn.reading, hrest.reading, hturn.thinkingEnabled, collect_append,
        Response.seen_append, Response.append_assoc])
  exact hrule (p.turns + 1) p (Nat.lt_succ_self _) h

theorem outcome_last (p : Gemma4Parser) (c : Text) :
    outcome (add parseToolCall) p [c] = reading parseToolCall (p.feed c) := by
  show ((collect _ _ ++ Response.none : Response τ)).seen = _
  rw [Response.append_none]
  rfl

theorem collect_err (en : Bool) (es : List (Gemma4Event τ)) : (collect en es).err = none := by
  induction es with
  | nil => rfl
  | cons e es ih =>
    cases e <;> exact ih

theorem outcome_cons (p : Gemma4Parser) (c c' : Text) (cs : List Text) :
    outcome (add parseToolCall) p (c :: c' :: cs) =
      (collect p.thinkingEnabled (parseEvents parseToolCall false (p.feed c)).1).seen ++
        outcome (add parseToolCall) (parseEvents parseToolCall false (p.feed c)).2 (c' :: cs) := by
  have herr : (add parseToolCall c false p).1.err.isSome = false := by
    show (collect _ _).err.isSome = false
    rw [collect_err]
    rfl
  unfold outcome stream
  rw [Lib.feed, if_neg (by rw [herr]; exact Bool.false_ne_true), Response.all_cons,
    Response.seen_append]
  rfl

/-- **Runs.** However the text is cut, what the client has in the end is the reading. -/
theorem outcome_eq_reading : ∀ (chunks : List Text) (p : Gemma4Parser), chunks ≠ [] →
    Apart (p.feed chunks.flatten) →
    outcome (add parseToolCall) p chunks = reading parseToolCall (p.feed chunks.flatten)
  | [], _, hne, _ => absurd rfl hne
  | [c], p, _, _ => by
    rw [outcome_last, flatten_cons, flatten_nil, append_nil]
  | c :: c' :: cs, p, _, h => by
    have hfeed : p.feed (c :: c' :: cs).flatten = (p.feed c).feed (c' :: cs).flatten := by
      show (⟨_, p.buffer ++ (c ++ _), _, _⟩ : Gemma4Parser) = ⟨_, p.buffer ++ c ++ _, _, _⟩
      rw [append_assoc]
      rfl
    rw [hfeed] at h ⊢
    have htakes := parseEvents_takes parseToolCall (p.feed c) h
    rw [outcome_cons, outcome_eq_reading (c' :: cs) _ (cons_ne_nil _ _) htakes.apart,
      htakes.reading]
    rfl

end Gemma4Parser

end Ollama.Parsers
