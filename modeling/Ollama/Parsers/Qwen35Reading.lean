import Ollama.Parsers.Qwen35

/-!
# What the parser of qwen3.5 reads

The reading of a text is what one call returns of it. Each turn takes off the reading what
it returns, for all the text to come, as long as no tool call interrupts the thinking.
-/

namespace Ollama.Parsers

open Lib List Qwen3CoderParser

namespace Qwen35Parser

variable {τ : Type} (parseToolCall : Text → Except Error τ)

/-! ## §1  Readings -/

def readContent (t : Text) : Reading τ :=
  reading parseToolCall ⟨.lookingForToolStart, t⟩

/-- The reading of thinking: up to the closing tag; without one, the end that may begin a
tag stays; and a tool call without one ends it as well. -/
def readBody (t : Text) : Reading τ :=
  match cut t qwen35ThinkingCloseTag with
  | some (b, a) => (Response.ofThinking b).before (readContent parseToolCall a)
  | none =>
      if 0 < tagOverlap t then
        ⟨.ofThinking (t.take (t.length - tagOverlap t)), visible (t.drop (t.length - tagOverlap t))⟩
      else
        match cut t qwen35ToolCallOpenTag with
        | some (b, a) => (Response.ofThinking b).before
            (readContent parseToolCall (qwen35ToolCallOpenTag ++ trimLeft a))
        | none => ⟨.ofThinking t, []⟩

/-- The thinking after an optional opening tag; `none` is a text that may still begin one. -/
def bodyOf (t : Text) : Option Text :=
  if qwen35ThinkingOpenTag <+: trimLeft t then
    some (trimLeft ((trimLeft t).drop qwen35ThinkingOpenTag.length))
  else if trimLeft t <+: qwen35ThinkingOpenTag then none
  else some t

def readThinking (t : Text) : Reading τ :=
  match bodyOf t with
  | some body => readBody parseToolCall body
  | none => ⟨.none, visible t⟩

def reading (p : Qwen35Parser) (t : Text) : Reading τ :=
  match p.state with
  | .collectingThinking =>
      if p.allowLeadingThinkOpenTag then readThinking parseToolCall t else readBody parseToolCall t
  | .thinkingDoneEatingWhitespace => readContent parseToolCall t
  | .collectingContent => Qwen3CoderParser.reading parseToolCall (p.toolParser.write t)

/-- What the events return, up to the first error, and the tool parser after them. -/
def delivered : List Qwen35Event → Qwen3CoderParser → Response τ × Qwen3CoderParser
  | [], toolParser => (.none, toolParser)
  | .thinkingContent content :: events, toolParser =>
      let later := delivered events toolParser
      ((Response.ofThinking content).stepThen later.1, later.2)
  | .content content :: events, toolParser =>
      let out := (toolParser.write content).parseEvents
      let r := returned parseToolCall out.1
      let later := delivered events out.2
      if r.err.isSome then (r, out.2) else (r.stepThen later.1, later.2)

/-- The tool parser is not used before content, and between calls it holds back only what
it must. -/
structure Ready (p : Qwen35Parser) : Prop where
  unused : p.state ≠ .collectingContent → p.toolParser = .init
  settled : Qwen3CoderParser.reading parseToolCall p.toolParser = ⟨.none, visible p.toolParser.acc⟩

variable {parseToolCall} {w t d y u : Text}

/-! ## §2  White space in front -/

theorem tagOverlap_blank (hw : Blank w) (t : Text) : tagOverlap (w ++ t) = tagOverlap t := by
  unfold tagOverlap
  rw [overlap_blank (by decide) hw, overlap_blank (by decide) hw]

theorem tagOverlap_le (t : Text) : tagOverlap t ≤ t.length :=
  Nat.max_le.mpr ⟨overlap_le_left _ _, overlap_le_left _ _⟩

theorem ofThinking_blank (hw : Blank w) (t : Text) :
    (Response.ofThinking (w ++ t) : Response τ) = .ofThinking t := by
  refine Response.ofThinking_congr ?_
  rw [visible_append, visible_eq_nil.mpr hw, nil_append]

theorem readBody_blank (hw : Blank w) (t : Text) :
    readBody parseToolCall (w ++ t) = readBody parseToolCall t := by
  unfold readBody
  rw [cut_blank (by decide) hw]
  cases cut t qwen35ThinkingCloseTag with
  | some q =>
    show (Response.ofThinking (w ++ q.1)).before _ = _
    rw [ofThinking_blank hw]
  | none =>
    simp only [Option.map_none]
    rw [tagOverlap_blank hw]
    split
    · have hlen : (w ++ t).length - tagOverlap t = w.length + (t.length - tagOverlap t) := by
        have := tagOverlap_le t
        rw [length_append]
        omega
      rw [hlen, take_length_add_append, drop_length_add_append, ofThinking_blank hw]
    · rw [cut_blank (by decide) hw]
      cases cut t qwen35ToolCallOpenTag with
      | some q =>
        show (Response.ofThinking (w ++ q.1)).before _ = _
        rw [ofThinking_blank hw]
      | none =>
        simp only [Option.map_none]
        rw [ofThinking_blank hw]

theorem readBody_trimLeft (t : Text) :
    readBody parseToolCall (trimLeft t) = readBody parseToolCall t := by
  obtain ⟨w, hw, ht⟩ := trimLeft_spec t
  conv_rhs => rw [ht]
  exact (readBody_blank hw _).symm

/-! ## §3  Thinking kept together -/

/-- No tool call interrupts the thinking, however it is cut: as long as the closing tag is
not there, a text with a tool call in it ends in the beginning of a tag; or there is no
closing tag at all and only white space after the tool call. -/
def Together (t : Text) : Prop :=
  match cut t qwen35ThinkingCloseTag with
  | some _ => ∀ x, x <+: t → cut x qwen35ThinkingCloseTag = none →
      cut x qwen35ToolCallOpenTag ≠ none → 0 < tagOverlap x
  | none =>
      match cut t qwen35ToolCallOpenTag with
      | some (_, a) => a ≠ [] ∧ Blank a
      | none => True

theorem together_blank (hw : Blank w) (h : Together (w ++ t)) : Together t := by
  unfold Together at h ⊢
  rw [cut_blank (by decide) hw] at h
  cases hcut : cut t qwen35ThinkingCloseTag with
  | some q =>
    rw [hcut] at h
    intro x hx hclose htool
    have := h (w ++ x) ((prefix_append_right_inj w).mpr hx)
      (by rw [cut_blank (by decide) hw, hclose]; rfl)
      (by
        rw [cut_blank (by decide) hw]
        exact fun hnone => htool (Option.map_eq_none_iff.mp hnone))
    rwa [tagOverlap_blank hw] at this
  | none =>
    rw [hcut] at h
    rw [cut_blank (by decide) hw] at h
    cases htool : cut t qwen35ToolCallOpenTag with
    | some q =>
      rw [htool] at h
      exact h
    | none => trivial

theorem tagOverlap_blank_end (ha : Blank u) (hne : u ≠ []) (s : Text) : tagOverlap (s ++ u) = 0 := by
  obtain ⟨c, hc⟩ := Option.ne_none_iff_exists'.mp fun h => hne (getLast?_eq_none_iff.mp h)
  have hspace := ha c (mem_of_getLast? hc)
  have hlast : (s ++ u).getLast? = some c := by rw [getLast?_append_of_ne_nil _ hne, hc]
  have hclose : ∀ r ∈ qwen35ThinkingCloseTag, isSpace r = false := not_isSpace_of_all (by decide)
  have htool : ∀ r ∈ qwen35ToolCallOpenTag, isSpace r = false := not_isSpace_of_all (by decide)
  unfold tagOverlap
  rw [overlap_eq_zero hlast fun h => absurd hspace (by rw [hclose c h]; decide),
    overlap_eq_zero hlast fun h => absurd hspace (by rw [htool c h]; decide)]
  rfl

/-- A turn that has found neither the closing tag nor a tool call to act on, and what it
keeps. -/
structure Held (d y : Text) : Prop where
  close : cut (d ++ y) qwen35ThinkingCloseTag = none
  overlap : tagOverlap (d ++ y) ≤ y.length
  tool : cut (d ++ y) qwen35ToolCallOpenTag = none ∨ 0 < tagOverlap (d ++ y)

theorem Held.cut_close (h : Held d y) (u : Text) : cut (d ++ (y ++ u)) qwen35ThinkingCloseTag =
      (cut (y ++ u) qwen35ThinkingCloseTag).map fun p => (d ++ p.1, p.2) :=
  cut_held (by decide) h.close ((Nat.le_max_left _ _).trans h.overlap) u

theorem Held.tagOverlap (h : Held d y) (u : Text) :
    tagOverlap (d ++ (y ++ u)) = tagOverlap (y ++ u) := by
  unfold Qwen35Parser.tagOverlap
  rw [overlap_held ((Nat.le_max_left _ _).trans h.overlap),
    overlap_held ((Nat.le_max_right _ _).trans h.overlap)]

/-- A tool call with nothing but white space after it is kept whole. -/
theorem Held.cut_tool (h : Held d y)
    (hu : ∀ b a, cut (d ++ (y ++ u)) qwen35ToolCallOpenTag = some (b, a) → a ≠ [] ∧ Blank a) :
    cut (d ++ (y ++ u)) qwen35ToolCallOpenTag =
      (cut (y ++ u) qwen35ToolCallOpenTag).map fun p => (d ++ p.1, p.2) := by
  cases htool : cut (d ++ y) qwen35ToolCallOpenTag with
  | none => exact cut_held (by decide) htool ((Nat.le_max_right _ _).trans h.overlap) u
  | some q =>
    obtain ⟨b, v⟩ := q
    have hall := cut_append (by decide) htool u
    rw [append_assoc] at hall
    obtain ⟨-, hblank⟩ := hu _ _ hall
    obtain ⟨hs, -⟩ := (cut_eq_some (by decide)).mp htool
    have hv : v = [] := by
      by_contra hne
      have hpos := h.tool.resolve_left (by rw [htool]; exact Option.some_ne_none _)
      have hzero := tagOverlap_blank_end (u := v) (fun r hr => hblank r (mem_append_left _ hr))
        hne (b ++ qwen35ToolCallOpenTag)
      rw [append_assoc, ← hs] at hzero
      omega
    rw [hv, append_nil] at hs
    have hfull : qwen35ToolCallOpenTag.length ≤ y.length := by
      have hle := le_overlap (s := d ++ y) (t := qwen35ToolCallOpenTag) le_rfl (by
        rw [take_length, hs]
        exact suffix_append _ _)
      exact (hle.trans (Nat.le_max_right _ _)).trans h.overlap
    have hlen := congrArg List.length hs
    rw [length_append, length_append] at hlen
    refine cut_prepend (by decide) fun i hi => ?_
    exact ((cut_eq_some (by decide)).mp hall).2 i (by omega)

/-- Thinking that is not held back can be returned before the rest is read. -/
theorem readBody_held (h : Held d y) (hu : u = [] ∨ Together (d ++ (y ++ u))) :
    readBody parseToolCall (d ++ (y ++ u)) =
      (Response.ofThinking d).before (readBody parseToolCall (y ++ u)) := by
  have hclose := h.cut_close u
  have hov := h.tagOverlap u
  cases hc : cut (y ++ u) qwen35ThinkingCloseTag with
  | some q =>
    unfold readBody
    rw [hclose, hc]
    exact (Response.ofThinking_before _ _ _).symm
  | none =>
    rw [hc] at hclose
    unfold readBody
    rw [hclose, hc]
    simp only [Option.map_none]
    rw [hov]
    split
    · have hlen : (d ++ (y ++ u)).length - Qwen35Parser.tagOverlap (y ++ u) =
          d.length + ((y ++ u).length - Qwen35Parser.tagOverlap (y ++ u)) := by
        have := tagOverlap_le (y ++ u)
        rw [length_append]
        omega
      rw [hlen, take_length_add_append, drop_length_add_append,
        Response.before_of_none rfl, Response.ofThinking_append]
    · next hzero =>
      have htool : cut (d ++ (y ++ u)) qwen35ToolCallOpenTag =
          (cut (y ++ u) qwen35ToolCallOpenTag).map fun p => (d ++ p.1, p.2) := by
        rcases hu with rfl | htogether
        · refine cut_held (by decide) (h.tool.resolve_right ?_)
            ((Nat.le_max_right _ _).trans h.overlap) []
          rw [append_nil] at hov hzero
          rwa [hov]
        refine h.cut_tool fun b a hcut => ?_
        unfold Together at htogether
        rw [hclose] at htogether
        rw [hcut] at htogether
        exact htogether
      rw [htool]
      cases cut (y ++ u) qwen35ToolCallOpenTag with
      | some q => exact (Response.ofThinking_before _ _ _).symm
      | none =>
        show (⟨.ofThinking (d ++ (y ++ u)), []⟩ : Reading τ) = _
        rw [Response.before_of_none rfl, Response.ofThinking_append]

/-- What is kept together is so without the text that is returned first. -/
theorem together_held (h : Held d y) (hu : Together (d ++ (y ++ u))) : Together (y ++ u) := by
  have hclose := h.cut_close u
  unfold Together at hu ⊢
  cases hc : cut (y ++ u) qwen35ThinkingCloseTag with
  | some q =>
    rw [hc] at hclose
    rw [hclose] at hu
    intro x hx hxclose hxtool
    have hxpre : d ++ x <+: d ++ (y ++ u) := (prefix_append_right_inj d).mpr hx
    have hxclose' : cut (d ++ x) qwen35ThinkingCloseTag = none := by
      rcases prefix_or_prefix_of_prefix hx (prefix_append y u) with hxy | ⟨z, rfl⟩
      · exact cut_none_of_front (by decide) h.close ((prefix_append_right_inj d).mpr hxy)
      · rw [h.cut_close z, hxclose]
        rfl
    obtain ⟨i, hi⟩ : ∃ i, Occurs qwen35ToolCallOpenTag x i := by
      by_contra hnone
      exact hxtool ((cut_eq_none (by decide)).mpr fun i hi => hnone ⟨i, hi⟩)
    have hxtool' : cut (d ++ x) qwen35ToolCallOpenTag ≠ none := fun hnone =>
      (cut_eq_none (by decide)).mp hnone (d.length + i) ((occurs_append_right d x _ i).mpr hi)
    have hpos := hu (d ++ x) hxpre hxclose' hxtool'
    -- a tag is not longer than the text with a tool call in it
    have hlong := hi.add_le (by decide)
    have hlen : qwen35ToolCallOpenTag.length = 11 := rfl
    have hlen' : qwen35ThinkingCloseTag.length = 8 := rfl
    have hback : ∀ tag : Text, tag.length ≤ x.length → overlap (d ++ x) tag ≤ overlap x tag := by
      intro tag htag
      refine le_overlap (overlap_le_right _ _) ?_
      refine suffix_of_suffix_length_le (overlap_suffix _ _) (suffix_append d x) ?_
      exact (length_take_le _ _).trans ((overlap_le_right _ _).trans htag)
    have hback₁ := hback qwen35ThinkingCloseTag (by omega)
    have hback₂ := hback qwen35ToolCallOpenTag (by omega)
    unfold Qwen35Parser.tagOverlap at hpos ⊢
    omega
  | none =>
    rw [hc] at hclose
    rw [hclose] at hu
    have htool := h.cut_tool (u := u) fun b a hcut => by
      rw [hcut] at hu
      exact hu
    rw [htool] at hu
    cases htool' : cut (y ++ u) qwen35ToolCallOpenTag with
    | some q =>
      rw [htool'] at hu
      exact hu
    | none => trivial

variable {x b v : Text}

def hold (x : Text) : ℕ := ambiguousStart x (tagOverlap x)

theorem held_hold (hclose : cut x qwen35ThinkingCloseTag = none)
    (htool : cut x qwen35ToolCallOpenTag = none ∨ 0 < tagOverlap x) :
    Held (x.take (hold x)) (x.drop (hold x)) := by
  obtain ⟨w, q, -, hq, -, hdrop⟩ := ambiguousStart_spec (tagOverlap_le x)
  have hlen : tagOverlap x ≤ (x.drop (hold x)).length := by
    unfold hold
    rw [hdrop, length_append]
    omega
  constructor
  · rwa [take_append_drop]
  · rwa [take_append_drop]
  · rwa [take_append_drop]

variable (parseToolCall) in
/-- What is kept is kept again. -/
theorem readBody_kept (hclose : cut x qwen35ThinkingCloseTag = none)
    (htool : cut x qwen35ToolCallOpenTag = none ∨ 0 < tagOverlap x) :
    readBody parseToolCall (x.drop (hold x)) = ⟨.none, visible (x.drop (hold x))⟩ := by
  obtain ⟨w, q, hw, hq, -, hdrop⟩ := ambiguousStart_spec (tagOverlap_le x)
  have hov := (held_hold hclose htool).tagOverlap []
  have hnone := cut_none_of_suffix (by decide) hclose (drop_suffix (hold x) x)
  rw [append_nil, take_append_drop] at hov
  unfold readBody
  rw [hnone]
  simp only
  rw [← hov]
  split
  · have hlen : (x.drop (hold x)).length - tagOverlap x = w.length := by
      unfold hold
      rw [hdrop, length_append]
      omega
    rw [hlen]
    unfold hold
    rw [hdrop, take_left, drop_left, visible_append, visible_eq_nil.mpr hw]
    exact Reading.ext (Response.ofThinking_of_blank hw) rfl
  · next hzero =>
    have hblank : Blank (x.drop (hold x)) := by
      have hnil : q = [] := length_eq_zero_iff.mp (by omega)
      unfold hold
      rw [hdrop, hnil, append_nil]
      exact hw
    rw [cut_none_of_suffix (by decide) (htool.resolve_right hzero) (drop_suffix _ x)]
    rw [visible_eq_nil.mpr hblank]
    exact Reading.ext (Response.ofThinking_of_blank hblank) rfl

def closed (b v : Text) : Text :=
  trimRight b ++ (qwen35ThinkingCloseTag ++ (qwen35ToolCallOpenTag ++ trimLeft v))

theorem cut_closed (h : cut b qwen35ThinkingCloseTag = none) (v u : Text) :
    cut (closed b v ++ u) qwen35ThinkingCloseTag =
      some (trimRight b, qwen35ToolCallOpenTag ++ (trimLeft v ++ u)) := by
  obtain ⟨w, -, hb⟩ := trimRight_spec b
  have hnone := cut_none_of_front (by decide) h ⟨w, hb.symm⟩
  have hself := cut_marked_self (c := '<') (x := trimRight b)
    (y := qwen35ToolCallOpenTag ++ (trimLeft v ++ u)) (by decide : Marked '<' qwen35ThinkingCloseTag)
  rw [hnone] at hself
  unfold closed
  simp only [append_assoc]
  exact hself

theorem readContent_toolCall (t : Text) : readContent parseToolCall (qwen35ToolCallOpenTag ++ t) =
      Qwen3CoderParser.reading parseToolCall ⟨.collectingToolContent, t⟩ := by
  have hcut : cut (toolOpenTag ++ t) toolOpenTag = some ([], t) :=
    (cut_eq_some (by decide)).mpr ⟨rfl, fun _ hj => absurd hj (Nat.not_lt_zero _)⟩
  exact reading_open hcut

theorem readContent_toolCall_blank (h : Blank t) :
    readContent parseToolCall (qwen35ToolCallOpenTag ++ t) = ⟨.none, []⟩ := by
  have hcut : cut t toolCloseTag = none := by
    refine (cut_eq_none (by decide)).mpr fun i ho => ?_
    have hget := ho.getElem? (k := 0) (by decide)
    exact absurd (h _ (mem_of_getElem? hget)) (by decide)
  rw [readContent_toolCall, reading_wait hcut, visible_eq_nil.mpr h]

/-- A tool call in thinking that stays together with the text to come. -/
theorem together_toolCall (hclose : cut x qwen35ThinkingCloseTag = none) (hov : tagOverlap x = 0)
    (htool : cut x qwen35ToolCallOpenTag = some (b, v)) (h : Together (x ++ u)) :
    cut (x ++ u) qwen35ThinkingCloseTag = none ∧ v ++ u ≠ [] ∧ Blank (v ++ u) := by
  unfold Together at h
  cases hc : cut (x ++ u) qwen35ThinkingCloseTag with
  | some q =>
    rw [hc] at h
    have := h x (prefix_append x u) hclose (by rw [htool]; exact Option.some_ne_none _)
    omega
  | none =>
    rw [hc] at h
    rw [cut_append (by decide) htool u] at h
    exact ⟨rfl, h⟩

/-- The closing tag that was put in changes nothing. -/
theorem readBody_closed (hclose : cut x qwen35ThinkingCloseTag = none) (hov : tagOverlap x = 0)
    (htool : cut x qwen35ToolCallOpenTag = some (b, v)) (hu : u = [] ∨ Together (x ++ u)) :
    readBody parseToolCall (x ++ u) = readBody parseToolCall (closed b v ++ u) := by
  have hbx : cut b qwen35ThinkingCloseTag = none := by
    refine cut_none_of_front (by decide) hclose ⟨qwen35ToolCallOpenTag ++ v, ?_⟩
    exact ((cut_eq_some (by decide)).mp htool).1.symm
  have hright : readBody parseToolCall (closed b v ++ u) = (Response.ofThinking b).before
      (readContent parseToolCall (qwen35ToolCallOpenTag ++ (trimLeft v ++ u))) := by
    unfold readBody
    rw [cut_closed hbx]
    simp only
    rw [Response.ofThinking_congr (visible_trimRight b)]
  rw [hright]
  rcases hu with rfl | htogether
  · rw [append_nil, append_nil]
    unfold readBody
    rw [hclose]
    rw [if_neg (by omega), htool]
  · obtain ⟨hnone, hne, hblank⟩ := together_toolCall hclose hov htool htogether
    have hzero : tagOverlap (x ++ u) = 0 := by
      rw [((cut_eq_some (by decide)).mp htool).1, append_assoc, append_assoc, ← append_assoc]
      exact tagOverlap_blank_end hblank hne _
    have hv : Blank v := fun r hr => hblank r (mem_append_left _ hr)
    have hu : Blank u := fun r hr => hblank r (mem_append_right _ hr)
    unfold readBody
    rw [hnone]
    rw [if_neg (by omega), cut_append (by decide) htool u]
    simp only
    rw [trimLeft_eq_nil.mpr hblank, trimLeft_eq_nil.mpr hv, nil_append,
      readContent_toolCall_blank hu, readContent_toolCall_blank fun _ h => absurd h not_mem_nil]

theorem together_closed (hb : cut b qwen35ThinkingCloseTag = none)
    (hb' : cut b qwen35ToolCallOpenTag = none) (v u : Text) : Together (closed b v ++ u) := by
  have hcut := cut_closed hb v u
  unfold Together
  rw [hcut]
  obtain ⟨hs, -⟩ := (cut_eq_some (by decide)).mp hcut
  intro x hx hclose htool
  exfalso
  apply htool
  have hocc := occurs_middle (trimRight b) qwen35ThinkingCloseTag
    (qwen35ToolCallOpenTag ++ (trimLeft v ++ u))
  rw [← hs] at hocc
  refine (cut_eq_none (by decide)).mpr fun i ho => ?_
  obtain ⟨z, hz⟩ := hx
  have ho' : Occurs qwen35ToolCallOpenTag (closed b v ++ u) i := by
    rw [← hz]
    exact ho.append (by decide) z
  have hlen : qwen35ToolCallOpenTag.length = 11 := rfl
  have hlen' : qwen35ThinkingCloseTag.length = 8 := rfl
  have hend := ho.add_le (by decide)
  -- the closing tag is not complete in `x`
  have hshort : x.length < (trimRight b).length + 8 := by
    by_contra hle
    refine (cut_eq_none (by decide)).mp hclose (trimRight b).length (Occurs.of_append (u := z) ?_ ?_)
    · rwa [hz]
    · omega
  have hapart := ho'.apart (c := '<') (by decide) (by decide) hocc
  rcases Nat.lt_or_ge i (trimRight b).length with hlt | hge
  · have hin := hapart hlt
    obtain ⟨w, -, hbw⟩ := trimRight_spec b
    refine (cut_eq_none (by decide)).mp hb' i ?_
    rw [hbw]
    rw [hs] at ho'
    exact (ho'.of_append hin).append (by decide) w
  · omega

/-! ## §4  One turn -/

/-- No tool call interrupts the thinking that is still to be read. -/
def Kept (p : Qwen35Parser) (t : Text) : Prop :=
  match p.state with
  | .collectingThinking =>
      if p.allowLeadingThinkOpenTag then ∀ body ∈ bodyOf t, Together body else Together t
  | _ => True

def withTool (p : Qwen35Parser) (toolParser : Qwen3CoderParser) : Qwen35Parser :=
  { p with toolParser := toolParser }

variable (parseToolCall) in
/-- What turns do, for the text `u` to come: they take off the reading what they return. -/
structure Reads (p : Qwen35Parser) (u : Text) (es : List Qwen35Event) (p' : Qwen35Parser) :
    Prop where
  tool : p'.toolParser = p.toolParser
  ready : Ready parseToolCall (p'.withTool (delivered parseToolCall es p.toolParser).2)
  reads : reading parseToolCall p (p.buffer ++ u) =
    (delivered parseToolCall es p.toolParser).1.before
      (reading parseToolCall (p'.withTool (delivered parseToolCall es p.toolParser).2)
        (p'.buffer ++ u))
  kept : Kept p (p.buffer ++ u) → Kept p' (p'.buffer ++ u)

variable (parseToolCall) in
def Settled (p : Qwen35Parser) : Prop :=
  reading parseToolCall p p.buffer = ⟨.none, visible p.buffer ++ visible p.toolParser.acc⟩

variable (parseToolCall) in
structure Turn (p : Qwen35Parser) (u : Text) (out : List Qwen35Event × Qwen35Parser × Bool) :
    Prop extends Reads parseToolCall p u out.1 out.2.1 where
  more : out.2.2 = true → ∃ c, out.1 = thinkingEvent c
  settled : out.2.2 = false →
    Settled parseToolCall (out.2.1.withTool (delivered parseToolCall out.1 p.toolParser).2)

variable {p : Qwen35Parser}

variable (parseToolCall) in
theorem delivered_thinking (c : Text) (es : List Qwen35Event) (toolParser : Qwen3CoderParser) :
    delivered parseToolCall (thinkingEvent c ++ es) toolParser =
      ((Response.ofThinking c).stepThen (delivered parseToolCall es toolParser).1,
        (delivered parseToolCall es toolParser).2) := by
  unfold thinkingEvent
  split
  · next h =>
    rw [h]
    rfl
  · rfl

theorem delivered_thinkingEvent (c : Text) (toolParser : Qwen3CoderParser) :
    delivered parseToolCall (thinkingEvent c) toolParser = (.ofThinking c, toolParser) := by
  rw [← append_nil (thinkingEvent c), delivered_thinking]
  exact Prod.ext (Response.append_none _) rfl

theorem readContent_trimLeft (a u : Text) :
    readContent parseToolCall (trimLeft a ++ u) = readContent parseToolCall (a ++ u) := by
  unfold readContent
  rw [← reading_trimLeft, trimLeft_append, reading_trimLeft]

theorem ready_of_unused (h : p.toolParser = .init) : Ready parseToolCall p := by
  refine ⟨fun _ => h, ?_⟩
  rw [h]
  exact reading_init

theorem kept_body (hstate : p.state = .collectingThinking)
    (hallow : p.allowLeadingThinkOpenTag = false) {t : Text} : Kept p t ↔ Together t := by
  unfold Kept
  rw [hstate, hallow]
  exact Iff.rfl

section

variable (htool : p.toolParser = .init)
include htool

section

variable (hstate : p.state = .collectingThinking)
include hstate

section

variable (hallow : p.allowLeadingThinkOpenTag = false)
include hallow

theorem turn_close
    {a : Text}
    (h : cut p.buffer qwen35ThinkingCloseTag = some (b, a)) (u : Text) :
    Turn parseToolCall p u (eatBody p) := by
  have heat : eatBody p = (thinkingEvent (trimRight b), { p with
        buffer := trimLeft a
        state := if trimLeft a = [] then .thinkingDoneEatingWhitespace else .collectingContent },
      true) := by
    unfold eatBody
    rw [h]
  have hread : reading parseToolCall p (p.buffer ++ u) =
      (Response.ofThinking b).before (readContent parseToolCall (a ++ u)) := by
    unfold reading
    rw [hstate, hallow]
    rw [if_neg Bool.false_ne_true]
    unfold readBody
    rw [cut_append (by decide) h u]
  rw [heat]
  refine ⟨⟨rfl, ?_, ?_, ?_⟩, fun _ => ⟨_, rfl⟩, nofun⟩
  · rw [delivered_thinkingEvent]
    exact ready_of_unused htool
  · rw [hread, delivered_thinkingEvent, Response.ofThinking_congr (visible_trimRight b),
      ← readContent_trimLeft]
    congr 1
    unfold reading withTool
    rw [htool]
    by_cases hnil : trimLeft a = []
    · rw [if_pos hnil]
    · rw [if_neg hnil]
      rfl
  · intro _
    unfold Kept
    by_cases hnil : trimLeft a = []
    · simp only [if_pos hnil]
    · simp only [if_neg hnil]

theorem turn_hold
    (hclose : cut p.buffer qwen35ThinkingCloseTag = none)
    (hno : cut p.buffer qwen35ToolCallOpenTag = none ∨ 0 < tagOverlap p.buffer)
    (hu : u = [] ∨ Together (p.buffer ++ u)) : Turn parseToolCall p u (eatBody p) := by
  have heat : eatBody p = (thinkingEvent (p.buffer.take (hold p.buffer)),
      { p with buffer := p.buffer.drop (hold p.buffer) }, false) := by
    unfold eatBody hold
    rw [hclose]
    simp only
    split
    · rfl
    · next hzero => rw [hno.resolve_right hzero]
  have hheld := held_hold hclose hno
  have hsettled := readBody_kept parseToolCall hclose hno
  have hsplit : p.buffer = p.buffer.take (hold p.buffer) ++ p.buffer.drop (hold p.buffer) :=
    (take_append_drop _ _).symm
  generalize p.buffer.take (hold p.buffer) = d at hheld hsplit heat
  generalize p.buffer.drop (hold p.buffer) = y at hheld hsplit heat hsettled
  have hself : ∀ t : Text, reading parseToolCall p t = readBody parseToolCall t := by
    intro t
    unfold reading
    rw [hstate, hallow]
    rfl
  have hlater : ∀ t : Text, reading parseToolCall
      (({ p with buffer := y } : Qwen35Parser).withTool p.toolParser) t =
        readBody parseToolCall t := hself
  rw [hsplit, append_assoc] at hu
  rw [heat]
  refine ⟨⟨rfl, ?_, ?_, ?_⟩, nofun, fun _ => ?_⟩
  · rw [delivered_thinkingEvent]
    exact ready_of_unused htool
  · rw [delivered_thinkingEvent, hlater, hself, hsplit, append_assoc]
    exact readBody_held hheld hu
  · intro hkept
    have htogether := (kept_body hstate hallow).mp hkept
    rw [hsplit, append_assoc] at htogether
    exact (kept_body (p := { p with buffer := y }) hstate hallow).mpr
      (together_held hheld htogether)
  · rw [delivered_thinkingEvent]
    unfold Settled
    rw [hlater]
    refine hsettled.trans (Reading.ext rfl ?_)
    rw [htool]
    exact (append_nil _).symm

theorem turn_toolCall
    (hclose : cut p.buffer qwen35ThinkingCloseTag = none) (hov : tagOverlap p.buffer = 0)
    (hcut : cut p.buffer qwen35ToolCallOpenTag = some (b, v))
    (hu : u = [] ∨ Together (p.buffer ++ u)) : Turn parseToolCall p u (eatBody p) := by
  have heat : eatBody p = ([], { p with buffer := closed b v }, true) := by
    unfold eatBody
    rw [hclose]
    rw [if_neg (by omega), hcut]
    rfl
  have hs := ((cut_eq_some (by decide)).mp hcut).1
  have hb : cut b qwen35ThinkingCloseTag = none :=
    cut_none_of_front (by decide) hclose ⟨qwen35ToolCallOpenTag ++ v, hs.symm⟩
  have hb' := cut_before (by decide) hcut
  rw [heat]
  refine ⟨⟨rfl, ready_of_unused htool, ?_, ?_⟩, fun _ => ⟨[], rfl⟩, nofun⟩
  · unfold reading withTool
    rw [hstate, hallow]
    exact readBody_closed hclose hov hcut hu
  · intro _
    rw [hstate, hallow]
    exact together_closed hb hb' v u

theorem turn_body
    (hu : u = [] ∨ Together (p.buffer ++ u)) :
    Turn parseToolCall p u (eatBody p) := by
  cases hclose : cut p.buffer qwen35ThinkingCloseTag with
  | some q => exact turn_close htool hstate hallow hclose u
  | none =>
    cases hcut : cut p.buffer qwen35ToolCallOpenTag with
    | none => exact turn_hold htool hstate hallow hclose (Or.inl hcut) hu
    | some q =>
      rcases Nat.eq_zero_or_pos (tagOverlap p.buffer) with hov | hov
      · exact turn_toolCall htool hstate hallow hclose hov hcut hu
      · exact turn_hold htool hstate hallow hclose (Or.inr hov) hu

end

end

end

theorem Turn.of_same {q : Qwen35Parser} {out : List Qwen35Event × Qwen35Parser × Bool}
    (h : Turn parseToolCall q u out) (htool : q.toolParser = p.toolParser)
    (hread : reading parseToolCall p (p.buffer ++ u) = reading parseToolCall q (q.buffer ++ u))
    (hkept : Kept p (p.buffer ++ u) → Kept q (q.buffer ++ u)) : Turn parseToolCall p u out := by
  obtain ⟨⟨htool', hready, hreads, hkept'⟩, hmore, hsettled⟩ := h
  rw [htool] at htool' hready hreads hsettled
  exact ⟨⟨htool', hready, hread.trans hreads, fun h => hkept' (hkept h)⟩, hmore, hsettled⟩

theorem together_blank_iff (hw : Blank w) : Together (w ++ t) ↔ Together t := by
  refine ⟨together_blank hw, fun h => ?_⟩
  unfold Together at h ⊢
  rw [cut_blank (by decide) hw]
  cases hcut : cut t qwen35ThinkingCloseTag with
  | some q =>
    rw [hcut] at h
    intro x hx hclose htool
    rcases prefix_or_prefix_of_prefix hx (prefix_append w t) with hxw | ⟨z, rfl⟩
    · -- there is no tag in the white space
      exfalso
      apply htool
      refine (cut_eq_none (by decide)).mpr fun i ho => ?_
      have hget := ho.getElem? (k := 0) (by decide)
      exact absurd (hw _ (hxw.subset (mem_of_getElem? hget))) (by decide)
    · rw [cut_blank (by decide) hw, Option.map_eq_none_iff] at hclose
      rw [cut_blank (by decide) hw, ne_eq, Option.map_eq_none_iff] at htool
      rw [tagOverlap_blank hw]
      exact h z ((prefix_append_right_inj w).mp hx) hclose htool
  | none =>
    rw [hcut] at h
    rw [cut_blank (by decide) hw]
    cases htool : cut t qwen35ToolCallOpenTag with
    | some q =>
      rw [htool] at h
      exact h
    | none => trivial

theorem together_trimLeft_iff : Together (trimLeft t) ↔ Together t := by
  obtain ⟨w, hw, ht⟩ := trimLeft_spec t
  conv_rhs => rw [ht]
  exact (together_blank_iff hw).symm

theorem together_trimLeft_append (a u : Text) : Together (trimLeft a ++ u) ↔ Together (a ++ u) := by
  rw [← together_trimLeft_iff, trimLeft_append, together_trimLeft_iff]

theorem readBody_trimLeft_append (a u : Text) :
    readBody parseToolCall (trimLeft a ++ u) = readBody parseToolCall (a ++ u) := by
  rw [← readBody_trimLeft, trimLeft_append, readBody_trimLeft]

theorem readBody_nil : readBody parseToolCall [] = ⟨.none, []⟩ := by
  rfl

theorem turn_space (htool : p.toolParser = .init) (hstate : p.state = .collectingThinking)
    (hallow : p.allowLeadingThinkOpenTag = false) (hu : u = [] ∨ Together (p.buffer ++ u)) :
    Turn parseToolCall p u (eatSpace p) := by
  have hself : ∀ t : Text, reading parseToolCall p t = readBody parseToolCall t := by
    intro t
    unfold reading
    rw [hstate, hallow]
    rfl
  unfold eatSpace
  split
  · simp only
    split
    · next hnil =>
      have hlater : ∀ t : Text, reading parseToolCall
          (({ p with buffer := trimLeft p.buffer } : Qwen35Parser).withTool p.toolParser) t =
            readBody parseToolCall t := hself
      refine ⟨⟨rfl, ready_of_unused htool, ?_, ?_⟩, nofun, fun _ => ?_⟩
      · show _ = (Response.none : Response τ).before (reading parseToolCall
          (({ p with buffer := trimLeft p.buffer } : Qwen35Parser).withTool p.toolParser)
            (trimLeft p.buffer ++ u))
        rw [hself, Response.none_before, hlater, readBody_trimLeft_append]
      · intro hkept
        have h := (kept_body hstate hallow).mp hkept
        exact (kept_body (p := { p with buffer := trimLeft p.buffer }) hstate hallow).mpr
          ((together_trimLeft_append _ _).mpr h)
      · show reading parseToolCall
          (({ p with buffer := trimLeft p.buffer } : Qwen35Parser).withTool p.toolParser)
            (trimLeft p.buffer) = ⟨.none, visible (trimLeft p.buffer) ++ visible p.toolParser.acc⟩
        rw [hlater, hnil, readBody_nil, htool]
        rfl
    · refine Turn.of_same (turn_body (p := { p with
        buffer := trimLeft p.buffer
        trimLeadingThinkingSpace := false }) htool hstate hallow ?_) rfl ?_ ?_
      · exact hu.imp_right (together_trimLeft_append _ _).mpr
      · rw [hself]
        have hlater : reading parseToolCall ({ p with
            buffer := trimLeft p.buffer
            trimLeadingThinkingSpace := false } : Qwen35Parser) (trimLeft p.buffer ++ u) =
              readBody parseToolCall (trimLeft p.buffer ++ u) := hself _
        rw [hlater, readBody_trimLeft_append]
      · intro hkept
        have h := (kept_body hstate hallow).mp hkept
        exact (kept_body (p := { p with
          buffer := trimLeft p.buffer
          trimLeadingThinkingSpace := false }) hstate hallow).mpr
            ((together_trimLeft_append _ _).mpr h)
  · exact turn_body htool hstate hallow hu

theorem bodyOf_tag {x rest : Text} (h : trimLeft x = qwen35ThinkingOpenTag ++ rest) (u : Text) :
    bodyOf (x ++ u) = some (trimLeft (rest ++ u)) := by
  have hne : trimLeft x ≠ [] := by
    rw [h]
    exact append_ne_nil_of_left_ne_nil (by decide) rest
  unfold bodyOf
  rw [trimLeft_append_of_ne hne, h, append_assoc, if_pos (prefix_append _ _), drop_left]

theorem bodyOf_plain {x : Text} (h : ¬qwen35ThinkingOpenTag <+: trimLeft x)
    (h' : ¬trimLeft x <+: qwen35ThinkingOpenTag) (u : Text) : bodyOf (x ++ u) = some (x ++ u) := by
  have hne : trimLeft x ≠ [] := fun hnil => h' (hnil ▸ List.nil_prefix)
  unfold bodyOf
  rw [trimLeft_append_of_ne hne, if_neg, if_neg]
  · exact fun hp => h' ((prefix_append _ u).trans hp)
  · intro hp
    rcases prefix_or_prefix_of_prefix hp (prefix_append (trimLeft x) u) with hp | hp
    · exact h hp
    · exact h' hp

theorem turn_leading (htool : p.toolParser = .init) (hstate : p.state = .collectingThinking)
    (hallow : p.allowLeadingThinkOpenTag = true)
    (hu : u = [] ∨ ∀ body ∈ bodyOf (p.buffer ++ u), Together body) :
    Turn parseToolCall p u (eat p) := by
  have hself : ∀ t : Text, reading parseToolCall p t = readThinking parseToolCall t := by
    intro t
    unfold reading
    rw [hstate, hallow]
    rfl
  have hkept_iff : ∀ t : Text, Kept p t ↔ ∀ body ∈ bodyOf t, Together body := by
    intro t
    unfold Kept
    rw [hstate, hallow]
    exact Iff.rfl
  unfold eat
  rw [hstate]
  unfold maybeConsumeLeadingThinkOpenTag
  rw [if_pos hallow]
  by_cases hopen : qwen35ThinkingOpenTag <+: trimLeft p.buffer
  · obtain ⟨rest, hrest⟩ := hopen
    have hbody := bodyOf_tag hrest.symm
    rw [← hrest, if_pos (prefix_append _ _), drop_left]
    have hlater : ∀ t : Text, reading parseToolCall (({ p with
        buffer := trimLeft rest
        allowLeadingThinkOpenTag := false
        trimLeadingThinkingSpace := decide (trimLeft rest = []) } : Qwen35Parser).withTool
          p.toolParser) t = readBody parseToolCall t := by
      intro t
      rw [hstate]
      rfl
    refine ⟨⟨rfl, ready_of_unused htool, ?_, ?_⟩, fun _ => ⟨[], rfl⟩, fun hlast => ?_⟩
    · refine Eq.trans ?_ (hlater (trimLeft rest ++ u)).symm
      rw [hself]
      unfold readThinking
      rw [hbody]
      simp only
      rw [readBody_trimLeft, readBody_trimLeft_append]
    · intro hkept
      have h := (hkept_iff _).mp hkept _ (hbody u)
      refine (kept_body (p := { p with
        buffer := trimLeft rest
        allowLeadingThinkOpenTag := false
        trimLeadingThinkingSpace := decide (trimLeft rest = []) }) hstate rfl).mpr ?_
      exact (together_trimLeft_append _ _).mpr (together_trimLeft_iff.mp h)
    · have hnil : trimLeft rest = [] := by
        by_contra hne
        rw [decide_eq_false_iff_not, not_not] at hlast
        exact hne hlast
      refine (hlater _).trans ?_
      show readBody parseToolCall (trimLeft rest) =
        ⟨.none, visible (trimLeft rest) ++ visible p.toolParser.acc⟩
      rw [hnil, readBody_nil, htool]
      rfl
  · rw [if_neg hopen]
    by_cases hpart : trimLeft p.buffer <+: qwen35ThinkingOpenTag
    · rw [if_pos hpart]
      refine ⟨⟨rfl, ready_of_unused htool, ?_, fun h => h⟩, fun _ => ⟨[], rfl⟩, fun _ => ?_⟩
      · exact (Response.none_before _).symm
      · show reading parseToolCall p p.buffer = ⟨.none, visible p.buffer ++ visible p.toolParser.acc⟩
        rw [hself, htool]
        unfold readThinking bodyOf
        rw [if_neg hopen, if_pos hpart]
        exact Reading.ext rfl (append_nil _).symm
    · rw [if_neg hpart]
      have hbody := bodyOf_plain hopen hpart u
      refine Turn.of_same (turn_space (p := { p with allowLeadingThinkOpenTag := false }) htool
        hstate rfl ?_) rfl ?_ ?_
      · exact hu.imp_right fun h => h _ hbody
      · rw [hself]
        have hlater : reading parseToolCall ({ p with allowLeadingThinkOpenTag := false } :
            Qwen35Parser) (p.buffer ++ u) = readBody parseToolCall (p.buffer ++ u) := by
          rw [hstate]
          rfl
        rw [hlater]
        unfold readThinking
        rw [hbody]
      · intro hkept
        exact (kept_body (p := { p with allowLeadingThinkOpenTag := false }) hstate rfl).mpr
          ((hkept_iff _).mp hkept _ hbody)

theorem kept_of_state {t : Text} (h : p.state ≠ .collectingThinking) : Kept p t := by
  unfold Kept
  split
  · next hstate => exact absurd hstate h
  · trivial

theorem turn_doneEating (htool : p.toolParser = .init)
    (hstate : p.state = .thinkingDoneEatingWhitespace) (u : Text) :
    Turn parseToolCall p u (eat p) := by
  obtain ⟨toolParser, state, buffer, allow, trim⟩ := p
  cases htool
  cases hstate
  unfold eat
  simp only
  split
  · next hnil =>
    have hblank := trimLeft_eq_nil.mp hnil
    refine ⟨⟨rfl, ready_of_unused rfl, ?_, fun _ => kept_of_state (by simp)⟩, nofun, fun _ => ?_⟩
    · exact (Qwen3CoderParser.reading_blank hblank u).trans (Response.none_before _).symm
    · exact Qwen3CoderParser.reading_init
  · refine ⟨⟨rfl, ready_of_unused rfl, ?_, fun _ => kept_of_state (by simp)⟩, fun _ => ⟨[], rfl⟩,
      nofun⟩
    exact (readContent_trimLeft _ _).symm.trans (Response.none_before _).symm

theorem turn_content (hready : Ready parseToolCall p) (hstate : p.state = .collectingContent)
    (u : Text) : Turn parseToolCall p u (eat p) := by
  obtain ⟨toolParser, state, buffer, allow, trim⟩ := p
  cases hstate
  unfold eat
  simp only
  split
  · next hnil =>
    refine ⟨⟨rfl, hready, (Response.none_before _).symm, fun h => h⟩, nofun, fun _ => ?_⟩
    show Qwen3CoderParser.reading parseToolCall (toolParser.write buffer) =
      ⟨.none, visible buffer ++ visible toolParser.acc⟩
    rw [hnil, Qwen3CoderParser.write_nil]
    exact hready.settled
  · have hdelivered : delivered parseToolCall [.content buffer] toolParser =
        (Qwen3CoderParser.returned parseToolCall (toolParser.write buffer).parseEvents.1,
          (toolParser.write buffer).parseEvents.2) := by
      show (if _ then _ else _) = _
      split
      · rfl
      · exact Prod.ext (Response.stepThen_none _) rfl
    have hsettled := Qwen3CoderParser.parseEvents_settled parseToolCall (toolParser.write buffer)
    refine ⟨⟨rfl, ?_, ?_, fun _ => kept_of_state (by simp)⟩, nofun, fun _ => ?_⟩
    · rw [hdelivered]
      exact ⟨fun h => absurd rfl h, hsettled⟩
    · rw [hdelivered]
      show Qwen3CoderParser.reading parseToolCall (toolParser.write (buffer ++ u)) = _
      rw [← Qwen3CoderParser.write_write]
      exact Qwen3CoderParser.reading_write _ _
    · rw [hdelivered]
      show Qwen3CoderParser.reading parseToolCall
        ((toolParser.write buffer).parseEvents.2.write []) = _
      rw [Qwen3CoderParser.write_nil]
      exact hsettled

theorem eat_turn (hready : Ready parseToolCall p) (hu : u = [] ∨ Kept p (p.buffer ++ u)) :
    Turn parseToolCall p u (eat p) := by
  cases hstate : p.state with
  | collectingThinking =>
    have htool := hready.unused (by rw [hstate]; decide)
    cases hallow : p.allowLeadingThinkOpenTag with
    | true =>
      refine turn_leading htool hstate hallow (hu.imp_right fun h => ?_)
      unfold Kept at h
      rw [hstate, hallow] at h
      exact h
    | false =>
      have heat : eat p = eatSpace p := by
        unfold eat
        rw [hstate]
        unfold maybeConsumeLeadingThinkOpenTag
        rw [hallow]
        rfl
      rw [heat]
      exact turn_space htool hstate hallow (hu.imp_right (kept_body hstate hallow).mp)
  | thinkingDoneEatingWhitespace =>
    exact turn_doneEating (hready.unused (by rw [hstate]; decide)) hstate u
  | collectingContent => exact turn_content hready hstate u

/-! ## §5  The loop -/

theorem turns_of_state (h : p.state ≠ .collectingThinking) : turns p ≤ 1 := by
  unfold turns
  split
  · next hstate => exact absurd hstate h
  · exact Nat.le_refl 1
  · exact Nat.zero_le 1

theorem eatBody_turns (hstate : p.state = .collectingThinking) (h : (eatBody p).2.2 = true) :
    turns (eatBody p).2.1 < turns p := by
  obtain ⟨toolParser, state, buffer, allow, trim⟩ := p
  cases hstate
  cases hclose : cut buffer qwen35ThinkingCloseTag with
  | some q =>
    have hle : turns (eatBody ⟨toolParser, .collectingThinking, buffer, allow, trim⟩).2.1 ≤ 1 := by
      refine turns_of_state ?_
      unfold eatBody
      rw [hclose]
      simp only
      split <;> decide
    have hge : 2 ≤ turns (⟨toolParser, .collectingThinking, buffer, allow, trim⟩ : Qwen35Parser) := by
      unfold turns
      simp only
      rw [hclose, if_neg (Option.some_ne_none q)]
      omega
    omega
  | none =>
    revert h
    unfold eatBody
    rw [hclose]
    simp only
    split
    · exact nofun
    cases hcut : cut buffer qwen35ToolCallOpenTag with
    | none => exact nofun
    | some q =>
      intro _
      have hb : cut q.1 qwen35ThinkingCloseTag = none :=
        cut_none_of_front (by decide) hclose ⟨_, ((cut_eq_some (by decide)).mp hcut).1.symm⟩
      have hclosed := cut_closed hb q.2 []
      rw [append_nil] at hclosed
      unfold closed at hclosed
      unfold turns
      simp only
      rw [hclosed, hclose, if_neg (Option.some_ne_none _), if_pos rfl]
      omega

theorem eatSpace_turns (hstate : p.state = .collectingThinking) (h : (eatSpace p).2.2 = true) :
    turns (eatSpace p).2.1 < turns p := by
  unfold eatSpace at h ⊢
  split at h
  · next htrim =>
    rw [if_pos htrim]
    simp only at h ⊢
    split at h
    · cases h
    rename_i hne
    rw [if_neg hne]
    refine (eatBody_turns (p := { p with
      buffer := trimLeft p.buffer
      trimLeadingThinkingSpace := false }) hstate h).trans_eq ?_
    obtain ⟨w, hw, hp⟩ := trimLeft_spec p.buffer
    have hcut : cut (trimLeft p.buffer) qwen35ThinkingCloseTag = none ↔
        cut p.buffer qwen35ThinkingCloseTag = none := by
      conv_rhs => rw [hp, cut_blank (by decide) hw, Option.map_eq_none_iff]
    unfold turns
    simp only [hcut]
  · next htrim =>
    rw [if_neg htrim]
    exact eatBody_turns hstate h

/-- The loop ends by itself. -/
theorem turns_lt (p : Qwen35Parser) (h : (eat p).2.2 = true) : turns (eat p).2.1 < turns p := by
  obtain ⟨toolParser, state, buffer, allow, trim⟩ := p
  cases state with
  | collectingThinking =>
    have hge : ∀ q : Qwen35Parser, q.state = .collectingThinking →
        q.allowLeadingThinkOpenTag = false → turns q ≤ 3 := by
      intro q hq hq'
      unfold turns
      rw [hq, hq']
      simp only [Bool.false_eq_true, if_false]
      split <;> omega
    cases allow with
    | false => exact eatSpace_turns rfl h
    | true =>
      have htop : 4 ≤ turns (⟨toolParser, .collectingThinking, buffer, true, trim⟩ :
          Qwen35Parser) := by
        unfold turns
        simp only [if_true]
        split <;> omega
      revert h
      unfold eat
      unfold maybeConsumeLeadingThinkOpenTag
      by_cases hopen : qwen35ThinkingOpenTag <+: trimLeft buffer
      · rw [if_pos hopen]
        intro _
        exact Nat.lt_of_le_of_lt (hge _ rfl rfl) htop
      rw [if_neg hopen]
      by_cases hpart : trimLeft buffer <+: qwen35ThinkingOpenTag
      · rw [if_pos hpart]
        exact nofun
      · rw [if_neg hpart]
        intro h
        have hlt := eatSpace_turns (p := ⟨toolParser, .collectingThinking, buffer, false, trim⟩)
          rfl h
        exact (hlt.trans_le (hge _ rfl rfl)).trans (Nat.lt_of_lt_of_le (by omega) htop)
  | thinkingDoneEatingWhitespace =>
    revert h
    unfold eat
    simp only
    split
    · exact nofun
    · exact fun _ => Nat.zero_lt_one
  | collectingContent =>
    revert h
    unfold eat
    simp only
    split
    · exact nofun
    · exact nofun

/-- **Loop.** By induction on its turns. -/
theorem parseEvents_reads (p : Qwen35Parser) (u : Text) (hready : Ready parseToolCall p)
    (hu : u = [] ∨ Kept p (p.buffer ++ u)) :
    Reads parseToolCall p u p.parseEvents.1 p.parseEvents.2 ∧
      Settled parseToolCall (p.parseEvents.2.withTool
        (delivered parseToolCall p.parseEvents.1 p.toolParser).2) := by
  refine drain_rule turns turns_lt
    (P := fun p es p' => Ready parseToolCall p → (u = [] ∨ Kept p (p.buffer ++ u)) →
      Reads parseToolCall p u es p' ∧
        Settled parseToolCall (p'.withTool (delivered parseToolCall es p.toolParser).2))
    (fun p hlast hready hu => ?_) (fun p es p' hmore ih hready hu => ?_) _ p (Nat.lt_succ_self _)
    hready hu
  · have h := eat_turn hready hu
    exact ⟨h.toReads, h.settled hlast⟩
  have h := eat_turn hready hu
  obtain ⟨c, hc⟩ := h.more hmore
  have htool := h.tool
  have hnext := h.ready
  have hread := h.reads
  rw [hc, delivered_thinkingEvent, ← htool] at hnext hread
  obtain ⟨hlater, hsettled⟩ := ih hnext (hu.imp_right h.kept)
  have hdelivered := delivered_thinking parseToolCall c es p.toolParser
  rw [hc]
  refine ⟨⟨hlater.tool.trans htool, ?_, ?_, fun hkept => hlater.kept (h.kept hkept)⟩, ?_⟩
  · rw [hdelivered, ← htool]
    exact hlater.ready
  · rw [hdelivered, ← htool, ← Response.before_before, ← hlater.reads]
    exact hread
  · rw [hdelivered, ← htool]
    exact hsettled

end Qwen35Parser

end Ollama.Parsers
