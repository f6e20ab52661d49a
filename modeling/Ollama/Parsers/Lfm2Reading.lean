import Ollama.Parsers.Lfm2
import Ollama.Parsers.Qwen3Coder

/-!
# Readings of LFM2 output

What one call of the LFM2 parser's `Add` does with a chunk, as long as it finds no tool call: it
returns a part of the reading of the text, and leaves the rest to be read.
-/

namespace Ollama.Parsers

open Lib List
open Api (ToolCall)

variable {α : Type} {args : PythonArgs α}

/-! ## §1  Bare calls -/

theorem mem_of_mem_trimSpace {s : Text} {r : Char} (h : r ∈ trimSpace s) : r ∈ s :=
  (dropWhile_sublist _).mem ((List.rdropWhile_prefix _ _).sublist.mem h)

theorem mem_of_mem_trimPrefix {s tag : Text} {r : Char} (h : r ∈ trimPrefix s tag) : r ∈ s := by
  unfold trimPrefix at h
  split at h
  · exact mem_of_mem_drop h
  · exact h

theorem mem_of_mem_trimSuffix {s tag : Text} {r : Char} (h : r ∈ trimSuffix s tag) : r ∈ s := by
  unfold trimSuffix at h
  split at h
  · exact mem_of_mem_take h
  · exact h

theorem mem_of_mem_stripBrackets {s : Text} {r : Char} (h : r ∈ stripBrackets s) : r ∈ s := by
  unfold stripBrackets at h
  split at h
  · exact mem_of_mem_take (mem_of_mem_drop h)
  · exact h

theorem mem_of_mem_skipComma {s : Text} {r : Char} (h : r ∈ skipComma s) : r ∈ s := by
  unfold skipComma at h
  split at h
  · exact mem_of_mem_drop (mem_of_mem_trimSpace h)
  · exact h

theorem parsePythonCalls_noParen (args : PythonArgs α) {t : Text} (h : '(' ∉ t) (fuel : ℕ) :
    parsePythonCalls args (fuel + 1) t [] = .ok [] ∨
      ∃ e, parsePythonCalls args (fuel + 1) t [] = .error e := by
  rw [parsePythonCalls]
  by_cases hnil : skipComma (trimSpace t) = []
  · rw [if_pos hnil]
    exact .inl rfl
  have none : cut (skipComma (trimSpace t)) ['('] = none := by
    refine (cut_eq_none (cons_ne_nil _ _)).mpr fun i ho => h ?_
    refine mem_of_mem_trimSpace (mem_of_mem_skipComma (mem_of_mem_drop (i := i) ?_))
    exact ho.subset mem_cons_self
  rw [if_neg hnil, parsePythonStyleToolCall, none]
  exact .inr ⟨_, rfl⟩

theorem parsePythonStyleToolCalls_noParen (args : PythonArgs α) {t : Text} (h : '(' ∉ t) :
    ∃ e, parsePythonStyleToolCalls args t = .error e := by
  have inner : '(' ∉ stripBrackets (trimSpace t) := fun hm =>
    h (mem_of_mem_trimSpace (mem_of_mem_stripBrackets hm))
  rw [parsePythonStyleToolCalls]
  rcases parsePythonCalls_noParen args inner (stripBrackets (trimSpace t)).length with
    none | ⟨e, err⟩
  · rw [none]
    exact ⟨_, rfl⟩
  · rw [err]
    exact ⟨e, rfl⟩

theorem parse_noParen (args : PythonArgs α) {s : Text} (h : '(' ∉ s) :
    ∃ e, parseToolCallsContent args s = .error e := by
  rw [parseToolCallsContent]
  refine parsePythonStyleToolCalls_noParen args fun hm => h ?_
  have hsuffix := mem_of_mem_trimSuffix (mem_of_mem_trimSpace hm)
  exact mem_of_mem_trimSpace (mem_of_mem_trimPrefix (mem_of_mem_trimSpace hsuffix))

namespace LFM2Parser

variable {p q : LFM2Parser} {t b a c : Text}

def Bare (args : PythonArgs α) (p : LFM2Parser) (s : Text) : Prop :=
  p.hasTools = true ∧ ∃ calls, parseToolCallsContent args (trimSpace s) = .ok calls ∧
    toolCallsAllowed p calls = true

theorem not_bare_noParen {s : Text} (h : '(' ∉ s) : ¬Bare args p s := by
  rintro ⟨-, calls, ok, -⟩
  obtain ⟨e, he⟩ := parse_noParen args fun hm => h (mem_of_mem_trimSpace hm)
  rw [ok] at he
  cases he

structure SameTools (p q : LFM2Parser) : Prop where
  toolNames : q.toolNames = p.toolNames
  hasTools : q.hasTools = p.hasTools

theorem SameTools.bare (h : SameTools p q) (s : Text) : Bare args q s ↔ Bare args p s := by
  unfold Bare toolCallsAllowed
  rw [h.toolNames, h.hasTools]

/-! ## §2  What the states do -/

structure Turned (p : LFM2Parser) (out : List (LFM2Event α) × LFM2Parser)
    (content thinking : Text) (state : LFM2ParserState) (buffer : Text) : Prop where
  returned : collect out.1 = ⟨content, thinking, [], none⟩
  state : out.2.state = state
  buffer : out.2.buffer = buffer
  tools : SameTools p out.2

theorem collect_contentEvent (s : Text) :
    collect (contentEvent (α := α) s) = ⟨s, [], [], none⟩ := by
  unfold contentEvent
  split
  · next h => rw [h]; rfl
  · exact Response.append_none _

theorem collect_thinkingEvent (s : Text) :
    collect (thinkingEvent (α := α) s) = ⟨[], s, [], none⟩ := by
  unfold thinkingEvent
  split
  · next h => rw [h]; rfl
  · exact Response.append_none _

/-- The content that is in the buffer. -/
def content (p : LFM2Parser) : Text :=
  if p.needsContentLeadingTrim then trimLeft p.buffer else p.buffer

theorem content_suffix (p : LFM2Parser) : content p <:+ p.buffer := by
  unfold content
  split
  · exact dropWhile_suffix _
  · exact suffix_refl _

theorem visible_content (p : LFM2Parser) : visible (content p) = visible p.buffer := by
  unfold content
  split
  · exact visible_trimLeft _
  · rfl

theorem trimSpace_content (p : LFM2Parser) : trimSpace (content p) = trimSpace p.buffer := by
  unfold content
  split
  · unfold trimSpace
    rw [trimLeft_trimLeft]
  · rfl

theorem parseEvents_content (args : PythonArgs α) (hp : p.state = .collectingContent)
    (h : cut p.buffer lfm2ToolCallStartTag = none) :
    Turned p (parseEvents args p) (content p) [] .collectingContent [] := by
  by_cases hnil : p.buffer = []
  · have hc : content p = [] := by
      have := content_suffix p
      rw [hnil] at this
      exact eq_nil_of_suffix_nil this
    rw [parseEvents_nil hnil, hc]
    exact ⟨rfl, hp, hnil, ⟨rfl, rfl⟩⟩
  · have hbuf : (trimContent p).buffer = content p := by
      unfold trimContent content
      split <;> rfl
    have hcut : cut (trimContent p).buffer lfm2ToolCallStartTag = none := by
      rw [hbuf]
      exact cut_none_of_suffix (by decide) h (content_suffix p)
    have heat : eat args p =
        (contentEvent (content p), { trimContent p with buffer := [] }, false) := by
      unfold eat
      rw [if_neg hnil, hp]
      rw [eatContent, hcut, hbuf]
    rw [parseEvents_last heat]
    refine ⟨collect_contentEvent _, ?_, rfl, ?_⟩
    · unfold trimContent
      split <;> exact hp
    · unfold trimContent
      constructor <;> split <;> rfl

def thought (p : LFM2Parser) : Text :=
  if p.needsThinkingLeadingTrim then trimLeft p.buffer else p.buffer

def hold (t : Text) : ℕ := ambiguousStart t (overlap t lfm2ThinkingCloseTag)

section

variable (args : PythonArgs α)

theorem eat_thinking (hp : p.state = .collectingThinking)
    (hopen : ¬lfm2ThinkingOpenTag <+: p.buffer) (hnil : p.buffer ≠ []) :
    eat args p = eatThought { p with
      buffer := thought p
      needsThinkingLeadingTrim := p.needsThinkingLeadingTrim && decide (thought p = []) } := by
  obtain ⟨state, buffer, callIndex, flag, lead, names, has⟩ := p
  subst hp
  unfold eat
  rw [if_neg hnil]
  rw [eatThinking, stripOpenTag, if_neg hopen]
  cases flag <;> rfl

theorem parseEvents_thinking_close (hp : p.state = .collectingThinking)
    (hopen : ¬lfm2ThinkingOpenTag <+: p.buffer)
    (h : cut (thought p) lfm2ThinkingCloseTag = some (b, a))
    (hcall : cut a lfm2ToolCallStartTag = none) :
    Turned p (parseEvents args p) (trimLeft a) (trimRight b) .collectingContent [] := by
  have hnil : p.buffer ≠ [] := by
    intro hnil
    have : thought p = [] := by
      unfold thought
      rw [hnil]
      split <;> rfl
    rw [this, cut_nil (by decide)] at h
    cases h
  have heat := eat_thinking args hp hopen hnil
  rw [eatThought, h] at heat
  rw [parseEvents_more heat]
  have hcall' : cut (trimLeft a) lfm2ToolCallStartTag = none :=
    cut_none_of_suffix (by decide) hcall (dropWhile_suffix _)
  obtain ⟨ret, state, buffer, tools⟩ := parseEvents_content args (p :=
    { p with
      buffer := trimLeft a, state := .collectingContent, needsThinkingLeadingTrim := false,
      needsContentLeadingTrim := trimLeft a = [] }) rfl hcall'
  refine ⟨?_, state, buffer, ⟨tools.toolNames, tools.hasTools⟩⟩
  have same : content { p with
      buffer := trimLeft a, state := .collectingContent, needsThinkingLeadingTrim := false,
      needsContentLeadingTrim := trimLeft a = [] } = trimLeft a := by
    unfold content
    split
    · exact trimLeft_trimLeft a
    · rfl
  rw [collect_append, collect_thinkingEvent, ret, same]
  exact Response.ext' rfl (append_nil _) rfl rfl

theorem parseEvents_thinking (hp : p.state = .collectingThinking)
    (hopen : ¬lfm2ThinkingOpenTag <+: p.buffer)
    (h : cut (thought p) lfm2ThinkingCloseTag = none) :
    Turned p (parseEvents args p) [] ((thought p).take (hold (thought p))) .collectingThinking
      ((thought p).drop (hold (thought p))) ∧
    ((parseEvents args p).2.needsThinkingLeadingTrim =
      (p.needsThinkingLeadingTrim && decide (thought p = []))) := by
  by_cases hnil : p.buffer = []
  · have ht : thought p = [] := by
      unfold thought
      rw [hnil]
      split <;> rfl
    rw [parseEvents_nil hnil, ht]
    refine ⟨⟨rfl, hp, ?_, ⟨rfl, rfl⟩⟩, by simp⟩
    rw [hnil, drop_nil]
  · have heat := eat_thinking args hp hopen hnil
    rw [eatThought, h] at heat
    rw [parseEvents_last heat]
    exact ⟨⟨collect_thinkingEvent _, hp, rfl, ⟨rfl, rfl⟩⟩, rfl⟩

theorem parseEvents_open (hp : p.state = .lookingForThinking)
    (h : lfm2ThinkingOpenTag <+: trimLeft p.buffer) :
    parseEvents args p = parseEvents args { p with
      buffer := (trimLeft p.buffer).drop lfm2ThinkingOpenTag.length
      state := .collectingThinking
      needsThinkingLeadingTrim := true } := by
  have hnil : p.buffer ≠ [] := by
    intro hnil
    rw [hnil] at h
    exact absurd (prefix_nil.mp h) (by decide)
  have heat : eat args p = ([], { p with
      buffer := (trimLeft p.buffer).drop lfm2ThinkingOpenTag.length
      state := .collectingThinking
      needsThinkingLeadingTrim := true }, true) := by
    unfold eat
    rw [if_neg hnil, hp]
    rw [eatLooking, if_pos h]
  rw [parseEvents_more heat]
  rfl

theorem parseEvents_undecided (hp : p.state = .lookingForThinking)
    (hopen : ¬lfm2ThinkingOpenTag <+: trimLeft p.buffer)
    (h : trimLeft p.buffer <+: lfm2ThinkingOpenTag) : parseEvents args p = ([], p) := by
  refine parseEvents_last ?_
  unfold eat
  split
  · rfl
  · rw [hp]
    rw [eatLooking, if_neg hopen, if_pos (.inr h)]

theorem parseEvents_direct (hp : p.state = .lookingForThinking)
    (hopen : ¬lfm2ThinkingOpenTag <+: trimLeft p.buffer)
    (h : ¬trimLeft p.buffer <+: lfm2ThinkingOpenTag) :
    parseEvents args p = parseEvents args { p with
      buffer := trimLeft p.buffer, state := .collectingContent } := by
  have hnil : trimLeft p.buffer ≠ [] := by
    intro hnil
    exact h (by rw [hnil]; exact List.nil_prefix)
  have heat : eat args p = ([], { p with
      buffer := trimLeft p.buffer, state := .collectingContent }, true) := by
    unfold eat
    rw [if_neg (fun hb => hnil (by rw [hb]; rfl)), hp]
    rw [eatLooking, if_neg hopen, if_neg (not_or.mpr ⟨hnil, h⟩)]
  rw [parseEvents_more heat]
  rfl

end

/-! ## §3  Readings -/

def settled (t : Text) : Text := t.take (t.length - overlap t lfm2ThinkingCloseTag)

def readThought (t : Text) : Response (ToolCall α) :=
  match cut t lfm2ThinkingCloseTag with
  | some (b, a) => .ofThinking b ++ .ofContent a
  | none => .ofThinking (settled t)

/-- The reading of what a parser has in its buffer and of the rest of a text, when no call is
found. -/
def reading (p : LFM2Parser) (u : Text) : Response (ToolCall α) :=
  match p.state with
  | .lookingForThinking =>
      let t := trimLeft (p.buffer ++ u)
      if lfm2ThinkingOpenTag <+: t then readThought (t.drop lfm2ThinkingOpenTag.length)
      else .ofContent t
  | .collectingThinking => readThought (p.buffer ++ u)
  | _ => .ofContent (p.buffer ++ u)

/-- A parser between two calls. -/
def Ready (p : LFM2Parser) : Prop :=
  match p.state with
  | .lookingForThinking =>
      trimLeft p.buffer <+: lfm2ThinkingOpenTag ∧ trimLeft p.buffer ≠ lfm2ThinkingOpenTag
  | .collectingThinking =>
      (p.needsThinkingLeadingTrim = true → p.buffer = []) ∧
        cut p.buffer lfm2ThinkingCloseTag = none ∧ hold p.buffer = 0
  | .collectingContent => p.buffer = []
  | .collectingToolCalls => False

def SafeThought (t : Text) : Prop :=
  ¬lfm2ThinkingOpenTag <+: t ∧
    ∀ b a, cut t lfm2ThinkingCloseTag = some (b, a) → cut a lfm2ToolCallStartTag = none

/-- A chunk in which no tag is mistaken, and no call is found. -/
def Safe (p : LFM2Parser) (c : Text) : Prop :=
  match p.state with
  | .lookingForThinking =>
      let t := trimLeft (p.buffer ++ c)
      if lfm2ThinkingOpenTag <+: t then SafeThought (t.drop lfm2ThinkingOpenTag.length)
      else cut t lfm2ToolCallStartTag = none
  | .collectingThinking => SafeThought (p.buffer ++ c)
  | _ => cut c lfm2ToolCallStartTag = none

theorem readThought_close {u : Text} (h : cut t lfm2ThinkingCloseTag = some (b, a)) :
    (readThought (t ++ u) : Response (ToolCall α)) = .ofThinking b ++ .ofContent (a ++ u) := by
  rw [readThought, cut_append (by decide) h]

theorem readThought_blank {w : Text} (hw : Blank w) (t : Text) :
    (readThought (w ++ t) : Response (ToolCall α)) = readThought t := by
  have front : ∀ s : Text, (Response.ofThinking (w ++ s) : Response (ToolCall α)) =
      .ofThinking s := fun s => Response.ofThinking_congr (by
    rw [visible_append, visible_eq_nil.mpr hw, nil_append])
  rw [readThought, readThought, cut_blank (by decide) hw]
  cases cut t lfm2ThinkingCloseTag with
  | some x =>
    dsimp only [Option.map_some]
    rw [front]
  | none =>
    have hle := overlap_le_left t lfm2ThinkingCloseTag
    have hset : settled (w ++ t) = w ++ settled t := by
      rw [settled, settled, overlap_blank (by decide) hw, length_append,
        Nat.add_sub_assoc hle, take_length_add_append]
    dsimp only [Option.map_none]
    rw [hset, front]

theorem readThought_trimLeft (t u : Text) :
    (readThought (trimLeft t ++ u) : Response (ToolCall α)) = readThought (t ++ u) := by
  obtain ⟨w, hw, ht⟩ := trimLeft_spec t
  conv_rhs => rw [ht, append_assoc]
  rw [readThought_blank hw]

theorem readThought_thought (p : LFM2Parser) (u : Text) :
    (readThought (thought p ++ u) : Response (ToolCall α)) = readThought (p.buffer ++ u) := by
  unfold thought
  split
  · exact readThought_trimLeft _ _
  · rfl

theorem hold_spec (t : Text) : ∃ w k, Blank w ∧ k ≤ lfm2ThinkingCloseTag.length ∧
    t.drop (hold t) = w ++ lfm2ThinkingCloseTag.take k ∧ overlap t lfm2ThinkingCloseTag = k := by
  obtain ⟨w, x, hw, hx, hsuf, hdrop⟩ := ambiguousStart_spec (overlap_le_left t lfm2ThinkingCloseTag)
  refine ⟨w, _, hw, overlap_le_right t _, ?_, rfl⟩
  have hover := overlap_suffix t lfm2ThinkingCloseTag
  have hlen : x.length = (lfm2ThinkingCloseTag.take (overlap t lfm2ThinkingCloseTag)).length := by
    rw [hx, length_take, Nat.min_eq_left (overlap_le_right t _)]
  rw [hold, hdrop, (suffix_of_suffix_length_le hsuf hover (Nat.le_of_eq hlen)).eq_of_length hlen]

theorem overlap_hold (t : Text) : overlap t lfm2ThinkingCloseTag ≤ (t.drop (hold t)).length := by
  obtain ⟨w, k, -, hk, hdrop, hov⟩ := hold_spec t
  rw [hdrop, hov, length_append, length_take, Nat.min_eq_left hk]
  exact Nat.le_add_left _ _

/-- Thinking that is not held back can be returned before the rest is read. -/
theorem readThought_hold (h : cut t lfm2ThinkingCloseTag = none) (u : Text) :
    (Response.ofThinking (t.take (hold t)) : Response (ToolCall α)) ++
      readThought (t.drop (hold t) ++ u) = readThought (t ++ u) := by
  have hov := overlap_hold t
  generalize hd : t.take (hold t) = d at *
  generalize hy : t.drop (hold t) = y at *
  have ht : t = d ++ y := by rw [← hd, ← hy, take_append_drop]
  rw [ht] at h hov
  rw [ht, append_assoc, readThought, readThought, cut_held (by decide) h hov u]
  cases cut (y ++ u) lfm2ThinkingCloseTag with
  | some x =>
    dsimp only [Option.map_some]
    rw [Response.ofThinking_append, Response.append_assoc]
  | none =>
    have hle := overlap_le_left (y ++ u) lfm2ThinkingCloseTag
    have hlen : (d ++ (y ++ u)).length = d.length + (y ++ u).length := length_append
    have hset : settled (d ++ (y ++ u)) = d ++ settled (y ++ u) := by
      rw [settled, settled, overlap_held hov, hlen, Nat.add_sub_assoc hle, take_length_add_append]
    dsimp only [Option.map_none]
    rw [hset, Response.ofThinking_append]

/-- What is held back is held back as a whole. -/
theorem hold_hold (h : cut t lfm2ThinkingCloseTag = none) :
    cut (t.drop (hold t)) lfm2ThinkingCloseTag = none ∧ hold (t.drop (hold t)) = 0 := by
  refine ⟨cut_none_of_suffix (by decide) h (drop_suffix _ _), ?_⟩
  obtain ⟨w, k, hw, hk, hdrop, hov⟩ := hold_spec t
  have hlen : (lfm2ThinkingCloseTag.take k).length = k := by
    rw [length_take, Nat.min_eq_left hk]
  have hover : overlap (w ++ lfm2ThinkingCloseTag.take k) lfm2ThinkingCloseTag = k := by
    have hback := overlap_held (d := t.take (hold t)) (a := t.drop (hold t))
      (t := lfm2ThinkingCloseTag) (by rw [take_append_drop]; exact overlap_hold t) []
    rw [append_nil, take_append_drop, hov, hdrop] at hback
    exact hback.symm
  rw [hdrop, hold, hover, ambiguousStart, length_append, hlen, Nat.add_sub_cancel,
    take_left, trailingWhitespaceLen, rtakeWhile_eq_self_iff.mpr hw, Nat.sub_self]

def thoughtLen (t : Text) : ℕ :=
  match cut t lfm2ThinkingCloseTag with
  | some (b, _) => b.length
  | none => t.length

/-- Opening tags within the thinking stand after white space, and something visible stands
before that if the text is the `first` thinking. -/
def Spaced (first : Bool) (t : Text) : Prop :=
  ∀ i, i < thoughtLen t → Occurs lfm2ThinkingOpenTag t i →
    ∃ r v, t.take i = r ++ [v] ∧ isSpace v = true ∧ (first = true → ¬Blank r)

/-- Content without a call: none between tags, and no end that is taken for one. -/
def PlainContent (args : PythonArgs α) (p : LFM2Parser) (t : Text) : Prop :=
  cut t lfm2ToolCallStartTag = none ∧ ∀ s, s <:+ t → ¬Bare args p s

/-- Thinking with its closing tag and plain content after it, or without any part of the tag at
its end. -/
def ReadableThought (args : PythonArgs α) (p : LFM2Parser) (first : Bool) (t : Text) : Prop :=
  Spaced first t ∧
    match cut t lfm2ThinkingCloseTag with
    | some (_, a) => PlainContent args p a
    | none => overlap t lfm2ThinkingCloseTag = 0

/-- The rest of a text that can be read without a mistake, wherever it is cut. -/
def Readable (args : PythonArgs α) (p : LFM2Parser) (u : Text) : Prop :=
  match p.state with
  | .lookingForThinking =>
      let t := trimLeft (p.buffer ++ u)
      if lfm2ThinkingOpenTag <+: t then
        ReadableThought args p true (t.drop lfm2ThinkingOpenTag.length)
      else cut t lfm2ToolCallStartTag = none ∧ ¬Bare args p t ∧
        ∀ x s, p.buffer ++ u = x ++ s → ¬trimLeft x <+: lfm2ThinkingOpenTag → ¬Bare args p s
  | .collectingThinking => ReadableThought args p p.needsThinkingLeadingTrim (p.buffer ++ u)
  | _ => PlainContent args p u

theorem PlainContent.suffix (h : PlainContent args p t) (hc : c <:+ t) : PlainContent args p c :=
  ⟨cut_none_of_suffix (by decide) h.1 hc, fun s hs => h.2 s (hs.trans hc)⟩

theorem SameTools.plainContent (h : SameTools p q) (hc : PlainContent args p t) :
    PlainContent args q t :=
  ⟨hc.1, fun s hs hb => hc.2 s hs ((h.bare s).mp hb)⟩

theorem plainContent_nil (args : PythonArgs α) (p : LFM2Parser) : PlainContent args p [] := by
  refine ⟨cut_nil (by decide), fun s hs => ?_⟩
  rw [suffix_nil.mp hs]
  exact not_bare_noParen not_mem_nil

theorem readable_content (hq : q.state = .collectingContent) (u : Text) :
    Readable args q u ↔ PlainContent args q u := by
  rw [Readable, hq]

theorem readable_thinking (hq : q.state = .collectingThinking) (u : Text) :
    Readable args q u ↔ ReadableThought args q q.needsThinkingLeadingTrim (q.buffer ++ u) := by
  rw [Readable, hq]

/-- What may be returned of the thinking ends with something visible. -/
theorem hold_take (t : Text) {x : Text} {v : Char} (h : t.take (hold t) = x ++ [v]) :
    isSpace v = false := by
  have htrim : t.take (hold t) =
      trimRight (t.take (t.length - overlap t lfm2ThinkingCloseTag)) := by
    have hlen := congrArg List.length
      (trimRight_append_rtakeWhile (t.take (t.length - overlap t lfm2ThinkingCloseTag)))
    have hpre : trimRight (t.take (t.length - overlap t lfm2ThinkingCloseTag)) <+: t :=
      (List.rdropWhile_prefix _ _).trans (List.take_prefix _ _)
    rw [prefix_iff_eq_take.mp hpre]
    congr 1
    rw [hold, ambiguousStart, trailingWhitespaceLen]
    rw [length_append, length_take] at hlen
    omega
  rw [htrim] at h
  have hlast := rdropWhile_last_not isSpace (t.take (t.length - overlap t lfm2ThinkingCloseTag))
    (by rw [show List.rdropWhile isSpace _ = trimRight _ from rfl, h]; simp)
  simp only [show List.rdropWhile isSpace _ = trimRight _ from rfl, h] at hlast
  simpa using hlast

theorem thoughtLen_blank {w : Text} (hw : Blank w) (t : Text) :
    thoughtLen (w ++ t) = w.length + thoughtLen t := by
  rw [thoughtLen, thoughtLen, cut_blank (by decide) hw]
  cases cut t lfm2ThinkingCloseTag <;> simp

theorem thoughtLen_held {d y : Text} (h : cut (d ++ y) lfm2ThinkingCloseTag = none)
    (hov : overlap (d ++ y) lfm2ThinkingCloseTag ≤ y.length) (u : Text) :
    thoughtLen (d ++ (y ++ u)) = d.length + thoughtLen (y ++ u) := by
  rw [thoughtLen, thoughtLen, cut_held (by decide) h hov u]
  cases cut (y ++ u) lfm2ThinkingCloseTag <;> simp

/-- Thinking that is readable stays so when a part of it is returned. -/
theorem ReadableThought.hold {flag : Bool} {w u : Text} (hw : Blank w)
    (hflag : flag = false → w = []) (hcut : cut t lfm2ThinkingCloseTag = none)
    (h : ReadableThought args p flag (w ++ (t ++ u))) :
    ReadableThought args p (flag && decide (t = [])) (t.drop (hold t) ++ u) := by
  have hov := overlap_hold t
  have hlast := fun x v => hold_take t (x := x) (v := v)
  have hnil : t = [] → t.take (LFM2Parser.hold t) = [] := by
    rintro rfl
    exact take_nil
  generalize hd : t.take (LFM2Parser.hold t) = d at *
  generalize hy : t.drop (LFM2Parser.hold t) = y at *
  have ht : t = d ++ y := by rw [← hd, ← hy, take_append_drop]
  rw [ht] at hcut hov
  have hall : w ++ (t ++ u) = w ++ (d ++ (y ++ u)) := by rw [ht, append_assoc]
  rw [hall] at h
  obtain ⟨spaced, rest⟩ := h
  constructor
  · intro i hi ho
    have hlen : w.length + (d.length + i) < thoughtLen (w ++ (d ++ (y ++ u))) := by
      rw [thoughtLen_blank hw, thoughtLen_held hcut hov]
      omega
    have ho' : Occurs lfm2ThinkingOpenTag (w ++ (d ++ (y ++ u))) (w.length + (d.length + i)) := by
      unfold Occurs at ho ⊢
      rw [← drop_drop, drop_left, ← drop_drop, drop_left]
      exact ho
    obtain ⟨r, v, htake, hv, hr⟩ := spaced _ hlen ho'
    rw [take_length_add_append, take_length_add_append] at htake
    rcases eq_nil_or_concat' ((y ++ u).take i) with hempty | ⟨r', v', hsome⟩
    · exfalso
      rw [hempty, append_nil] at htake
      rcases eq_nil_or_concat' d with rfl | ⟨d', v', rfl⟩
      · rw [append_nil] at htake
        cases flag with
        | false =>
          rw [hflag rfl] at htake
          simp at htake
        | true =>
          refine hr rfl fun c hc => hw c ?_
          rw [htake]
          exact mem_append_left _ hc
      · rw [← append_assoc] at htake
        obtain ⟨-, hvv⟩ := append_inj' htake rfl
        cases hvv
        rw [hlast d' v rfl] at hv
        cases hv
    · rw [hsome, ← append_assoc, ← append_assoc] at htake
      obtain ⟨hrr, hvv⟩ := append_inj' htake rfl
      cases hvv
      refine ⟨r', v, hsome, hv, fun hf hblank => ?_⟩
      simp only [Bool.and_eq_true, decide_eq_true_eq] at hf
      refine hr hf.1 ?_
      rw [← hrr, hnil hf.2, append_nil]
      intro c hc
      rcases mem_append.mp hc with hc | hc
      · exact hw c hc
      · exact hblank c hc
  · rw [cut_blank (by decide) hw, cut_held (by decide) hcut hov u] at rest
    cases hcase : cut (y ++ u) lfm2ThinkingCloseTag with
    | some x =>
      rw [hcase] at rest
      exact rest
    | none =>
      rw [hcase] at rest
      dsimp only [Option.map_none] at rest ⊢
      rwa [overlap_blank (by decide) hw, overlap_held hov] at rest

/-! ## §4  One call of `Add` -/

structure Took (args : PythonArgs α) (p : LFM2Parser) (read : Text → Response (ToolCall α))
    (readable : Text → Prop) (out : List (LFM2Event α) × LFM2Parser) : Prop where
  calls : (collect out.1).calls = []
  err : (collect out.1).err = none
  reads : ∀ u, (collect out.1).seen ++ reading out.2 u = read u
  keeps : ∀ u, readable u → Readable args out.2 u
  ready : Ready out.2
  tools : SameTools p out.2
  ahead : p.state ≠ .lookingForThinking → out.2.state ≠ .lookingForThinking
  stays : p.state = .collectingContent → out.2.state = .collectingContent

def contentAfter (t : Text) : Text :=
  match cut t lfm2ThinkingCloseTag with
  | some (_, a) => a
  | none => []

theorem reading_content (hp : p.state = .collectingContent) (u : Text) :
    (reading p u : Response (ToolCall α)) = .ofContent (p.buffer ++ u) := by
  rw [reading, hp]

theorem reading_thinking (hp : p.state = .collectingThinking) (u : Text) :
    (reading p u : Response (ToolCall α)) = readThought (p.buffer ++ u) := by
  rw [reading, hp]

theorem took_content (args : PythonArgs α) (hp : p.state = .collectingContent)
    (h : cut p.buffer lfm2ToolCallStartTag = none) :
    Took args p (fun u => .ofContent (p.buffer ++ u))
        (fun u => PlainContent args p u) (parseEvents args p) ∧
      trimSpace (collect (parseEvents args p).1).content = trimSpace p.buffer := by
  obtain ⟨ret, state, buffer, tools⟩ := parseEvents_content args hp h
  refine ⟨⟨by rw [ret], by rw [ret], fun u => ?_, fun u hu => ?_, ?_, tools,
    fun _ => by rw [state]; nofun, fun _ => state⟩, by rw [ret]; exact trimSpace_content p⟩
  · rw [reading_content state, buffer, ret, nil_append, Response.ofContent_append]
    exact congrArg (· ++ _) (Response.ext' (visible_content p) rfl rfl rfl)
  · exact (readable_content state u).mpr (tools.plainContent hu)
  · rw [Ready, state]
    exact buffer

theorem cut_thought (h : cut (thought p) lfm2ThinkingCloseTag = some (b, a)) :
    ∃ b', cut p.buffer lfm2ThinkingCloseTag = some (b', a) := by
  unfold thought at h
  split at h
  · obtain ⟨w, hw, ht⟩ := trimLeft_spec p.buffer
    rw [ht, cut_blank (by decide) hw, h]
    exact ⟨_, rfl⟩
  · exact ⟨b, h⟩

theorem cut_thought_none (h : cut (thought p) lfm2ThinkingCloseTag = none) :
    cut p.buffer lfm2ThinkingCloseTag = none := by
  unfold thought at h
  split at h
  · obtain ⟨w, hw, ht⟩ := trimLeft_spec p.buffer
    rw [ht, cut_blank (by decide) hw, h]
    rfl
  · exact h

theorem thought_spec (p : LFM2Parser) : ∃ w, Blank w ∧ p.buffer = w ++ thought p ∧
    (p.needsThinkingLeadingTrim = false → w = []) := by
  unfold thought
  split
  · next flag =>
    obtain ⟨w, hw, ht⟩ := trimLeft_spec p.buffer
    exact ⟨w, hw, ht, fun h => absurd (flag.symm.trans h) nofun⟩
  · exact ⟨[], nofun, rfl, fun _ => rfl⟩

theorem SameTools.readableThought (h : SameTools p q) {first : Bool}
    (hr : ReadableThought args p first t) : ReadableThought args q first t := by
  refine ⟨hr.1, ?_⟩
  have hrest := hr.2
  cases hcut : cut t lfm2ThinkingCloseTag with
  | some x =>
    rw [hcut] at hrest
    exact h.plainContent hrest
  | none =>
    rw [hcut] at hrest
    exact hrest

theorem took_thinking (args : PythonArgs α) (hp : p.state = .collectingThinking)
    (hs : SafeThought p.buffer) :
    Took args p (fun u => readThought (p.buffer ++ u))
        (fun u => ReadableThought args p p.needsThinkingLeadingTrim (p.buffer ++ u))
        (parseEvents args p) ∧
      trimSpace (collect (parseEvents args p).1).content = trimSpace (contentAfter p.buffer) := by
  obtain ⟨hopen, hcall⟩ := hs
  cases hcut : cut (thought p) lfm2ThinkingCloseTag with
  | some x =>
    obtain ⟨b, a⟩ := x
    obtain ⟨b', hcut'⟩ := cut_thought hcut
    obtain ⟨ret, state, buffer, tools⟩ :=
      parseEvents_thinking_close args hp hopen hcut (hcall b' a hcut')
    refine ⟨⟨by rw [ret], by rw [ret], fun u => ?_, fun u hu => ?_, ?_, tools,
      fun _ => by rw [state]; nofun, fun h => absurd (hp.symm.trans h) nofun⟩, ?_⟩
    · rw [reading_content state, buffer, ret, nil_append, ← readThought_thought p u,
        readThought_close hcut, Response.ofContent_append, ← Response.append_assoc]
      refine congrArg (· ++ _) (Response.ext' ?_ ?_ rfl rfl)
      · exact visible_trimLeft a
      · exact (visible_trimRight b).trans (append_nil _).symm
    · obtain ⟨-, plain⟩ := hu
      rw [cut_append (by decide) hcut'] at plain
      exact (readable_content state u).mpr (tools.plainContent (plain.suffix (suffix_append a u)))
    · rw [Ready, state]
      exact buffer
    · rw [ret, contentAfter, hcut']
      unfold trimSpace
      rw [trimLeft_trimLeft]
  | none =>
    obtain ⟨⟨ret, state, buffer, tools⟩, flag⟩ := parseEvents_thinking args hp hopen hcut
    refine ⟨⟨by rw [ret], by rw [ret], fun u => ?_, fun u hu => ?_, ?_, tools,
      fun _ => by rw [state]; nofun, fun h => absurd (hp.symm.trans h) nofun⟩, ?_⟩
    · rw [reading_thinking state, buffer, ret, ← readThought_thought p u, ← readThought_hold hcut u]
      rfl
    · obtain ⟨w, hw, hwt, hflag⟩ := thought_spec p
      rw [hwt, append_assoc] at hu
      refine (readable_thinking state u).mpr ?_
      rw [buffer, flag]
      exact tools.readableThought (hu.hold hw hflag hcut)
    · rw [Ready, state]
      rw [buffer, flag]
      refine ⟨fun hflag => ?_, hold_hold hcut⟩
      simp only [Bool.and_eq_true, decide_eq_true_eq] at hflag
      rw [hflag.2, drop_nil]
    · rw [ret, contentAfter, cut_thought_none hcut]

theorem not_open_append (hopen : ¬lfm2ThinkingOpenTag <+: t) (h : ¬t <+: lfm2ThinkingOpenTag)
    (u : Text) : ¬lfm2ThinkingOpenTag <+: t ++ u := by
  intro hpre
  rcases prefix_or_prefix_of_prefix hpre (prefix_append t u) with h' | h'
  · exact hopen h'
  · exact h h'

theorem took_looking (args : PythonArgs α) (hp : p.state = .lookingForThinking)
    (hs : if lfm2ThinkingOpenTag <+: trimLeft p.buffer then
        SafeThought ((trimLeft p.buffer).drop lfm2ThinkingOpenTag.length)
      else cut (trimLeft p.buffer) lfm2ToolCallStartTag = none) :
    Took args p (reading p) (Readable args p) (parseEvents args p) := by
  by_cases hopen : lfm2ThinkingOpenTag <+: trimLeft p.buffer
  · rw [if_pos hopen] at hs
    rw [parseEvents_open args hp hopen]
    obtain ⟨⟨calls, err, reads, keeps, ready, tools, -, -⟩, -⟩ := took_thinking args (p :=
      { p with
        buffer := (trimLeft p.buffer).drop lfm2ThinkingOpenTag.length
        state := .collectingThinking
        needsThinkingLeadingTrim := true }) rfl hs
    have hne : trimLeft p.buffer ≠ [] := by
      intro hnil
      rw [hnil] at hopen
      exact absurd (prefix_nil.mp hopen) (by decide)
    have ht : ∀ u, trimLeft (p.buffer ++ u) = trimLeft p.buffer ++ u := trimLeft_append_of_ne hne
    have hdrop : ∀ u, (trimLeft p.buffer ++ u).drop lfm2ThinkingOpenTag.length =
        (trimLeft p.buffer).drop lfm2ThinkingOpenTag.length ++ u := fun u =>
      drop_append_of_le_length hopen.length_le
    refine ⟨calls, err, fun u => ?_, fun u hu => keeps u ?_, ready,
      ⟨tools.toolNames, tools.hasTools⟩, absurd hp, fun h => absurd (hp.symm.trans h) nofun⟩
    · rw [reads u, reading, hp]
      rw [ht, if_pos (hopen.trans (prefix_append _ _)), hdrop]
    · rw [Readable, hp] at hu
      rw [ht, if_pos (hopen.trans (prefix_append _ _)), hdrop] at hu
      exact hu
  · rw [if_neg hopen] at hs
    by_cases hpre : trimLeft p.buffer <+: lfm2ThinkingOpenTag
    · rw [parseEvents_undecided args hp hopen hpre]
      refine ⟨rfl, rfl, fun u => rfl, fun u hu => hu, ?_, ⟨rfl, rfl⟩, absurd hp,
        fun h => absurd (hp.symm.trans h) nofun⟩
      rw [Ready, hp]
      exact ⟨hpre, fun h => hopen (by rw [h])⟩
    · rw [parseEvents_direct args hp hopen hpre]
      obtain ⟨⟨calls, err, reads, keeps, ready, tools, -, -⟩, -⟩ := took_content args (p :=
        { p with buffer := trimLeft p.buffer, state := .collectingContent }) rfl hs
      have hne : trimLeft p.buffer ≠ [] := by
        intro hnil
        exact hpre (by rw [hnil]; exact List.nil_prefix)
      have ht : ∀ u, trimLeft (p.buffer ++ u) = trimLeft p.buffer ++ u := trimLeft_append_of_ne hne
      refine ⟨calls, err, fun u => ?_, fun u hu => keeps u ?_, ready,
        ⟨tools.toolNames, tools.hasTools⟩, absurd hp, fun h => absurd (hp.symm.trans h) nofun⟩
      · rw [reads u, reading, hp]
        rw [ht, if_neg (not_open_append hopen hpre u)]
      rw [Readable, hp] at hu
      rw [ht, if_neg (not_open_append hopen hpre u)] at hu
      obtain ⟨hcall, -, hbare⟩ := hu
      refine ⟨cut_none_of_suffix (by decide) hcall (suffix_append _ _), ?_⟩
      rintro s ⟨x, hx⟩
      refine hbare (p.buffer ++ x) s (by rw [append_assoc, hx]) fun h => ?_
      rw [ht] at h
      exact hpre ((prefix_append _ _).trans h)

/-- The parser with a chunk in its buffer. -/
def write (p : LFM2Parser) (c : Text) : LFM2Parser := { p with buffer := p.buffer ++ c }

theorem reading_write (p : LFM2Parser) (c u : Text) :
    (reading (write p c) u : Response (ToolCall α)) = reading p (c ++ u) := by
  unfold reading write
  simp only [append_assoc]

theorem write_content (hp : p.state = .collectingContent) (hr : Ready p) (c : Text) :
    (write p c).buffer = c := by
  rw [Ready, hp] at hr
  show p.buffer ++ c = c
  rw [hr, nil_append]

theorem readable_write (args : PythonArgs α) (hp : p.state ≠ .collectingContent) (hr : Ready p)
    (c u : Text) : Readable args (write p c) u ↔ Readable args p (c ++ u) := by
  unfold Readable write
  cases hstate : p.state with
  | collectingContent => exact absurd hstate hp
  | collectingToolCalls =>
    rw [Ready, hstate] at hr
    exact hr.elim
  | _ =>
    rw [append_assoc]
    exact Iff.rfl

theorem took_write (args : PythonArgs α) (hr : Ready p) (hs : Safe p c) :
    Took args (write p c) (fun u => reading p (c ++ u)) (fun u => Readable args p (c ++ u))
      (parseEvents args (write p c)) := by
  have same : ∀ u, (reading (write p c) u : Response (ToolCall α)) = reading p (c ++ u) :=
    reading_write p c
  unfold Safe at hs
  cases hp : p.state with
  | lookingForThinking =>
    have hne : p.state ≠ .collectingContent := by rw [hp]; nofun
    rw [hp] at hs
    obtain ⟨calls, err, reads, keeps, ready, tools, ahead, stays⟩ :=
      took_looking args (p := write p c) hp hs
    exact ⟨calls, err, fun u => (reads u).trans (same u),
      fun u hu => keeps u ((readable_write args hne hr c u).mpr hu), ready, tools, ahead, stays⟩
  | collectingThinking =>
    have hne : p.state ≠ .collectingContent := by rw [hp]; nofun
    rw [hp] at hs
    obtain ⟨⟨calls, err, reads, keeps, ready, tools, ahead, stays⟩, -⟩ :=
      took_thinking args (p := write p c) hp hs
    refine ⟨calls, err, fun u => (reads u).trans ?_, fun u hu => keeps u ?_, ready, tools, ahead, stays⟩
    · rw [← same]
      exact (reading_thinking (p := write p c) hp u).symm
    · exact (readable_thinking (q := write p c) hp u).mp ((readable_write args hne hr c u).mpr hu)
  | collectingContent =>
    rw [hp] at hs
    obtain ⟨⟨calls, err, reads, keeps, ready, tools, ahead, stays⟩, -⟩ :=
      took_content args (p := write p c) hp (by rwa [write_content hp hr])
    refine ⟨calls, err, fun u => (reads u).trans ?_, fun u hu => keeps u ?_, ready, tools, ahead, stays⟩
    · rw [← same]
      exact (reading_content (p := write p c) hp u).symm
    · exact ((readable_content hp _).mp hu).suffix (suffix_append c u)
  | collectingToolCalls =>
    rw [Ready, hp] at hr
    exact hr.elim

theorem commit_false (p : LFM2Parser) : commit false p = p := by
  rw [commit, if_neg]
  exact fun h => Bool.false_ne_true h.1

theorem fallback_false (args : PythonArgs α) (p : LFM2Parser) (r : Response (ToolCall α)) :
    fallback args false p r = r := by
  rw [fallback, if_neg]
  exact fun h => Bool.false_ne_true h.1

structure More (args : PythonArgs α) (p : LFM2Parser) (c : Text) : Prop where
  calls : (add args c false p).1.calls = []
  err : (add args c false p).1.err = none
  reads : ∀ u, (add args c false p).1.seen ++ reading (add args c false p).2 u = reading p (c ++ u)
  keeps : ∀ u, Readable args p (c ++ u) → Readable args (add args c false p).2 u
  ready : Ready (add args c false p).2
  tools : SameTools p (add args c false p).2
  state : (add args c false p).2.state = (parseEvents args (write p c)).2.state

theorem add_more (args : PythonArgs α) (hr : Ready p) (hs : Safe p c) : More args p c := by
  obtain ⟨calls, err, reads, keeps, ready, tools, -, -⟩ := took_write args hr hs
  have first : (add args c false p).1 = collect (parseEvents args (write p c)).1 := by
    refine Response.ext' rfl rfl ?_ rfl
    show number _ (collect (parseEvents args (write p c)).1).calls = _
    rw [calls]
    rfl
  have second : (add args c false p).2 = { (parseEvents args (write p c)).2 with
      callIndex := (add args c false p).2.callIndex } := by
    rfl
  have hreading : ∀ u, (reading (add args c false p).2 u : Response (ToolCall α)) =
      reading (parseEvents args (write p c)).2 u := by
    intro u
    rfl
  refine ⟨by rw [first, calls], by rw [first, err], fun u => ?_, fun u hu => ?_, ?_, ?_, ?_⟩
  · rw [first, hreading, reads]
  · exact keeps u hu
  · exact ready
  · exact ⟨tools.toolNames, tools.hasTools⟩
  · rw [second]

/-! ## §5  The last call -/

/-- The content that is looked at for bare calls when the chunk is the last one. -/
def lastContent (p : LFM2Parser) (c : Text) : Text :=
  match p.state with
  | .lookingForThinking =>
      let t := trimLeft (p.buffer ++ c)
      if lfm2ThinkingOpenTag <+: t then contentAfter (t.drop lfm2ThinkingOpenTag.length) else t
  | .collectingThinking => contentAfter (p.buffer ++ c)
  | _ => c

/-- Nothing visible is left to be read when only a part of the closing tag is held back. -/
theorem reading_nil (hr : Ready p) (hp : p.state ≠ .lookingForThinking) :
    (reading p [] : Response (ToolCall α)) = .none := by
  cases hstate : p.state with
  | lookingForThinking => exact absurd hstate hp
  | collectingThinking =>
    rw [Ready, hstate] at hr
    obtain ⟨-, hcut, hhold⟩ := hr
    obtain ⟨w, k, hw, hk, hdrop, hov⟩ := hold_spec p.buffer
    rw [hhold, drop_zero] at hdrop
    rw [reading_thinking hstate, append_nil, readThought, hcut]
    refine Response.ofThinking_of_blank ?_
    rw [settled, hov]
    have hlen : p.buffer.length - k = w.length := by
      rw [hdrop, length_append, length_take, Nat.min_eq_left hk, Nat.add_sub_cancel]
    rw [hlen, hdrop, take_left]
    exact hw
  | collectingContent =>
    rw [Ready, hstate] at hr
    rw [reading_content hstate, hr]
    rfl
  | collectingToolCalls =>
    rw [Ready, hstate] at hr
    exact hr.elim

structure Ended (args : PythonArgs α) (p : LFM2Parser) (c : Text)
    (out : List (LFM2Event α) × LFM2Parser) : Prop where
  calls : (collect out.1).calls = []
  err : (collect out.1).err = none
  reads : (collect out.1).seen = reading p c
  content : trimSpace (collect out.1).content = trimSpace (lastContent p c)
  keeps : Readable args p c → Readable args out.2 []
  ready : Ready out.2
  state : out.2.state ≠ .lookingForThinking
  tools : SameTools p out.2

theorem commit_of_state (hp : p.state ≠ .lookingForThinking) (done : Bool) : commit done p = p := by
  rw [commit, if_neg]
  exact fun h => hp h.2.1

theorem ended_write (args : PythonArgs α) (hr : Ready p) (hs : Safe p c) :
    Ended args p c (parseEvents args (commit true (write p c))) := by
  unfold Safe at hs
  cases hp : p.state with
  | lookingForThinking =>
    rw [hp] at hs
    by_cases hopen : lfm2ThinkingOpenTag <+: trimLeft (p.buffer ++ c)
    · have stay : commit true (write p c) = write p c := by
        rw [commit, if_neg]
        exact fun h => h.2.2 hopen
      rw [if_pos hopen] at hs
      rw [stay, parseEvents_open args (p := write p c) hp hopen]
      obtain ⟨⟨calls, err, reads, keeps, ready, tools, ahead, -⟩, content⟩ := took_thinking args (p :=
        { write p c with
          buffer := (trimLeft (p.buffer ++ c)).drop lfm2ThinkingOpenTag.length
          state := .collectingThinking
          needsThinkingLeadingTrim := true }) rfl hs
      have hstate := ahead nofun
      refine ⟨calls, err, ?_, content.trans ?_, fun hu => keeps [] ?_, ready, hstate,
        ⟨tools.toolNames, tools.hasTools⟩⟩
      · have hread := reads []
        rw [reading_nil ready hstate, Response.append_none] at hread
        refine hread.trans ?_
        rw [reading, hp]
        rw [if_pos hopen, append_nil]
      · rw [lastContent, hp]
        rw [if_pos hopen]
      · rw [Readable, hp] at hu
        rw [if_pos hopen] at hu
        rwa [append_nil]
    · rw [if_neg hopen] at hs
      have move : commit true (write p c) =
          { write p c with buffer := trimLeft (p.buffer ++ c), state := .collectingContent } := by
        rw [commit, if_pos ⟨rfl, hp, hopen⟩]
        rfl
      rw [move]
      obtain ⟨⟨calls, err, reads, keeps, ready, tools, ahead, -⟩, content⟩ := took_content args (p :=
        { write p c with buffer := trimLeft (p.buffer ++ c), state := .collectingContent }) rfl hs
      have hstate := ahead nofun
      refine ⟨calls, err, ?_, content.trans ?_, fun _ => keeps [] (plainContent_nil args _), ready,
        hstate, ⟨tools.toolNames, tools.hasTools⟩⟩
      · have hread := reads []
        rw [reading_nil ready hstate, Response.append_none, append_nil] at hread
        rw [hread, reading, hp]
        rw [if_neg hopen]
      · rw [lastContent, hp]
        rw [if_neg hopen]
  | collectingThinking =>
    rw [hp] at hs
    have hw : (write p c).state ≠ .lookingForThinking := by
      rw [show (write p c).state = p.state from rfl, hp]
      nofun
    rw [commit_of_state hw]
    obtain ⟨⟨calls, err, reads, keeps, ready, tools, ahead, -⟩, content⟩ :=
      took_thinking args (p := write p c) hp hs
    have hstate := ahead hw
    refine ⟨calls, err, ?_, content.trans ?_, fun hu => keeps [] ?_, ready, hstate,
      ⟨tools.toolNames, tools.hasTools⟩⟩
    · have hread := reads []
      rw [reading_nil ready hstate, Response.append_none, append_nil] at hread
      rw [hread, reading_thinking hp]
      rfl
    · rw [lastContent, hp]
      rfl
    · rw [append_nil]
      exact (readable_thinking hp c).mp hu
  | collectingContent =>
    rw [hp] at hs
    have hbuf := write_content hp hr c
    have hw : (write p c).state ≠ .lookingForThinking := by
      rw [show (write p c).state = p.state from rfl, hp]
      nofun
    rw [commit_of_state hw]
    obtain ⟨⟨calls, err, reads, keeps, ready, tools, ahead, -⟩, content⟩ :=
      took_content args (p := write p c) hp (by rwa [hbuf])
    have hstate := ahead hw
    refine ⟨calls, err, ?_, content.trans ?_, fun _ => keeps [] (plainContent_nil args _), ready,
      hstate, ⟨tools.toolNames, tools.hasTools⟩⟩
    · have hread := reads []
      rw [reading_nil ready hstate, Response.append_none, append_nil] at hread
      rw [hread, reading_content hp]
      rfl
    · rw [lastContent, hp, hbuf]
  | collectingToolCalls =>
    rw [Ready, hp] at hr
    exact hr.elim

theorem bare_congr {s s' : Text} (h : trimSpace s = trimSpace s') :
    Bare args p s ↔ Bare args p s' := by
  unfold Bare
  rw [h]

theorem fallback_of_not_bare (args : PythonArgs α) {r : Response (ToolCall α)}
    (h : ¬Bare args p r.content) : fallback args true p r = r := by
  unfold fallback
  split
  · next hc =>
    split
    · rfl
    · next calls ok =>
      rw [if_neg]
      exact fun allowed => h ⟨hc.2.2, calls, ok, allowed⟩
  · rfl

theorem fallback_of_bare (args : PythonArgs α) {r : Response (ToolCall α)}
    (hr : r.calls = []) (h : Bare args p r.content) : (fallback args true p r).calls ≠ [] := by
  obtain ⟨has, calls, ok, allowed⟩ := h
  rw [fallback, if_pos ⟨rfl, hr, has⟩, ok]
  dsimp only
  rw [if_pos allowed]
  rintro rfl
  cases allowed

theorem number_eq_nil {i : ℤ} {calls : List (ToolCall α)} : number i calls = [] ↔ calls = [] := by
  cases calls <;> simp [number]

/-- The last call, when no bare call is found in its content. -/
theorem add_last (args : PythonArgs α) (hr : Ready p) (hs : Safe p c)
    (hb : ¬Bare args p (lastContent p c)) :
    (add args c true p).1.seen = reading p c ∧ Ready (add args c true p).2 ∧
      (add args c true p).2.state ≠ .lookingForThinking ∧
      (Readable args p c → Readable args (add args c true p).2 []) := by
  obtain ⟨calls, err, reads, content, keeps, ready, state, tools⟩ := ended_write args hr hs
  have hnot : ¬Bare args (parseEvents args (commit true (write p c))).2
      (collect (parseEvents args (commit true (write p c))).1).content := by
    rw [tools.bare, bare_congr content]
    exact hb
  have first : (add args c true p).1 = collect (parseEvents args (commit true (write p c))).1 := by
    refine Response.ext' ?_ ?_ ?_ ?_ <;>
      (rw [add]; dsimp only; rw [show ({ p with buffer := p.buffer ++ c } : LFM2Parser) =
        write p c from rfl, fallback_of_not_bare args hnot])
    rw [calls]
    rfl
  exact ⟨by rw [first, reads], ready, state, keeps⟩

theorem add_last_bare (args : PythonArgs α) (hr : Ready p) (hs : Safe p c)
    (hb : Bare args p (lastContent p c)) : (add args c true p).1.calls ≠ [] := by
  obtain ⟨calls, err, reads, content, keeps, ready, state, tools⟩ := ended_write args hr hs
  have hbare : Bare args (parseEvents args (commit true (write p c))).2
      (collect (parseEvents args (commit true (write p c))).1).content := by
    rw [tools.bare, bare_congr content]
    exact hb
  exact fun hnil => fallback_of_bare args calls hbare (number_eq_nil.mp hnil)

end LFM2Parser

end Ollama.Parsers
