import Ollama.Parsers.Parser

/-!
# The parser of gemma4

`model/parsers/gemma4.go`: content, thinking between `<|channel>` and `<channel|>`, tool
calls between `<|tool_call>` and `<tool_call|>`. What reads the text of a tool call
(`parseGemma4ToolCall` with the request's tools) is a parameter: nothing here depends on it.
-/

namespace Ollama.Parsers

open Lib

/-! ## §1  The parser -/

inductive Gemma4ParserState
  | collectingContent
  | collectingThinking
  | collectingToolCall
  | ignoringPostToolCallNoise
  deriving DecidableEq

def gemma4ThinkingOpenTag : Text := "<|channel>".toList

def gemma4ThinkingCloseTag : Text := "<channel|>".toList

def gemma4ToolCallOpenTag : Text := "<|tool_call>".toList

def gemma4ToolCallCloseTag : Text := "<tool_call|>".toList

def gemma4ChannelName : Text := "thought\n".toList

structure Gemma4Parser where
  state : Gemma4ParserState
  buffer : Text
  thinkingEnabled : Bool
  needsChannelNameStrip : Bool
  deriving DecidableEq

inductive Gemma4Event (τ : Type)
  | thinkingContent (content : Text)
  | content (content : Text)
  | toolCall (toolCall : τ)

/-- `longestOverlap` -/
def longestOverlap (bufStr : Text) (tags : List Text) : ℕ :=
  tags.foldl (fun maxOverlap tag => max maxOverlap (overlap bufStr tag)) 0

namespace Gemma4Parser

variable {τ : Type} (parseToolCall : Text → Except Error τ)

/-- `Init`: the parser starts in content, whatever the last message is. -/
def init (hasThinkingSupport : Bool) : Gemma4Parser :=
  ⟨.collectingContent, [], hasThinkingSupport, false⟩

def contentEvent (content : Text) : List (Gemma4Event τ) :=
  if content = [] then [] else [.content content]

def thinkingEvent (content : Text) : List (Gemma4Event τ) :=
  if content = [] then [] else [.thinkingContent content]

def toolCallEvent (content : Text) : List (Gemma4Event τ) :=
  match parseToolCall content with
  | .ok call => [.toolCall call]
  | .error _ => []

/-- `eat` in content: the thinking tag is looked for first, wherever it stands. -/
def eatContent (done : Bool) (p : Gemma4Parser) : List (Gemma4Event τ) × Gemma4Parser × Bool :=
  match cut p.buffer gemma4ThinkingOpenTag with
  | some (contentBefore, remaining) =>
      (contentEvent (trimRight contentBefore), { p with
          buffer := remaining
          state := .collectingThinking
          needsChannelNameStrip := true }, true)
  | none =>
      match cut p.buffer gemma4ToolCallOpenTag with
      | some (contentBefore, remaining) =>
          (contentEvent (trimRight contentBefore),
            { p with buffer := remaining, state := .collectingToolCall }, true)
      | none =>
          let overlapLen := longestOverlap p.buffer [gemma4ThinkingOpenTag, gemma4ToolCallOpenTag]
          if done = false ∧ 0 < overlapLen then
            let start := ambiguousStart p.buffer overlapLen
            (contentEvent (p.buffer.take start), { p with buffer := p.buffer.drop start }, false)
          else (contentEvent p.buffer, { p with buffer := [] }, false)

/-- The channel name at the beginning of thinking; `none` is the wait for the rest of it. -/
def stripChannelName (done : Bool) (p : Gemma4Parser) : Option Gemma4Parser :=
  if p.needsChannelNameStrip then
    if gemma4ChannelName <+: p.buffer then
      some { p with
          buffer := p.buffer.drop gemma4ChannelName.length
          needsChannelNameStrip := false }
    else if done = false ∧ (p.buffer = "thought".toList ∨ p.buffer <+: gemma4ChannelName) then none
    else some { p with needsChannelNameStrip := false }
  else some p

/-- The rest of `eat` in thinking. Without a partial tag `overlap` is 0, and only the
white space at the end is held back. -/
def eatThought (done : Bool) (p : Gemma4Parser) : List (Gemma4Event τ) × Gemma4Parser × Bool :=
  match cut p.buffer gemma4ThinkingCloseTag with
  | some (before, after) =>
      (thinkingEvent (trimRight before),
        { p with buffer := trimLeft after, state := .collectingContent }, true)
  | none =>
      if done = false then
        let start := ambiguousStart p.buffer (overlap p.buffer gemma4ThinkingCloseTag)
        (thinkingEvent (p.buffer.take start), { p with buffer := p.buffer.drop start }, false)
      else (thinkingEvent p.buffer, { p with buffer := [] }, false)

def eatThinking (done : Bool) (p : Gemma4Parser) : List (Gemma4Event τ) × Gemma4Parser × Bool :=
  match stripChannelName done p with
  | none => ([], p, false)
  | some p => eatThought done p

def eatToolCall (done : Bool) (p : Gemma4Parser) : List (Gemma4Event τ) × Gemma4Parser × Bool :=
  match cut p.buffer gemma4ToolCallCloseTag with
  | some (toolCallContent, remaining) =>
      (toolCallEvent parseToolCall toolCallContent,
        { p with buffer := trimLeft remaining, state := .ignoringPostToolCallNoise }, true)
  | none =>
      if done = true ∧ p.buffer ≠ [] then
        (toolCallEvent parseToolCall p.buffer,
          { p with buffer := [], state := .collectingContent }, false)
      else ([], p, false)

def skipCloseTags : ℕ → Text → Text
  | 0, bufStr => bufStr
  | n + 1, bufStr =>
      if gemma4ToolCallCloseTag <+: bufStr then
        skipCloseTags n (trimLeft (bufStr.drop gemma4ToolCallCloseTag.length))
      else bufStr

def skipNoise (bufStr : Text) : Text := skipCloseTags bufStr.length (trimLeft bufStr)

def eatNoise (done : Bool) (p : Gemma4Parser) : List (Gemma4Event τ) × Gemma4Parser × Bool :=
  let bufStr := skipNoise p.buffer
  if bufStr = [] then ([], { p with buffer := [] }, false)
  else if bufStr <+: gemma4ToolCallCloseTag then
    if done then ([], { p with buffer := [], state := .collectingContent }, false)
    else ([], { p with buffer := bufStr }, false)
  else ([], { p with buffer := bufStr, state := .collectingContent }, true)

def eat (done : Bool) (p : Gemma4Parser) : List (Gemma4Event τ) × Gemma4Parser × Bool :=
  if p.buffer = [] then ([], p, false)
  else
    match p.state with
    | .collectingContent => eatContent done p
    | .collectingThinking => eatThinking done p
    | .collectingToolCall => eatToolCall parseToolCall done p
    | .ignoringPostToolCallNoise => eatNoise done p

/-- What a turn of the loop uses up. -/
def turns (p : Gemma4Parser) : ℕ :=
  2 * p.buffer.length + if p.state = .ignoringPostToolCallNoise then 1 else 0

def parseEvents (done : Bool) (p : Gemma4Parser) : List (Gemma4Event τ) × Gemma4Parser :=
  drain (eat parseToolCall done) (p.turns + 1) p

/-- The loop of `Add` over the events. -/
def collect (thinkingEnabled : Bool) : List (Gemma4Event τ) → Response τ
  | [] => .none
  | .toolCall call :: events => ⟨[], [], [call], none⟩ ++ collect thinkingEnabled events
  | .thinkingContent content :: events =>
      ⟨[], if thinkingEnabled then content else [], [], none⟩ ++ collect thinkingEnabled events
  | .content content :: events => ⟨content, [], [], none⟩ ++ collect thinkingEnabled events

def add (s : Text) (done : Bool) (p : Gemma4Parser) : Response τ × Gemma4Parser :=
  let r := parseEvents parseToolCall done { p with buffer := p.buffer ++ s }
  (collect p.thinkingEnabled r.1, r.2)

/-! ## §2  The loop ends -/

section Turns

variable {parseToolCall} {done : Bool} {p : Gemma4Parser}

theorem skipCloseTags_length_le (n : ℕ) (s : Text) : (skipCloseTags n s).length ≤ s.length := by
  induction n generalizing s with
  | zero => exact Nat.le_refl _
  | succ n ih =>
    unfold skipCloseTags
    split
    · have h := ih (trimLeft (s.drop gemma4ToolCallCloseTag.length))
      have ht := trimLeft_length_le (s.drop gemma4ToolCallCloseTag.length)
      rw [List.length_drop] at ht
      omega
    · exact Nat.le_refl _

theorem skipNoise_length_le (s : Text) : (skipNoise s).length ≤ s.length :=
  (skipCloseTags_length_le _ _).trans (trimLeft_length_le s)

theorem turns_le (p : Gemma4Parser) : p.turns ≤ 2 * p.buffer.length + 1 := by
  unfold turns
  split <;> omega

theorem turns_of_state (h : p.state ≠ .ignoringPostToolCallNoise) :
    p.turns = 2 * p.buffer.length := by
  unfold turns
  rw [if_neg h, Nat.add_zero]

theorem stripChannelName_length_le {q : Gemma4Parser} (h : stripChannelName done p = some q) :
    q.buffer.length ≤ p.buffer.length := by
  unfold stripChannelName at h
  split at h
  · split at h
    · cases h
      exact (List.drop_sublist _ _).length_le
    · split at h
      · cases h
      · cases h
        exact Nat.le_refl _
  · cases h
    exact Nat.le_refl _

theorem eatContent_turns (h : (eatContent (τ := τ) done p).2.2 = true) :
    (eatContent (τ := τ) done p).2.1.turns < 2 * p.buffer.length := by
  unfold eatContent at h ⊢
  cases h₁ : cut p.buffer gemma4ThinkingOpenTag with
  | some x =>
    have hlen := cut_length (by decide) h₁
    have htag : gemma4ThinkingOpenTag.length = 10 := by decide
    refine Nat.lt_of_le_of_lt (turns_le _) ?_
    show 2 * x.2.length + 1 < _
    omega
  | none =>
    cases h₂ : cut p.buffer gemma4ToolCallOpenTag with
    | some x =>
      have hlen := cut_length (by decide) h₂
      have htag : gemma4ToolCallOpenTag.length = 12 := by decide
      refine Nat.lt_of_le_of_lt (turns_le _) ?_
      show 2 * x.2.length + 1 < _
      omega
    | none =>
      rw [h₁, h₂] at h
      simp only at h
      split at h <;> cases h

theorem eatThought_turns (h : (eatThought (τ := τ) done p).2.2 = true) :
    (eatThought (τ := τ) done p).2.1.turns < 2 * p.buffer.length := by
  unfold eatThought at h ⊢
  cases h₁ : cut p.buffer gemma4ThinkingCloseTag with
  | some x =>
    have hlen := cut_length (by decide) h₁
    have htag : gemma4ThinkingCloseTag.length = 10 := by decide
    have htrim := trimLeft_length_le x.2
    refine Nat.lt_of_le_of_lt (turns_le _) ?_
    show 2 * (trimLeft x.2).length + 1 < _
    omega
  | none =>
    rw [h₁] at h
    simp only at h
    split at h <;> cases h

theorem eatThinking_turns (h : (eatThinking (τ := τ) done p).2.2 = true) :
    (eatThinking (τ := τ) done p).2.1.turns < 2 * p.buffer.length := by
  unfold eatThinking at h ⊢
  cases hq : stripChannelName done p with
  | none =>
    rw [hq] at h
    cases h
  | some q =>
    rw [hq] at h
    have := stripChannelName_length_le hq
    exact Nat.lt_of_lt_of_le (eatThought_turns h) (by omega)

theorem eatToolCall_turns (h : (eatToolCall parseToolCall done p).2.2 = true) :
    (eatToolCall parseToolCall done p).2.1.turns < 2 * p.buffer.length := by
  unfold eatToolCall at h ⊢
  cases h₁ : cut p.buffer gemma4ToolCallCloseTag with
  | some x =>
    have hlen := cut_length (by decide) h₁
    have htag : gemma4ToolCallCloseTag.length = 12 := by decide
    have htrim := trimLeft_length_le x.2
    show 2 * (trimLeft x.2).length + 1 < _
    omega
  | none =>
    rw [h₁] at h
    simp only at h
    split at h <;> cases h

theorem eatNoise_turns (h : (eatNoise (τ := τ) done p).2.2 = true) :
    (eatNoise (τ := τ) done p).2.1.turns < 2 * p.buffer.length + 1 := by
  have hle := skipNoise_length_le p.buffer
  unfold eatNoise at h ⊢
  simp only at h ⊢
  split at h
  · cases h
  rename_i hne
  rw [if_neg hne]
  split at h
  · split at h <;> cases h
  · next hpre =>
    rw [if_neg hpre, turns_of_state (by nofun)]
    show 2 * (skipNoise p.buffer).length < _
    omega

/-- Every turn after which the loop goes on uses something up. -/
theorem eat_turns (h : (eat parseToolCall done p).2.2 = true) :
    (eat parseToolCall done p).2.1.turns < p.turns := by
  have hle : 2 * p.buffer.length ≤ p.turns := Nat.le_add_right _ _
  unfold eat at h ⊢
  by_cases hne : p.buffer = []
  · rw [if_pos hne] at h
    cases h
  rw [if_neg hne] at h ⊢
  obtain ⟨state, buffer, thinkingEnabled, needsChannelNameStrip⟩ := p
  cases state with
  | collectingContent => exact Nat.lt_of_lt_of_le (eatContent_turns h) hle
  | collectingThinking => exact Nat.lt_of_lt_of_le (eatThinking_turns h) hle
  | collectingToolCall => exact Nat.lt_of_lt_of_le (eatToolCall_turns h) hle
  | ignoringPostToolCallNoise => exact eatNoise_turns h

theorem turns_lt {es : List (Gemma4Event τ)} {q : Gemma4Parser}
    (h : eat parseToolCall done p = (es, q, true)) : q.turns < p.turns := by
  have hlt : (eat parseToolCall done p).2.1.turns < p.turns := eat_turns (by rw [h])
  rwa [h] at hlt

end Turns

end Gemma4Parser

end Ollama.Parsers
