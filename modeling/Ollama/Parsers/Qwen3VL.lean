import Ollama.Api
import Ollama.Parsers.Bodies

/-!
# The parser of qwen3-vl

`model/parsers/qwen3vl.go`: thinking up to `</think>`, content, and tool calls as JSON between
`<tool_call>` and `</tool_call>`. What `json.Unmarshal` makes of a tool call is a parameter.
-/

namespace Ollama.Parsers

open Lib List
open Api (ToolCall ToolCallFunction)

variable {α : Type}

/-! ## §1  The parser -/

inductive Qwen3VLParserState
  | collectingThinkingContent
  | collectingContent
  | collectingToolContent
  | thinkingDoneEatingWhitespace
  | toolCallDoneEatingWhitespace
  deriving DecidableEq

def thinkingCloseTag : Text := "</think>".toList

structure Qwen3VLParser where
  state : Qwen3VLParserState
  buffer : Text
  hasThinkingSupport : Bool
  deriving DecidableEq

inductive Qwen3VLEvent
  | rawToolCall (raw : Text)
  | thinkingContent (content : Text)
  | content (content : Text)
  deriving DecidableEq

namespace Qwen3VLParser

/-- `Init`, with `setInitialState`. `prefilled`: the last message is the assistant's, and has
content. -/
def init (hasThinkingSupport prefilled : Bool) : Qwen3VLParser :=
  { state :=
      if !hasThinkingSupport then .collectingContent
      else if prefilled then .collectingContent
      else .collectingThinkingContent
    buffer := []
    hasThinkingSupport := hasThinkingSupport }

def contentEvent (content : Text) : List Qwen3VLEvent :=
  if content = [] then [] else [.content content]

def thinkingEvent (content : Text) : List Qwen3VLEvent :=
  if content = [] then [] else [.thinkingContent content]

/-- Without a partial tag the overlap is 0, and only the white space at the end is held back. -/
def eatContent (p : Qwen3VLParser) : List Qwen3VLEvent × Qwen3VLParser × Bool :=
  match cut p.buffer toolOpenTag with
  | some (before, after) =>
      (contentEvent (trimRight before),
        { p with buffer := after, state := .collectingToolContent }, true)
  | none =>
      let start := ambiguousStart p.buffer (overlap p.buffer toolOpenTag)
      (contentEvent (p.buffer.take start), { p with buffer := p.buffer.drop start }, false)

def eatToolContent (p : Qwen3VLParser) : List Qwen3VLEvent × Qwen3VLParser × Bool :=
  match cut p.buffer toolCloseTag with
  | some (before, after) =>
      ([.rawToolCall before],
        { p with buffer := after, state := .toolCallDoneEatingWhitespace }, true)
  | none => ([], p, false)

def eatThinkingContent (p : Qwen3VLParser) : List Qwen3VLEvent × Qwen3VLParser × Bool :=
  match cut p.buffer thinkingCloseTag with
  | some (before, after) =>
      let remaining := trimLeft after
      (thinkingEvent (trimRight before), { p with
          buffer := remaining
          state :=
            if remaining = [] then .thinkingDoneEatingWhitespace else .collectingContent }, true)
  | none =>
      let start := ambiguousStart p.buffer (overlap p.buffer thinkingCloseTag)
      (thinkingEvent (p.buffer.take start), { p with buffer := p.buffer.drop start }, false)

def eatLeadingWhitespaceAndTransitionTo (nextState : Qwen3VLParserState) (p : Qwen3VLParser) :
    List Qwen3VLEvent × Qwen3VLParser × Bool :=
  let trimmed := trimLeft p.buffer
  if trimmed = [] then ([], { p with buffer := [] }, false)
  else ([], { p with buffer := trimmed, state := nextState }, true)

def eat (p : Qwen3VLParser) : List Qwen3VLEvent × Qwen3VLParser × Bool :=
  match p.state with
  | .collectingContent => eatContent p
  | .collectingToolContent => eatToolContent p
  | .collectingThinkingContent => eatThinkingContent p
  | .thinkingDoneEatingWhitespace => eatLeadingWhitespaceAndTransitionTo .collectingContent p
  | .toolCallDoneEatingWhitespace => eatLeadingWhitespaceAndTransitionTo .collectingContent p

/-! ## §2  Its loop -/

def eating (p : Qwen3VLParser) : Bool :=
  p.state = .thinkingDoneEatingWhitespace ∨ p.state = .toolCallDoneEatingWhitespace

/-- What a turn of the loop uses up. -/
def turns (p : Qwen3VLParser) : ℕ := 2 * p.buffer.length + if eating p then 1 else 0

def parseEvents (p : Qwen3VLParser) : List Qwen3VLEvent × Qwen3VLParser := drain eat (turns p + 1) p

variable {p : Qwen3VLParser}

theorem turns_le (p : Qwen3VLParser) : turns p ≤ 2 * p.buffer.length + 1 := by
  unfold turns
  split <;> omega

theorem eatLeadingWhitespace_turns (hp : eating p = true)
    (h : (eatLeadingWhitespaceAndTransitionTo .collectingContent p).2.2 = true) :
    turns (eatLeadingWhitespaceAndTransitionTo .collectingContent p).2.1 < turns p := by
  have hle := trimLeft_length_le p.buffer
  unfold eatLeadingWhitespaceAndTransitionTo at h ⊢
  dsimp only at h ⊢
  split at h
  · cases h
  · next hne =>
    rw [if_neg hne, turns, turns, if_pos hp]
    exact Nat.lt_succ_of_le (Nat.mul_le_mul_left 2 hle)

/-- Every turn after which the loop goes on uses something up. -/
theorem eat_turns (h : (eat p).2.2 = true) : turns (eat p).2.1 < turns p := by
  have hle : 2 * p.buffer.length ≤ turns p := Nat.le_add_right _ _
  unfold eat at h ⊢
  cases hp : p.state with
  | collectingContent =>
    rw [hp] at h
    unfold eatContent at h ⊢
    cases hcut : cut p.buffer toolOpenTag with
    | some x =>
      have hlen := cut_length (by decide) hcut
      have htag : toolOpenTag.length = 11 := by decide
      have hturns := turns_le { p with buffer := x.2, state := .collectingToolContent }
      dsimp only at hturns ⊢
      omega
    | none =>
      rw [hcut] at h
      cases h
  | collectingToolContent =>
    rw [hp] at h
    unfold eatToolContent at h ⊢
    cases hcut : cut p.buffer toolCloseTag with
    | some x =>
      have hlen := cut_length (by decide) hcut
      have htag : toolCloseTag.length = 12 := by decide
      have hturns := turns_le { p with buffer := x.2, state := .toolCallDoneEatingWhitespace }
      dsimp only at hturns ⊢
      omega
    | none =>
      rw [hcut] at h
      cases h
  | collectingThinkingContent =>
    rw [hp] at h
    unfold eatThinkingContent at h ⊢
    cases hcut : cut p.buffer thinkingCloseTag with
    | some x =>
      have hlen := cut_length (by decide) hcut
      have htag : thinkingCloseTag.length = 8 := by decide
      have htrim := trimLeft_length_le x.2
      have hturns := turns_le { p with
        buffer := trimLeft x.2
        state := if trimLeft x.2 = [] then .thinkingDoneEatingWhitespace else .collectingContent }
      dsimp only at hturns ⊢
      omega
    | none =>
      rw [hcut] at h
      cases h
  | thinkingDoneEatingWhitespace =>
    rw [hp] at h
    exact eatLeadingWhitespace_turns (decide_eq_true (.inl hp)) h
  | toolCallDoneEatingWhitespace =>
    rw [hp] at h
    exact eatLeadingWhitespace_turns (decide_eq_true (.inr hp)) h

/-! ## §3  Calls of `Add` -/

/-- `parseJSONToolCall` -/
def parseJSONToolCall (unmarshal : Text → Except Error (ToolCallFunction α)) (raw : Text) :
    Except Error (ToolCall α) :=
  (unmarshal raw).map fun toolCallFunction => { function := toolCallFunction }

/-- The loop of `Add` over the events. -/
def collect (unmarshal : Text → Except Error (ToolCallFunction α)) :
    List Qwen3VLEvent → Except Error (Response (ToolCall α))
  | [] => .ok .none
  | .rawToolCall raw :: events => do
      let toolCall ← parseJSONToolCall unmarshal raw
      let later ← collect unmarshal events
      return ⟨[], [], [toolCall], none⟩ ++ later
  | .thinkingContent content :: events => do
      let later ← collect unmarshal events
      return ⟨[], content, [], none⟩ ++ later
  | .content content :: events => do
      let later ← collect unmarshal events
      return ⟨content, [], [], none⟩ ++ later

/-- `Add`; whether the response is done makes no difference. -/
def add (unmarshal : Text → Except Error (ToolCallFunction α)) (s : Text) (_done : Bool)
    (p : Qwen3VLParser) : Response (ToolCall α) × Qwen3VLParser :=
  let out := parseEvents { p with buffer := p.buffer ++ s }
  (match collect unmarshal out.1 with
    | .ok r => r
    | .error e => .ofError e,
    out.2)

/-! ## §4  The bodies ahead -/

/-- The tool calls among the events. -/
def raws : List Qwen3VLEvent → List Text
  | [] => []
  | .rawToolCall raw :: events => raw :: raws events
  | .thinkingContent _ :: events => raws events
  | .content _ :: events => raws events

theorem raws_append (es es' : List Qwen3VLEvent) : raws (es ++ es') = raws es ++ raws es' := by
  induction es with
  | nil => rfl
  | cons e es ih => cases e <;> simp only [cons_append, raws, ih]

theorem raws_contentEvent (c : Text) : raws (contentEvent c) = [] := by
  unfold contentEvent
  split <;> rfl

theorem raws_thinkingEvent (c : Text) : raws (thinkingEvent c) = [] := by
  unfold thinkingEvent
  split <;> rfl

def bodiesAfterThinking (t : Text) : List Text :=
  match cut t thinkingCloseTag with
  | none => []
  | some (_, after) => bodies false after

def ahead (p : Qwen3VLParser) (u : Text) : List Text :=
  match p.state with
  | .collectingThinkingContent => bodiesAfterThinking (p.buffer ++ u)
  | .collectingToolContent => bodies true (p.buffer ++ u)
  | _ => bodies false (p.buffer ++ u)

theorem ahead_of_eating (h : eating p = true) (u : Text) : ahead p u = bodies false (p.buffer ++ u) := by
  rcases of_decide_eq_true h with h | h <;> rw [ahead, h]

theorem eatLeadingWhitespace_ahead (h : eating p = true) (u : Text) :
    ahead p u = raws (eatLeadingWhitespaceAndTransitionTo .collectingContent p).1 ++
      ahead (eatLeadingWhitespaceAndTransitionTo .collectingContent p).2.1 u := by
  rw [ahead_of_eating h, ← bodies_trimLeft]
  unfold eatLeadingWhitespaceAndTransitionTo
  dsimp only
  split
  · next hnil =>
    rw [hnil]
    exact (ahead_of_eating (p := { p with buffer := [] }) h u).symm
  · rfl

/-- What is returned of thinking has no closing tag in it. -/
theorem bodiesAfterThinking_held {t : Text} (h : cut t thinkingCloseTag = none) (u : Text) :
    bodiesAfterThinking (t.drop (ambiguousStart t (overlap t thinkingCloseTag)) ++ u) =
      bodiesAfterThinking (t ++ u) := by
  obtain ⟨w, x, -, hx, -, hdrop⟩ := ambiguousStart_spec (overlap_le_left t thinkingCloseTag)
  have hov : overlap t thinkingCloseTag ≤
      (t.drop (ambiguousStart t (overlap t thinkingCloseTag))).length := by
    rw [hdrop, length_append, hx]
    exact Nat.le_add_left _ _
  have ht := (take_append_drop (ambiguousStart t (overlap t thinkingCloseTag)) t).symm
  generalize t.take (ambiguousStart t (overlap t thinkingCloseTag)) = d at ht
  generalize t.drop (ambiguousStart t (overlap t thinkingCloseTag)) = y at *
  subst ht
  rw [append_assoc, bodiesAfterThinking, bodiesAfterThinking, cut_held (by decide) h hov u]
  cases cut (y ++ u) thinkingCloseTag <;> rfl

theorem eatThinkingContent_ahead (hp : p.state = .collectingThinkingContent) (u : Text) :
    ahead p u = raws (eatThinkingContent p).1 ++ ahead (eatThinkingContent p).2.1 u := by
  unfold eatThinkingContent
  rw [ahead, hp]
  cases hcut : cut p.buffer thinkingCloseTag with
  | some x =>
    rw [raws_thinkingEvent, nil_append, bodiesAfterThinking, cut_append (by decide) hcut]
    dsimp only
    rw [← bodies_trimLeft]
    by_cases hnil : trimLeft x.2 = []
    · rw [if_pos hnil, ahead]
    · rw [if_neg hnil, ahead]
  | none =>
    rw [raws_thinkingEvent, nil_append, ahead]
    exact (bodiesAfterThinking_held hcut u).symm

/-- One turn takes off the bodies ahead what it returns. -/
theorem eat_ahead (p : Qwen3VLParser) (u : Text) :
    ahead p u = raws (eat p).1 ++ ahead (eat p).2.1 u := by
  unfold eat
  cases hp : p.state with
  | collectingContent =>
    unfold eatContent
    rw [ahead, hp]
    cases hcut : cut p.buffer toolOpenTag with
    | some x =>
      rw [raws_contentEvent]
      exact bodies_open (cut_append (by decide) hcut u)
    | none =>
      rw [raws_contentEvent, ahead]
      exact (bodies_held hcut u).symm
  | collectingToolContent =>
    unfold eatToolContent
    rw [ahead, hp]
    cases hcut : cut p.buffer toolCloseTag with
    | some x => exact bodies_close (cut_append (by decide) hcut u)
    | none =>
      rw [ahead, hp]
      rfl
  | collectingThinkingContent => exact eatThinkingContent_ahead hp u
  | thinkingDoneEatingWhitespace => exact eatLeadingWhitespace_ahead (decide_eq_true (.inl hp)) u
  | toolCallDoneEatingWhitespace => exact eatLeadingWhitespace_ahead (decide_eq_true (.inr hp)) u

theorem parseEvents_ahead (p : Qwen3VLParser) (u : Text) :
    ahead p u = raws (parseEvents p).1 ++ ahead (parseEvents p).2 u := by
  refine drain_rule turns (fun _ h => eat_turns h)
    (P := fun p es p' => ahead p u = raws es ++ ahead p' u)
    (fun p _ => eat_ahead p u) (fun p es p' _ ih => ?_) _ p (Nat.lt_succ_self _)
  rw [raws_append, append_assoc, ← ih]
  exact eat_ahead p u

theorem collect_ok {unmarshal : Text → Except Error (ToolCallFunction α)} {es : List Qwen3VLEvent}
    {r : Response (ToolCall α)} (h : collect unmarshal es = .ok r) :
    AllRead (parseJSONToolCall unmarshal) (raws es) r.calls ∧ r.err = none := by
  induction es generalizing r with
  | nil =>
    cases h
    exact ⟨.nil, rfl⟩
  | cons e es ih =>
    cases hlater : collect unmarshal es with
    | error err =>
      cases e with
      | rawToolCall raw =>
        rw [collect, hlater] at h
        cases hraw : parseJSONToolCall unmarshal raw <;> rw [hraw] at h <;> cases h
      | _ =>
        rw [collect, hlater] at h
        cases h
    | ok later =>
      obtain ⟨hread, herr⟩ := ih hlater
      cases e with
      | rawToolCall raw =>
        rw [collect, hlater] at h
        cases hraw : parseJSONToolCall unmarshal raw with
        | error err =>
          rw [hraw] at h
          cases h
        | ok call =>
          rw [hraw] at h
          cases h
          exact ⟨.cons hraw hread, herr⟩
      | _ =>
        rw [collect, hlater] at h
        cases h
        exact ⟨hread, herr⟩

/-- The calls that the parser returns are read off the bodies ahead. -/
theorem foretells (unmarshal : Text → Except Error (ToolCallFunction α)) :
    Foretells (add unmarshal) fun p u calls =>
      calls = okCalls (parseJSONToolCall unmarshal) (ahead p u) := by
  refine foretells_of_take (fun p c done herr => ?_) (fun p c done u herr => ?_)
  · unfold add at herr ⊢
    dsimp only at herr ⊢
    cases hcollect : collect unmarshal (parseEvents { p with buffer := p.buffer ++ c }).1 with
    | error e => rfl
    | ok r =>
      rw [hcollect] at herr
      rw [(collect_ok hcollect).2] at herr
      cases herr
  · have hahead := parseEvents_ahead { p with buffer := p.buffer ++ c } u
    have same : ahead { p with buffer := p.buffer ++ c } u = ahead p (c ++ u) := by
      unfold ahead
      rw [append_assoc]
    rw [same] at hahead
    refine ⟨raws (parseEvents { p with buffer := p.buffer ++ c }).1, ?_, hahead⟩
    unfold add at herr ⊢
    dsimp only at herr ⊢
    cases hcollect : collect unmarshal (parseEvents { p with buffer := p.buffer ++ c }).1 with
    | error e =>
      rw [hcollect] at herr
      cases herr
    | ok r => exact (collect_ok hcollect).1

end Qwen3VLParser

end Ollama.Parsers
