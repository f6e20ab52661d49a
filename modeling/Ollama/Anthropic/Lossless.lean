import Ollama.Anthropic.Blocks
import Mathlib.Data.List.Nodup

/-!
# What the event stream loses

A client puts the text deltas, the thinking deltas and the `tool_use` blocks of a stream
together. Thinking is lost that comes after text that came after thinking, and a tool call is
lost when an earlier response had a call at its position.
-/

namespace Ollama.Anthropic

open Api Lib.Blocks Server List

variable {α : Type}

/-! ## §1  What a client reads -/

def marksOf (events : List (StreamEvent α)) : List (Mark (ContentBlock α) Delta) :=
  events.filterMap fun
    | .contentBlock mark => some mark
    | _ => none

/-- The `thinking_delta` texts. -/
def thinkingText (ms : List (Mark (ContentBlock α) Delta)) : Text :=
  ms.flatMap fun
    | .piece _ (.thinking t) => t
    | _ => []

/-- The `text_delta` texts. -/
def textText (ms : List (Mark (ContentBlock α) Delta)) : Text :=
  ms.flatMap fun
    | .piece _ (.text t) => t
    | _ => []

def inputJSON (ms : List (Mark (ContentBlock α) Delta)) : Text :=
  ms.flatMap fun
    | .piece _ (.inputJson t) => t
    | _ => []

structure ToolUse where
  id : Text
  name : Text
  input : Text
  deriving DecidableEq

def Stops (i : ℕ) : Mark (ContentBlock α) Delta → Bool
  | .stop j => i == j
  | _ => false

/-- The `tool_use` blocks: their input is what the `input_json_delta` events bring until the
block is stopped. -/
def toolUses : List (Mark (ContentBlock α) Delta) → List ToolUse
  | [] => []
  | .start i (.toolUse id name _) :: ms =>
      ⟨id, name, inputJSON (ms.takeWhile fun m => !Stops i m)⟩ :: toolUses ms
  | _ :: ms => toolUses ms

def stopReasons (events : List (StreamEvent α)) : List Text :=
  events.filterMap fun
    | .messageDelta stopReason _ => some stopReason
    | _ => none

/-- A block of the stream is a tool call. -/
structure Delivers (marshal : α → Option Text) (tc : ToolCall α) (use : ToolUse) : Prop where
  name : use.name = tc.function.name
  input : marshal tc.function.arguments = some use.input
  id : tc.id ≠ [] → use.id = tc.id

/-- The identifiers of the blocks whose tool calls have none. -/
def generatedIDs (tcs : List (ToolCall α)) (uses : List ToolUse) : List Text :=
  ((tcs.zip uses).filter fun p => p.1.id = []).map (·.2.id)

/-- The texts, the tool calls and the reason of the responses are in the stream. -/
structure Delivered (marshal : α → Option Text) (rs : List (ChatResponse α))
    (events : List (StreamEvent α)) (stopReason : Text) : Prop where
  thinking : thinkingText (marksOf events) = rs.flatMap (·.message.thinking)
  text : textText (marksOf events) = rs.flatMap (·.message.content)
  toolUses : List.Forall₂ (Delivers marshal) (rs.flatMap (·.message.toolCalls))
    (toolUses (marksOf events))
  stopReason : stopReasons events = [stopReason]

/-- Everything of the responses is in the stream, and no identifier is there twice that the
converter generates. -/
structure Lossless (marshal : α → Option Text) (rs : List (ChatResponse α))
    (events : List (StreamEvent α)) (stopReason : Text) : Prop extends
    Delivered marshal rs events stopReason where
  generated : (generatedIDs (rs.flatMap (·.message.toolCalls))
    (Anthropic.toolUses (marksOf events))).Nodup

variable {rs : List (ChatResponse α)}

theorem marksOf_processAll (marshal : α → Option Text) (toolUseID : ℕ → Text)
    (ends : DoneLast rs) (c : StreamConverter) :
    marksOf (c.processAll marshal toolUseID rs).1 = marksAll marshal toolUseID c rs := by
  have head : marksOf (headOf c rs) = [] := by
    cases rs with
    | nil => rfl
    | cons r rs =>
        show marksOf (c.messageStart r).1 = []
        rw [StreamConverter.messageStart]
        split <;> rfl
  rw [processAll_events marshal toolUseID ends]
  simp only [marksOf, filterMap_append] at head ⊢
  rw [head, nil_append, filterMap_map]
  simp

theorem stopReasons_processAll (marshal : α → Option Text) (toolUseID : ℕ → Text)
    (ends : DoneLast rs) (c : StreamConverter) :
    stopReasons (c.processAll marshal toolUseID rs).1 =
      [mapStopReason (rs.getLast?.getD {}).doneReason
        (!(c.processAll marshal toolUseID rs).2.toolCallsSent.isEmpty)] := by
  have head : stopReasons (headOf c rs) = [] := by
    cases rs with
    | nil => rfl
    | cons r rs =>
        show stopReasons (c.messageStart r).1 = []
        rw [StreamConverter.messageStart]
        split <;> rfl
  conv_lhs => rw [processAll_events marshal toolUseID ends]
  simp only [stopReasons, filterMap_append] at head ⊢
  rw [head, nil_append, filterMap_map]
  simp

/-! ## §2  The texts -/

@[simp] theorem thinkingText_append (ms ns : List (Mark (ContentBlock α) Delta)) :
    thinkingText (ms ++ ns) = thinkingText ms ++ thinkingText ns :=
  flatMap_append

@[simp] theorem textText_append (ms ns : List (Mark (ContentBlock α) Delta)) :
    textText (ms ++ ns) = textText ms ++ textText ns :=
  flatMap_append

variable (marshal : α → Option Text) (toolUseID : ℕ → Text)

variable (i : ℕ) (tcs : List (ToolCall α))

/-- The part of the tool calls writes no text. -/
theorem toolCalls_texts (c : StreamConverter) :
    thinkingText (StreamConverter.toolCalls marshal toolUseID i tcs c).1 = [] ∧
      textText (StreamConverter.toolCalls marshal toolUseID i tcs c).1 = [] := by
  induction tcs generalizing i c with
  | nil => exact ⟨rfl, rfl⟩
  | cons tc tcs ih =>
      have one : thinkingText (StreamConverter.toolCall marshal toolUseID i tc c).1 = [] ∧
          textText (StreamConverter.toolCall marshal toolUseID i tc c).1 = [] := by
        by_cases sent : i ∈ c.toolCallsSent
        · rw [StreamConverter.toolCall, if_pos sent]
          exact ⟨rfl, rfl⟩
        · rw [toolCall_new marshal toolUseID sent]
          simp only [Part.andThen, StreamConverter.closeText, StreamConverter.addToolUse]
          split <;> split <;> exact ⟨rfl, rfl⟩
      have rest := ih (i + 1) (StreamConverter.toolCall marshal toolUseID i tc c).2
      simp only [StreamConverter.toolCalls, Part.andThen, thinkingText_append, textText_append]
      exact ⟨by rw [one.1, rest.1]; rfl, by rw [one.2, rest.2]; rfl⟩

theorem closeLast_texts (done : Bool) (c : StreamConverter) :
    thinkingText (StreamConverter.closeLast (α := α) done c).1 = [] ∧
      textText (StreamConverter.closeLast (α := α) done c).1 = [] := by
  rw [StreamConverter.closeLast]
  split <;> exact ⟨rfl, rfl⟩

variable (t : Text)

theorem thinking_texts (c : StreamConverter) :
    thinkingText (StreamConverter.thinking (α := α) t c).1 = (if c.thinkingDone then [] else t) ∧
      textText (StreamConverter.thinking (α := α) t c).1 = [] := by
  rw [StreamConverter.thinking]
  split
  · next h =>
    rw [h.2]
    split <;> simp [thinkingText, textText]
  rename_i h
  rcases hd : c.thinkingDone with - | -
  · have : t = [] := by simpa [hd] using h
    simp [this, thinkingText, textText]
  · exact ⟨rfl, rfl⟩

theorem content_texts (c : StreamConverter) :
    thinkingText (StreamConverter.content (α := α) t c).1 = [] ∧
      textText (StreamConverter.content (α := α) t c).1 = t := by
  rw [StreamConverter.content]
  split
  · next h => simp [h, thinkingText, textText]
  · simp only [Part.andThen, StreamConverter.closeThinking, StreamConverter.addText]
    split <;> split <;> simp [thinkingText, textText]

variable (r : ChatResponse α)

theorem blocks_thinkingText (c : StreamConverter) :
    thinkingText (StreamConverter.blocks marshal toolUseID r c).1 =
      if c.thinkingDone then [] else r.message.thinking := by
  simp only [StreamConverter.blocks, Part.andThen, thinkingText_append, (thinking_texts _ _).1,
    (content_texts _ _).1, (toolCalls_texts _ _ _ _ _).1, (closeLast_texts _ _).1,
    append_nil]

theorem blocks_textText (c : StreamConverter) :
    textText (StreamConverter.blocks marshal toolUseID r c).1 = r.message.content := by
  simp only [StreamConverter.blocks, Part.andThen, textText_append, (thinking_texts _ _).2,
    (content_texts _ _).2, (toolCalls_texts _ _ _ _ _).2, (closeLast_texts _ _).2,
    append_nil, nil_append]

variable (c : StreamConverter)

theorem marksAll_textText (rs : List (ChatResponse α)) :
    textText (marksAll marshal toolUseID c rs) = rs.flatMap (·.message.content) := by
  induction rs generalizing c with
  | nil => rfl
  | cons r rs ih =>
      rw [marksAll, textText_append, blocks_textText, ih, flatMap_cons]

theorem thinking_flags (c : StreamConverter) :
    (StreamConverter.thinking (α := α) t c).2.thinkingStarted =
        (c.thinkingStarted || (!c.thinkingDone && !t.isEmpty)) ∧
      (StreamConverter.thinking (α := α) t c).2.thinkingDone = c.thinkingDone := by
  rw [StreamConverter.thinking]
  split
  · next h => simp [h.1, h.2]
  · next h =>
    cases hd : c.thinkingDone <;> simp_all

theorem content_flags (c : StreamConverter) :
    (StreamConverter.content (α := α) t c).2.thinkingStarted = c.thinkingStarted ∧
      (StreamConverter.content (α := α) t c).2.thinkingDone =
        (c.thinkingDone || (c.thinkingStarted && !t.isEmpty)) := by
  rw [StreamConverter.content]
  split
  · next h => simp [h]
  rename_i h
  simp only [Part.andThen, StreamConverter.closeThinking, StreamConverter.addText]
  split
  · next opened => simp [h, opened.1]
  · next idle =>
    cases hs : c.thinkingStarted <;> cases hd : c.thinkingDone <;> simp_all

def toCome (started done : Bool) : List Kind :=
  if done then [.thinking] else if started then [.text, .thinking] else [.thinking, .text, .thinking]

def startedAfter (r : ChatResponse α) (started done : Bool) : Bool :=
  started || (!done && !r.message.thinking.isEmpty)

def doneAfter (r : ChatResponse α) (started done : Bool) : Bool :=
  done || (startedAfter r started done && !r.message.content.isEmpty)

theorem process_flags (r : ChatResponse α) : (c.process marshal toolUseID r).2.thinkingStarted =
        startedAfter r c.thinkingStarted c.thinkingDone ∧
      (c.process marshal toolUseID r).2.thinkingDone =
        doneAfter r c.thinkingStarted c.thinkingDone := by
  have start : flags { (c.messageStart r).2 with firstWrite := c.firstWrite } = flags c := by
    rw [StreamConverter.messageStart]
    split <;> rfl
  have stop : ∀ d : StreamConverter, flags (d.messageStop r).2 = flags d := by
    intro d
    rw [StreamConverter.messageStop]
    split <;> rfl
  have calls := toolCalls_keeps marshal toolUseID 0 r.message.toolCalls
  have last := closeLast_keeps (α := α) flags r.done
  simp only [flags, Prod.mk.injEq, Keeps] at start stop calls last
  obtain ⟨-, started, done⟩ := start
  simp only [StreamConverter.process, StreamConverter.blocks, Part.andThen, (stop _).2.1,
    (stop _).2.2, (last _).2.1, (last _).2.2, (calls _).2.1, (calls _).2.2, (content_flags _ _).1,
    (content_flags _ _).2, (thinking_flags _ _).1, (thinking_flags _ _).2, started, done]
  exact ⟨rfl, rfl⟩

theorem sublist_replicate_append {k : Kind} (other : k ≠ .toolUse) (l ks : List Kind) (m : ℕ) :
    List.Sublist (k :: l) (List.replicate m .toolUse ++ ks) ↔ List.Sublist (k :: l) ks := by
  induction m with
  | zero => rfl
  | succ m ih =>
      rw [replicate_succ, cons_append, cons_sublist_cons', ih]
      simp [other]

theorem toCome_step (n : ℕ) (ks : List Kind) {started done : Bool}
    (kept : done = true → r.message.thinking = []) :
    List.Sublist (toCome started done) (kindsOf n r ++ ks) ↔
      List.Sublist (toCome (startedAfter r started done) (doneAfter r started done)) ks := by
  by_cases ht : r.message.thinking = [] <;> by_cases hc : r.message.content = [] <;>
    cases started <;> cases done <;>
    simp_all [toCome, startedAfter, doneAfter, kindsOf, cons_sublist_cons',
      sublist_replicate_append]

theorem thinkingText_length (rs : List (ChatResponse α)) :
    (thinkingText (marksAll marshal toolUseID c rs)).length ≤
      (rs.flatMap (·.message.thinking)).length := by
  induction rs generalizing c with
  | nil => exact Nat.le_refl 0
  | cons r rs ih =>
      have later := ih (c.process marshal toolUseID r).2
      rw [marksAll, thinkingText_append, blocks_thinkingText, flatMap_cons,
        length_append, length_append]
      have one : (if (c.messageStart r).2.thinkingDone then [] else r.message.thinking).length ≤
          r.message.thinking.length := by
        split
        · exact Nat.zero_le _
        · exact Nat.le_refl _
      omega

/-- Thinking is lost exactly when it comes after text that came after thinking. -/
theorem thinkingText_iff (n : ℕ) (rs : List (ChatResponse α)) :
    thinkingText (marksAll marshal toolUseID c rs) = rs.flatMap (·.message.thinking) ↔
      ¬List.Sublist (toCome c.thinkingStarted c.thinkingDone) (kinds n rs) := by
  induction rs generalizing c n with
  | nil =>
      refine iff_of_true rfl ?_
      rw [kinds, sublist_nil, toCome]
      split
      · exact cons_ne_nil _ _
      · split <;> exact cons_ne_nil _ _
  | cons r rs ih =>
      have start : (c.messageStart r).2.thinkingDone = c.thinkingDone := by
        rw [StreamConverter.messageStart]
        split <;> rfl
      have later := ih (c.process marshal toolUseID r).2 (max n r.message.toolCalls.length)
      obtain ⟨started, done⟩ := process_flags marshal toolUseID c r
      rw [started, done] at later
      rw [marksAll, thinkingText_append, blocks_thinkingText, flatMap_cons, kinds, start]
      by_cases lost : c.thinkingDone = true ∧ r.message.thinking ≠ []
      · refine iff_of_false ?_ (not_not_intro ?_)
        · intro same
          have short := thinkingText_length marshal toolUseID (c.process marshal toolUseID r).2 rs
          have lengths := congrArg List.length same
          rw [if_pos lost.1, nil_append, length_append] at lengths
          have some := length_pos_of_ne_nil lost.2
          omega
        · rw [lost.1, toCome, if_pos rfl, singleton_sublist]
          simp [kindsOf, lost.2]
      · have kept : c.thinkingDone = true → r.message.thinking = [] := by
          intro hd
          by_contra ht
          exact lost ⟨hd, ht⟩
        have head : (if c.thinkingDone then [] else r.message.thinking) = r.message.thinking := by
          split
          · next hd => exact (kept hd).symm
          · rfl
        rw [head, append_cancel_left_eq, later, toCome_step r n _ kept]

/-! ## §3  The tool calls -/

/-- The marks bring these `tool_use` blocks, whatever follows. -/
def Uses (ms : List (Mark (ContentBlock α) Delta)) (us : List ToolUse) : Prop :=
  ∀ ns, toolUses (ms ++ ns) = us ++ toolUses ns

theorem Uses.append {ms ns : List (Mark (ContentBlock α) Delta)} {us vs : List ToolUse}
    (h : Uses ms us) (h' : Uses ns vs) : Uses (ms ++ ns) (us ++ vs) := by
  intro os
  rw [append_assoc, h, h', append_assoc]

theorem Uses.eq {ms : List (Mark (ContentBlock α) Delta)} {us : List ToolUse} (h : Uses ms us) :
    toolUses ms = us := by
  have := h []
  rwa [append_nil, toolUses, append_nil] at this

theorem Uses.nil : Uses ([] : List (Mark (ContentBlock α) Delta)) [] := fun _ => rfl

theorem Uses.block (id name input : Text) : Uses (α := α)
      [.start i (.toolUse id name none), .piece i (.inputJson input), .stop i]
      [⟨id, name, input⟩] := by
  intro ns
  simp [toolUses, Stops, inputJSON]

theorem closeText_uses : Uses (StreamConverter.closeText (α := α) c).1 [] := by
  rw [StreamConverter.closeText]
  split <;> exact fun _ => rfl

theorem closeLast_uses (done : Bool) (c : StreamConverter) :
    Uses (StreamConverter.closeLast (α := α) done c).1 [] := by
  rw [StreamConverter.closeLast]
  split <;> exact fun _ => rfl

theorem thinking_uses (c : StreamConverter) :
    Uses (StreamConverter.thinking (α := α) t c).1 [] := by
  rw [StreamConverter.thinking]
  split
  · split <;> exact fun _ => rfl
  · exact fun _ => rfl

theorem content_uses (c : StreamConverter) : Uses (StreamConverter.content (α := α) t c).1 [] := by
  rw [StreamConverter.content]
  split
  · exact fun _ => rfl
  · simp only [Part.andThen, StreamConverter.closeThinking, StreamConverter.addText]
    split <;> split <;> exact fun _ => rfl

def useOf (i : ℕ) (tc : ToolCall α) (c : StreamConverter) : List ToolUse :=
  if i ∈ c.toolCallsSent then []
  else ((marshal tc.function.arguments).map fun argsJSON =>
    ⟨(c.toolCallID toolUseID i tc).1, tc.function.name, argsJSON⟩).toList

theorem toolCall_uses (tc : ToolCall α) (c : StreamConverter) :
    Uses (StreamConverter.toolCall marshal toolUseID i tc c).1 (useOf marshal toolUseID i tc c) := by
  by_cases sent : i ∈ c.toolCallsSent
  · rw [StreamConverter.toolCall, if_pos sent, useOf, if_pos sent]
    exact .nil
  rw [toolCall_new marshal toolUseID sent, useOf, if_neg sent, Part.andThen,
    StreamConverter.addToolUse]
  rcases marshal tc.function.arguments with - | argsJSON
  · exact (closeText_uses _).append .nil
  · exact (closeText_uses _).append (.block _ _ _ _)

/-- What one turn of the loop does to the positions that are sent. -/
theorem toolCall_sent (tc : ToolCall α) (c : StreamConverter) (j : ℕ) :
    j ∈ (StreamConverter.toolCall marshal toolUseID i tc c).2.toolCallsSent ↔
      j ∈ c.toolCallsSent ∨ j = i ∧ (marshal tc.function.arguments).isSome := by
  by_cases sent : i ∈ c.toolCallsSent
  · rw [StreamConverter.toolCall, if_pos sent]
    refine ⟨Or.inl, ?_⟩
    rintro (h | ⟨rfl, -⟩)
    · exact h
    · exact sent
  obtain ⟨ids, drawn, same⟩ := toolCallID_same toolUseID i tc c
  rw [toolCall_new marshal toolUseID sent, same, Part.andThen, StreamConverter.addToolUse]
  obtain ⟨-, -, kept⟩ := closeText_thinking (α := α) { c with toolCallIDs := ids, drawn := drawn }
  rcases marshal tc.function.arguments with - | argsJSON
  · simp [kept]
  · simp [kept, or_comm]

theorem toolCalls_sent (c : StreamConverter) (j : ℕ)
    (h : j ∈ c.toolCallsSent) :
    j ∈ (StreamConverter.toolCalls marshal toolUseID i tcs c).2.toolCallsSent := by
  induction tcs generalizing i c with
  | nil => exact h
  | cons tc tcs ih => exact ih _ _ ((toolCall_sent marshal toolUseID i tc c j).mpr (Or.inl h))

/-- The blocks of the loop: one for each call at most, and one for each call only when no
position was sent before and all arguments can be written. -/
theorem toolCalls_uses (c : StreamConverter) :
    ∃ us, Uses (StreamConverter.toolCalls marshal toolUseID i tcs c).1 us ∧ us.length ≤ tcs.length ∧
      (us.length = tcs.length → (∀ tc ∈ tcs, (marshal tc.function.arguments).isSome) ∧
          (tcs ≠ [] → i ∉ c.toolCallsSent ∧
            i ∈ (StreamConverter.toolCalls marshal toolUseID i tcs c).2.toolCallsSent)) := by
  induction tcs generalizing i c with
  | nil => exact ⟨[], .nil, Nat.le_refl 0, fun _ => ⟨by simp, fun h => absurd rfl h⟩⟩
  | cons tc tcs ih =>
      obtain ⟨us, uses, short, full⟩ := ih (i + 1) (StreamConverter.toolCall marshal toolUseID i tc c).2
      have one : (useOf marshal toolUseID i tc c).length ≤ 1 := by
        rw [useOf]
        split
        · exact Nat.zero_le 1
        · cases marshal tc.function.arguments <;> simp
      refine ⟨_, (toolCall_uses marshal toolUseID i tc c).append uses, ?_, ?_⟩
      · rw [length_append, length_cons]
        omega
      intro whole
      rw [length_append, length_cons] at whole
      have exactly : (useOf marshal toolUseID i tc c).length = 1 := by omega
      obtain ⟨written, -⟩ := full (by omega)
      have new : i ∉ c.toolCallsSent := by
        intro sent
        rw [useOf, if_pos sent] at exactly
        exact Nat.zero_ne_one exactly
      have args : (marshal tc.function.arguments).isSome := by
        rw [useOf, if_neg new] at exactly
        cases h : marshal tc.function.arguments with
        | none => simp [h] at exactly
        | some argsJSON => rfl
      refine ⟨forall_mem_cons.mpr ⟨args, written⟩, fun _ => ⟨new, ?_⟩⟩
      exact toolCalls_sent marshal toolUseID (i + 1) tcs
        (StreamConverter.toolCall marshal toolUseID i tc c).2 i
        ((toolCall_sent marshal toolUseID i tc c i).mpr (Or.inr ⟨rfl, args⟩))

/-- Calls at positions that are all new are all delivered, and those without an identifier get
the next ones that are drawn. -/
theorem toolCalls_delivers (c : StreamConverter)
    (written : ∀ tc ∈ tcs, (marshal tc.function.arguments).isSome)
    (new : ∀ j, i ≤ j → j ∉ c.toolCallsSent ∧ c.toolCallIDs j = none) :
    ∃ us, Uses (StreamConverter.toolCalls marshal toolUseID i tcs c).1 us ∧
      List.Forall₂ (Delivers marshal) tcs us ∧
      ∃ m, generatedIDs tcs us = (List.range' c.drawn m).map toolUseID := by
  induction tcs generalizing i c with
  | nil => exact ⟨[], .nil, .nil, 0, rfl⟩
  | cons tc tcs ih =>
      obtain ⟨argsJSON, hm⟩ := Option.isSome_iff_exists.mp (written tc mem_cons_self)
      have use : useOf marshal toolUseID i tc c =
          [⟨(c.toolCallID toolUseID i tc).1, tc.function.name, argsJSON⟩] := by
        rw [useOf, if_neg (new i (Nat.le_refl i)).1, hm]
        rfl
      have one := toolCall_uses marshal toolUseID i tc c
      rw [use] at one
      have after : (StreamConverter.toolCall marshal toolUseID i tc c).2.drawn =
            (c.toolCallID toolUseID i tc).2.drawn ∧
          (StreamConverter.toolCall marshal toolUseID i tc c).2.toolCallIDs =
            (c.toolCallID toolUseID i tc).2.toolCallIDs := by
        rw [toolCall_new marshal toolUseID (new i (Nat.le_refl i)).1]
        simp only [Part.andThen, StreamConverter.addToolUse, hm, StreamConverter.closeText]
        split <;> exact ⟨rfl, rfl⟩
      have later : ∀ j, i + 1 ≤ j →
          j ∉ (StreamConverter.toolCall marshal toolUseID i tc c).2.toolCallsSent ∧
            (StreamConverter.toolCall marshal toolUseID i tc c).2.toolCallIDs j = none := by
        intro j hj
        have far : j ≠ i := by omega
        obtain ⟨notSent, noID⟩ := new j (by omega)
        refine ⟨?_, ?_⟩
        · rw [toolCall_sent]
          rintro (h | ⟨h, -⟩)
          · exact notSent h
          · exact far h
        rw [after.2, StreamConverter.toolCallID]
        split
        · rw [(new i (Nat.le_refl i)).2]
          exact (Function.update_of_ne far _ _).trans noID
        · exact noID
      obtain ⟨us, uses, delivered, m, drawn⟩ := ih (i + 1) _
        (fun tc' h => written tc' (mem_cons_of_mem _ h)) later
      refine ⟨_, one.append uses, ?_, ?_⟩
      · refine .cons ⟨rfl, hm, ?_⟩ delivered
        intro given
        rw [StreamConverter.toolCallID, if_neg given]
      rw [after.1] at drawn
      by_cases given : tc.id = []
      · have id : c.toolCallID toolUseID i tc = (toolUseID c.drawn, { c with
              toolCallIDs := Function.update c.toolCallIDs i (some (toolUseID c.drawn))
              drawn := c.drawn + 1 }) := by
          rw [StreamConverter.toolCallID, if_pos given, (new i (Nat.le_refl i)).2]
        rw [id] at drawn ⊢
        refine ⟨m + 1, ?_⟩
        rw [range'_succ, map_cons, ← drawn]
        simp [generatedIDs, given]
      · have id : (c.toolCallID toolUseID i tc).2 = c := by
          rw [StreamConverter.toolCallID, if_neg given]
        rw [id] at drawn
        refine ⟨m, ?_⟩
        rw [← drawn]
        simp [generatedIDs, given]

def callsView (c : StreamConverter) : List ℕ × (ℕ → Option Text) × ℕ :=
  (c.toolCallsSent, c.toolCallIDs, c.drawn)

theorem thinking_callsView : Keeps callsView (StreamConverter.thinking t : Part α) := by
  intro c
  rw [StreamConverter.thinking]
  split <;> rfl

theorem content_callsView : Keeps callsView (StreamConverter.content t : Part α) := by
  rw [StreamConverter.content]
  split
  · exact fun c => rfl
  · refine .andThen (fun c => ?_) fun c => rfl
    rw [StreamConverter.closeThinking]
    split <;> rfl

/-- The converter when the loop over the tool calls of `r` begins. -/
def beforeCalls (c : StreamConverter) (r : ChatResponse α) : StreamConverter :=
  (StreamConverter.content (α := α) r.message.content
    (StreamConverter.thinking (α := α) r.message.thinking (c.messageStart r).2).2).2

theorem beforeCalls_callsView (r : ChatResponse α) : callsView (beforeCalls c r) = callsView c := by
  have start : callsView (c.messageStart r).2 = callsView c := by
    rw [StreamConverter.messageStart]
    split <;> rfl
  rw [beforeCalls, content_callsView, thinking_callsView, start]

theorem process_callsView (r : ChatResponse α) : callsView (c.process marshal toolUseID r).2 =
      callsView (StreamConverter.toolCalls marshal toolUseID 0 r.message.toolCalls
        (beforeCalls c r)).2 := by
  have stop : ∀ d : StreamConverter, callsView (d.messageStop r).2 = callsView d := by
    intro d
    rw [StreamConverter.messageStop]
    split <;> rfl
  have last := closeLast_keeps (α := α) callsView r.done
  simp only [StreamConverter.process, stop]
  exact last _

theorem blocks_uses {c : StreamConverter} {r : ChatResponse α} {us : List ToolUse}
    (h : Uses (StreamConverter.toolCalls marshal toolUseID 0 r.message.toolCalls
      (beforeCalls c r)).1 us) :
    Uses (StreamConverter.blocks marshal toolUseID r (c.messageStart r).2).1 us := by
  have whole : Uses (StreamConverter.blocks marshal toolUseID r (c.messageStart r).2).1
      ([] ++ ([] ++ (us ++ []))) :=
    (thinking_uses r.message.thinking _).append
      ((content_uses r.message.content _).append (h.append (closeLast_uses r.done _)))
  rwa [nil_append, nil_append, append_nil] at whole

theorem blocks_noCalls {r : ChatResponse α} (none : r.message.toolCalls = []) :
    Uses (StreamConverter.blocks marshal toolUseID r (c.messageStart r).2).1 [] := by
  apply blocks_uses
  rw [none]
  exact .nil

/-- A stream with a block for each tool call: no response but one has tool calls. -/
theorem marksAll_full (rs : List (ChatResponse α)) :
    ∃ us, Uses (marksAll marshal toolUseID c rs) us ∧
      us.length ≤ (rs.flatMap (·.message.toolCalls)).length ∧
      (us.length = (rs.flatMap (·.message.toolCalls)).length → Marshalable marshal rs ∧
          (rs.filter fun r => !r.message.toolCalls.isEmpty).length ≤
            if 0 ∈ c.toolCallsSent then 0 else 1) := by
  induction rs generalizing c with
  | nil => exact ⟨[], .nil, Nat.le_refl 0, fun _ => ⟨by simp [Marshalable], Nat.zero_le _⟩⟩
  | cons r rs ih =>
      obtain ⟨us, uses, short, full⟩ :=
        toolCalls_uses marshal toolUseID 0 r.message.toolCalls (beforeCalls c r)
      obtain ⟨vs, later, short', full'⟩ := ih (c.process marshal toolUseID r).2
      have sent := congrArg Prod.fst (beforeCalls_callsView c r)
      have sent' := congrArg Prod.fst (process_callsView marshal toolUseID c r)
      simp only [callsView] at sent sent'
      refine ⟨us ++ vs, (blocks_uses marshal toolUseID uses).append later, ?_, ?_⟩
      · rw [flatMap_cons, length_append, length_append]
        exact Nat.add_le_add short short'
      intro whole
      rw [flatMap_cons, length_append, length_append] at whole
      obtain ⟨written, once⟩ := full (by omega)
      obtain ⟨written', rest⟩ := full' (by omega)
      refine ⟨forall_mem_cons.mpr ⟨written, written'⟩, ?_⟩
      rw [sent] at once
      rw [sent'] at rest
      by_cases none : r.message.toolCalls = []
      · rw [none] at rest
        simp only [StreamConverter.toolCalls, sent] at rest
        simpa [filter_cons, none] using rest
      obtain ⟨new, after⟩ := once none
      rw [if_pos after] at rest
      have some : (!r.message.toolCalls.isEmpty) = true := by simp [none]
      rw [filter_cons, if_pos some, length_cons, if_neg new]
      exact Nat.add_le_add_right rest 1

theorem marksAll_noCalls
    (none : ∀ r ∈ rs, r.message.toolCalls = []) : Uses (marksAll marshal toolUseID c rs) [] := by
  induction rs generalizing c with
  | nil => exact .nil
  | cons r rs ih =>
      exact (blocks_noCalls marshal toolUseID c (none r mem_cons_self)).append
        (ih _ fun r' h => none r' (mem_cons_of_mem _ h))

theorem marksAll_delivers (written : Marshalable marshal rs)
    (once : (rs.filter fun r => !r.message.toolCalls.isEmpty).length ≤ 1)
    (new : ∀ j, j ∉ c.toolCallsSent ∧ c.toolCallIDs j = none) :
    ∃ us, Uses (marksAll marshal toolUseID c rs) us ∧
      List.Forall₂ (Delivers marshal) (rs.flatMap (·.message.toolCalls)) us ∧
      ∃ m, generatedIDs (rs.flatMap (·.message.toolCalls)) us =
        (List.range' c.drawn m).map toolUseID := by
  induction rs generalizing c with
  | nil => exact ⟨[], .nil, .nil, 0, rfl⟩
  | cons r rs ih =>
      have before := beforeCalls_callsView c r
      simp only [callsView, Prod.mk.injEq] at before
      obtain ⟨sent, ids, drawn⟩ := before
      by_cases none : r.message.toolCalls = []
      · have after := process_callsView marshal toolUseID c r
        rw [none] at after
        simp only [callsView, StreamConverter.toolCalls, sent, ids, drawn, Prod.mk.injEq] at after
        obtain ⟨sent', ids', drawn'⟩ := after
        have later := ih (c.process marshal toolUseID r).2
          (fun r' h => written r' (mem_cons_of_mem _ h))
          (by simpa [filter_cons, none] using once) (by rw [sent', ids']; exact new)
        rw [drawn'] at later
        obtain ⟨us, uses, delivered⟩ := later
        rw [flatMap_cons, none, nil_append]
        exact ⟨us, (blocks_noCalls marshal toolUseID c none).append uses, delivered⟩
      · obtain ⟨us, uses, delivered, m, generated⟩ :=
          toolCalls_delivers marshal toolUseID 0 r.message.toolCalls (beforeCalls c r)
            (written r mem_cons_self)
            fun j _ => by rw [sent, ids]; exact new j
        have others : ∀ r' ∈ rs, r'.message.toolCalls = [] := by
          have rest : (rs.filter fun r => !r.message.toolCalls.isEmpty) = [] := by
            simpa [filter_cons, none] using once
          simpa using rest
        have noMore : rs.flatMap (·.message.toolCalls) = [] := flatMap_eq_nil_iff.mpr others
        rw [flatMap_cons, noMore, append_nil]
        refine ⟨us, ?_, delivered, m, by rw [generated, drawn]⟩
        have whole := (blocks_uses marshal toolUseID uses).append
          (marksAll_noCalls marshal toolUseID (c.process marshal toolUseID r).2 others)
        rwa [append_nil] at whole

/-- A tool call was sent exactly when there was one. -/
theorem processAll_sent (written : Marshalable marshal rs) :
    (c.processAll marshal toolUseID rs).2.toolCallsSent = [] ↔
      c.toolCallsSent = [] ∧ rs.flatMap (·.message.toolCalls) = [] := by
  induction rs generalizing c with
  | nil => simp [StreamConverter.processAll]
  | cons r rs ih =>
      have sent := congrArg Prod.fst (beforeCalls_callsView c r)
      have sent' := congrArg Prod.fst (process_callsView marshal toolUseID c r)
      simp only [callsView] at sent sent'
      show ((c.process marshal toolUseID r).2.processAll marshal toolUseID rs).2.toolCallsSent = [] ↔ _
      rw [ih _ fun r' h => written r' (mem_cons_of_mem _ h), flatMap_cons,
        append_eq_nil_iff, ← and_assoc]
      refine and_congr_left fun _ => ?_
      rw [sent']
      rcases htcs : r.message.toolCalls with - | ⟨tc, tcs⟩
      · simp [StreamConverter.toolCalls, sent]
      refine iff_of_false ?_ (by simp)
      have args := written r mem_cons_self tc (htcs ▸ mem_cons_self)
      have first := (toolCall_sent marshal toolUseID 0 tc (beforeCalls c r) 0).mpr
        (Or.inr ⟨rfl, args⟩)
      exact ne_nil_of_mem (toolCalls_sent marshal toolUseID 1 tcs _ 0 first)

/-! ## §4  Whole streams -/

variable (id model : Text)

/-- A stream with all thinking and a block for each tool call: nothing was dropped. -/
theorem kept_of_full (ends : DoneLast rs) (thinking : thinkingText (marksOf
        ((newStreamConverter id model).processAll marshal toolUseID rs).1) =
      rs.flatMap (·.message.thinking)) (full : (toolUses (marksOf
        ((newStreamConverter id model).processAll marshal toolUseID rs).1)).length =
      (rs.flatMap (·.message.toolCalls)).length) :
    ¬List.Sublist [.thinking, .text, .thinking] (kinds 0 rs) ∧
      (rs.filter fun r => !r.message.toolCalls.isEmpty).length ≤ 1 ∧ Marshalable marshal rs := by
  rw [marksOf_processAll marshal toolUseID ends] at thinking full
  obtain ⟨us, uses, -, whole⟩ := marksAll_full marshal toolUseID (newStreamConverter id model) rs
  rw [uses.eq] at full
  obtain ⟨written, once⟩ := whole full
  exact ⟨(thinkingText_iff marshal toolUseID (newStreamConverter id model) 0 rs).mp thinking,
    once, written⟩

theorem delivered_of_kept (ends : DoneLast rs)
    (order : ¬List.Sublist [.thinking, .text, .thinking] (kinds 0 rs))
    (once : (rs.filter fun r => !r.message.toolCalls.isEmpty).length ≤ 1)
    (written : Marshalable marshal rs) :
    Delivered marshal rs ((newStreamConverter id model).processAll marshal toolUseID rs).1
      (mapStopReason (rs.getLast?.getD {}).doneReason
        (!(rs.flatMap (·.message.toolCalls)).isEmpty)) := by
  have marks := marksOf_processAll marshal toolUseID ends (newStreamConverter id model)
  obtain ⟨us, uses, delivered, -⟩ :=
    marksAll_delivers marshal toolUseID (newStreamConverter id model) written once
      fun j => ⟨by simp [newStreamConverter], rfl⟩
  refine ⟨?_, ?_, ?_, ?_⟩
  · rw [marks]
    exact (thinkingText_iff marshal toolUseID (newStreamConverter id model) 0 rs).mpr order
  · rw [marks]
    exact marksAll_textText marshal toolUseID _ rs
  · rw [marks, uses.eq]
    exact delivered
  have sent := processAll_sent marshal toolUseID (newStreamConverter id model) written
  have same :
      ((newStreamConverter id model).processAll marshal toolUseID rs).2.toolCallsSent.isEmpty =
        (rs.flatMap (·.message.toolCalls)).isEmpty := by
    rw [Bool.eq_iff_iff, List.isEmpty_iff, List.isEmpty_iff, sent]
    simp [newStreamConverter]
  rw [stopReasons_processAll marshal toolUseID ends, same]

theorem generated_of_kept (ends : DoneLast rs) (neverRepeats : Function.Injective toolUseID)
    (once : (rs.filter fun r => !r.message.toolCalls.isEmpty).length ≤ 1)
    (written : Marshalable marshal rs) :
    (generatedIDs (rs.flatMap (·.message.toolCalls)) (toolUses (marksOf
      ((newStreamConverter id model).processAll marshal toolUseID rs).1))).Nodup := by
  obtain ⟨us, uses, -, m, generated⟩ :=
    marksAll_delivers marshal toolUseID (newStreamConverter id model) written once
      fun j => ⟨by simp [newStreamConverter], rfl⟩
  rw [marksOf_processAll marshal toolUseID ends, uses.eq, generated]
  exact (nodup_range' ..).map neverRepeats

theorem toMessagesResponse_stopReason (id : Text) (rs : List (ChatResponse α)) :
    (toMessagesResponse toolUseID id (aggregate true rs)).stopReason =
      mapStopReason (rs.getLast?.getD {}).doneReason
        (!(rs.flatMap (·.message.toolCalls)).isEmpty) := by
  simp only [toMessagesResponse, aggregate_toolCalls, aggregate_doneReason]

/-- **Nothing is lost** exactly when no thinking comes after text that came after thinking,
one response at most has tool calls, and their arguments can be written as JSON. -/
theorem stream_lossless (id model : Text) (rs : List (ChatResponse α)) (ends : DoneLast rs)
    (neverRepeats : Function.Injective toolUseID) :
    Lossless marshal rs ((newStreamConverter id model).processAll marshal toolUseID rs).1
        (toMessagesResponse toolUseID id (aggregate true rs)).stopReason ↔
      ¬List.Sublist [.thinking, .text, .thinking] (kinds 0 rs) ∧
        (rs.filter fun r => !r.message.toolCalls.isEmpty).length ≤ 1 ∧ Marshalable marshal rs := by
  constructor
  · intro whole
    exact kept_of_full marshal toolUseID id model ends whole.thinking whole.toolUses.length_eq.symm
  · rintro ⟨order, once, written⟩
    rw [toMessagesResponse_stopReason]
    exact ⟨delivered_of_kept marshal toolUseID id model ends order once written,
      generated_of_kept marshal toolUseID id model ends neverRepeats once written⟩

/-- Thinking, then two tool calls in one response. -/
theorem stream_lossless_together : Lossless (fun _ : Unit => some ['{', '}'])
      [{ message := { thinking := ['a'] } },
        { message := { toolCalls := [{ function := { name := ['f'], arguments := () } },
            { function := { name := ['g'], arguments := () } }] }
          done := true }]
      ((newStreamConverter [] []).processAll (fun _ : Unit => some ['{', '}'])
        (fun n => List.replicate n 'x')
        [{ message := { thinking := ['a'] } },
          { message := { toolCalls := [{ function := { name := ['f'], arguments := () } },
              { function := { name := ['g'], arguments := () } }] }
            done := true }]).1 "tool_use".toList :=
  (stream_lossless _ _ _ _ _ (.cons _ rfl (.last _ rfl))
    (replicate_left_injective 'x')).mpr ⟨by decide, by decide, fun _ _ _ _ => rfl⟩

/-- Of two tool calls in two responses the second is lost. -/
theorem stream_notLossless_apart : ¬Lossless (fun _ : Unit => some ['{', '}'])
      [{ message := { toolCalls := [{ function := { name := ['f'], arguments := () } }] } },
        { message := { toolCalls := [{ function := { name := ['g'], arguments := () } }] }
          done := true }]
      ((newStreamConverter [] []).processAll (fun _ : Unit => some ['{', '}'])
        (fun n => List.replicate n 'x')
        [{ message := { toolCalls := [{ function := { name := ['f'], arguments := () } }] } },
          { message := { toolCalls := [{ function := { name := ['g'], arguments := () } }] }
            done := true }]).1 "tool_use".toList := by
  intro whole
  have length := whole.toolUses.length_eq
  revert length
  decide

end Ollama.Anthropic
