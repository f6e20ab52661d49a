import Ollama.Parsers.Qwen3VL

/-!
# Chunks of qwen3-vl output

What the qwen3-vl parser returns does not depend on where a text is cut. All of a text is
returned exactly when it does not end in the beginning of a tag or inside a tool call.
-/

namespace Ollama.Parsers

open Lib List Qwen3VLParserState
open Api (ToolCall ToolCallFunction)

variable {α : Type}

/-! ## §1  The outline of a text -/

namespace Qwen3VLParserState

def awaited : Qwen3VLParserState → Text
  | .collectingThinkingContent => thinkingCloseTag
  | .collectingToolContent => toolCloseTag
  | _ => toolOpenTag

def next : Qwen3VLParserState → Qwen3VLParserState
  | .collectingThinkingContent => .collectingContent
  | .collectingToolContent => .collectingContent
  | _ => .collectingToolContent

def part : Qwen3VLParserState → Text → Qwen3VLEvent
  | .collectingThinkingContent, t => .thinkingContent t
  | .collectingToolContent, t => .rawToolCall t
  | _, t => .content t

theorem awaited_marked (s : Qwen3VLParserState) : Marked '<' s.awaited := by
  cases s <;> decide

theorem awaited_ne_nil (s : Qwen3VLParserState) : s.awaited ≠ [] := s.awaited_marked.ne_nil

end Qwen3VLParserState

open Qwen3VLParserState (awaited_marked awaited_ne_nil)

def nextPart (x : Qwen3VLParserState × Text) :
    List Qwen3VLEvent × (Qwen3VLParserState × Text) × Bool :=
  match cut x.2 x.1.awaited with
  | some (before, after) => ([x.1.part before], (x.1.next, after), true)
  | none => ([], x, false)

/-- The parts of a text that a tag ends, and what is after the last tag. -/
def outline (s : Qwen3VLParserState) (t : Text) :
    List Qwen3VLEvent × (Qwen3VLParserState × Text) :=
  drain nextPart (t.length + 1) (s, t)

example : outline .collectingThinkingContent "a</think>b<tool_call>c</tool_call>d".toList =
    ([.thinkingContent ['a'], .content ['b'], .rawToolCall ['c']],
      (.collectingContent, ['d'])) := by
  decide +kernel

def outside : List Qwen3VLEvent → Text → Text
  | [], rest => rest
  | .rawToolCall _ :: parts, rest => outside parts rest
  | .thinkingContent t :: parts, rest => t ++ outside parts rest
  | .content t :: parts, rest => t ++ outside parts rest

section Outline

variable {s : Qwen3VLParserState} {t b a w : Text}

theorem nextPart_shorter (x : Qwen3VLParserState × Text) (h : (nextPart x).2.2 = true) :
    (nextPart x).2.1.2.length < x.2.length := by
  unfold nextPart at h ⊢
  cases hcut : cut x.2 x.1.awaited with
  | none =>
    rw [hcut] at h
    cases h
  | some y =>
    have hlen := cut_length (awaited_ne_nil x.1) hcut
    have hpos := length_pos_iff.mpr (awaited_ne_nil x.1)
    dsimp only
    omega

theorem outline_tag (h : cut t s.awaited = some (b, a)) :
    outline s t = (s.part b :: (outline s.next a).1, (outline s.next a).2) := by
  have hpart : nextPart (s, t) = ([s.part b], (s.next, a), true) := by
    unfold nextPart
    rw [h]
  have hmore : (nextPart (s, t)).2.2 = true := by rw [hpart]
  have hlt := nextPart_shorter (s, t) hmore
  unfold outline
  rw [drain_more hmore, drain_enough (fun x => x.2.length) nextPart_shorter _ _ hlt, hpart]
  rfl

theorem outline_rest (h : cut t s.awaited = none) : outline s t = ([], (s, t)) := by
  have hpart : nextPart (s, t) = ([], (s, t), false) := by
    unfold nextPart
    rw [h]
  have hlast : (nextPart (s, t)).2.2 = false := by rw [hpart]
  unfold outline
  rw [drain_last hlast, hpart]

/-- **Outlines.** What holds of a text without the tag awaited, and of a text with one when it
holds of what is after it, holds of every text. -/
theorem outline_rule {P : Qwen3VLParserState → Text → Prop}
    (rest : ∀ s t, cut t s.awaited = none → P s t)
    (tag : ∀ s t b a, cut t s.awaited = some (b, a) → P s.next a → P s t)
    (s : Qwen3VLParserState) (t : Text) : P s t := by
  induction hn : t.length using Nat.strong_induction_on generalizing s t with
  | h n ih =>
    cases hcut : cut t s.awaited with
    | none => exact rest s t hcut
    | some x =>
      have hlen := cut_length (awaited_ne_nil s) hcut
      have hpos := length_pos_iff.mpr (awaited_ne_nil s)
      exact tag s t x.1 x.2 hcut (ih x.2.length (by omega) _ _ rfl)

end Outline

/-! ## §2  Readings -/

namespace Qwen3VLParser

def returned : List Qwen3VLEvent → Response Text
  | [] => .none
  | .rawToolCall raw :: events => .ofCall raw ++ returned events
  | .thinkingContent content :: events => .ofThinking content ++ returned events
  | .content content :: events => .ofContent content ++ returned events

def heldLen (s : Qwen3VLParserState) (t : Text) : ℕ :=
  if s = .collectingToolContent then t.length else overlap t s.awaited

def settled (s : Qwen3VLParserState) (t : Text) : Response Text :=
  match s with
  | .collectingToolContent => .none
  | _ => returned [s.part (t.take (t.length - heldLen s t))]

def held (s : Qwen3VLParserState) (t : Text) : Text := visible (t.drop (t.length - heldLen s t))

def reading (s : Qwen3VLParserState) (t : Text) : Reading Text :=
  let o := outline s t
  (returned o.1).before ⟨settled o.2.1 o.2.2, held o.2.1 o.2.2⟩

variable {s : Qwen3VLParserState} {t b a w d y : Text}

theorem returned_append (es es' : List Qwen3VLEvent) :
    returned (es ++ es') = returned es ++ returned es' := by
  induction es with
  | nil => rfl
  | cons e es ih =>
    cases e <;> simp only [cons_append, returned, ih, Response.append_assoc]

theorem returned_err (es : List Qwen3VLEvent) : (returned es).err = none := by
  induction es with
  | nil => rfl
  | cons e es ih => cases e <;> exact ih

theorem returned_before (es es' : List Qwen3VLEvent) (r : Reading Text) :
    (returned (es ++ es')).before r = (returned es).before ((returned es').before r) := by
  rw [returned_append, Response.before_of_none (returned_err es),
    Response.before_of_none (returned_err es'), ← returned_append,
    Response.before_of_none (returned_err _), returned_append, Response.append_assoc]

theorem returned_contentEvent (c : Text) : returned (contentEvent c) = .ofContent c := by
  unfold contentEvent
  split
  · next h =>
    rw [h]
    rfl
  · exact Response.append_none _

theorem returned_thinkingEvent (c : Text) : returned (thinkingEvent c) = .ofThinking c := by
  unfold thinkingEvent
  split
  · next h =>
    rw [h]
    rfl
  · exact Response.append_none _

theorem reading_tag (h : cut t s.awaited = some (b, a)) :
    reading s t = (returned [s.part b]).before (reading s.next a) := by
  unfold reading
  rw [outline_tag h]
  exact returned_before [s.part b] _ _

theorem reading_rest (h : cut t s.awaited = none) : reading s t = ⟨settled s t, held s t⟩ := by
  unfold reading
  rw [outline_rest h]
  rfl

theorem reading_eating (hs : s = .thinkingDoneEatingWhitespace ∨ s = .toolCallDoneEatingWhitespace)
    (t : Text) : reading s t = reading .collectingContent t := by
  cases hcut : cut t toolOpenTag with
  | some x =>
    rw [reading_tag (s := .collectingContent) hcut]
    rcases hs with rfl | rfl <;> exact reading_tag hcut
  | none =>
    rw [reading_rest (s := .collectingContent) hcut]
    rcases hs with rfl | rfl <;> exact reading_rest hcut

/-- White space before content is not seen. -/
theorem reading_blank (hw : Blank w) (t : Text) :
    reading .collectingContent (w ++ t) = reading .collectingContent t := by
  have hcut : cut (w ++ t) toolOpenTag = _ := cut_blank (by decide) hw t
  have hsee : ∀ x, Response.ofContent (τ := Text) (w ++ x) = .ofContent x := by
    intro x
    rw [Response.ofContent_append, Response.ofContent_of_blank hw, Response.none_append]
  cases h : cut t toolOpenTag with
  | some x =>
    rw [h] at hcut
    rw [reading_tag (s := .collectingContent) hcut, reading_tag (s := .collectingContent) h]
    simp only [part, returned, hsee]
  | none =>
    rw [h] at hcut
    have hov : overlap (w ++ t) toolOpenTag = overlap t toolOpenTag := overlap_blank (by decide) hw t
    have hle := overlap_le_left t toolOpenTag
    have hlen : (w ++ t).length - overlap t toolOpenTag =
        w.length + (t.length - overlap t toolOpenTag) := by
      rw [length_append]
      omega
    have hheld : ∀ x, heldLen .collectingContent x = overlap x toolOpenTag := fun _ => rfl
    rw [reading_rest (s := .collectingContent) hcut, reading_rest (s := .collectingContent) h]
    simp only [settled, held, part, returned, hheld, hov, hlen,
      take_length_add_append, drop_length_add_append, hsee]

theorem reading_trimLeft (t : Text) :
    reading .collectingContent (trimLeft t) = reading .collectingContent t := by
  obtain ⟨w, hw, ht⟩ := trimLeft_spec t
  conv_rhs => rw [ht]
  exact (reading_blank hw _).symm

/-- A beginning of the text in which no tag begins, when the rest is held back. -/
theorem reading_prepend (hs : s = .collectingContent ∨ s = .collectingThinkingContent)
    (h : cut (d ++ y) s.awaited = none) (hov : overlap (d ++ y) s.awaited ≤ y.length) (u : Text) :
    reading s (d ++ (y ++ u)) = (returned [s.part d]).before (reading s (y ++ u)) := by
  have hcut := cut_held (awaited_ne_nil s) h hov u
  have hsee : ∀ x, returned [s.part (d ++ x)] = returned [s.part d] ++ returned [s.part x] := by
    intro x
    rcases hs with rfl | rfl
    · simp only [part, returned, Response.append_none, Response.ofContent_append]
    · simp only [part, returned, Response.append_none, Response.ofThinking_append]
  have hheld : ∀ x, heldLen s x = overlap x s.awaited := by
    intro x
    rcases hs with rfl | rfl <;> rfl
  have hsettled : ∀ x, settled s x = returned [s.part (x.take (x.length - heldLen s x))] := by
    intro x
    rcases hs with rfl | rfl <;> rfl
  cases h' : cut (y ++ u) s.awaited with
  | some x =>
    rw [h'] at hcut
    rw [reading_tag hcut, reading_tag h', hsee, ← returned_append, returned_before]
  | none =>
    rw [h'] at hcut
    have hlen : (d ++ (y ++ u)).length - overlap (y ++ u) s.awaited =
        d.length + ((y ++ u).length - overlap (y ++ u) s.awaited) := by
      have := overlap_le_left (y ++ u) s.awaited
      rw [length_append]
      omega
    rw [reading_rest hcut, reading_rest h', Response.before_of_none (returned_err _), hsettled,
      hsettled, held, held, hheld, hheld, overlap_held hov, hlen, take_length_add_append,
      drop_length_add_append, hsee]

/-! ## §3  One turn -/

variable {p : Qwen3VLParser}

/-- What is held back is cut off where no tag can begin. -/
theorem reading_ambiguous (hs : s = .collectingContent ∨ s = .collectingThinkingContent)
    (h : cut t s.awaited = none) (u : Text) :
    reading s (t ++ u) =
      (returned [s.part (t.take (ambiguousStart t (overlap t s.awaited)))]).before
        (reading s (t.drop (ambiguousStart t (overlap t s.awaited)) ++ u)) := by
  obtain ⟨w, x, -, hx, -, hdrop⟩ := ambiguousStart_spec (overlap_le_left t s.awaited)
  have hov : overlap t s.awaited ≤ (t.drop (ambiguousStart t (overlap t s.awaited))).length := by
    rw [hdrop, length_append, hx]
    exact Nat.le_add_left _ _
  have ht := (take_append_drop (ambiguousStart t (overlap t s.awaited)) t).symm
  generalize t.take (ambiguousStart t (overlap t s.awaited)) = d at ht ⊢
  generalize t.drop (ambiguousStart t (overlap t s.awaited)) = y at *
  subst ht
  rw [append_assoc]
  exact reading_prepend hs h hov u

theorem eatLeadingWhitespace_reading (p : Qwen3VLParser) (hp : eating p = true) (u : Text) :
    reading p.state (p.buffer ++ u) =
      (returned (eatLeadingWhitespaceAndTransitionTo .collectingContent p).1).before
        (reading (eatLeadingWhitespaceAndTransitionTo .collectingContent p).2.1.state
          ((eatLeadingWhitespaceAndTransitionTo .collectingContent p).2.1.buffer ++ u)) := by
  have hs := of_decide_eq_true hp
  rw [reading_eating hs]
  unfold eatLeadingWhitespaceAndTransitionTo
  dsimp only
  split
  · next hnil =>
    rw [reading_blank (trimLeft_eq_nil.mp hnil)]
    exact (reading_eating hs u).symm
  · next hne =>
    rw [← reading_trimLeft, trimLeft_append_of_ne hne]
    rfl

/-- What one turn returns comes before the reading of what it leaves in the buffer with the text
that follows. -/
theorem eat_reading (p : Qwen3VLParser) (u : Text) :
    reading p.state (p.buffer ++ u) = (returned (eat p).1).before
      (reading (eat p).2.1.state ((eat p).2.1.buffer ++ u)) := by
  unfold eat
  cases hp : p.state with
  | collectingContent =>
    unfold eatContent
    cases hcut : cut p.buffer toolOpenTag with
    | some x =>
      rw [reading_tag (s := .collectingContent) (cut_append (by decide) hcut u)]
      rw [returned_contentEvent, Response.ofContent_congr (visible_trimRight x.1)]
      simp only [part, returned, Response.append_none, Qwen3VLParserState.next]
    | none =>
      have h := reading_ambiguous (s := .collectingContent) (.inl rfl) hcut u
      simp only [part, returned, Response.append_none] at h
      rw [returned_contentEvent, hp]
      exact h
  | collectingToolContent =>
    unfold eatToolContent
    cases hcut : cut p.buffer toolCloseTag with
    | some x =>
      rw [reading_tag (s := .collectingToolContent) (cut_append (by decide) hcut u)]
      rw [reading_eating (.inr rfl)]
      rfl
    | none =>
      rw [hp]
      rfl
  | collectingThinkingContent =>
    unfold eatThinkingContent
    cases hcut : cut p.buffer thinkingCloseTag with
    | some x =>
      rw [reading_tag (s := .collectingThinkingContent) (cut_append (by decide) hcut u)]
      rw [returned_thinkingEvent, Response.ofThinking_congr (visible_trimRight x.1)]
      simp only [part, returned, Response.append_none, Qwen3VLParserState.next]
      congr 1
      -- the text after the tag is trimmed, whether or not the chunk ends with it
      have hstate : ∀ v, reading (if trimLeft x.2 = [] then .thinkingDoneEatingWhitespace
          else .collectingContent) v = reading .collectingContent v := by
        intro v
        split
        · exact reading_eating (.inl rfl) v
        · rfl
      obtain ⟨w, hw, hx⟩ := trimLeft_spec x.2
      rw [hstate]
      conv_lhs => rw [hx, append_assoc]
      exact reading_blank hw _
    | none =>
      have h := reading_ambiguous (s := .collectingThinkingContent) (.inr rfl) hcut u
      simp only [part, returned, Response.append_none] at h
      rw [returned_thinkingEvent, hp]
      exact h
  | thinkingDoneEatingWhitespace =>
    dsimp only
    rw [← hp]
    exact eatLeadingWhitespace_reading p (decide_eq_true (.inl hp)) u
  | toolCallDoneEatingWhitespace =>
    dsimp only
    rw [← hp]
    exact eatLeadingWhitespace_reading p (decide_eq_true (.inr hp)) u

/-- **More text.** What the turns return comes before the reading of what they leave in the
buffer with the text that follows. -/
theorem parseEvents_reading (p : Qwen3VLParser) (u : Text) :
    reading p.state (p.buffer ++ u) = (returned (parseEvents p).1).before
      (reading (parseEvents p).2.state ((parseEvents p).2.buffer ++ u)) := by
  refine drain_rule turns (fun _ h => eat_turns h)
    (P := fun p es p' => reading p.state (p.buffer ++ u) =
      (returned es).before (reading p'.state (p'.buffer ++ u)))
    (fun p _ => eat_reading p u) (fun p es p' _ ih => ?_) _ p (Nat.lt_succ_self _)
  rw [returned_before, ← ih]
  exact eat_reading p u

/-- What is held back is held back again. -/
theorem reading_drop (hs : s = .collectingContent ∨ s = .collectingThinkingContent)
    (h : cut t s.awaited = none) :
    reading s (t.drop (ambiguousStart t (overlap t s.awaited))) =
      ⟨.none, visible (t.drop (ambiguousStart t (overlap t s.awaited)))⟩ := by
  obtain ⟨w, x, hw, hx, -, hdrop⟩ := ambiguousStart_spec (overlap_le_left t s.awaited)
  have hnone : cut (w ++ x) s.awaited = none :=
    cut_none_of_suffix (awaited_ne_nil s) h (hdrop ▸ drop_suffix _ t)
  have hov : overlap (w ++ x) s.awaited = x.length := by
    have ht : t = t.take (ambiguousStart t (overlap t s.awaited)) ++ (w ++ x) := by
      rw [← hdrop, take_append_drop]
    have hheld := overlap_held (t := s.awaited)
      (d := t.take (ambiguousStart t (overlap t s.awaited))) (a := w ++ x) (by
        rw [← ht, length_append]
        omega) []
    rw [append_nil, ← ht] at hheld
    omega
  rw [hdrop, reading_rest hnone, visible_append, visible_eq_nil.mpr hw]
  rcases hs with rfl | rfl
  all_goals
    simp only [settled, held, heldLen, reduceCtorEq, if_false, hov, length_append,
      Nat.add_sub_cancel, take_left, drop_left, part, returned,
      Response.ofContent_of_blank hw, Response.ofThinking_of_blank hw, Response.append_none,
      nil_append]

theorem reading_nil (s : Qwen3VLParserState) : reading s [] = ⟨.none, []⟩ := by
  cases s <;> rfl

/-- What one turn leaves in the buffer before the loop ends stays there. -/
theorem eat_settled (p : Qwen3VLParser) (h : (eat p).2.2 = false) :
    reading (eat p).2.1.state (eat p).2.1.buffer = ⟨.none, visible (eat p).2.1.buffer⟩ := by
  unfold eat at h ⊢
  cases hp : p.state with
  | collectingContent =>
    rw [hp] at h
    unfold eatContent at h ⊢
    cases hcut : cut p.buffer toolOpenTag with
    | some x =>
      rw [hcut] at h
      cases h
    | none =>
      rw [hp]
      exact reading_drop (s := .collectingContent) (.inl rfl) hcut
  | collectingToolContent =>
    rw [hp] at h
    unfold eatToolContent at h ⊢
    cases hcut : cut p.buffer toolCloseTag with
    | some x =>
      rw [hcut] at h
      cases h
    | none =>
      rw [hp, reading_rest (s := .collectingToolContent) hcut, held, heldLen, if_pos rfl,
        Nat.sub_self, drop_zero]
      rfl
  | collectingThinkingContent =>
    rw [hp] at h
    unfold eatThinkingContent at h ⊢
    cases hcut : cut p.buffer thinkingCloseTag with
    | some x =>
      rw [hcut] at h
      cases h
    | none =>
      rw [hp]
      exact reading_drop (s := .collectingThinkingContent) (.inr rfl) hcut
  | thinkingDoneEatingWhitespace | toolCallDoneEatingWhitespace =>
    rw [hp] at h
    unfold eatLeadingWhitespaceAndTransitionTo at h ⊢
    dsimp only at h ⊢
    split at h
    · next hnil =>
      rw [if_pos hnil]
      exact reading_nil _
    · cases h

theorem parseEvents_settled (p : Qwen3VLParser) :
    reading (parseEvents p).2.state (parseEvents p).2.buffer =
      ⟨.none, visible (parseEvents p).2.buffer⟩ :=
  drain_rule turns (fun _ h => eat_turns h)
    (P := fun _ _ p' => reading p'.state p'.buffer = ⟨.none, visible p'.buffer⟩)
    eat_settled (fun _ _ _ _ h => h) _ p (Nat.lt_succ_self _)

/-! ## §4  Runs -/

variable {unmarshal : Text → Except Error (ToolCallFunction α)}

/-- The tool calls are decoded. -/
def Decodable (unmarshal : Text → Except Error (ToolCallFunction α)) (raws : List Text) : Prop :=
  ∀ raw ∈ raws, ∃ toolCallFunction, unmarshal raw = .ok toolCallFunction

/-- The answer when its tool calls are decoded. -/
def decoded (unmarshal : Text → Except Error (ToolCallFunction α)) (r : Response Text) :
    Response (ToolCall α) :=
  { content := r.content
    thinking := r.thinking
    calls := okCalls (parseJSONToolCall unmarshal) r.calls
    err := none }

theorem Decodable.allRead {raws : List Text} (h : Decodable unmarshal raws) :
    AllRead (parseJSONToolCall unmarshal) raws (okCalls (parseJSONToolCall unmarshal) raws) := by
  induction raws with
  | nil => exact .nil
  | cons raw raws ih =>
    obtain ⟨toolCallFunction, hraw⟩ := h raw mem_cons_self
    have hcall : parseJSONToolCall unmarshal raw = .ok { function := toolCallFunction } := by
      rw [parseJSONToolCall, hraw]
      rfl
    rw [okCalls, hcall]
    exact .cons hcall (ih fun r hr => h r (mem_cons_of_mem raw hr))

theorem decoded_append {r r' : Response Text} (h : Decodable unmarshal r.calls) :
    decoded unmarshal (r ++ r') = decoded unmarshal r ++ decoded unmarshal r' :=
  Response.ext' rfl rfl (okCalls_append h.allRead _) rfl

/-- Events with decodable tool calls are returned. -/
theorem collect_decodable {es : List Qwen3VLEvent} (h : Decodable unmarshal (returned es).calls) :
    ∃ r, collect unmarshal es = .ok r ∧ r.seen = decoded unmarshal (returned es) := by
  induction es with
  | nil => exact ⟨.none, rfl, rfl⟩
  | cons e es ih =>
    cases e with
    | rawToolCall raw =>
      obtain ⟨toolCallFunction, hraw⟩ := h raw mem_cons_self
      obtain ⟨r, hr, hseen⟩ := ih fun x hx => h x (mem_cons_of_mem raw hx)
      have hcall : parseJSONToolCall unmarshal raw = .ok { function := toolCallFunction } := by
        rw [parseJSONToolCall, hraw]
        rfl
      refine ⟨⟨[], [], [{ function := toolCallFunction }], none⟩ ++ r, ?_, ?_⟩
      · rw [collect, hcall, hr]
        rfl
      · rw [Response.seen_append, hseen]
        refine Response.ext' rfl rfl ?_ rfl
        show _ = okCalls _ (raw :: (returned es).calls)
        rw [okCalls, hcall]
        rfl
    | thinkingContent c =>
      obtain ⟨r, hr, hseen⟩ := ih h
      refine ⟨⟨[], c, [], none⟩ ++ r, ?_, ?_⟩
      · rw [collect, hr]
        rfl
      · rw [Response.seen_append, hseen]
        rfl
    | content c =>
      obtain ⟨r, hr, hseen⟩ := ih h
      refine ⟨⟨c, [], [], none⟩ ++ r, ?_, ?_⟩
      · rw [collect, hr]
        rfl
      · rw [Response.seen_append, hseen]
        rfl

/-- **Add.** A chunk of a text with decodable tool calls: what is returned comes before the
reading of what stays in the buffer with the text that follows. -/
theorem add_reading (p : Qwen3VLParser) (c : Text) (done : Bool) (u : Text)
    (h : Decodable unmarshal (reading p.state (p.buffer ++ (c ++ u))).response.calls) :
    ∃ r : Response Text, r.err = none ∧ (add unmarshal c done p).1.err = none ∧
      Decodable unmarshal r.calls ∧
      (add unmarshal c done p).1.seen = decoded unmarshal r ∧
      reading p.state (p.buffer ++ (c ++ u)) = r.before
        (reading (add unmarshal c done p).2.state ((add unmarshal c done p).2.buffer ++ u)) := by
  have hread := parseEvents_reading { p with buffer := p.buffer ++ c } u
  rw [append_assoc] at hread
  have hcalls : Decodable unmarshal
      (returned (parseEvents { p with buffer := p.buffer ++ c }).1).calls := by
    intro raw hraw
    refine h raw ?_
    rw [hread, Response.before_of_none (returned_err _)]
    exact mem_append_left _ hraw
  obtain ⟨r, hr, hseen⟩ := collect_decodable hcalls
  have hadd : (add unmarshal c done p).1 = r := by
    unfold add
    dsimp only
    rw [hr]
  refine ⟨_, returned_err _, ?_, hcalls, ?_, hread⟩
  · have herr := congrArg Response.err hseen
    rw [hadd]
    exact herr
  · rw [hadd, hseen]

def Returns (unmarshal : Text → Except Error (ToolCallFunction α)) (p : Qwen3VLParser) (t : Text)
    (rs : List (Response (ToolCall α))) (p' : Qwen3VLParser) : Prop :=
  (Response.all rs).seen = decoded unmarshal (reading p.state (p.buffer ++ t)).response ∧
    visible p'.buffer = (reading p.state (p.buffer ++ t)).pending

/-- **Runs.** However a text with decodable tool calls is cut, its reading is returned, and what
the reading holds back stays in the buffer. -/
theorem stream_reading (chunks : List Text) (p : Qwen3VLParser) (hne : chunks ≠ [])
    (h : Decodable unmarshal (reading p.state (p.buffer ++ chunks.flatten)).response.calls) :
    Returns unmarshal p chunks.flatten (stream (add unmarshal) p chunks).1
      (stream (add unmarshal) p chunks).2 := by
  refine feed_rule (P := Returns unmarshal)
    (G := fun p t => Decodable unmarshal (reading p.state (p.buffer ++ t)).response.calls)
    ?_ ?_ ?_ chunks p hne h
  · intro p c h
    rw [← append_nil c] at h
    obtain ⟨r, hr, -, -, hseen, hread⟩ := add_reading p c true [] h
    have hlast : reading (add unmarshal c true p).2.state (add unmarshal c true p).2.buffer =
        ⟨.none, visible (add unmarshal c true p).2.buffer⟩ :=
      parseEvents_settled { p with buffer := p.buffer ++ c }
    rw [append_nil, append_nil, hlast, Response.before_of_none hr, Response.append_none] at hread
    constructor
    · rw [Response.all_cons, Response.all_nil, Response.append_none, hread]
      exact hseen
    · rw [hread]
  · intro p c t h herr
    obtain ⟨r, -, hnone, -⟩ := add_reading p c false t h
    rw [hnone] at herr
    cases herr
  intro p c t h _
  obtain ⟨r, hr, -, hcalls, hseen, hread⟩ := add_reading p c false t h
  rw [Response.before_of_none hr] at hread
  rw [hread] at h
  refine ⟨fun raw hraw => h raw (mem_append_right _ hraw), fun os s' hos => ⟨?_, ?_⟩⟩
  · rw [Response.all_cons, Response.seen_append, hseen, hos.1, hread]
    exact (decoded_append hcalls).symm
  · rw [hread]
    exact hos.2

theorem calls_returned (es : List Qwen3VLEvent) : (returned es).calls = raws es := by
  induction es with
  | nil => rfl
  | cons e es ih =>
    cases e with
    | rawToolCall raw => exact congrArg (raw :: ·) ih
    | _ => exact ih

theorem settled_calls (s : Qwen3VLParserState) (t : Text) : (settled s t).calls = [] := by
  cases s <;> rfl

theorem reading_calls (s : Qwen3VLParserState) (t : Text) :
    (reading s t).response.calls = raws (outline s t).1 := by
  unfold reading
  rw [Response.before_of_none (returned_err _), Response.calls_append, calls_returned,
    settled_calls, append_nil]

/-- **Chunks.** Where a text is cut makes no difference. -/
theorem outcome_flatten (p : Qwen3VLParser) (chunks : List Text) (hne : chunks ≠ [])
    (h : Decodable unmarshal (reading p.state (p.buffer ++ chunks.flatten)).response.calls) :
    outcome (add unmarshal) p chunks = outcome (add unmarshal) p [chunks.flatten] := by
  have hone : [chunks.flatten].flatten = chunks.flatten := append_nil _
  have hsingle := stream_reading [chunks.flatten] p (cons_ne_nil _ _) (by rwa [hone])
  rw [hone] at hsingle
  exact (stream_reading chunks p hne h).1.trans hsingle.1.symm

/-! ## §5  What is lost -/

/-- However a text is cut, the answers are those of one call of `Add`, all that is visible
outside tags and complete tool calls is in them, and nothing visible stays in the buffer. -/
def LosesNothing (unmarshal : Text → Except Error (ToolCallFunction α)) (p : Qwen3VLParser)
    (t : Text) : Prop :=
  ∀ chunks : List Text, chunks ≠ [] → chunks.flatten = t →
    outcome (add unmarshal) p chunks = outcome (add unmarshal) p [t] ∧
      (outcome (add unmarshal) p chunks).thinking ++ (outcome (add unmarshal) p chunks).content =
        visible (outside (outline p.state t).1 (outline p.state t).2.2) ∧
      Blank (stream (add unmarshal) p chunks).2.buffer

/-- What is after the last tag, when it can be returned: it is not the body of a tool call, and
no beginning of the tag awaited is an end of it. -/
def Finished (x : Qwen3VLParserState × Text) : Prop :=
  match x.1 with
  | .collectingToolContent => Blank x.2
  | s => ∀ u, u <+: s.awaited → u <:+ x.2 → u = []

theorem held_eq_nil (x : Qwen3VLParserState × Text) : held x.1 x.2 = [] ↔ Finished x := by
  obtain ⟨s, t⟩ := x
  have hopen : s ≠ .collectingToolContent →
      (held s t = [] ↔ ∀ u, u <+: s.awaited → u <:+ t → u = []) := by
    intro hs
    have hmark := awaited_marked s
    rw [held, heldLen, if_neg hs, drop_overlap, visible_eq_nil, ← overlap_eq_zero_iff]
    constructor
    · intro hblank
      by_contra hpos
      have hget : (s.awaited.take (overlap t s.awaited))[0]? = some '<' := by
        rw [getElem?_take_of_lt (Nat.pos_of_ne_zero hpos), hmark.getElem?_zero]
      exact absurd (hblank _ (mem_of_getElem? hget)) (by decide)
    · intro hzero
      rw [hzero, take_zero]
      exact nofun
  cases s with
  | collectingToolContent =>
    rw [held, heldLen, if_pos rfl, Nat.sub_self, drop_zero, visible_eq_nil]
    rfl
  | collectingThinkingContent => exact hopen nofun
  | collectingContent => exact hopen nofun
  | thinkingDoneEatingWhitespace => exact hopen nofun
  | toolCallDoneEatingWhitespace => exact hopen nofun

instance (x : Qwen3VLParserState × Text) : Decidable (Finished x) :=
  decidable_of_iff _ (held_eq_nil x)

theorem reading_pending (s : Qwen3VLParserState) (t : Text) :
    (reading s t).pending = held (outline s t).2.1 (outline s t).2.2 := by
  unfold reading
  rw [Response.before_of_none (returned_err _)]

/-- Content is not followed by thinking. -/
theorem reading_thinking (s : Qwen3VLParserState) (t : Text) :
    s ≠ .collectingThinkingContent → (reading s t).response.thinking = [] := by
  refine outline_rule (P := fun s t => s ≠ .collectingThinkingContent →
    (reading s t).response.thinking = []) (fun s t h hs => ?_) (fun s t b a h ih hs => ?_) s t
  · rw [reading_rest h]
    cases s with
    | collectingThinkingContent => exact absurd rfl hs
    | _ => rfl
  · rw [reading_tag h, Response.before_of_none (returned_err _), Response.thinking_append]
    cases s with
    | collectingThinkingContent => exact absurd rfl hs
    | _ => exact ih nofun

/-- All that is visible outside tags and complete tool calls is returned or held back. -/
theorem reading_outside (s : Qwen3VLParserState) (t : Text) :
    (reading s t).response.thinking ++ (reading s t).response.content ++ (reading s t).pending =
      visible (outside (outline s t).1 (outline s t).2.2) := by
  refine outline_rule (P := fun s t =>
    (reading s t).response.thinking ++ (reading s t).response.content ++ (reading s t).pending =
      visible (outside (outline s t).1 (outline s t).2.2))
    (fun s t h => ?_) (fun s t b a h ih => ?_) s t
  · have hsplit : visible (t.take (t.length - heldLen s t)) ++ held s t = visible t := by
      rw [held, ← visible_append, take_append_drop]
    have hbody : held .collectingToolContent t = visible t := by
      rw [held, heldLen, if_pos rfl, Nat.sub_self, drop_zero]
    rw [reading_rest h, outline_rest h]
    cases s with
    | collectingToolContent => exact hbody
    | collectingThinkingContent =>
      refine Eq.trans ?_ hsplit
      simp [settled, part, returned, Response.ofThinking, Response.none]
    | _ =>
      refine Eq.trans ?_ hsplit
      simp [settled, part, returned, Response.ofContent, Response.none]
  · have hrest := reading_thinking s.next a (by cases s <;> decide)
    rw [hrest, nil_append] at ih
    rw [reading_tag h, outline_tag h, Response.before_of_none (returned_err _),
      Response.thinking_append, Response.content_append, hrest, append_nil]
    cases s with
    | collectingToolContent => exact ih
    | collectingThinkingContent =>
      show visible b ++ [] ++ ([] ++ (reading .collectingContent a).response.content) ++
        (reading .collectingContent a).pending = visible (b ++ outside _ _)
      rw [visible_append, append_nil, nil_append, append_assoc]
      exact congrArg (visible b ++ ·) ih
    | _ =>
      show [] ++ (visible b ++ [] ++ (reading .collectingToolContent a).response.content) ++
        (reading .collectingToolContent a).pending = visible (b ++ outside _ _)
      rw [visible_append, append_nil, nil_append, append_assoc]
      exact congrArg (visible b ++ ·) ih

/-- Nothing of a text is lost exactly when it does not end in the beginning of the tag that ends
what is collected, and not inside a tool call. -/
theorem losesNothing_iff (unmarshal : Text → Except Error (ToolCallFunction α))
    (hasThinkingSupport prefilled : Bool) (t : Text)
    (h : Decodable unmarshal (raws (outline (init hasThinkingSupport prefilled).state t).1)) :
    LosesNothing unmarshal (init hasThinkingSupport prefilled) t ↔
      Finished (outline (init hasThinkingSupport prefilled).state t).2 := by
  have hread : ∀ chunks : List Text, chunks.flatten = t →
      Decodable unmarshal (reading (init hasThinkingSupport prefilled).state
        ((init hasThinkingSupport prefilled).buffer ++ chunks.flatten)).response.calls := by
    intro chunks ht
    rw [reading_calls, ht]
    exact h
  rw [← held_eq_nil, ← reading_pending]
  constructor
  · intro hloses
    obtain ⟨-, -, hblank⟩ := hloses [t] (cons_ne_nil _ _) (append_nil t)
    have hbuffer := (stream_reading [t] _ (cons_ne_nil _ _) (hread [t] (append_nil t))).2
    rw [visible_eq_nil.mpr hblank, flatten_cons, flatten_nil, append_nil] at hbuffer
    exact hbuffer.symm
  · intro hnil chunks hne ht
    obtain ⟨hout, hbuffer⟩ := stream_reading chunks _ hne (hread chunks ht)
    have hsingle := outcome_flatten _ chunks hne (hread chunks ht)
    have houtside := reading_outside (init hasThinkingSupport prefilled).state t
    rw [hnil, append_nil] at houtside
    rw [ht] at hout hbuffer hsingle
    refine ⟨hsingle, ?_, visible_eq_nil.mp (hbuffer.trans hnil)⟩
    rw [show outcome (add unmarshal) (init hasThinkingSupport prefilled) chunks = _ from hout]
    exact houtside

/-- A response with thinking, content and one tool call. -/
theorem losesNothing_toolCall :
    LosesNothing
      (fun raw => if raw = "\x7b\"name\":\"f\",\"arguments\":\x7b\x7d\x7d".toList
        then .ok { name := ['f'], arguments := () } else .error "unexpected end of JSON input")
      (init true false)
      "a < b</think>c<tool_call>\x7b\"name\":\"f\",\"arguments\":\x7b\x7d\x7d</tool_call> d".toList :=
  (losesNothing_iff _ true false _ (by
    intro raw hraw
    have hraws : raws (outline .collectingThinkingContent
        "a < b</think>c<tool_call>\x7b\"name\":\"f\",\"arguments\":\x7b\x7d\x7d</tool_call> d".toList).1 =
        ["\x7b\"name\":\"f\",\"arguments\":\x7b\x7d\x7d".toList] := by
      decide +kernel
    rw [mem_singleton.mp hraw]
    exact ⟨_, if_pos rfl⟩)).mpr (by decide +kernel)

/-- A text that ends in `<` loses it. -/
theorem not_losesNothing_lessThan :
    ¬∀ (unmarshal : Text → Except Error (ToolCallFunction Unit)) (hasThinkingSupport prefilled : Bool)
      (t : Text),
      Decodable unmarshal (raws (outline (init hasThinkingSupport prefilled).state t).1) →
        LosesNothing unmarshal (init hasThinkingSupport prefilled) t := by
  intro h
  have hloses := h (fun _ => .error "unexpected end of JSON input") false false "x <".toList (by
    intro raw hraw
    exact absurd hraw not_mem_nil)
  have hblank := (hloses ["x <".toList] (cons_ne_nil _ _) rfl).2.2
  exact absurd hblank (by decide)

end Qwen3VLParser

end Ollama.Parsers
