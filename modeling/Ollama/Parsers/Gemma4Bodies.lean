import Ollama.Parsers.Bodies
import Ollama.Parsers.Gemma4Chunks

/-!
# Tool calls of gemma4

Which calls the parser of gemma4 returns for some cut of a text: a tool call tag before a
thinking tag is seen only in a chunk in which the thinking tag is not complete.
-/

namespace Ollama.Parsers

open Lib List

namespace Gemma4Parser

variable {τ : Type} {parse : Text → Except Error τ} {done : Bool} {p q : Gemma4Parser}
variable {t u d y w a b : Text} {calls : List τ} {es : List (Gemma4Event τ)}

/-! ## §1  Calls -/

def callOf (parse : Text → Except Error τ) (body : Text) : List τ :=
  match parse body with
  | .ok call => [call]
  | .error _ => []

/-- In a state with a text that is left, some cut of the text makes the parser return at least
these calls. -/
inductive Calls (parse : Text → Except Error τ) : Gemma4ParserState → Text → List τ → Prop
  | nil {state : Gemma4ParserState} {t : Text} : Calls parse state t []
  | thinking {t b a : Text} {calls : List τ} (h : cut t gemma4ThinkingOpenTag = some (b, a))
      (later : Calls parse .collectingThinking a calls) : Calls parse .collectingContent t calls
  | toolCall {t b a : Text} {calls : List τ} (h : cut t gemma4ToolCallOpenTag = some (b, a))
      (hno : cut b gemma4ThinkingOpenTag = none) (later : Calls parse .collectingToolCall a calls) :
      Calls parse .collectingContent t calls
  | closed {t b a : Text} {calls : List τ} (h : cut t gemma4ThinkingCloseTag = some (b, a))
      (later : Calls parse .collectingContent a calls) : Calls parse .collectingThinking t calls
  | call {t body a : Text} {calls : List τ} (h : cut t gemma4ToolCallCloseTag = some (body, a))
      (later : Calls parse .ignoringPostToolCallNoise a calls) :
      Calls parse .collectingToolCall t (callOf parse body ++ calls)
  | flushed {t : Text} (h : cut t gemma4ToolCallCloseTag = none) :
      Calls parse .collectingToolCall t (callOf parse t)
  | noise {t : Text} {calls : List τ} (later : Calls parse .collectingContent (skipNoise t) calls) :
      Calls parse .ignoringPostToolCallNoise t calls

/-- Text in which no tag begins changes nothing. -/
theorem Calls.prepend (h : Calls parse .collectingContent y calls)
    (hthink : ∀ i < d.length, ¬Occurs gemma4ThinkingOpenTag (d ++ y) i)
    (htool : ∀ i < d.length, ¬Occurs gemma4ToolCallOpenTag (d ++ y) i) :
    Calls parse .collectingContent (d ++ y) calls := by
  cases h with
  | nil => exact .nil
  | @thinking _ b _ _ h later =>
    refine .thinking (b := d ++ b) ?_ later
    rw [cut_prepend (by decide) hthink, h]
    rfl
  | @toolCall _ b _ _ h hno later =>
    refine .toolCall (b := d ++ b) ?_ ?_ later
    · rw [cut_prepend (by decide) htool, h]
      rfl
    · obtain ⟨hy, -⟩ := (cut_eq_some (by decide)).mp h
      rw [hy, ← append_assoc] at hthink
      rw [cut_prepend (by decide) fun i hi ho => hthink i hi (ho.append (by decide) _), hno]
      rfl

theorem Calls.blank (h : Calls parse .collectingContent y calls) (hw : Blank w) :
    Calls parse .collectingContent (w ++ y) calls :=
  h.prepend (fun _ hi => not_occurs_of_blank (by decide) hw hi)
    fun _ hi => not_occurs_of_blank (by decide) hw hi

theorem Calls.of_trimLeft (h : Calls parse .collectingContent (trimLeft t ++ u) calls) :
    Calls parse .collectingContent (t ++ u) calls := by
  obtain ⟨w, hw, ht⟩ := trimLeft_spec t
  rw [ht, append_assoc]
  exact h.blank hw

theorem Calls.thought (h : Calls parse .collectingThinking y calls)
    (hcut : cut (d ++ y) gemma4ThinkingCloseTag =
      (cut y gemma4ThinkingCloseTag).map fun p => (d ++ p.1, p.2)) :
    Calls parse .collectingThinking (d ++ y) calls := by
  cases h with
  | nil => exact .nil
  | @closed _ b _ _ h later =>
    refine .closed (b := d ++ b) ?_ later
    rw [hcut, h]
    rfl

theorem Calls.of_stripped (h : Calls parse .collectingThinking (stripped t ++ u) calls) :
    Calls parse .collectingThinking (t ++ u) calls := by
  unfold stripped at h
  split at h
  · next hname =>
    obtain ⟨v, rfl⟩ := hname
    rw [append_assoc]
    refine h.thought (cut_prepend (by decide) fun i hi ho => ?_)
    have hget := ho.getElem? (k := 0) (by decide)
    rw [Nat.add_zero, getElem?_append_left hi] at hget
    exact absurd (mem_of_getElem? hget) (by decide)
  · exact h

theorem skipNoise_trimLeft_append (t u : Text) :
    skipNoise (trimLeft t ++ u) = skipNoise (t ++ u) := by
  rw [← skipNoise_trimLeft, trimLeft_append, skipNoise_trimLeft]

/-! ## §2  One turn -/

def callsOf : List (Gemma4Event τ) → List τ
  | [] => []
  | .toolCall call :: events => call :: callsOf events
  | .thinkingContent _ :: events => callsOf events
  | .content _ :: events => callsOf events

theorem callsOf_append (es es' : List (Gemma4Event τ)) :
    callsOf (es ++ es') = callsOf es ++ callsOf es' := by
  induction es with
  | nil => rfl
  | cons e es ih => cases e <;> simp only [cons_append, callsOf, ih]

theorem callsOf_contentEvent (c : Text) : callsOf (contentEvent (τ := τ) c) = [] := by
  unfold contentEvent
  split <;> rfl

theorem callsOf_thinkingEvent (c : Text) : callsOf (thinkingEvent (τ := τ) c) = [] := by
  unfold thinkingEvent
  split <;> rfl

theorem callsOf_toolCallEvent (body : Text) :
    callsOf (toolCallEvent parse body) = callOf parse body := by
  unfold toolCallEvent callOf
  cases parse body <;> rfl

theorem collect_calls (en : Bool) (es : List (Gemma4Event τ)) :
    (collect en es).calls = callsOf es := by
  induction es with
  | nil => rfl
  | cons e es ih =>
    cases e with
    | toolCall call => exact congrArg (call :: ·) ih
    | _ => exact ih

/-- What a turn does for the text `u` to come: its calls come before those of the rest; and when
it is the last turn of the last call, they are calls of the buffer. -/
def Turned (parse : Text → Except Error τ) (done : Bool) (p : Gemma4Parser) (u : Text)
    (out : List (Gemma4Event τ) × Gemma4Parser × Bool) : Prop :=
  (out.2.2 = true ∨ done = false → ∀ calls, Calls parse out.2.1.state (out.2.1.buffer ++ u) calls →
    Calls parse p.state (p.buffer ++ u) (callsOf out.1 ++ calls)) ∧
  (out.2.2 = false → done = true → Calls parse p.state p.buffer (callsOf out.1))

section

variable (parse : Text → Except Error τ)

theorem turned_content (done : Bool) (t : Text) (en k : Bool)
    (u : Text) :
    Turned parse done ⟨.collectingContent, t, en, k⟩ u
      (eat parse done ⟨.collectingContent, t, en, k⟩) := by
  cases hthink : cut t gemma4ThinkingOpenTag with
  | some x =>
    rw [eat_content_thinking hthink]
    refine ⟨fun _ calls h => ?_, nofun⟩
    rw [callsOf_contentEvent]
    exact .thinking (cut_append (by decide) hthink u) h
  | none =>
    cases htool : cut t gemma4ToolCallOpenTag with
    | some x =>
      rw [eat_content_toolCall hthink htool]
      refine ⟨fun _ calls h => ?_, nofun⟩
      rw [callsOf_contentEvent]
      refine .toolCall (cut_append (by decide) htool u) ?_ h
      exact cut_none_of_front (by decide) hthink ⟨_, ((cut_eq_some (by decide)).mp htool).1.symm⟩
    | none =>
      obtain ⟨d, y, rfl, heat, -, hov⟩ := eat_content_plain parse done en k hthink htool
      rw [heat]
      refine ⟨fun hdone calls h => ?_, fun _ _ => ?_⟩
      · have hov' := hov (hdone.resolve_left Bool.false_ne_true)
        have settled : ∀ tag ∈ [gemma4ThinkingOpenTag, gemma4ToolCallOpenTag], tag ≠ [] →
            cut (d ++ y) tag = none → ∀ i < d.length, ¬Occurs tag (d ++ (y ++ u)) i := by
          intro tag htag hne hnone i hi ho
          rw [← append_assoc] at ho
          refine not_occurs_of_overlap hne hnone ?_ u ho
          have := hov' tag htag
          rw [length_append]
          omega
        rw [callsOf_contentEvent]
        rw [append_assoc]
        exact h.prepend (settled _ (by simp) (by decide) hthink)
          (settled _ (by simp) (by decide) htool)
      · rw [callsOf_contentEvent]
        exact .nil

theorem turned_thought (done : Bool) (t : Text) (en : Bool)
    (u : Text) :
    Turned parse done ⟨.collectingThinking, t, en, false⟩ u
      (eat parse done ⟨.collectingThinking, t, en, false⟩) := by
  cases hclose : cut t gemma4ThinkingCloseTag with
  | some x =>
    rw [eat_thinking_close hclose]
    refine ⟨fun _ calls h => ?_, nofun⟩
    rw [callsOf_thinkingEvent]
    exact .closed (cut_append (by decide) hclose u) h.of_trimLeft
  | none =>
    obtain ⟨d, y, rfl, heat, -, hov⟩ := eat_thinking_plain parse done en hclose
    rw [heat]
    refine ⟨fun hdone calls h => ?_, fun _ _ => ?_⟩
    · rw [callsOf_thinkingEvent]
      rw [append_assoc]
      exact h.thought (cut_held (by decide) hclose (hov (hdone.resolve_left Bool.false_ne_true)) u)
    · rw [callsOf_thinkingEvent]
      exact .nil

theorem turned_thinking (done : Bool) (t : Text) (en : Bool)
    (u : Text) :
    Turned parse done ⟨.collectingThinking, t, en, true⟩ u
      (eat parse done ⟨.collectingThinking, t, en, true⟩) := by
  have wait : eat parse done ⟨.collectingThinking, t, en, true⟩ =
      ([], ⟨.collectingThinking, t, en, true⟩, false) →
      Turned parse done ⟨.collectingThinking, t, en, true⟩ u
        (eat parse done ⟨.collectingThinking, t, en, true⟩) := by
    intro heat
    rw [heat]
    exact ⟨fun _ calls h => h, fun _ _ => .nil⟩
  by_cases hne : t = []
  · exact wait (eat_nil done hne)
  by_cases hname : done = false ∧ t <+: gemma4ChannelName ∧ ¬gemma4ChannelName <+: t
  · obtain ⟨rfl, hpre, hno⟩ := hname
    exact wait (eat_thinking_wait hpre hno)
  rw [eat_thinking_strip hne fun hd hpre => by
    by_contra hno
    exact hname ⟨hd, hpre, hno⟩]
  obtain ⟨more, last⟩ := turned_thought parse done (stripped t) en u
  refine ⟨fun hdone calls h => (more hdone calls h).of_stripped, fun hlast hd => ?_⟩
  have hcalls : Calls parse .collectingThinking (stripped t ++ [])
      (callsOf (eat parse done ⟨.collectingThinking, stripped t, en, false⟩).1) := by
    rw [append_nil]
    exact last hlast hd
  have hall := hcalls.of_stripped
  rwa [append_nil] at hall

theorem turned_toolCall (done : Bool) (t : Text) (en k : Bool)
    (u : Text) :
    Turned parse done ⟨.collectingToolCall, t, en, k⟩ u
      (eat parse done ⟨.collectingToolCall, t, en, k⟩) := by
  cases hclose : cut t gemma4ToolCallCloseTag with
  | some x =>
    rw [eat_toolCall_close hclose]
    refine ⟨fun _ calls h => ?_, nofun⟩
    rw [callsOf_toolCallEvent]
    refine .call (cut_append (by decide) hclose u) ?_
    cases h with
    | nil => exact .nil
    | noise later =>
      refine .noise ?_
      rwa [skipNoise_trimLeft_append] at later
  | none =>
    cases done with
    | false =>
      rw [eat_toolCall_plain hclose]
      exact ⟨fun _ calls h => h, fun _ => nofun⟩
    | true =>
      by_cases hne : t = []
      · rw [eat_nil true hne]
        exact ⟨fun _ calls h => h, fun _ _ => .nil⟩
      have heat : eat parse true ⟨.collectingToolCall, t, en, k⟩ =
          (toolCallEvent parse t, ⟨.collectingContent, [], en, k⟩, false) := by
        unfold eat
        rw [if_neg hne]
        unfold eatToolCall
        rw [hclose]
        exact if_pos ⟨rfl, hne⟩
      rw [heat]
      refine ⟨fun h => absurd h (by simp), fun _ _ => ?_⟩
      rw [callsOf_toolCallEvent]
      exact .flushed hclose

theorem turned_noise (done : Bool) (t : Text) (en k : Bool)
    (u : Text) :
    Turned parse done ⟨.ignoringPostToolCallNoise, t, en, k⟩ u
      (eat parse done ⟨.ignoringPostToolCallNoise, t, en, k⟩) := by
  by_cases hwait : skipNoise t <+: gemma4ToolCallCloseTag
  · obtain ⟨q, heat, -, hq⟩ := eat_noise_wait parse done en k hwait
    rw [heat]
    refine ⟨fun hdone calls h => ?_, fun _ _ => .nil⟩
    rw [hq (hdone.resolve_left Bool.false_ne_true)] at h
    cases h with
    | nil => exact .nil
    | noise later =>
      refine .noise ?_
      rwa [skipNoise_append] at later
  · rw [eat_noise_content hwait]
    refine ⟨fun _ calls h => ?_, nofun⟩
    refine .noise ?_
    rwa [skipNoise_append_of_tag_apart hwait]

theorem eat_turned (done : Bool) (p : Gemma4Parser) (u : Text) :
    Turned parse done p u (eat parse done p) := by
  obtain ⟨state, t, en, k⟩ := p
  cases state with
  | collectingContent => exact turned_content parse done t en k u
  | collectingThinking =>
    cases k with
    | true => exact turned_thinking parse done t en u
    | false => exact turned_thought parse done t en u
  | collectingToolCall => exact turned_toolCall parse done t en k u
  | ignoringPostToolCallNoise => exact turned_noise parse done t en k u

/-! ## §3  Calls of `Add` -/

theorem parseEvents_more_calls (p : Gemma4Parser) (u : Text) :
    ∀ calls, Calls parse (parseEvents parse false p).2.state
        ((parseEvents parse false p).2.buffer ++ u) calls →
      Calls parse p.state (p.buffer ++ u) (callsOf (parseEvents parse false p).1 ++ calls) := by
  refine drain_rule turns (fun _ h => eat_turns h)
    (P := fun p es q => ∀ calls, Calls parse q.state (q.buffer ++ u) calls →
      Calls parse p.state (p.buffer ++ u) (callsOf es ++ calls))
    (fun p _ => (eat_turned parse false p u).1 (.inr rfl)) (fun p es q hmore ih calls h => ?_)
    _ p (Nat.lt_succ_self _)
  rw [callsOf_append, append_assoc]
  exact (eat_turned parse false p u).1 (.inr rfl) _ (ih calls h)

theorem parseEvents_last_calls (p : Gemma4Parser) :
    Calls parse p.state p.buffer (callsOf (parseEvents parse true p).1) := by
  refine drain_rule turns (fun _ h => eat_turns h)
    (P := fun p es _ => Calls parse p.state p.buffer (callsOf es))
    (fun p hlast => (eat_turned parse true p []).2 hlast rfl) (fun p es q hmore ih => ?_)
    _ p (Nat.lt_succ_self _)
  have turn := (eat_turned parse true p []).1 (.inl hmore) (callsOf es) (by rwa [append_nil])
  rw [append_nil] at turn
  rw [callsOf_append]
  exact turn

theorem foretells :
    Foretells (add parse) fun p u calls => Calls parse p.state (p.buffer ++ u) calls := by
  refine ⟨fun p u => ⟨[], .nil⟩, fun p c done herr => ?_, fun p c u calls _ h => ?_,
    fun p c _ => ⟨[], ?_⟩⟩
  · rw [show (add parse c done p).1.err = none from collect_err _ _] at herr
    cases herr
  · rw [show (add parse c false p).1.calls = _ from collect_calls _ _, ← append_assoc]
    exact parseEvents_more_calls parse (p.feed c) u calls h
  · rw [show (add parse c true p).1.calls = _ from collect_calls _ _, append_nil]
    exact parseEvents_last_calls parse (p.feed c)

end

end Gemma4Parser

end Ollama.Parsers
