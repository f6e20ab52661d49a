import Ollama.OpenAI.Stream
import Ollama.Parsers.Gemma4Bodies
import Ollama.Parsers.ParserForName
import Ollama.Parsers.Qwen35Bodies
import Mathlib.Tactic.Ring

/-!
# Indices of tool calls

The index that a tool call of a stream has. The generic parser, functiongemma, lfm2 and glimmer
count; qwen3-coder, qwen3.5 and gemma4 leave every index at 0, and qwen3-vl takes the model's.
-/

namespace Ollama.Parsers

open Lib List ToolCallParser
open Api (ToolCall ToolCallFunction)

variable {T α τ σ σ' : Type}

/-! ## §1  Numbered calls -/

def Numbered (n : ℤ) (calls : List (ToolCall α)) : Prop :=
  ∀ (k : ℕ) (call : ToolCall α), calls[k]? = some call → call.function.index = n + k

variable {n : ℤ} {calls calls' : List (ToolCall α)} {call : ToolCall α}

theorem numbered_nil (n : ℤ) : Numbered n ([] : List (ToolCall α)) := nofun

theorem Numbered.cons (hcall : call.function.index = n) (h : Numbered (n + 1) calls) :
    Numbered n (call :: calls) := by
  intro k call' hget
  cases k with
  | zero =>
    cases hget
    rw [hcall, Nat.cast_zero, Int.add_zero]
  | succ k =>
    rw [h k call' hget, Nat.cast_succ]
    ring

theorem Numbered.append (h : Numbered n calls) (h' : Numbered (n + calls.length) calls') :
    Numbered n (calls ++ calls') := by
  intro k call hget
  by_cases hk : k < calls.length
  · rw [getElem?_append_left hk] at hget
    exact h k call hget
  · rw [Nat.not_lt] at hk
    rw [getElem?_append_right hk] at hget
    rw [h' _ call hget, Nat.cast_sub hk]
    ring

theorem Numbered.front (h : Numbered n calls) (hpre : calls' <+: calls) : Numbered n calls' := by
  intro k call hget
  obtain ⟨rest, rfl⟩ := hpre
  refine h k call ?_
  rw [getElem?_append_left (List.getElem?_eq_some_iff.mp hget).1]
  exact hget

/-! ## §2  Parsers that count -/

/-- Every call of `Add` numbers what it returns, from where the one before it stopped. -/
structure Counts (add : Text → Bool → σ → Response (ToolCall α) × σ) (count : σ → ℤ) : Prop where
  numbered : ∀ c done p, Numbered (count p) (add c done p).1.calls
  next : ∀ c done p, (add c done p).1.err = none →
    count (add c done p).2 = count p + (add c done p).1.calls.length

/-- **Runs.** A parser that counts numbers all of the calls of a stream. -/
theorem Counts.run {add : Text → Bool → σ → Response (ToolCall α) × σ} {count : σ → ℤ}
    (h : Counts add count) (chunks : List Text) (p : σ) :
    Numbered (count p) (Response.all (stream add p chunks).1).calls := by
  have one : ∀ c done p, Numbered (count p) (Response.all [(add c done p).1]).calls := by
    intro c done p
    rw [Response.all_cons, Response.all_nil, Response.append_none]
    exact h.numbered c done p
  induction chunks generalizing p with
  | nil => exact numbered_nil _
  | cons c chunks ih =>
    cases chunks with
    | nil => exact one c true p
    | cons c' chunks =>
      unfold stream at ih ⊢
      rw [Lib.feed]
      cases herr : (add c false p).1.err with
      | some e =>
        exact one c false p
      | none =>
        refine (h.numbered c false p).append ?_
        rw [← h.next c false p herr]
        exact ih _

/-! ## §3  lfm2 and glimmer -/

namespace LFM2Parser

variable {args : PythonArgs α} {p : LFM2Parser}

theorem number_length (n : ℤ) (calls : List (ToolCall α)) :
    (number n calls).length = calls.length := by
  induction calls generalizing n with
  | nil => rfl
  | cons call calls ih => rw [number, length_cons, length_cons, ih]

theorem numbered_number (n : ℤ) (calls : List (ToolCall α)) : Numbered n (number n calls) := by
  induction calls generalizing n with
  | nil => exact numbered_nil n
  | cons call calls ih => exact .cons rfl (ih (n + 1))

theorem eatThinking_callIndex (p : LFM2Parser) :
    (eatThinking (α := α) p).2.1.callIndex = p.callIndex := by
  have trimmed : (trimThinking (stripOpenTag p)).callIndex = p.callIndex := by
    unfold trimThinking stripOpenTag
    split <;> split <;> rfl
  unfold eatThinking eatThought
  split <;> exact trimmed

theorem eatContent_callIndex (p : LFM2Parser) :
    (eatContent (α := α) p).2.1.callIndex = p.callIndex := by
  have trimmed : (trimContent p).callIndex = p.callIndex := by
    unfold trimContent
    split <;> rfl
  unfold eatContent
  dsimp only
  split <;> exact trimmed

theorem eatToolCalls_callIndex (args : PythonArgs α) (p : LFM2Parser) :
    (eatToolCalls args p).2.1.callIndex = p.callIndex := by
  unfold eatToolCalls
  split
  · rfl
  · split
    · rfl
    · split
      · rfl
      · split <;> rfl

/-- Only `Add` itself counts. -/
theorem eat_callIndex (args : PythonArgs α) (p : LFM2Parser) :
    (eat args p).2.1.callIndex = p.callIndex := by
  unfold eat
  split
  · rfl
  split
  · unfold eatLooking
    dsimp only
    split
    · rfl
    · split <;> rfl
  · exact eatThinking_callIndex p
  · exact eatContent_callIndex p
  · exact eatToolCalls_callIndex args p

theorem parseEvents_callIndex (args : PythonArgs α) (p : LFM2Parser) :
    (parseEvents args p).2.callIndex = p.callIndex := by
  refine drain_rule turns (fun _ => eat_turns) (P := fun p _ p' => p'.callIndex = p.callIndex)
    (fun p _ => eat_callIndex args p) (fun p es p' _ ih => ?_) _ p (Nat.lt_succ_self _)
  rw [ih]
  exact eat_callIndex args p

theorem counts (args : PythonArgs α) : Counts (add args) (·.callIndex) := by
  have start : ∀ (c : Text) (done : Bool) (p : LFM2Parser),
      (parseEvents args (commit done { p with buffer := p.buffer ++ c })).2.callIndex =
        p.callIndex := by
    intro c done p
    rw [parseEvents_callIndex]
    unfold commit
    split <;> rfl
  constructor
  · intro c done p
    unfold add
    dsimp only
    rw [start c done p]
    exact numbered_number _ _
  · intro c done p _
    unfold add
    dsimp only
    rw [start c done p, number_length]

end LFM2Parser

namespace GlimmerParser

variable {atem : ATEM T α} {done : Bool} {p : GlimmerParser T}

def callsOf : List (GlimmerEvent α) → List (ToolCall α)
  | [] => []
  | .content _ :: events => callsOf events
  | .thinking _ :: events => callsOf events
  | .toolCall call :: events => call :: callsOf events
  | .failed _ :: events => callsOf events

theorem callsOf_append (es es' : List (GlimmerEvent α)) :
    callsOf (es ++ es') = callsOf es ++ callsOf es' := by
  induction es with
  | nil => rfl
  | cons e es ih => cases e <;> simp only [cons_append, callsOf, ih]

theorem collect_calls (es : List (GlimmerEvent α)) : (collect es).calls = callsOf es := by
  induction es with
  | nil => rfl
  | cons e es ih =>
    cases e <;> simp only [collect, callsOf, Response.calls_append, ih] <;> rfl

theorem consumeHeader_callIndex (done : Bool) (p : GlimmerParser T) :
    (consumeHeader done p).2.2.callIndex = p.callIndex := by
  have read : ∀ p : GlimmerParser T, (readHeader done p).2.2.callIndex = p.callIndex := by
    intro p
    unfold readHeader
    split
    · split <;> rfl
    · rfl
  unfold consumeHeader
  split
  · exact read _
  · split
    · rfl
    · exact read p

theorem consumeBody_callIndex (done : Bool) (p : GlimmerParser T) :
    (consumeBody done p).2.callIndex = p.callIndex := by
  have whole : ∀ hold wait, (consumeOpen done hold wait p).2.callIndex = p.callIndex := by
    intro hold wait
    unfold consumeOpen
    split
    · rfl
    split
    · rfl
    · split
      · rfl
      · dsimp only
        split <;> rfl
  unfold consumeBody
  dsimp only
  split
  · rfl
  · split <;> rfl
  · rfl
  · exact whole _ _
  · exact whole _ _

theorem finish_callIndex (p : GlimmerParser T) (complete : Bool) :
    (finish p complete).callIndex = p.callIndex := by
  cases complete <;> rfl

theorem callsOf_plain {es : List (GlimmerEvent α)}
    (h : ∀ e ∈ es, ∃ s, e = .content s ∨ e = .thinking s) : callsOf es = [] := by
  induction es with
  | nil => rfl
  | cons e es ih =>
    have hes := ih fun e' he' => h e' (mem_cons_of_mem e he')
    obtain ⟨s, rfl | rfl⟩ := h e mem_cons_self
    · exact hes
    · exact hes

/-- The events number their calls, and the parser has counted them. -/
def Counted (p : GlimmerParser T) (es : List (GlimmerEvent α)) (q : GlimmerParser T) : Prop :=
  Numbered p.callIndex (callsOf es) ∧ q.callIndex = p.callIndex + (callsOf es).length

theorem counted_of_none {es : List (GlimmerEvent α)} {q : GlimmerParser T} (hes : callsOf es = [])
    (hq : q.callIndex = p.callIndex) : Counted p es q := by
  unfold Counted
  rw [hes]
  exact ⟨numbered_nil _, hq.trans (Int.add_zero _).symm⟩

theorem Counted.trans {es es' : List (GlimmerEvent α)} {q r : GlimmerParser T}
    (h : Counted p es q) (h' : Counted q es' r) : Counted p (es ++ es') r := by
  unfold Counted at h h' ⊢
  rw [callsOf_append, length_append, Nat.cast_add, ← Int.add_assoc, ← h.2]
  refine ⟨h.1.append ?_, h'.2⟩
  rw [← h.2]
  exact h'.1

theorem turn_counted (done : Bool) (p : GlimmerParser T) :
    Counted p (turn atem done p).1 (turn atem done p).2.1 := by
  unfold turn
  split
  · refine counted_of_none ?_ (consumeHeader_callIndex done p)
    show callsOf (contentEvent (consumeHeader done p).2.1) = []
    unfold contentEvent
    split <;> rfl
  have hq := consumeBody_callIndex done p
  show Counted p (useBody atem (consumeBody done p).2 (consumeBody done p).1).1
    (useBody atem (consumeBody done p).2 (consumeBody done p).1).2.1
  rcases useBody_cases atem (consumeBody done p).2 (consumeBody done p).1 with
    ⟨es, streamed, hes, heq⟩ | ⟨name, args, -, heq⟩ | ⟨e, heq⟩
  · rw [heq]
    exact counted_of_none (callsOf_plain hes) ((finish_callIndex _ _).trans hq)
  · rw [heq]
    refine ⟨.cons hq (numbered_nil _), ?_⟩
    rw [← hq]
    rfl
  · rw [heq]
    exact counted_of_none rfl hq

theorem counts (atem : ATEM T α) : Counts (add atem) (·.callIndex) := by
  have run : ∀ (c : Text) (done : Bool) (p : GlimmerParser T),
      Counted p (drain (turn atem done) (turns { p with buffer := p.buffer ++ c } + 1)
          { p with buffer := p.buffer ++ c }).1
        (drain (turn atem done) (turns { p with buffer := p.buffer ++ c } + 1)
          { p with buffer := p.buffer ++ c }).2 := by
    intro c done p
    exact drain_rule turns (fun _ => turn_turns) (P := Counted) (fun p _ => turn_counted done p)
      (fun p es p' _ ih => (turn_counted done p).trans ih) _ _ (Nat.lt_succ_self _)
  constructor
  · intro c done p
    unfold add
    rw [collect_calls]
    exact (run c done p).1
  · intro c done p _
    unfold add
    rw [collect_calls]
    exact (run c done p).2

end GlimmerParser

/-! ## §4  The generic parser -/

/-- `Add` of `tools.Parser`, which returns no error. -/
def genericAdd (findArguments : Text → Text → Option (α × ℕ)) (s : Text) (_done : Bool)
    (p : Tools.Parser) : Response (ToolCall α) × Tools.Parser :=
  let ((toolCalls, content), p) := Tools.Parser.add findArguments p s
  (⟨content, [], toolCalls, none⟩, p)

section Generic

open Tools

variable {findArguments : Text → Text → Option (α × ℕ)} {p : Tools.Parser}

/-- The calls are numbered from `n`, and `n` has moved past them. -/
def Moved (p : Tools.Parser) (calls : List (ToolCall α)) (q : Tools.Parser) : Prop :=
  Numbered p.n calls ∧ q.n = p.n + calls.length

theorem moved_nil {q : Tools.Parser} (h : q.n = p.n) : Moved p ([] : List (ToolCall α)) q :=
  ⟨numbered_nil _, h.trans (Int.add_zero _).symm⟩

theorem parseToolCall_moved {q : Tools.Parser} (h : p.parseToolCall findArguments = some (call, q)) :
    call.function.index = p.n ∧ q.n = p.n + 1 := by
  obtain ⟨⟨tool, last⟩, -, h⟩ := Option.bind_eq_some_iff.mp h
  obtain ⟨⟨args, i⟩, -, h⟩ := Option.map_eq_some_iff.mp h
  cases h
  exact ⟨rfl, rfl⟩

theorem parseToolCalls_moved (findArguments : Text → Text → Option (α × ℕ)) (fuel : ℕ)
    (p : Tools.Parser) :
    Moved p (p.parseToolCalls findArguments fuel).1 (p.parseToolCalls findArguments fuel).2 := by
  induction fuel generalizing p with
  | zero => exact moved_nil rfl
  | succ fuel ih =>
    unfold Tools.Parser.parseToolCalls
    cases h : p.parseToolCall findArguments with
    | none => exact moved_nil rfl
    | some x =>
      obtain ⟨hindex, hn⟩ := parseToolCall_moved h
      obtain ⟨hnumbered, hlater⟩ := ih x.2
      rw [hn] at hnumbered hlater
      refine ⟨.cons hindex hnumbered, ?_⟩
      rw [hlater, length_cons, Nat.cast_succ]
      ring

theorem callTools_moved (p : Tools.Parser) (content : Text) :
    Moved p (p.callTools findArguments content).1.1 (p.callTools findArguments content).2 := by
  have h := parseToolCalls_moved findArguments (p.buffer.length + 1) p
  unfold Tools.Parser.callTools
  dsimp only
  split <;> exact h

theorem generic_moved (p : Tools.Parser) (s : Text) :
    Moved p (p.add findArguments s).1.1 (p.add findArguments s).2 := by
  unfold Tools.Parser.add
  split
  · exact moved_nil rfl
  · unfold Tools.Parser.lookForTag
    dsimp only
    split
    · exact moved_nil rfl
    · split
      · exact moved_nil rfl
      · exact callTools_moved _ _
  · exact callTools_moved { p with buffer := p.buffer ++ s } []

theorem generic_counts (findArguments : Text → Text → Option (α × ℕ)) :
    Counts (genericAdd findArguments) (·.n) :=
  ⟨fun c _ p => (generic_moved p c).1, fun c _ p _ => (generic_moved p c).2⟩

theorem FunctionGemmaParser.counts (findArguments : Text → Text → Option (α × ℕ)) :
    Counts (FunctionGemmaParser.add findArguments) (·.parser.n) :=
  ⟨fun _ _ p => (generic_moved p.parser _).1, fun _ _ p _ => (generic_moved p.parser _).2⟩

end Generic

/-! ## §5  Parsers that do not count -/

open ToolCallParser (answer)

theorem Qwen3CoderParser.foretells (parse : Text → Except Error τ) :
    Foretells (fun c _ p => (answer (p.add parse c).1, (p.add parse c).2))
      fun p u calls => calls = okCalls parse (ahead p u) := by
  refine foretells_of_take (fun p c done herr => ?_) (fun p c done u herr => ?_)
  · cases h : (p.add parse c).1 with
    | error e => rfl
    | ok out =>
      rw [h] at herr
      cases herr
  · cases h : (p.add parse c).1 with
    | error e =>
      rw [h] at herr
      cases herr
    | ok out =>
      refine ⟨_, allRead_of_collect h, ?_⟩
      rw [← ahead_write]
      exact parseEvents_ahead (p.write c) u

variable {read : Text → Except Error (Text × α)}

theorem named_index {raw : Text} (h : named read raw = .ok call) : call.function.index = 0 := by
  unfold named at h
  cases hread : read raw with
  | error e =>
    rw [hread] at h
    cases h
  | ok x =>
    rw [hread] at h
    cases h
    rfl

theorem okCalls_index {raws : List Text} :
    ∀ call ∈ okCalls (named read) raws, call.function.index = 0 := by
  induction raws with
  | nil => exact fun _ hcall => absurd hcall not_mem_nil
  | cons raw raws ih =>
    rw [okCalls]
    cases h : named read raw with
    | error e => exact fun _ hcall => absurd hcall not_mem_nil
    | ok call =>
      intro call' hcall'
      rcases mem_cons.mp hcall' with rfl | hmem
      · exact named_index h
      · exact ih call' hmem

theorem Gemma4Parser.Calls.index
    {state : Gemma4ParserState} {t : Text} (h : Calls (named read) state t calls) :
    ∀ call ∈ calls, call.function.index = 0 := by
  have one : ∀ body, ∀ call ∈ callOf (named read) body, call.function.index = 0 := by
    intro body call hmem
    unfold callOf at hmem
    split at hmem
    · next hread =>
      rw [mem_singleton.mp hmem]
      exact named_index hread
    · cases hmem
  induction h with
  | nil => nofun
  | thinking _ _ ih => exact ih
  | toolCall _ _ _ ih => exact ih
  | closed _ _ ih => exact ih
  | call _ _ ih =>
    intro call hmem
    rcases mem_append.mp hmem with hbody | hlater
    · exact one _ call hbody
    · exact ih call hlater
  | flushed _ => exact one _
  | noise _ ih => exact ih

theorem numbered_of_length_le (hzero : ∀ call ∈ calls, call.function.index = 0)
    (hlen : calls.length ≤ 1) : Numbered 0 calls := by
  match calls, hlen with
  | [], _ => exact numbered_nil 0
  | [call], _ => exact .cons (hzero call mem_cons_self) (numbered_nil _)

/-! ## §6  Chunk deltas -/

def deltas (marshal : α → Option Text) (toolCallId : ℕ → Text) :
    ℕ → List (Response (ToolCall α)) → List OpenAI.ToolCall
  | _, [] => []
  | drawn, r :: rs =>
      OpenAI.toToolCalls marshal toolCallId drawn r.calls ++
        deltas marshal toolCallId (drawn + r.calls.length) rs

theorem toToolCalls_index (marshal : α → Option Text) (toolCallId : ℕ → Text) (drawn : ℕ)
    (calls : List (ToolCall α)) :
    (OpenAI.toToolCalls marshal toolCallId drawn calls).map (·.index) =
      calls.map (·.function.index) := by
  induction calls generalizing drawn with
  | nil => rfl
  | cons call calls ih => rw [OpenAI.toToolCalls, map_cons, map_cons, ih]

theorem deltas_index (marshal : α → Option Text) (toolCallId : ℕ → Text) (drawn : ℕ)
    (rs : List (Response (ToolCall α))) :
    (deltas marshal toolCallId drawn rs).map (·.index) =
      (Response.all rs).calls.map (·.function.index) := by
  induction rs generalizing drawn with
  | nil => rfl
  | cons r rs ih =>
    rw [deltas, map_append, toToolCalls_index, ih, Response.all_cons, Response.calls_append,
      map_append]

/-- The k-th tool call of a stream has the index k, and the indices of its deltas are all
different. -/
def InOrder (rs : List (Response (ToolCall α))) : Prop :=
  (∀ (k : ℕ) (call : ToolCall α), (Response.all rs).calls[k]? = some call →
    call.function.index = k) ∧
  ∀ (marshal : α → Option Text) (toolCallId : ℕ → Text) (drawn : ℕ),
    ((deltas marshal toolCallId drawn rs).map (·.index)).Nodup

theorem inOrder_of_numbered {rs : List (Response (ToolCall α))}
    (h : Numbered 0 (Response.all rs).calls) : InOrder rs := by
  have hget : ∀ (k : ℕ) (call : ToolCall α), (Response.all rs).calls[k]? = some call →
      call.function.index = k := by
    intro k call hcall
    rw [h k call hcall, Int.zero_add]
  refine ⟨hget, fun marshal toolCallId drawn => ?_⟩
  rw [deltas_index, List.Nodup, pairwise_map, pairwise_iff_getElem]
  intro j k hj hk hlt heq
  rw [hget j _ (getElem?_eq_getElem hj), hget k _ (getElem?_eq_getElem hk)] at heq
  exact absurd (Int.ofNat.inj heq) (Nat.ne_of_lt hlt)

/-- What a text has to satisfy: a parser that does not count reads one call out of it at most,
for every cut, and the model numbers the calls whose index is taken from it. -/
def NumberedText (readers : Readers T α) (t : Text) : ToolCallParser T → Prop
  | .qwen3Coder p => (okCalls (named readers.qwen3Coder) (p.ahead t)).length ≤ 1
  | .qwen3VL p =>
      Numbered 0 (okCalls (Qwen3VLParser.parseJSONToolCall readers.qwen3VL) (p.ahead t))
  | .functionGemma _ => True
  | .gemma4 p =>
      ∀ calls, Gemma4Parser.Calls (named readers.gemma4) p.state (p.buffer ++ t) calls →
        calls.length ≤ 1
  | .lfm2 _ => True
  | .qwen35 p =>
      ∀ c, p.Passes t c → (okCalls (named readers.qwen3Coder) (p.toolParser.ahead c)).length ≤ 1
  | .glimmer _ => True

/-- A stream of a parser is one of the parser in the sum. -/
theorem stream_map (add : Text → Bool → σ → Response τ × σ)
    {add' : Text → Bool → σ' → Response τ × σ'} (f : σ → σ')
    (h : ∀ c done p, add' c done (f p) = ((add c done p).1, f (add c done p).2))
    {chunks : List Text} {p : σ} : (stream add' (f p) chunks).1 = (stream add p chunks).1 := by
  induction chunks generalizing p with
  | nil => rfl
  | cons c chunks ih =>
    cases chunks with
    | nil =>
      show [(add' c true (f p)).1] = [(add c true p).1]
      rw [h]
    | cons c' chunks =>
      unfold stream at ih ⊢
      rw [Lib.feed, Lib.feed, h]
      split
      · rfl
      · rw [ih]

theorem counts_of_parserForName {request : ParserRequest T} {name : String}
    {p : ToolCallParser T} (h : parserForName request name = some p) :
    match p with
    | .functionGemma p => p.parser.n = 0
    | .lfm2 p => p.callIndex = 0
    | .glimmer p => p.callIndex = 0
    | _ => True := by
  unfold parserForName at h
  split at h <;> cases h <;> trivial

theorem numbered_stream (readers : Readers T α) (request : ParserRequest T) (name : String)
    (p : ToolCallParser T) (h : parserForName request name = some p)
    (chunks : List Text) (htext : NumberedText readers chunks.flatten p) :
    Numbered 0 (Response.all (stream (add readers) p chunks).1).calls := by
  have hzero := counts_of_parserForName h
  cases p with
  | qwen3Coder p =>
    rw [stream_map (fun c _ p => (answer (p.add (named readers.qwen3Coder) c).1,
      (p.add (named readers.qwen3Coder) c).2)) qwen3Coder
      fun _ _ _ => rfl]
    obtain ⟨calls, rfl, hpre⟩ :=
      (Qwen3CoderParser.foretells (named readers.qwen3Coder)).run chunks p
    exact (numbered_of_length_le okCalls_index htext).front hpre
  | qwen3VL p =>
    rw [stream_map (Qwen3VLParser.add readers.qwen3VL) qwen3VL fun _ _ _ => rfl]
    obtain ⟨calls, rfl, hpre⟩ := (Qwen3VLParser.foretells readers.qwen3VL).run chunks p
    exact htext.front hpre
  | functionGemma p =>
    rw [stream_map (FunctionGemmaParser.add readers.findArguments) functionGemma
      (fun _ _ _ => rfl), ← hzero]
    exact (FunctionGemmaParser.counts readers.findArguments).run chunks p
  | gemma4 p =>
    rw [stream_map (Gemma4Parser.add (named readers.gemma4)) gemma4 fun _ _ _ => rfl]
    obtain ⟨calls, hcalls, hpre⟩ := (Gemma4Parser.foretells (named readers.gemma4)).run chunks p
    exact (numbered_of_length_le hcalls.index (htext calls hcalls)).front hpre
  | lfm2 p =>
    rw [stream_map (LFM2Parser.add readers.lfm2) lfm2 (fun _ _ _ => rfl), ← hzero]
    exact (LFM2Parser.counts readers.lfm2).run chunks p
  | qwen35 p =>
    rw [stream_map (Qwen35Parser.add (named readers.qwen3Coder)) qwen35 fun _ _ _ => rfl]
    obtain ⟨calls, ⟨c, hc, rfl⟩, hpre⟩ :=
      (Qwen35Parser.foretells (named readers.qwen3Coder)).run chunks p
    exact (numbered_of_length_le okCalls_index (htext c hc)).front hpre
  | glimmer p =>
    rw [stream_map (GlimmerParser.add readers.glimmer) glimmer (fun _ _ _ => rfl), ← hzero]
    exact (GlimmerParser.counts readers.glimmer).run chunks p

/-- **Indices.** For every cut of a text that satisfies the condition, the k-th tool call of the
stream has the index k; the generic parser needs no condition. -/
theorem toolCalls_inOrder (readers : Readers T α) (request : ParserRequest T) :
    (∀ name p, parserForName request name = some p →
      ∀ chunks : List Text, NumberedText readers chunks.flatten p →
        InOrder (stream (add readers) p chunks).1) ∧
    ∀ tools tag chunks,
      InOrder (stream (genericAdd readers.findArguments) (Tools.newParserWithTag tools tag)
        chunks).1 := by
  constructor
  · intro name p h chunks htext
    exact inOrder_of_numbered (numbered_stream readers request name p h chunks htext)
  · intro tools tag chunks
    exact inOrder_of_numbered ((generic_counts readers.findArguments).run chunks _)

/-- Readers of calls of the function `f` without arguments. -/
def readF : Readers Unit Text where
  qwen3Coder raw :=
    if raw = "<function=f></function>".toList then .ok (['f'], "\x7b\x7d".toList)
    else .error "EOF"
  qwen3VL _ := .error "unexpected end of JSON input"
  gemma4 raw :=
    if raw = "call:f\x7b\x7d".toList then .ok (['f'], "\x7b\x7d".toList)
    else .error "expected 'call:' prefix"
  lfm2 := ⟨"\x7b\x7d".toList, fun _ => .error "invalid argument"⟩
  glimmer := ⟨fun _ _ => .error "EOF", fun _ => [], fun s => String.ofList s⟩
  findArguments _ _ := none

/-- A text of qwen3-coder with one call, in two chunks. -/
theorem toolCalls_inOrder_one : (Response.all (stream (add readF) (.qwen3Coder .init)
      ["<tool_call><function=f></fun".toList, "ction></tool_call>".toList]).1).calls.length = 1 ∧
    InOrder (stream (add readF) (.qwen3Coder .init)
      ["<tool_call><function=f></fun".toList, "ction></tool_call>".toList]).1 :=
  ⟨by decide +kernel, (toolCalls_inOrder readF ⟨[], false, none⟩).1 "qwen3-coder" _ rfl _
    (show _ ≤ 1 by decide +kernel)⟩

/-- Two calls of qwen3-coder, and two of gemma4, all of them with the index 0. -/
theorem not_inOrder_two : ¬InOrder (stream (add readF) (.qwen3Coder .init)
      ["<tool_call><function=f></function></tool_call>".toList,
        "<tool_call><function=f></function></tool_call>".toList]).1 ∧
    ¬InOrder (stream (add readF) (.gemma4 (.init true))
      ["<|tool_call>call:f\x7b\x7d<tool_call|><|tool_call>call:f\x7b\x7d<tool_call|>".toList]).1 := by
  constructor
  · rintro ⟨h, -⟩
    exact absurd (h 1 { function := ⟨0, ['f'], "\x7b\x7d".toList⟩ } (by decide +kernel)) (by decide)
  · rintro ⟨h, -⟩
    exact absurd (h 1 { function := ⟨0, ['f'], "\x7b\x7d".toList⟩ } (by decide +kernel)) (by decide)

end Ollama.Parsers
