import Ollama.Middleware.Writers

/-!
# How the streams end

A generation that goes to its end reaches the client whole, when the arguments of its tool
calls come through the JSON of a line unchanged. One that fails after its first response does
not reach the client as a failure: the error becomes a line like any other, is decoded as an
empty response, and its text is lost.
-/

namespace Ollama.Middleware

open Api Server List Anthropic ChatWriter OpenAI StreamConverter

variable {α : Type}

/-! ## §1  Generations -/

/-- `Done` is true, and there is a `DoneReason`, exactly on the last response. -/
structure Finished (rs : List (ChatResponse α)) : Prop where
  ends : DoneLast rs
  reasons : ∀ r ∈ rs, r.doneReason ≠ [] ↔ r.done = true

/-- What the handler puts on its channel: all responses, or some of them and an error. -/
inductive Generation (α : Type)
  | finished (rs : List (ChatResponse α))
  | failed (rs : List (ChatResponse α)) (error : Text) (status : Option ℤ)

def Generation.values : Generation α → List (Value α)
  | .finished rs => rs.map .response
  | .failed rs error status => rs.map .response ++ [.error error status]

/-- A generation that fails has sent a response before. -/
def Generation.Possible : Generation α → Prop
  | .finished rs => Finished rs
  | .failed rs _ _ => rs ≠ [] ∧ ∃ rest, Finished (rs ++ rest)

/-- The arguments are the same JSON after they were written and read. -/
def Survives (marshal : α → Option Text) (unmarshal : Text → Option α) (a : α) : Prop :=
  ∃ s b, marshal a = some s ∧ unmarshal s = some b ∧ marshal b = some s

def AllSurvive (marshal : α → Option Text) (unmarshal : Text → Option α)
    (rs : List (ChatResponse α)) : Prop :=
  ∀ tc ∈ rs.flatMap (·.message.toolCalls), Survives marshal unmarshal tc.function.arguments

theorem Finished.lastReason {rs : List (ChatResponse α)} (f : Finished rs) :
    (rs.getLast?.getD {}).doneReason ≠ [] := by
  have ends := f.ends
  have reasons := f.reasons
  clear f
  induction ends with
  | last r done => exact (reasons r mem_cons_self).mpr done
  | cons r goesOn ends ih =>
      rename_i rs
      have lastOf : (r :: rs).getLast?.getD {} = rs.getLast?.getD {} := by
        cases ends <;> simp [getLast?_cons]
      rw [lastOf]
      exact ih (forall_mem_cons.mp reasons).2

/-! ## §2  What a line keeps -/

section
variable (marshal : α → Option Text) (unmarshal : Text → Option α)

/-- The responses come out of their lines as `rs'`. -/
abbrev Relayed (rs rs' : List (ChatResponse α)) : Prop :=
  List.Forall₂ (fun r r' => relay marshal unmarshal r = some r') rs rs'

variable {marshal unmarshal} {rs rs' : List (ChatResponse α)}

section

variable (h : Relayed marshal unmarshal rs rs')
include h

theorem Relayed.texts :
    rs'.flatMap (·.message.content) = rs.flatMap (·.message.content) ∧
      rs'.flatMap (·.message.thinking) = rs.flatMap (·.message.thinking) := by
  induction h with
  | nil => exact ⟨rfl, rfl⟩
  | cons one _ ih =>
      obtain ⟨tcs, -, rfl⟩ := relay_eq_some.mp one
      simp [flatMap_cons, ih.1, ih.2]

theorem Relayed.toolCalls :
    List.Forall₂ (RelayedCall marshal unmarshal) (rs.flatMap (·.message.toolCalls))
      (rs'.flatMap (·.message.toolCalls)) := by
  induction h with
  | nil => exact .nil
  | cons one _ ih =>
      obtain ⟨tcs, relayed, rfl⟩ := relay_eq_some.mp one
      exact rel_append relayed ih

theorem Relayed.finished (f : Finished rs) :
    Finished rs' := by
  refine ⟨?_, ?_⟩
  · have ends := f.ends
    clear f
    induction ends generalizing rs' with
    | last r done =>
        obtain _ | ⟨one, _ | _⟩ := h
        obtain ⟨tcs, -, rfl⟩ := relay_eq_some.mp one
        exact .last _ done
    | cons r goesOn _ ih =>
        obtain _ | ⟨one, rest⟩ := h
        obtain ⟨tcs, -, rfl⟩ := relay_eq_some.mp one
        exact .cons _ goesOn (ih rest)
  · have reasons := f.reasons
    clear f
    induction h with
    | nil => exact fun r h => absurd h not_mem_nil
    | cons one _ ih =>
        obtain ⟨tcs, -, rfl⟩ := relay_eq_some.mp one
        obtain ⟨first, later⟩ := forall_mem_cons.mp reasons
        exact forall_mem_cons.mpr ⟨first, ih later⟩

theorem Relayed.doneReason :
    (rs'.getLast?.getD {}).doneReason = (rs.getLast?.getD {}).doneReason := by
  induction h with
  | nil => rfl
  | cons one rest ih =>
      obtain ⟨tcs, -, rfl⟩ := relay_eq_some.mp one
      cases rest with
      | nil => rfl
      | cons one' rest' => simpa [getLast?_cons_cons] using ih

theorem Relayed.kinds (n : ℕ) :
    Anthropic.kinds n rs' = Anthropic.kinds n rs := by
  induction h generalizing n with
  | nil => rfl
  | cons one _ ih =>
      obtain ⟨tcs, relayed, rfl⟩ := relay_eq_some.mp one
      simp [Anthropic.kinds, Anthropic.kindsOf, relayed.length_eq, ih]

theorem Relayed.withCalls :
    (rs'.filter fun r => !r.message.toolCalls.isEmpty).length =
      (rs.filter fun r => !r.message.toolCalls.isEmpty).length := by
  induction h with
  | nil => rfl
  | cons one _ ih =>
      obtain ⟨tcs, relayed, rfl⟩ := relay_eq_some.mp one
      have same := relayed.length_eq
      rw [filter_cons, filter_cons]
      rcases tcs with - | ⟨tc, tcs⟩
      · rw [eq_nil_of_length_eq_zero same]
        exact ih
      · have some := ne_nil_of_length_pos (by rw [same]; exact Nat.succ_pos _)
        rw [if_pos (by rfl), if_pos (by simpa using some), length_cons, length_cons, ih]

end

/-- When all arguments survive, every response comes out of its line. -/
theorem AllSurvive.relayed (h : AllSurvive marshal unmarshal rs) :
    ∃ rs', Relayed marshal unmarshal rs rs' := by
  induction rs with
  | nil => exact ⟨[], .nil⟩
  | cons r rs ih =>
      obtain ⟨rs', rest⟩ := ih fun tc htc => h tc (mem_append_right _ htc)
      have calls : ∃ tcs, List.Forall₂ (RelayedCall marshal unmarshal) r.message.toolCalls tcs := by
        have here : ∀ tc ∈ r.message.toolCalls, Survives marshal unmarshal tc.function.arguments :=
          fun tc htc => h tc (mem_append_left _ htc)
        generalize r.message.toolCalls = tcs at here
        induction tcs with
        | nil => exact ⟨[], .nil⟩
        | cons tc tcs ih =>
            obtain ⟨tcs', relayed⟩ := ih fun tc' h' => here tc' (mem_cons_of_mem _ h')
            obtain ⟨s, b, written, read, -⟩ := here tc mem_cons_self
            exact ⟨{ tc with function := { tc.function with arguments := b } } :: tcs',
              .cons ⟨rfl, rfl, rfl, by rw [written]; exact read⟩ relayed⟩
      obtain ⟨tcs, relayed⟩ := calls
      exact ⟨_ :: rs', .cons (relay_eq_some.mpr ⟨tcs, relayed, rfl⟩) rest⟩

end

/-! ## §3  Writers that decode -/

/-- As long as its state is `ok`, the writer decodes every line and makes a step. -/
structure Decodes {σ ω : Type} (unmarshal : Text → Option α) (w : Server.Writer σ ω) (ok : σ → Prop)
    (step : σ → ChatResponse α → σ × List ω) : Prop where
  write : ∀ s line, ok s → w.write 200 s line = (line.toResponse unmarshal).map (step s)
  keeps : ∀ s r, ok s → ok (step s r).1

section
variable {σ ω : Type} {marshal : α → Option Text} {unmarshal : Text → Option α}
  {w : Server.Writer σ ω} {ok : σ → Prop} {step : σ → ChatResponse α → σ × List ω}

def steps (step : σ → ChatResponse α → σ × List ω) : σ → List (ChatResponse α) → List ω
  | _, [] => []
  | s, r :: rs => (step s r).2 ++ steps step (step s r).1 rs

variable {s : σ}

section

variable (d : Decodes unmarshal w ok step)
include d

theorem Decodes.streamResponse_cons (hs : ok s)
    (written : Bool) (r : ChatResponse α) (rest : List (Value α)) :
    streamResponse marshal w s written (.response r :: rest) =
      match relay marshal unmarshal r with
      | none => []
      | some r' => (step s r').2 ++ streamResponse marshal w (step s r').1
          (written || !(step s r').2.isEmpty) rest := by
  rw [streamResponse, relay]
  rcases encodeResponse marshal r with - | line
  · rfl
  · rw [Option.bind_some, d.write s _ hs, Option.bind_some]
    rcases (Line.response line).toResponse unmarshal with - | r'
    · rfl
    · rfl

theorem Decodes.streamResponse_steps (hs : ok s)
    {rs rs' : List (ChatResponse α)} (h : Relayed marshal unmarshal rs rs') (written : Bool) :
    streamResponse marshal w s written (rs.map .response) = steps step s rs' := by
  induction h generalizing s written with
  | nil => rfl
  | cons one _ ih =>
      rw [map_cons, d.streamResponse_cons hs, one, steps]
      simp only
      rw [ih (d.keeps s _ hs)]

/-- A response that does not come out of its line ends the stream early. -/
theorem Decodes.streamResponse_early (hs : ok s)
    {q : ω → Prop} (hq : ∀ s r, r.done = false → ∀ x ∈ (step s r).2, q x)
    {rs : List (ChatResponse α)} (ends : DoneLast rs)
    (h : ∀ rs', ¬Relayed marshal unmarshal rs rs') (written : Bool) :
    ∀ x ∈ streamResponse marshal w s written (rs.map .response), q x := by
  induction ends generalizing s written with
  | last r done =>
      rw [map_cons, d.streamResponse_cons hs]
      rcases hr : relay marshal unmarshal r with - | r'
      · exact fun x hx => absurd hx not_mem_nil
      · exact absurd (.cons hr .nil) (h [r'])
  | cons r goesOn _ ih =>
      rw [map_cons, d.streamResponse_cons hs]
      rcases hr : relay marshal unmarshal r with - | r'
      · exact fun x hx => absurd hx not_mem_nil
      · have rest := ih (d.keeps s r' hs) fun rs' h' => h _ (.cons hr h')
        obtain ⟨tcs, -, rfl⟩ := relay_eq_some.mp hr
        exact forall_mem_append.mpr ⟨hq s _ goesOn, rest _⟩

/-- After the first response an error is a line like any other. -/
theorem Decodes.streamResponse_failed (hs : ok s)
    {q : ω → Prop} (hq : ∀ s r, ∀ x ∈ (step s r).2, q x) (rs : List (ChatResponse α))
    (error : Text) (status : Option ℤ) (written : Bool)
    (begun : written = true ∨ rs ≠ [] ∧ ∀ r, (step s r).2 ≠ []) :
    ∀ x ∈ streamResponse marshal w s written (rs.map .response ++ [.error error status]), q x := by
  induction rs generalizing s written with
  | nil =>
      obtain rfl : written = true := begun.resolve_right fun h => h.1 rfl
      rw [map_nil, nil_append, streamResponse, if_pos rfl, d.write s _ hs]
      exact hq s {}
  | cons r rs ih =>
      rw [map_cons, cons_append, d.streamResponse_cons hs]
      rcases relay marshal unmarshal r with - | r'
      · exact fun x hx => absurd hx not_mem_nil
      · refine forall_mem_append.mpr ⟨hq s r', ih (d.keeps s r' hs) _ (Or.inl ?_)⟩
        rcases begun with rfl | ⟨-, sends⟩
        · rfl
        · simp [sends r']

end

end

/-! ## §4  OpenAI -/

def choices (sent : List ChatEvent) : List Choice :=
  sent.flatMap fun
    | .chunk c => c.choices
    | _ => []

structure SentCall (marshal : α → Option Text) (tc : ToolCall α) (sent : ToolCall) :
    Prop where
  index : sent.index = tc.function.index
  name : sent.name = tc.function.name
  arguments : marshal tc.function.arguments = some sent.arguments

/-- The client has the whole generation: the deltas, one finish reason in the last chunk with
a choice, and one `[DONE]` at the end. -/
structure ChatDelivered (marshal : α → Option Text) (toolCallId : ℕ → Text) (id : Text)
    (rs : List (ChatResponse α)) (sent : List ChatEvent) : Prop where
  content : (choices sent).flatMap (·.message.content) = rs.flatMap (·.message.content)
  reasoning : (choices sent).flatMap (·.message.reasoning) = rs.flatMap (·.message.thinking)
  toolCalls : List.Forall₂ (SentCall marshal) (rs.flatMap (·.message.toolCalls))
    ((choices sent).flatMap (·.message.toolCalls))
  finishReason : ∃ init last reason, choices sent = init ++ [last] ∧
    (∀ c ∈ init, c.finishReason = none) ∧ last.finishReason = some reason ∧
      (toChatCompletion marshal toolCallId 0 id (aggregate true rs)).choices.map
        (·.finishReason) = [some reason]
  done : ∃ init, sent = init ++ [.done] ∧ .done ∉ init

structure ChatFailed (error : Text) (sent : List ChatEvent) : Prop where
  error : ∃ type, .error (type, error) ∈ sent
  notDone : .done ∉ sent
  notFinished : ∀ c ∈ choices sent, c.finishReason = none

def ChatEnds (marshal : α → Option Text) (toolCallId : ℕ → Text) (id : Text) :
    Generation α → List ChatEvent → Prop
  | .finished rs, sent => ChatDelivered marshal toolCallId id rs sent
  | .failed _ error _, sent => ChatFailed error sent

section
variable (marshal : α → Option Text) (unmarshal : Text → Option α) (toolCallId : ℕ → Text)

theorem chat_decodes : Decodes unmarshal (write marshal unmarshal toolCallId)
    (fun w => w.stream = true) (writeChunk marshal toolCallId) where
  write w line stream := by
    simp only [write, writeResponse, stream, if_true]
    rfl
  keeps w r stream := stream

theorem writeChunk_notDone (w : ChatWriter) (r : ChatResponse α) (goesOn : r.done = false) :
    ∀ x ∈ (w.writeChunk marshal toolCallId r).2, x ≠ .done := by
  simp [writeChunk, goesOn]

theorem writeChunk_notError (w : ChatWriter) (r : ChatResponse α) :
    ∀ x ∈ (w.writeChunk marshal toolCallId r).2, ∀ e, x ≠ .error e := by
  rw [writeChunk]
  cases r.done <;> cases w.includeUsage <;> simp

/-- What `ChatWriter` sends for responses that have come out of their lines. -/
abbrev chunks : ChatWriter → List (ChatResponse α) → List ChatEvent :=
  steps (writeChunk marshal toolCallId)

@[simp] theorem choices_append (sent later : List ChatEvent) :
    choices (sent ++ later) = choices sent ++ choices later :=
  flatMap_append

theorem choices_writeChunk (w : ChatWriter) (r : ChatResponse α) :
    choices (w.writeChunk marshal toolCallId r).2 =
      (toChunk marshal toolCallId w.drawn w.id r w.toolCallSent).choices := by
  rw [writeChunk]
  cases r.done <;> cases w.includeUsage <;> simp [choices]

theorem chunks_texts (w : ChatWriter) (rs : List (ChatResponse α)) :
    (choices (chunks marshal toolCallId w rs)).flatMap (·.message.content) =
        rs.flatMap (·.message.content) ∧
      (choices (chunks marshal toolCallId w rs)).flatMap (·.message.reasoning) =
        rs.flatMap (·.message.thinking) := by
  induction rs generalizing w with
  | nil => exact ⟨rfl, rfl⟩
  | cons r rs ih =>
      obtain ⟨content, reasoning⟩ := ih (w.writeChunk marshal toolCallId r).1
      rw [chunks, steps, choices_append, choices_writeChunk, flatMap_append, flatMap_append,
        content, reasoning, flatMap_cons, flatMap_cons]
      simp only [toChunk, flatMap_cons, flatMap_nil, append_nil, and_self]

def Copies (tc : ToolCall α) (sent : ToolCall) : Prop :=
  sent.index = tc.function.index ∧ sent.name = tc.function.name ∧
    sent.arguments = (marshal tc.function.arguments).getD []

theorem toToolCalls_copies (drawn : ℕ) (tcs : List (ToolCall α)) :
    List.Forall₂ (Copies marshal) tcs (toToolCalls marshal toolCallId drawn tcs) := by
  induction tcs generalizing drawn with
  | nil => exact .nil
  | cons tc tcs ih => exact .cons ⟨rfl, rfl, rfl⟩ (ih _)

theorem chunks_toolCalls (w : ChatWriter) (rs : List (ChatResponse α)) :
    List.Forall₂ (Copies marshal) (rs.flatMap (·.message.toolCalls))
      ((choices (chunks marshal toolCallId w rs)).flatMap (·.message.toolCalls)) := by
  induction rs generalizing w with
  | nil => exact .nil
  | cons r rs ih =>
      rw [chunks, steps, choices_append, choices_writeChunk, flatMap_append, flatMap_cons]
      refine rel_append ?_ (ih _)
      simp only [toChunk, flatMap_cons, flatMap_nil, append_nil]
      exact toToolCalls_copies marshal toolCallId w.drawn r.message.toolCalls

variable {rs : List (ChatResponse α)}

/-- The finish reason is in the last chunk, and it knows of every tool call. -/
theorem chunks_finishReason (f : Finished rs) (w : ChatWriter) :
    ∃ init last, choices (chunks marshal toolCallId w rs) = init ++ [last] ∧
      (∀ c ∈ init, c.finishReason = none) ∧ last.finishReason = some
        (if w.toolCallSent = true ∨ rs.flatMap (·.message.toolCalls) ≠ [] then
          "tool_calls".toList else (rs.getLast?.getD {}).doneReason) := by
  have ends := f.ends
  have reasons := f.reasons
  clear f
  induction ends generalizing w with
  | last r done =>
      have reason := (reasons r mem_cons_self).mpr done
      rw [chunks, steps, choices_append, choices_writeChunk]
      refine ⟨[], _, rfl, fun c h => absurd h not_mem_nil, ?_⟩
      simp only [if_pos reason, ne_eq, toToolCalls_eq_nil, flatMap_cons,
        flatMap_nil, append_nil, getLast?_singleton, Option.getD_some]
      split <;> rfl
  | cons r goesOn ends ih =>
      rename_i rs
      obtain ⟨first, later⟩ := forall_mem_cons.mp reasons
      obtain ⟨init, last, split, none, finish⟩ := ih (w.writeChunk marshal toolCallId r).1 later
      have noReason : r.doneReason = [] := by
        by_contra reason
        simp [first.mp reason] at goesOn
      have lastOf : (r :: rs).getLast?.getD {} = rs.getLast?.getD {} := by
        cases ends <;> simp [getLast?_cons]
      rw [chunks, steps, choices_append, choices_writeChunk, split, ← append_assoc]
      refine ⟨_, last, rfl, ?_, ?_⟩
      · intro c hc
        rcases mem_append.mp hc with hc | hc
        · simp only [toChunk, noReason, mem_singleton] at hc
          rw [hc]
          rfl
        · exact none c hc
      · rw [finish, lastOf, flatMap_cons]
        have flag : ((w.writeChunk marshal toolCallId r).1.toolCallSent = true ∨
            rs.flatMap (·.message.toolCalls) ≠ []) ↔ (w.toolCallSent = true ∨
              r.message.toolCalls ++ rs.flatMap (·.message.toolCalls) ≠ []) := by
          simp only [writeChunk, Bool.or_eq_true, Bool.not_eq_true', ne_eq,
            append_eq_nil_iff, isEmpty_eq_false_iff, not_and_or]
          tauto
        simp only [flag]

theorem chunks_done (ends : DoneLast rs) (w : ChatWriter) :
    ∃ init, chunks marshal toolCallId w rs = init ++ [.done] ∧ .done ∉ init := by
  induction ends generalizing w with
  | last r done =>
      refine ⟨.chunk (toChunk marshal toolCallId w.drawn w.id r w.toolCallSent) ::
        if w.includeUsage then [.chunk
          { toChunk marshal toolCallId w.drawn w.id r w.toolCallSent with
            usage := some (toUsage r), choices := [] }] else [], ?_, ?_⟩
      · simp [chunks, steps, writeChunk, done]
      · split <;> simp
  | cons r goesOn _ ih =>
      obtain ⟨init, split, fresh⟩ := ih (w.writeChunk marshal toolCallId r).1
      refine ⟨.chunk (toChunk marshal toolCallId w.drawn w.id r w.toolCallSent) :: init,
        ?_, by simpa using fresh⟩
      rw [chunks] at split
      rw [chunks, steps, split]
      simp [writeChunk, goesOn]

variable {marshal unmarshal}

theorem survive_of_sentCalls (json : ∀ a, marshal a ≠ some []) {tcs tcs' : List (ToolCall α)}
    {sent : List ToolCall} (relayed : List.Forall₂ (RelayedCall marshal unmarshal) tcs tcs')
    (copies : List.Forall₂ (Copies marshal) tcs' sent)
    (calls : List.Forall₂ (SentCall marshal) tcs sent) :
    ∀ tc ∈ tcs, Survives marshal unmarshal tc.function.arguments := by
  induction relayed generalizing sent with
  | nil => exact fun tc h => absurd h not_mem_nil
  | cons one _ ih =>
      obtain _ | ⟨⟨-, -, copy⟩, copies⟩ := copies
      obtain _ | ⟨call, calls⟩ := calls
      refine forall_mem_cons.mpr ⟨?_, ih copies calls⟩
      have args := one.arguments
      rw [call.arguments] at args
      refine ⟨_, _, call.arguments, args, ?_⟩
      rcases again : marshal _ with - | s
      · rw [again] at copy
        exact absurd (call.arguments.trans (congrArg some copy)) (json _)
      · rw [again] at copy
        rw [copy]
        rfl

theorem sentCalls_of_survive {tcs tcs' : List (ToolCall α)} {sent : List ToolCall}
    (relayed : List.Forall₂ (RelayedCall marshal unmarshal) tcs tcs')
    (copies : List.Forall₂ (Copies marshal) tcs' sent)
    (survive : ∀ tc ∈ tcs, Survives marshal unmarshal tc.function.arguments) :
    List.Forall₂ (SentCall marshal) tcs sent := by
  induction relayed generalizing sent with
  | nil =>
      cases copies
      exact .nil
  | cons one _ ih =>
      obtain _ | ⟨⟨index, name, copy⟩, copies⟩ := copies
      obtain ⟨here, later⟩ := forall_mem_cons.mp survive
      refine .cons ⟨index.trans one.index, name.trans one.name, ?_⟩ (ih copies later)
      obtain ⟨s, b, written, read, again⟩ := here
      have args := one.arguments
      rw [written, Option.bind_some, read] at args
      rw [← Option.some.inj args, again] at copy
      rw [written, copy]
      rfl

variable (marshal unmarshal)

/-- The reason of the whole response. -/
theorem toChatCompletion_finishReason (id : Text) (f : Finished rs) :
    (toChatCompletion marshal toolCallId 0 id (aggregate true rs)).choices.map (·.finishReason) =
      [some (if rs.flatMap (·.message.toolCalls) ≠ [] then "tool_calls".toList
        else (rs.getLast?.getD {}).doneReason)] := by
  have some : (if rs.flatMap (·.message.toolCalls) ≠ [] then "tool_calls".toList
      else (rs.getLast?.getD {}).doneReason) ≠ [] := by
    split
    · decide
    · exact f.lastReason
  simp only [toChatCompletion, ne_eq, toToolCalls_eq_nil, aggregate_toolCalls,
    aggregate_doneReason, map_cons, map_nil] at some ⊢
  rw [if_pos some]

/-- A finished generation reaches the client of the OpenAI interface exactly when the
arguments survive. -/
theorem chat_delivered (json : ∀ a, marshal a ≠ some []) (includeUsage : Bool) (id : Text)
    (f : Finished rs) :
    ChatDelivered marshal toolCallId id rs
        (streamResponse marshal (write marshal unmarshal toolCallId)
          { stream := true, includeUsage := includeUsage, id := id } false (rs.map .response)) ↔
      AllSurvive marshal unmarshal rs := by
  constructor
  · intro whole
    by_cases relayed : ∃ rs', Relayed marshal unmarshal rs rs'
    · obtain ⟨rs', relayed⟩ := relayed
      have calls := whole.toolCalls
      rw [(chat_decodes marshal unmarshal toolCallId).streamResponse_steps rfl relayed] at calls
      exact survive_of_sentCalls json relayed.toolCalls (chunks_toolCalls marshal toolCallId _ rs')
        calls
    · have noDone := (chat_decodes marshal unmarshal toolCallId).streamResponse_early
        (s := { stream := true, includeUsage := includeUsage, id := id }) rfl
        (writeChunk_notDone marshal toolCallId) f.ends (fun rs' h => relayed ⟨rs', h⟩) false
      obtain ⟨init, split, -⟩ := whole.done
      rw [split] at noDone
      exact absurd rfl (noDone .done (by simp))
  · intro survive
    obtain ⟨rs', relayed⟩ := survive.relayed
    have f' := relayed.finished f
    rw [(chat_decodes marshal unmarshal toolCallId).streamResponse_steps rfl relayed]
    obtain ⟨content, reasoning⟩ := chunks_texts marshal toolCallId
      { stream := true, includeUsage := includeUsage, id := id } rs'
    obtain ⟨init, last, split, none, finish⟩ := chunks_finishReason marshal toolCallId f'
      { stream := true, includeUsage := includeUsage, id := id }
    refine ⟨content.trans relayed.texts.1, reasoning.trans relayed.texts.2,
      sentCalls_of_survive relayed.toolCalls (chunks_toolCalls marshal toolCallId _ rs') survive,
      ⟨init, last, _, split, none, finish, ?_⟩, chunks_done marshal toolCallId f'.ends _⟩
    have same : rs'.flatMap (·.message.toolCalls) ≠ [] ↔ rs.flatMap (·.message.toolCalls) ≠ [] := by
      rw [← length_pos_iff, ← length_pos_iff, relayed.toolCalls.length_eq]
    rw [toChatCompletion_finishReason marshal toolCallId id f, relayed.doneReason]
    simp only [Bool.false_eq_true, false_or, same]

theorem chat_notFailed (includeUsage : Bool) (id : Text)
    (some : rs ≠ []) (error : Text) (status : Option ℤ) :
    ¬ChatFailed error (streamResponse marshal (write marshal unmarshal toolCallId)
          { stream := true, includeUsage := includeUsage, id := id } false
          (rs.map .response ++ [.error error status])) := by
  rintro ⟨⟨type, sent⟩, -, -⟩
  exact (chat_decodes marshal unmarshal toolCallId).streamResponse_failed rfl
    (writeChunk_notError marshal toolCallId) rs error status false
    (Or.inr ⟨some, fun r => by simp [writeChunk]⟩) _ sent _ rfl

end

/-! ## §5  Anthropic -/

def events (sent : List (AnthropicEvent α)) : List (StreamEvent α) :=
  sent.filterMap fun
    | .event e => some e
    | _ => none

/-- The client has the whole generation, and one `message_stop` at the end. -/
structure AnthropicDelivered (marshal : α → Option Text) (toolUseID : ℕ → Text) (id : Text)
    (rs : List (ChatResponse α)) (sent : List (AnthropicEvent α)) : Prop where
  delivered : Delivered marshal rs (events sent)
    (toMessagesResponse toolUseID id (aggregate true rs)).stopReason
  stop : ∃ init, sent = init ++ [.event .messageStop] ∧ .event .messageStop ∉ init

structure AnthropicFailed (error : Text) (sent : List (AnthropicEvent α)) : Prop where
  error : ∃ type, .error type error ∈ sent
  notStopped : .event .messageStop ∉ sent
  noReason : stopReasons (events sent) = []

def AnthropicEnds (marshal : α → Option Text) (toolUseID : ℕ → Text) (id : Text) :
    Generation α → List (AnthropicEvent α) → Prop
  | .finished rs, sent => AnthropicDelivered marshal toolUseID id rs sent
  | .failed _ error _, sent => AnthropicFailed error sent

section
variable (marshal : α → Option Text) (unmarshal : Text → Option α) (toolUseID : ℕ → Text)

/-- The streaming branch of `AnthropicWriter.writeResponse`. -/
def writeEvents (w : AnthropicWriter) (r : ChatResponse α) :
    AnthropicWriter × List (AnthropicEvent α) :=
  ({ w with converter := (w.converter.process marshal toolUseID r).2 },
    (w.converter.process marshal toolUseID r).1.map .event)

theorem anthropic_decodes : Decodes unmarshal (AnthropicWriter.write marshal unmarshal toolUseID)
    (fun w => w.stream = true) (writeEvents marshal toolUseID) where
  write w line stream := by
    obtain ⟨streams, id, converter⟩ := w
    obtain rfl : streams = true := stream
    rfl
  keeps w r stream := stream

theorem steps_writeEvents (w : AnthropicWriter) (rs : List (ChatResponse α)) :
    steps (writeEvents marshal toolUseID) w rs =
      (w.converter.processAll marshal toolUseID rs).1.map .event := by
  induction rs generalizing w with
  | nil => rfl
  | cons r rs ih =>
      rw [steps, ih]
      simp [writeEvents, processAll]

theorem events_map (es : List (StreamEvent α)) : events (es.map .event) = es := by
  rw [events, filterMap_map]
  simp

theorem writeEvents_notStop (w : AnthropicWriter) (r : ChatResponse α) (goesOn : r.done = false) :
    ∀ x ∈ (writeEvents marshal toolUseID w r).2, x ≠ .event .messageStop := by
  intro x hx
  obtain ⟨e, he, rfl⟩ := mem_map.mp hx
  rintro ⟨⟩
  simp only [process, messageStart, messageStop, goesOn, Bool.false_eq_true, if_false] at he
  split at he <;> simp at he

theorem writeEvents_notError (w : AnthropicWriter) (r : ChatResponse α) :
    ∀ x ∈ (writeEvents marshal toolUseID w r).2, ∀ type message, x ≠ .error type message := by
  intro x hx
  obtain ⟨e, -, rfl⟩ := mem_map.mp hx
  exact fun type message h => nomatch h

variable {rs : List (ChatResponse α)}

theorem processAll_stop (ends : DoneLast rs) (c : StreamConverter) :
    ∃ init, (c.processAll marshal toolUseID rs).1 = init ++ [.messageStop] ∧
      .messageStop ∉ init := by
  have head : .messageStop ∉ headOf c rs := by
    rw [headOf]
    cases rs with
    | nil => simp
    | cons r rs =>
        show .messageStop ∉ (c.messageStart r).1
        rw [messageStart]
        split <;> simp
  rw [processAll_events marshal toolUseID ends c]
  generalize mapStopReason _ _ = reason
  exact ⟨headOf c rs ++ ((marksAll marshal toolUseID c rs).map .contentBlock ++
    [.messageDelta reason (rs.getLast?.getD {}).metrics.evalCount]), by simp, by simp [head]⟩

variable {marshal unmarshal}

/-- Two calls that give the same block: the arguments survive. -/
theorem survive_of_delivers {tcs tcs' : List (ToolCall α)} {uses : List ToolUse}
    (relayed : List.Forall₂ (RelayedCall marshal unmarshal) tcs tcs')
    (before : List.Forall₂ (Delivers marshal) tcs uses)
    (after : List.Forall₂ (Delivers marshal) tcs' uses) :
    ∀ tc ∈ tcs, Survives marshal unmarshal tc.function.arguments := by
  induction relayed generalizing uses with
  | nil => exact fun tc h => absurd h not_mem_nil
  | cons one _ ih =>
      obtain _ | ⟨sent, before⟩ := before
      obtain _ | ⟨got, after⟩ := after
      refine forall_mem_cons.mpr ⟨?_, ih before after⟩
      have args := one.arguments
      rw [sent.input] at args
      exact ⟨_, _, sent.input, args, got.input⟩

theorem delivers_of_survive {tcs tcs' : List (ToolCall α)} {uses : List ToolUse}
    (relayed : List.Forall₂ (RelayedCall marshal unmarshal) tcs tcs')
    (after : List.Forall₂ (Delivers marshal) tcs' uses)
    (survive : ∀ tc ∈ tcs, Survives marshal unmarshal tc.function.arguments) :
    List.Forall₂ (Delivers marshal) tcs uses := by
  induction relayed generalizing uses with
  | nil =>
      cases after
      exact .nil
  | cons one _ ih =>
      obtain _ | ⟨got, after⟩ := after
      obtain ⟨here, later⟩ := forall_mem_cons.mp survive
      refine .cons ⟨got.name.trans one.name, ?_, ?_⟩ (ih after later)
      · obtain ⟨s, b, written, read, again⟩ := here
        have args := one.arguments
        rw [written, Option.bind_some, read] at args
        rw [written, ← again, Option.some.inj args]
        exact got.input
      · intro given
        rw [← one.id] at given ⊢
        exact got.id given

theorem marshalable_of_survive {rs rs' : List (ChatResponse α)}
    (relayed : Relayed marshal unmarshal rs rs') (survive : AllSurvive marshal unmarshal rs) :
    Marshalable marshal rs' := by
  have calls : ∀ tc ∈ rs'.flatMap (·.message.toolCalls),
      (marshal tc.function.arguments).isSome := by
    have through := relayed.toolCalls
    rw [AllSurvive] at survive
    generalize rs.flatMap (·.message.toolCalls) = tcs at through survive
    generalize rs'.flatMap (·.message.toolCalls) = tcs' at through
    induction through with
    | nil => exact fun tc h => absurd h not_mem_nil
    | cons one _ ih =>
        obtain ⟨⟨s, b, written, read, again⟩, later⟩ := forall_mem_cons.mp survive
        have args := one.arguments
        rw [written, Option.bind_some, read] at args
        refine forall_mem_cons.mpr ⟨?_, ih later⟩
        rw [← Option.some.inj args, again]
        rfl
  exact fun r hr tc htc => calls tc (mem_flatMap.mpr ⟨r, hr, htc⟩)

variable (marshal unmarshal)

/-- A finished generation reaches the client of the Anthropic interface exactly when the
arguments survive and the event stream loses nothing. -/
theorem anthropic_delivered (id model : Text) (f : Finished rs) :
    AnthropicDelivered marshal toolUseID id rs
        (streamResponse marshal (AnthropicWriter.write marshal unmarshal toolUseID)
          { stream := true, id := id, converter := newStreamConverter id model } false
          (rs.map .response)) ↔
      AllSurvive marshal unmarshal rs ∧ ¬List.Sublist [.thinking, .text, .thinking] (kinds 0 rs) ∧
          (rs.filter fun r => !r.message.toolCalls.isEmpty).length ≤ 1 := by
  have decodes := anthropic_decodes marshal unmarshal toolUseID
  constructor
  · intro whole
    by_cases relayed : ∃ rs', Relayed marshal unmarshal rs rs'
    · obtain ⟨rs', relayed⟩ := relayed
      have f' := relayed.finished f
      have delivered := whole.delivered
      rw [decodes.streamResponse_steps rfl relayed, steps_writeEvents, events_map] at delivered
      have thinking := delivered.thinking
      have full := delivered.toolUses.length_eq.symm
      rw [← relayed.texts.2] at thinking
      rw [relayed.toolCalls.length_eq] at full
      obtain ⟨order, once, written⟩ :=
        kept_of_full marshal toolUseID id model f'.ends thinking full
      have again :=
        delivered_of_kept marshal toolUseID id model f'.ends order once written
      rw [relayed.kinds] at order
      rw [relayed.withCalls] at once
      exact ⟨survive_of_delivers relayed.toolCalls delivered.toolUses again.toolUses, order, once⟩
    · have notStop := decodes.streamResponse_early
        (s := { stream := true, id := id, converter := newStreamConverter id model }) rfl
        (writeEvents_notStop marshal toolUseID) f.ends (fun rs' h => relayed ⟨rs', h⟩) false
      obtain ⟨init, split, -⟩ := whole.stop
      rw [split] at notStop
      exact absurd rfl (notStop (.event .messageStop) (by simp))
  · rintro ⟨survive, order, once⟩
    obtain ⟨rs', relayed⟩ := survive.relayed
    have f' := relayed.finished f
    rw [← relayed.kinds] at order
    rw [← relayed.withCalls] at once
    have delivered := delivered_of_kept marshal toolUseID id model f'.ends order once
      (marshalable_of_survive relayed survive)
    rw [decodes.streamResponse_steps rfl relayed, steps_writeEvents]
    refine ⟨?_, ?_⟩
    · rw [events_map, toMessagesResponse_stopReason]
      refine ⟨delivered.thinking.trans relayed.texts.2, delivered.text.trans relayed.texts.1,
        delivers_of_survive relayed.toolCalls delivered.toolUses survive, ?_⟩
      have same : (rs'.flatMap (·.message.toolCalls)).isEmpty =
          (rs.flatMap (·.message.toolCalls)).isEmpty := by
        rw [Bool.eq_iff_iff, isEmpty_iff_length_eq_zero, isEmpty_iff_length_eq_zero,
          relayed.toolCalls.length_eq]
      rw [delivered.stopReason, relayed.doneReason, same]
    · obtain ⟨init, split, fresh⟩ := processAll_stop marshal toolUseID f'.ends
        (newStreamConverter id model)
      refine ⟨init.map .event, ?_, ?_⟩
      · rw [split, map_append]
        rfl
      · simpa using fresh

theorem anthropic_notFailed (id model : Text) (some : rs ≠ []) (error : Text) (status : Option ℤ) :
    ¬AnthropicFailed error
        (streamResponse marshal (AnthropicWriter.write marshal unmarshal toolUseID)
          { stream := true, id := id, converter := newStreamConverter id model } false
          (rs.map .response ++ [.error error status])) := by
  rintro ⟨⟨type, sent⟩, -, -⟩
  refine (anthropic_decodes marshal unmarshal toolUseID).streamResponse_failed rfl
    (writeEvents_notError marshal toolUseID) rs error status false
    (Or.inr ⟨some, fun r => ?_⟩) _ sent _ _ rfl
  simp [writeEvents, process, messageStart, newStreamConverter]

end

/-! ## §6  Both -/

/-- **How the streams end.** The client of either interface gets what it should exactly when
the generation is finished, the arguments of its tool calls survive and, for Anthropic, the
event stream loses nothing. No client learns of a failure. -/
theorem streams_end (marshal : α → Option Text) (unmarshal : Text → Option α)
    (json : ∀ a, marshal a ≠ some []) (toolCallId toolUseID : ℕ → Text) (includeUsage : Bool)
    (id model : Text) (g : Generation α) (possible : g.Possible) :
    (ChatEnds marshal toolCallId id g (streamResponse marshal (write marshal unmarshal toolCallId)
          { stream := true, includeUsage := includeUsage, id := id } false g.values) ↔
      ∃ rs, g = .finished rs ∧ AllSurvive marshal unmarshal rs) ∧
    (AnthropicEnds marshal toolUseID id g
        (streamResponse marshal (AnthropicWriter.write marshal unmarshal toolUseID)
          { stream := true, id := id, converter := newStreamConverter id model } false
          g.values) ↔
      ∃ rs, g = .finished rs ∧ AllSurvive marshal unmarshal rs ∧
        ¬List.Sublist [.thinking, .text, .thinking] (kinds 0 rs) ∧
          (rs.filter fun r => !r.message.toolCalls.isEmpty).length ≤ 1) := by
  cases g with
  | finished rs =>
      have chat := chat_delivered marshal unmarshal toolCallId json includeUsage id possible
      have anthropic := anthropic_delivered marshal unmarshal toolUseID id model possible
      refine ⟨chat.trans ⟨fun h => ⟨rs, rfl, h⟩, ?_⟩, anthropic.trans ⟨fun h => ⟨rs, rfl, h⟩, ?_⟩⟩
      · rintro ⟨rs', ⟨⟩, h⟩
        exact h
      · rintro ⟨rs', ⟨⟩, h⟩
        exact h
  | failed rs error status =>
      refine ⟨iff_of_false ?_ ?_, iff_of_false ?_ ?_⟩
      · exact chat_notFailed marshal unmarshal toolCallId includeUsage id possible.1 error status
      · rintro ⟨rs', ⟨⟩, -⟩
      · exact anthropic_notFailed marshal unmarshal toolUseID id model possible.1 error status
      · rintro ⟨rs', ⟨⟩, -⟩

theorem streams_end_stop : ChatDelivered (fun _ : Unit => some ['{', '}']) (fun _ => ['c']) ['i']
      [{ message := { content := ['a'] } },
        { message := { toolCalls := [{ function := { name := ['f'], arguments := () } }] }
          done := true, doneReason := "stop".toList }]
      (streamResponse (fun _ : Unit => some ['{', '}'])
        (write (fun _ : Unit => some ['{', '}']) (fun _ => some ()) (fun _ => ['c']))
        { stream := true, includeUsage := true, id := ['i'] } false
        (Generation.finished [{ message := { content := ['a'] } },
          { message := { toolCalls := [{ function := { name := ['f'], arguments := () } }] }
            done := true, doneReason := "stop".toList }]).values) :=
  (streams_end (fun _ : Unit => some ['{', '}']) (fun _ => some ()) (fun _ => by simp)
    (fun _ => ['c']) (fun _ => ['t']) true ['i'] ['m'] (.finished _)
    ⟨.cons _ rfl (.last _ rfl), by decide⟩).1.mpr
    ⟨_, rfl, fun _ _ => ⟨_, (), rfl, rfl, rfl⟩⟩

/-- A response, then an error: neither client gets the error. -/
theorem streams_notEnd_failed :
    (Generation.failed [{ message := { content := ['a'] } }] ['e'] none : Generation Unit).Possible ∧
      ¬ChatEnds (fun _ : Unit => some ['{', '}']) (fun _ => ['c']) ['i']
        (.failed [{ message := { content := ['a'] } }] ['e'] none)
        (streamResponse (fun _ : Unit => some ['{', '}'])
          (write (fun _ : Unit => some ['{', '}']) (fun _ => some ()) (fun _ => ['c']))
          { stream := true, includeUsage := false, id := ['i'] } false
          (Generation.failed [{ message := { content := ['a'] } }] ['e'] none).values) ∧
      ¬AnthropicEnds (fun _ : Unit => some ['{', '}']) (fun _ => ['t']) ['i']
        (.failed [{ message := { content := ['a'] } }] ['e'] none)
        (streamResponse (fun _ : Unit => some ['{', '}'])
          (AnthropicWriter.write (fun _ : Unit => some ['{', '}']) (fun _ => some ())
            (fun _ => ['t']))
          { stream := true, id := ['i'], converter := newStreamConverter ['i'] ['m'] }
          false (Generation.failed [{ message := { content := ['a'] } }] ['e'] none).values) :=
  ⟨⟨by decide, [{ done := true, doneReason := "stop".toList }],
      .cons _ rfl (.last _ rfl), by decide⟩,
    chat_notFailed _ _ _ _ _ (by decide) _ _, anthropic_notFailed _ _ _ _ _ (by decide) _ _⟩

end Ollama.Middleware
