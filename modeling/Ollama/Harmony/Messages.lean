import Ollama.Harmony.FunctionNames

/-!
# Messages through the harmony handler

`Init` and `Add` of `HarmonyMessageHandler` in `harmony/harmonyparser.go`, and what a client gets
of a sequence of messages. There is one tool accumulator, which is read when the response is
done. What `json.Unmarshal` makes of the arguments is a parameter.
-/

namespace Ollama.Harmony

open Lib Parsers Bytes Utf8 List HarmonyParser

/-! ## §1  The handler -/

namespace Routed

@[simp] theorem append_none (r : Routed) : r ++ none = r :=
  Routed.ext (append_nil _) (append_nil _) (append_nil _)

@[simp] theorem toolContent_append (r r' : Routed) :
    (r ++ r').toolContent = r.toolContent ++ r'.toolContent := rfl

end Routed

/-- The handler with what `Init` gives it: the text of the tool accumulator (its tool name is with
the handler's state) and the names of the functions. -/
structure HarmonyToolHandler where
  handler : HarmonyMessageHandler harmonyTags
  acc : Bytes
  functionNameMap : FunctionNameMap

/-- The function of an `api.ToolCall`. -/
structure HarmonyToolCall (α : Type) where
  name : Bytes
  arguments : α
  deriving DecidableEq

/-- The values that `Add` returns. -/
@[ext] structure HarmonyAnswer (α : Type) where
  content : Bytes
  thinking : Bytes
  calls : List (HarmonyToolCall α)
  err : Option Bytes
  deriving DecidableEq

namespace HarmonyAnswer

variable {α : Type}

def none : HarmonyAnswer α := ⟨[], [], [], Option.none⟩

/-- An answer and a later one. -/
instance : Append (HarmonyAnswer α) :=
  ⟨fun a a' => ⟨a.content ++ a'.content, a.thinking ++ a'.thinking, a.calls ++ a'.calls,
    a.err.or a'.err⟩⟩

@[simp] theorem append_none (a : HarmonyAnswer α) : a ++ none = a := by
  refine HarmonyAnswer.ext (append_nil _) (append_nil _) (append_nil _) ?_
  show a.err.or Option.none = a.err
  rw [Option.or_none]

/-- All the answers of a run, one after the other. -/
def all (as : List (HarmonyAnswer α)) : HarmonyAnswer α := as.foldr (· ++ ·) none

end HarmonyAnswer

namespace HarmonyToolHandler

variable {α : Type}

/-- `NewHarmonyMessageHandler` and `Init`, with the names that the tools get. -/
def init (unicode : Unicode) (tools : List Bytes) (lastMessage : Option LastMessage) :
    HarmonyToolHandler × List Bytes :=
  let processed := processTools unicode [] tools
  (⟨newHarmonyMessageHandler lastMessage, [], processed.2⟩, processed.1)

/-- The text of the error that `Add` returns. -/
def toolCallError (raw err : Bytes) : Bytes :=
  lit "error parsing tool call: raw='" ++ raw ++ lit "', err=" ++ err

variable (unmarshal : Bytes → Except Bytes α)

/-- The tool call of `Add` when the response is done: `Drain`, the name and the arguments. -/
def drainToolCall (h : HarmonyToolHandler) : List (HarmonyToolCall α) × Option Bytes :=
  match h.handler.toolName with
  | none => ([], none)
  | some toolName =>
      let name := h.functionNameMap.originalFromConverted (trimPrefix toolName (lit "functions."))
      match unmarshal h.acc with
      | .ok args => ([⟨name, args⟩], none)
      | .error err => ([], some (toolCallError h.acc err))

def add (s : Bytes) (done : Bool) (h : HarmonyToolHandler) : HarmonyAnswer α × HarmonyToolHandler :=
  let out := h.handler.addContent s
  let h := { h with handler := out.2, acc := h.acc ++ out.1.toolContent }
  if done then
    match drainToolCall unmarshal h with
    | (calls, none) => (⟨out.1.content, out.1.thinking, calls, none⟩, { h with acc := [] })
    | (_, some err) => (⟨[], [], [], some err⟩, { h with acc := [] })
  else (⟨out.1.content, out.1.thinking, [], none⟩, h)

/-- The chunks passed to `Add` in order, the last call with `done`. -/
def run (h : HarmonyToolHandler) (chunks : List Bytes) : HarmonyAnswer α :=
  .all (feed (fun h s done => add unmarshal s done h) (fun a => a.err.isSome) h chunks).1

/-! ## §2  Runs of `Add` -/

variable {unmarshal}

def collected (h : HarmonyToolHandler) (chunks : List Bytes) : HarmonyToolHandler :=
  { h with
    handler := (h.handler.addAll chunks).2
    acc := h.acc ++ (h.handler.addAll chunks).1.toolContent }

theorem add_more (h : HarmonyToolHandler) (s : Bytes) : add unmarshal s false h =
      (⟨(h.handler.addContent s).1.content, (h.handler.addContent s).1.thinking, [], none⟩,
        h.collected [s]) := by
  unfold collected
  rw [HarmonyMessageHandler.addAll, HarmonyMessageHandler.addAll]
  simp [add, Routed.append_none]

theorem collected_cons (h : HarmonyToolHandler) (s : Bytes) (chunks : List Bytes) :
    h.collected (s :: chunks) = (h.collected [s]).collected chunks := by
  unfold collected
  simp only [HarmonyMessageHandler.addAll, Routed.append_none, Routed.toolContent_append,
    append_assoc]

/-- The last call: what is routed, and the tool call of the accumulator. -/
theorem add_last (h : HarmonyToolHandler) (s : Bytes) :
    (add unmarshal s true h).1.calls = (drainToolCall unmarshal (h.collected [s])).1 ∧
      (add unmarshal s true h).1.err = (drainToolCall unmarshal (h.collected [s])).2 ∧
      ((drainToolCall unmarshal (h.collected [s])).2 = none →
        (add unmarshal s true h).1.content = (h.handler.addContent s).1.content ∧
          (add unmarshal s true h).1.thinking = (h.handler.addContent s).1.thinking) := by
  have hsame : ({ h with
      handler := (h.handler.addContent s).2
      acc := h.acc ++ (h.handler.addContent s).1.toolContent } : HarmonyToolHandler) =
        h.collected [s] := by
    unfold collected
    rw [HarmonyMessageHandler.addAll, HarmonyMessageHandler.addAll]
    simp only [Routed.append_none]
  have hcalls : ∀ (h : HarmonyToolHandler) err, (drainToolCall unmarshal h).2 = some err →
      (drainToolCall unmarshal h).1 = [] := by
    intro h err herr
    unfold drainToolCall at herr ⊢
    cases hname : h.handler.toolName with
    | none => rfl
    | some name =>
      rw [hname] at herr
      cases hread : unmarshal h.acc with
      | error e => rfl
      | ok args =>
        rw [hread] at herr
        cases herr
  unfold add
  dsimp only
  rw [hsame, if_pos rfl]
  rcases hdrain : drainToolCall unmarshal (h.collected [s]) with ⟨calls, - | err⟩
  · exact ⟨rfl, rfl, fun _ => ⟨rfl, rfl⟩⟩
  · have hnil := hcalls (h.collected [s]) err (by rw [hdrain])
    rw [hdrain] at hnil
    exact ⟨hnil.symm, rfl, nofun⟩

/-- **Runs.** The contents come as they are routed, unless the one tool call is not decoded. -/
theorem run_eq (h : HarmonyToolHandler) {chunks : List Bytes} (hne : chunks ≠ []) :
    (run unmarshal h chunks).calls = (drainToolCall unmarshal (h.collected chunks)).1 ∧
      (run unmarshal h chunks).err = (drainToolCall unmarshal (h.collected chunks)).2 ∧
      ((drainToolCall unmarshal (h.collected chunks)).2 = none →
        (run unmarshal h chunks).content = (h.handler.addAll chunks).1.content ∧
          (run unmarshal h chunks).thinking = (h.handler.addAll chunks).1.thinking) := by
  induction chunks generalizing h with
  | nil => exact absurd rfl hne
  | cons s chunks ih =>
    cases chunks with
    | nil =>
      have hlast := @add_last α unmarshal h s
      have hrun : run unmarshal h [s] = (add unmarshal s true h).1 ++ .none := rfl
      rw [hrun, HarmonyAnswer.append_none, HarmonyMessageHandler.addAll,
        HarmonyMessageHandler.addAll]
      simpa only [Routed.append_none] using hlast
    | cons s' chunks =>
      have hrun : run unmarshal h (s :: s' :: chunks) =
          ⟨(h.handler.addContent s).1.content, (h.handler.addContent s).1.thinking, [], none⟩ ++
            run unmarshal (h.collected [s]) (s' :: chunks) := by
        unfold run
        rw [feed, add_more, if_neg (by exact Bool.false_ne_true)]
        rfl
      obtain ⟨hcalls, herr, hrest⟩ := ih (h.collected [s]) (cons_ne_nil _ _)
      rw [hrun, collected_cons h s (s' :: chunks), HarmonyMessageHandler.addAll]
      refine ⟨hcalls, herr, fun hnone => ?_⟩
      obtain ⟨hcontent, hthinking⟩ := hrest hnone
      exact ⟨congrArg (_ ++ ·) hcontent, congrArg (_ ++ ·) hthinking⟩

end HarmonyToolHandler

/-! ## §3  Written messages -/

/-- A message that a model writes. -/
structure WrittenMessage where
  header : WrittenHeader
  body : Bytes
  body_unmarked : Unmarked body

namespace WrittenMessage

def openText (m : WrittenMessage) : Bytes :=
  lit "<|start|>" ++ (encode m.header.text ++ (lit "<|message|>" ++ m.body))

def text (m : WrittenMessage) : Bytes := m.openText ++ lit "<|end|>"

/-- What the model writes after the start that `Init` writes; the last message may lack its
end tag. -/
def streamText (ms : List WrittenMessage) (last : Option WrittenMessage) : Bytes :=
  (ms.flatMap text ++ (last.map openText).getD []).drop (lit "<|start|>assistant").length

/-- The state in which the body of a message is routed. -/
def stateAfter (m : WrittenMessage) : HarmonyMessageState :=
  match m.header.recipient, m.header.channel with
  | some _, _ => .toolCalling
  | none, .analysis => .thinking
  | none, _ => .normal

def nameAfter (m : WrittenMessage) (toolName : Option Bytes) : Option Bytes :=
  (m.header.recipient.map encode).or toolName

def routedBody (m : WrittenMessage) (body : Bytes) : Routed :=
  routed m.stateAfter (.contentEmitted body)

def complete (m : WrittenMessage) : Message harmonyTags :=
  .ofPlain (c := 60) (by decide) (by decide) (encode m.header.text) m.body m.header.text_message
    (m.body_unmarked _ (by decide))

variable {m : WrittenMessage}

theorem complete_text (m : WrittenMessage) : m.complete.text = m.text := by
  unfold Message.text text openText
  simp only [append_assoc]
  rfl

/-- The header of a message sets the state and the tool name. -/
theorem handle_header (m : WrittenMessage) (toolName : Option Bytes) :
    handle (.normal, toolName) (.headerComplete (parseHeader (encode m.header.text))) =
      (m.stateAfter, m.nameAfter toolName) := by
  have hspec := m.header.recipient_spec
  rw [m.header.parseHeader_text]
  unfold stateAfter nameAfter handle
  dsimp only
  cases hr : m.header.recipient with
  | none => cases m.header.channel <;> rfl
  | some r =>
    obtain ⟨hfinal, hne, -, -⟩ := hspec r hr
    have hbytes : encode r ≠ [] := encode_ne_nil hne
    have hname : encode ((some r).getD []) = encode r := rfl
    cases hc : m.header.channel with
    | analysis =>
      rw [hname, if_pos (by rfl), if_pos hbytes]
      rfl
    | commentary =>
      rw [hname, if_neg (by decide), if_pos (by rfl), if_pos hbytes]
      rfl
    | final => exact absurd hc hfinal

theorem route_cons (st : HarmonyMessageState × Option Bytes) (e : HarmonyEvent)
    (es : List HarmonyEvent) :
    route st (e :: es) =
      (routed st.1 e ++ (route (handle st e) es).1, (route (handle st e) es).2) := rfl

@[simp] theorem routed_messageStart (st : HarmonyMessageState) :
    routed st .messageStart = .none := by
  cases st <;> rfl

@[simp] theorem routed_headerComplete (st : HarmonyMessageState) (header : HarmonyHeader) :
    routed st (.headerComplete header) = .none := by
  cases st <;> rfl

@[simp] theorem routed_messageEnd (st : HarmonyMessageState) : routed st .messageEnd = .none := by
  cases st <;> rfl

theorem route_contentEvent (st : HarmonyMessageState × Option Bytes) (body : Bytes)
    (es : List HarmonyEvent) :
    route st (contentEvent body ++ es) =
      (routed st.1 (.contentEmitted body) ++ (route st es).1, (route st es).2) := by
  unfold contentEvent
  split
  · next hnil =>
    rw [hnil]
    have hnone : routed st.1 (.contentEmitted []) = .none := by
      cases st.1 <;> rfl
    rw [hnone, Routed.none_append]
    rfl
  · rfl

theorem route_body (m : WrittenMessage) (toolName : Option Bytes) (body : Bytes)
    (es : List HarmonyEvent) :
    route (.normal, toolName) (.messageStart ::
        .headerComplete (parseHeader (encode m.header.text)) :: (contentEvent body ++ es)) =
      (m.routedBody body ++ (route (m.stateAfter, m.nameAfter toolName) es).1,
        (route (m.stateAfter, m.nameAfter toolName) es).2) := by
  have hstart : handle (.normal, toolName) .messageStart = (.normal, toolName) := rfl
  rw [route_cons, hstart, route_cons, handle_header, route_contentEvent, routed_messageStart,
    routed_headerComplete, Routed.none_append, Routed.none_append]
  rfl

def routedAll (ms : List WrittenMessage) : Routed :=
  ms.foldr (fun m r => m.routedBody m.body ++ r) .none

def nameAfterAll (toolName : Option Bytes) (ms : List WrittenMessage) : Option Bytes :=
  ms.foldl (fun name m => m.nameAfter name) toolName

theorem route_complete (m : WrittenMessage) (toolName : Option Bytes) (es : List HarmonyEvent) :
    route (.normal, toolName) (m.complete.events ++ es) =
      (m.routedBody m.body ++ (route (.normal, m.nameAfter toolName) es).1,
        (route (.normal, m.nameAfter toolName) es).2) := by
  have hbody := m.route_body toolName m.body (.messageEnd :: es)
  have hend : route (m.stateAfter, m.nameAfter toolName) (.messageEnd :: es) =
      route (.normal, m.nameAfter toolName) es := by
    rw [route_cons, routed_messageEnd, Routed.none_append]
    rfl
  have hevents : m.complete.events ++ es = .messageStart ::
      .headerComplete (parseHeader (encode m.header.text)) ::
        (contentEvent m.body ++ .messageEnd :: es) := by
    rw [Message.events, cons_append, cons_append, append_assoc]
    rfl
  rw [hevents, hbody, hend]

theorem route_completes (ms : List WrittenMessage) (toolName : Option Bytes)
    (es : List HarmonyEvent) :
    route (.normal, toolName) ((ms.map complete).flatMap Message.events ++ es) =
      (routedAll ms ++ (route (.normal, nameAfterAll toolName ms) es).1,
        (route (.normal, nameAfterAll toolName ms) es).2) := by
  induction ms generalizing toolName with
  | nil =>
    rfl
  | cons m ms ih =>
    rw [map_cons, flatMap_cons, append_assoc, route_complete, ih, ← Routed.append_assoc]
    rfl

def arrived (m : WrittenMessage) : Bytes :=
  m.body.take (m.body.length - overlap m.body (lit "<|end|>"))

/-- The turns of the parser over a message without its end tag. -/
theorem loop_openText (m : WrittenMessage) :
    (loop (⟨.lookingForMessageStart, m.openText⟩ : HarmonyParser harmonyTags)).1 =
      .messageStart :: .headerComplete (parseHeader (encode m.header.text)) ::
        contentEvent m.arrived := by
  have hstart := @eat_start harmonyTags _ _ _ (Message.cut_start
    (lit "<|start|>") (encode m.header.text ++ (lit "<|message|>" ++ m.body)) (by decide))
  have hheader : eat (⟨.parsingHeader,
      encode m.header.text ++ (lit "<|message|>" ++ m.body)⟩ : HarmonyParser harmonyTags) =
        ([.headerComplete (parseHeader (encode m.header.text))], ⟨.parsingContent, m.body⟩, true) := by
    refine eat_header_end ?_
    have hcut := cut_marked_self (c := 60) (t := lit "<|message|>") (x := encode m.header.text)
      (y := m.body) (by decide)
    rw [m.header.text_message] at hcut
    exact hcut
  have hbody := @eat_content_plain harmonyTags _ (m.body_unmarked (lit "<|end|>") (by decide))
  unfold openText
  rw [loop_more hstart, loop_more hheader, loop_last hbody]
  rfl

/-! ## §4  What the client gets -/

/-- The messages that are tool calls. -/
def toolMessages (ms : List WrittenMessage) : List WrittenMessage :=
  ms.filter fun m => m.header.recipient.isSome

def thinkings (ms : List WrittenMessage) : Bytes :=
  (ms.filter fun m => m.header.recipient = none ∧ m.header.channel = .analysis).flatMap body

/-- The bodies that are content. -/
def contents (ms : List WrittenMessage) : Bytes :=
  (ms.filter fun m => m.header.recipient = none ∧ m.header.channel ≠ .analysis).flatMap body

variable {α : Type} {unmarshal : Bytes → Except Bytes α} {ms : List WrittenMessage}
  {last : Option WrittenMessage} {chunks : List Bytes}

theorem routedAll_eq (ms : List WrittenMessage) :
    routedAll ms = ⟨contents ms, thinkings ms, (toolMessages ms).flatMap body⟩ := by
  induction ms with
  | nil => rfl
  | cons m ms ih =>
    rw [show routedAll (m :: ms) = m.routedBody m.body ++ routedAll ms from rfl, ih]
    unfold contents thinkings toolMessages routedBody stateAfter
    cases hr : m.header.recipient with
    | some r =>
      rw [filter_cons_of_neg (by simp [hr]), filter_cons_of_neg (by simp [hr]),
        filter_cons_of_pos (by simp [hr])]
      rfl
    | none =>
      rw [filter_cons_of_neg (p := fun m : WrittenMessage => m.header.recipient.isSome)
        (by simp [hr])]
      cases hc : m.header.channel with
      | analysis =>
        rw [filter_cons_of_neg (by simp [hc]), filter_cons_of_pos (by simp [hr, hc])]
        rfl
      | commentary | final =>
        rw [filter_cons_of_pos (by simp [hr, hc]), filter_cons_of_neg (by simp [hc])]
        rfl

theorem nameAfterAll_eq (ms : List WrittenMessage) :
    nameAfterAll none ms = (toolMessages ms).getLast?.bind fun m => m.header.recipient.map encode := by
  induction ms using List.reverseRecOn with
  | nil => rfl
  | append_singleton ms m ih =>
    have happend : nameAfterAll none (ms ++ [m]) = m.nameAfter (nameAfterAll none ms) :=
      foldl_append ..
    rw [happend, ih]
    unfold toolMessages nameAfter
    rw [filter_append]
    cases hr : m.header.recipient with
    | some r =>
      simp [hr]
    | none =>
      rw [filter_cons_of_neg (by simp [hr]), filter_nil, append_nil]
      rfl

theorem loop_completes (ms : List WrittenMessage) (u : Bytes) :
    (loop (⟨.lookingForMessageStart, ms.flatMap text ++ u⟩ : HarmonyParser harmonyTags)).1 =
      (ms.map complete).flatMap Message.events ++
        (loop (⟨.lookingForMessageStart, u⟩ : HarmonyParser harmonyTags)).1 := by
  induction ms with
  | nil => rfl
  | cons m ms ih =>
    rw [flatMap_cons, append_assoc, ← complete_text, Message.loop_text, ih,
      map_cons, flatMap_cons, append_assoc]

/-- What is before the text that the model writes is its beginning. -/
theorem start_streamText (h : ms ≠ [] ∨ last ≠ none) :
    lit "<|start|>assistant" ++ streamText ms last =
      ms.flatMap text ++ (last.map openText).getD [] := by
  have hopen : ∀ m : WrittenMessage, lit "<|start|>assistant" <+: m.openText := by
    intro m
    refine ⟨encode ((if m.header.recipientFirst then m.header.recipientText else []) ++
      ("<|channel|>".toList ++ (m.header.channel.name ++ ((if m.header.recipientFirst then [] else
        m.header.recipientText) ++ m.header.contentTypeText)))) ++ (lit "<|message|>" ++ m.body), ?_⟩
    rfl
  have hpre : lit "<|start|>assistant" <+: ms.flatMap text ++ (last.map openText).getD [] := by
    cases ms with
    | cons m ms =>
      rw [flatMap_cons, text]
      simp only [append_assoc]
      exact (hopen m).trans (prefix_append _ _)
    | nil =>
      cases last with
      | some m => exact hopen m
      | none => exact absurd rfl (h.resolve_left (not_not_intro rfl))
  obtain ⟨rest, hrest⟩ := hpre
  unfold streamText
  rw [← hrest, drop_left]

/-- **Routing.** However the text is cut, each body goes where its header sends it. -/
theorem addAll_stream (ms : List WrittenMessage) (last : Option WrittenMessage) (hne : chunks ≠ [])
    (hchunks : chunks.flatten = streamText ms last) :
    ((newHarmonyMessageHandler none).addAll chunks).1 =
        routedAll ms ++ (last.map fun m => m.routedBody m.arrived).getD .none ∧
      ((newHarmonyMessageHandler none).addAll chunks).2.toolName =
        nameAfterAll none (ms ++ last.toList) := by
  rw [HarmonyMessageHandler.addAll_same _ hne, hchunks]
  have hparser : (newHarmonyMessageHandler none).parser.write (streamText ms last) =
      (⟨.lookingForMessageStart, lit "<|start|>assistant" ++ streamText ms last⟩ :
        HarmonyParser harmonyTags) := rfl
  have hevents : ((newHarmonyMessageHandler none).parser.addContent (streamText ms last)).1 =
      (loop (⟨.lookingForMessageStart, lit "<|start|>assistant" ++
        streamText ms last⟩ : HarmonyParser harmonyTags)).1 := by
    unfold addContent
    rw [hparser]
  have hroute : route (.normal, none)
      ((newHarmonyMessageHandler none).parser.addContent (streamText ms last)).1 =
        (routedAll ms ++ (last.map fun m => m.routedBody m.arrived).getD .none,
          (route (.normal, none) ((newHarmonyMessageHandler none).parser.addContent
            (streamText ms last)).1).2) ∧
      (route (.normal, none) ((newHarmonyMessageHandler none).parser.addContent
        (streamText ms last)).1).2.2 = nameAfterAll none (ms ++ last.toList) := by
    rw [hevents]
    by_cases hempty : ms = [] ∧ last = none
    · obtain ⟨rfl, rfl⟩ := hempty
      have hloop : (loop (⟨.lookingForMessageStart, lit "<|start|>assistant" ++
          streamText [] none⟩ : HarmonyParser harmonyTags)).1 = [.messageStart] := by
        decide +kernel
      rw [hloop]
      exact ⟨rfl, rfl⟩
    · rw [start_streamText (by tauto), loop_completes, route_completes]
      cases last with
      | none =>
        have hnil : loop (⟨.lookingForMessageStart, []⟩ :
            HarmonyParser harmonyTags) = ([], ⟨.lookingForMessageStart, []⟩) :=
          loop_last (eat_start_plain (cut_nil harmonyTags.messageStartTag_ne))
        rw [Option.map_none, Option.getD_none, hnil]
        exact ⟨rfl, by rw [Option.toList_none, append_nil]; rfl⟩
      | some m =>
        rw [Option.map_some, Option.getD_some, loop_openText]
        have hbody := m.route_body (nameAfterAll none ms) m.arrived []
        rw [append_nil] at hbody
        rw [hbody]
        refine ⟨?_, ?_⟩
        · show (_ ++ (_ ++ Routed.none), _) = _
          rw [Routed.append_none]
          rfl
        · have happend : nameAfterAll none (ms ++ [m]) = m.nameAfter (nameAfterAll none ms) :=
            foldl_append ..
          rw [Option.toList_some, happend]
          rfl
  refine ⟨congrArg Prod.fst hroute.1, hroute.2⟩

/-- What the one accumulator makes of all tool calls: the name of the last one, and the bodies
one after the other. -/
def onlyCall (unmarshal : Bytes → Except Bytes α) (functionNameMap : FunctionNameMap)
    (ms : List WrittenMessage) : List (HarmonyToolCall α) × Option Bytes :=
  match (toolMessages ms).getLast?.bind fun m => m.header.recipient with
  | none => ([], none)
  | some r =>
      match unmarshal ((toolMessages ms).flatMap body) with
      | .ok args =>
          ([⟨functionNameMap.originalFromConverted
            (trimPrefix (encode r) (lit "functions.")), args⟩], none)
      | .error err =>
          ([], some (HarmonyToolHandler.toolCallError ((toolMessages ms).flatMap body) err))

/-- No beginning of the end tag is an end of the last body, when that lacks its tag. -/
def EndsPlain (last : Option WrittenMessage) : Prop :=
  ∀ m ∈ last, ∀ u, u <+: lit "<|end|>" → u <:+ m.body → u = []

theorem routedAll_last (hend : EndsPlain last) :
    routedAll ms ++ (last.map fun m => m.routedBody m.arrived).getD .none =
      routedAll (ms ++ last.toList) := by
  have happend : ∀ ms ms', routedAll (ms ++ ms') = routedAll ms ++ routedAll ms' := by
    intro ms ms'
    induction ms with
    | nil => rw [nil_append, routedAll, routedAll, foldr_nil, Routed.none_append]
    | cons m ms ih =>
      rw [cons_append, show ∀ ms, routedAll (m :: ms) = m.routedBody m.body ++ routedAll ms from
        fun _ => rfl, ih, ← Routed.append_assoc]
      rfl
  rw [happend]
  cases last with
  | none => rfl
  | some m =>
    have hzero := overlap_eq_zero_iff.mpr (hend m rfl)
    have harrived : m.arrived = m.body := by
      rw [arrived, hzero, Nat.sub_zero, take_length]
    rw [Option.map_some, Option.getD_some, harrived, Option.toList_some]
    exact congrArg (_ ++ ·) (Routed.append_none _).symm

/-- **The whole run.** -/
theorem run_messages (unicode : Unicode) (unmarshal : Bytes → Except Bytes α) (tools : List Bytes)
    (hne : chunks ≠ []) (hchunks : chunks.flatten = streamText ms last) (hend : EndsPlain last) :
    let h := (HarmonyToolHandler.init unicode tools none).1
    let call := onlyCall unmarshal h.functionNameMap (ms ++ last.toList)
    (h.run unmarshal chunks).calls = call.1 ∧ (h.run unmarshal chunks).err = call.2 ∧
      (call.2 = none → (h.run unmarshal chunks).content = contents (ms ++ last.toList) ∧
        (h.run unmarshal chunks).thinking = thinkings (ms ++ last.toList)) := by
  intro h call
  obtain ⟨hrouted, hname⟩ := addAll_stream ms last hne hchunks
  rw [routedAll_last hend, routedAll_eq] at hrouted
  rw [nameAfterAll_eq] at hname
  have hdrain : HarmonyToolHandler.drainToolCall unmarshal (h.collected chunks) = call := by
    have hacc : (h.collected chunks).acc = (toolMessages (ms ++ last.toList)).flatMap body := by
      show [] ++ ((newHarmonyMessageHandler none).addAll chunks).1.toolContent = _
      rw [hrouted, nil_append]
    have htool : (h.collected chunks).handler.toolName =
        ((toolMessages (ms ++ last.toList)).getLast?.bind fun m => m.header.recipient).map encode := by
      show ((newHarmonyMessageHandler none).addAll chunks).2.toolName = _
      rw [hname]
      cases (toolMessages (ms ++ last.toList)).getLast? <;> rfl
    have hmap : (h.collected chunks).functionNameMap = h.functionNameMap := rfl
    unfold HarmonyToolHandler.drainToolCall
    rw [hacc, htool, hmap]
    show _ = onlyCall unmarshal h.functionNameMap (ms ++ last.toList)
    unfold onlyCall
    cases (toolMessages (ms ++ last.toList)).getLast?.bind fun m => m.header.recipient with
    | none => rfl
    | some r => rfl
  obtain ⟨hcalls, herr, hrest⟩ := @HarmonyToolHandler.run_eq α unmarshal h chunks hne
  have hhandler : (h.handler.addAll chunks).1 = _ := hrouted
  rw [hdrain] at hcalls herr hrest
  rw [hhandler] at hrest
  exact ⟨hcalls, herr, hrest⟩

def CallOf (tools names : List Bytes) (unmarshal : Bytes → Except Bytes α) (m : WrittenMessage)
    (call : HarmonyToolCall α) : Prop :=
  ∃ r ∈ m.header.recipient,
    Original tools names (trimPrefix (encode r) (lit "functions.")) call.name ∧
      unmarshal m.body = .ok call.arguments

/-- All messages are in the answer: each body where it belongs, and one call for each tool call,
in order. -/
structure Delivered (tools names : List Bytes) (unmarshal : Bytes → Except Bytes α)
    (ms : List WrittenMessage) (a : HarmonyAnswer α) : Prop where
  content : a.content = contents ms
  thinking : a.thinking = thinkings ms
  calls : List.Forall₂ (CallOf tools names unmarshal) (toolMessages ms) a.calls
  err : a.err = none

theorem onlyCall_length (unmarshal : Bytes → Except Bytes α) (functionNameMap : FunctionNameMap)
    (ms : List WrittenMessage) : (onlyCall unmarshal functionNameMap ms).1.length ≤ 1 := by
  unfold onlyCall
  split
  · exact Nat.zero_le 1
  · split
    · exact Nat.le_refl 1
    · exact Nat.zero_le 1

/-- One tool call is read as it was written. -/
theorem onlyCall_of_one {unicode : Unicode} {tools : List Bytes}
    (hobject : ∀ m ∈ toolMessages ms, ∃ args, unmarshal m.body = .ok args)
    (hone : (toolMessages ms).length ≤ 1) :
    let h := HarmonyToolHandler.init unicode tools none
    (onlyCall unmarshal h.1.functionNameMap ms).2 = none ∧
      List.Forall₂ (CallOf tools h.2 unmarshal) (toolMessages ms)
        (onlyCall unmarshal h.1.functionNameMap ms).1 := by
  intro h
  unfold onlyCall
  rcases hcases : toolMessages ms with - | ⟨m, - | ⟨m', rest⟩⟩
  · exact ⟨rfl, .nil⟩
  · have hm : m ∈ toolMessages ms := by
      rw [hcases]
      exact mem_singleton_self m
    obtain ⟨args, hargs⟩ := hobject m hm
    obtain ⟨r, hr⟩ := Option.isSome_iff_exists.mp (mem_filter.mp hm).2
    rw [getLast?_singleton, Option.bind_some, hr, flatMap_cons, flatMap_nil, append_nil]
    dsimp only
    rw [hargs]
    exact ⟨rfl, .cons ⟨r, hr, originalFromConverted_original tools _, hargs⟩ .nil⟩
  · rw [hcases] at hone
    exact absurd hone (Nat.not_le.mpr (Nat.succ_lt_succ (Nat.succ_pos _)))

/-- The messages of a response are delivered exactly when at most one of them is a tool call; of
several tool calls there is one call at most, and it is read from all of their bodies. -/
theorem run_delivers (unicode : Unicode) (unmarshal : Bytes → Except Bytes α) (tools : List Bytes)
    (ms : List WrittenMessage) (last : Option WrittenMessage) (chunks : List Bytes)
    (hne : chunks ≠ []) (hchunks : chunks.flatten = streamText ms last)
    (hobject : ∀ m ∈ toolMessages (ms ++ last.toList), ∃ args, unmarshal m.body = .ok args)
    (hend : EndsPlain last) :
    let h := HarmonyToolHandler.init unicode tools none
    (Delivered tools h.2 unmarshal (ms ++ last.toList) (h.1.run unmarshal chunks) ↔
      (toolMessages (ms ++ last.toList)).length ≤ 1) ∧
    ((h.1.run unmarshal chunks).calls, (h.1.run unmarshal chunks).err) =
      onlyCall unmarshal h.1.functionNameMap (ms ++ last.toList) := by
  intro h
  obtain ⟨hcalls, herr, hrest⟩ := run_messages unicode unmarshal tools hne hchunks hend
  refine ⟨⟨fun hdelivered => ?_, fun hone => ?_⟩, Prod.ext hcalls herr⟩
  · have hlen := hdelivered.calls.length_eq
    rw [show (h.1.run unmarshal chunks).calls = _ from hcalls] at hlen
    rw [hlen]
    exact onlyCall_length _ _ _
  obtain ⟨hnone, honly⟩ := onlyCall_of_one hobject hone
  obtain ⟨hcontent, hthinking⟩ := hrest hnone
  refine ⟨hcontent, hthinking, ?_, herr.trans hnone⟩
  rw [show (h.1.run unmarshal chunks).calls = _ from hcalls]
  exact honly

/-- A message on a channel without a recipient. -/
def plain (channel : HarmonyChannel) (body : Bytes) (h : Unmarked body) : WrittenMessage :=
  ⟨⟨channel, none, false, none, nofun, nofun⟩, body, h⟩

/-- A call of `functions.get_weather`. -/
def getWeather : WrittenMessage :=
  { header :=
      { channel := .commentary
        recipient := some "functions.get_weather".toList
        recipientFirst := false
        contentType := some (true, "json".toList)
        recipient_spec := by
          rintro r ⟨⟩
          decide +kernel
        contentType_spec := by
          rintro x ⟨⟩
          decide +kernel }
    body := lit "\x7b\x7d"
    body_unmarked := by decide +kernel }

/-- `json.Unmarshal`, where nothing but the empty object comes. -/
def unmarshalEmpty (raw : Bytes) : Except Bytes Unit :=
  if raw = lit "\x7b\x7d" then .ok ()
  else .error (lit "invalid character '\x7b' after top-level value")

theorem run_delivers_getWeather : Delivered [lit "get weather"] [lit "get_weather"] unmarshalEmpty
      [plain .analysis (lit "hm <") (by decide +kernel), getWeather]
      ((HarmonyToolHandler.init ⟨Char.isAlpha, Char.isDigit⟩ [lit "get weather"] none).1.run
        unmarshalEmpty [(streamText [plain .analysis (lit "hm <") (by decide +kernel)]
          (some getWeather)).take 40, (streamText [plain .analysis (lit "hm <") (by decide +kernel)]
            (some getWeather)).drop 40]) :=
  (run_delivers ⟨Char.isAlpha, Char.isDigit⟩ unmarshalEmpty [lit "get weather"]
    [plain .analysis (lit "hm <") (by decide +kernel)] (some getWeather) _ (cons_ne_nil _ _)
    (by rw [flatten_cons, flatten_cons, flatten_nil, append_nil, take_append_drop])
    (by
      intro m hm
      have hcall : m = getWeather := mem_singleton.mp hm
      exact ⟨(), by rw [hcall]; rfl⟩)
    (by
      intro m hm
      cases hm
      exact overlap_eq_zero_iff.mp (by decide +kernel))).1.mpr (by decide +kernel)

/-- Two tool calls become an error, and a response that ends in `<` loses it. -/
theorem not_delivers_two :
    ¬Delivered [lit "get weather"] [lit "get_weather"] unmarshalEmpty [getWeather, getWeather]
        ((HarmonyToolHandler.init ⟨Char.isAlpha, Char.isDigit⟩ [lit "get weather"] none).1.run
          unmarshalEmpty [streamText [getWeather, getWeather] none]) ∧
      ¬Delivered [] [] unmarshalEmpty [plain .final (lit "x <") (by decide +kernel)]
        ((HarmonyToolHandler.init ⟨Char.isAlpha, Char.isDigit⟩ [] none).1.run unmarshalEmpty
          [streamText [] (some (plain .final (lit "x <") (by decide +kernel)))]) := by
  constructor
  · intro h
    exact absurd h.err (by decide +kernel)
  · intro h
    exact absurd h.content (by decide +kernel)

end WrittenMessage

end Ollama.Harmony
