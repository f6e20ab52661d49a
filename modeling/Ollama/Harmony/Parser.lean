import Ollama.Parsers.Bytes

/-!
# The harmony parser

`harmony/harmonyparser.go`: messages with a header and content between three tags, and
the handler that routes their content. A chunk may end inside of a character, so texts are
lists of bytes.
-/

namespace Ollama.Harmony

open Lib Parsers Bytes List

/-! ## §1  Headers -/

structure HarmonyHeader where
  role : Bytes
  channel : Bytes
  recipient : Bytes
  deriving DecidableEq

/-- `parseHeader` -/
def parseHeader (raw : Bytes) : HarmonyHeader :=
  let raw :=
    match cut raw (lit "<|constrain|>") with
    | some (before, after) => trimSpace (before ++ (lit " <|constrain|>" ++ after))
    | none => raw
  let (channel, raw) :=
    match cut raw (lit "<|channel|>") with
    | some (before, after) =>
        let name := (runeBytes after).takeWhile (!isSpaceRune ·)
        let rest := (runeBytes after).dropWhile (!isSpaceRune ·)
        (ofRunes name, trimSpace (before ++ ofRunes rest))
    | none => ([], raw)
  match fields raw with
  | [] => ⟨[], channel, []⟩
  | role :: tokens =>
      let (role, recipient) :=
        if lit "to=" <+: role then (lit "tool", role.drop 3) else (role, [])
      match recipient, tokens with
      | [], token :: _ =>
          if lit "to=" <+: token then ⟨role, channel, token.drop 3⟩ else ⟨role, channel, []⟩
      | recipient, _ => ⟨role, channel, recipient⟩

example : parseHeader (lit "assistant<|channel|>commentary to=functions.f<|constrain|>json") =
    ⟨lit "assistant", lit "commentary", lit "functions.f"⟩ := by decide +kernel

/-! ## §2  The parser -/

inductive HarmonyParserState
  | lookingForMessageStart
  | parsingHeader
  | parsingContent
  deriving DecidableEq

/-- The three tags; none is empty. -/
structure HarmonyTags where
  messageStartTag : Bytes
  messageEndTag : Bytes
  headerEndTag : Bytes
  messageStartTag_ne : messageStartTag ≠ []
  messageEndTag_ne : messageEndTag ≠ []
  headerEndTag_ne : headerEndTag ≠ []

@[ext] structure HarmonyParser (tags : HarmonyTags) where
  state : HarmonyParserState
  acc : Bytes

inductive HarmonyEvent
  | messageStart
  | headerComplete (header : HarmonyHeader)
  | contentEmitted (content : Bytes)
  | messageEnd
  deriving DecidableEq

structure LastMessage where
  role : Bytes
  content : Bytes
  thinking : Bytes

namespace HarmonyParser

variable {tags : HarmonyTags}

def new (tags : HarmonyTags) : HarmonyParser tags := ⟨.lookingForMessageStart, []⟩

/-- `acc.WriteString` -/
def write (s : HarmonyParser tags) (content : Bytes) : HarmonyParser tags :=
  { s with acc := s.acc ++ content }

def addImplicitStart (s : HarmonyParser tags) : HarmonyParser tags :=
  s.write (lit "<|start|>assistant")

def addImplicitStartOrPrefill (s : HarmonyParser tags) (lastMessage : Option LastMessage) :
    HarmonyParser tags :=
  match lastMessage with
  | some message =>
      if message.role = lit "assistant" then
        if message.content ≠ [] then
          s.write (lit "<|start|>assistant<|channel|>final<|message|>")
        else if message.thinking ≠ [] then
          s.write (lit "<|start|>assistant<|channel|>analysis<|message|>")
        else s.addImplicitStart
      else s.addImplicitStart
  | none => s.addImplicitStart

def contentEvent (content : Bytes) : List HarmonyEvent :=
  if content = [] then [] else [.contentEmitted content]

/-- `eat`: the events, and whether to go on. -/
def eat (s : HarmonyParser tags) : List HarmonyEvent × HarmonyParser tags × Bool :=
  match s.state with
  | .lookingForMessageStart =>
      match cut s.acc tags.messageStartTag with
      | some (_, after) => ([.messageStart], ⟨.parsingHeader, after⟩, true)
      | none => ([], s, false)
  | .parsingHeader =>
      match cut s.acc tags.headerEndTag with
      | some (header, after) =>
          ([.headerComplete (parseHeader header)], ⟨.parsingContent, after⟩, true)
      | none => ([], s, false)
  | .parsingContent =>
      match cut s.acc tags.messageEndTag with
      | some (content, after) =>
          (contentEvent content ++ [.messageEnd], ⟨.lookingForMessageStart, after⟩, true)
      | none =>
          let overlapLen := overlap s.acc tags.messageEndTag
          if 0 < overlapLen then
            let content := s.acc.take (s.acc.length - overlapLen)
            let remaining := s.acc.drop (s.acc.length - overlapLen)
            (contentEvent content, { s with acc := remaining }, false)
          else if s.acc = [] then ([], s, false)
          else ([.contentEmitted s.acc], { s with acc := [] }, false)

/-- The loop of `AddContent`: every turn that goes on takes a tag out of the buffer. -/
def loop (s : HarmonyParser tags) : List HarmonyEvent × HarmonyParser tags :=
  drain eat (s.acc.length + 1) s

def addContent (s : HarmonyParser tags) (content : Bytes) :
    List HarmonyEvent × HarmonyParser tags :=
  (s.write content).loop

/-- The chunks passed to `AddContent` in order. -/
def addAll (s : HarmonyParser tags) : List Bytes → List HarmonyEvent × HarmonyParser tags
  | [] => ([], s)
  | content :: chunks =>
      let out := s.addContent content
      let later := out.2.addAll chunks
      (out.1 ++ later.1, later.2)

end HarmonyParser

def joinContent : HarmonyEvent → List HarmonyEvent → List HarmonyEvent
  | .contentEmitted c, .contentEmitted d :: es => .contentEmitted (c ++ d) :: es
  | e, es => e :: es

/-- The events with adjacent contents concatenated. -/
def merged (es : List HarmonyEvent) : List HarmonyEvent := es.foldr joinContent []

/-! ## §3  The handler -/

inductive HarmonyMessageState
  | normal
  | thinking
  | toolCalling
  deriving DecidableEq

/-- The handler, with the tool name of its tool parser. -/
structure HarmonyMessageHandler (tags : HarmonyTags) where
  state : HarmonyMessageState
  toolName : Option Bytes
  parser : HarmonyParser tags

/-- What `AddContent` of the handler returns. -/
@[ext] structure Routed where
  content : Bytes
  thinking : Bytes
  toolContent : Bytes
  deriving DecidableEq

namespace Routed

def none : Routed := ⟨[], [], []⟩

instance : Append Routed :=
  ⟨fun r r' => ⟨r.content ++ r'.content, r.thinking ++ r'.thinking, r.toolContent ++ r'.toolContent⟩⟩

theorem append_assoc (r r' r'' : Routed) : r ++ r' ++ r'' = r ++ (r' ++ r'') :=
  Routed.ext (List.append_assoc ..) (List.append_assoc ..) (List.append_assoc ..)

@[simp] theorem none_append (r : Routed) : none ++ r = r := rfl

end Routed

/-- What an event does to the state and to the tool name. -/
def handle : HarmonyMessageState × Option Bytes → HarmonyEvent → HarmonyMessageState × Option Bytes
  | (state, toolName), .headerComplete header =>
      if header.channel = lit "analysis" then
        if header.recipient ≠ [] then (.toolCalling, some header.recipient)
        else (.thinking, toolName)
      else if header.channel = lit "commentary" then
        if header.recipient ≠ [] then (.toolCalling, some header.recipient)
        else (.normal, toolName)
      else if header.channel = lit "final" then (.normal, toolName)
      else (state, toolName)
  | (_, toolName), .messageEnd => (.normal, toolName)
  | st, _ => st

def routed : HarmonyMessageState → HarmonyEvent → Routed
  | .normal, .contentEmitted content => ⟨content, [], []⟩
  | .thinking, .contentEmitted content => ⟨[], content, []⟩
  | .toolCalling, .contentEmitted content => ⟨[], [], content⟩
  | _, _ => .none

def route : HarmonyMessageState × Option Bytes → List HarmonyEvent →
    Routed × HarmonyMessageState × Option Bytes
  | st, [] => (.none, st)
  | st, e :: es => (routed st.1 e ++ (route (handle st e) es).1, (route (handle st e) es).2)

/-- The tags of `NewHarmonyMessageHandler`. -/
def harmonyTags : HarmonyTags where
  messageStartTag := lit "<|start|>"
  messageEndTag := lit "<|end|>"
  headerEndTag := lit "<|message|>"
  messageStartTag_ne := by decide
  messageEndTag_ne := by decide
  headerEndTag_ne := by decide

/-- `NewHarmonyMessageHandler`, and the start that `Init` writes. -/
def newHarmonyMessageHandler (lastMessage : Option LastMessage) :
    HarmonyMessageHandler harmonyTags :=
  ⟨.normal, none, (HarmonyParser.new harmonyTags).addImplicitStartOrPrefill lastMessage⟩

namespace HarmonyMessageHandler

variable {tags : HarmonyTags}

def addContent (h : HarmonyMessageHandler tags) (content : Bytes) :
    Routed × HarmonyMessageHandler tags :=
  let out := h.parser.addContent content
  let routed := route (h.state, h.toolName) out.1
  (routed.1, ⟨routed.2.1, routed.2.2, out.2⟩)

/-- The chunks passed to `AddContent` in order. -/
def addAll (h : HarmonyMessageHandler tags) : List Bytes → Routed × HarmonyMessageHandler tags
  | [] => (.none, h)
  | content :: chunks =>
      let out := h.addContent content
      let later := out.2.addAll chunks
      (out.1 ++ later.1, later.2)

end HarmonyMessageHandler

/-! ## §4  One turn -/

namespace HarmonyParser

variable {tags : HarmonyTags} {s : HarmonyParser tags}

theorem write_write (s : HarmonyParser tags) (u v : Bytes) :
    (s.write u).write v = s.write (u ++ v) :=
  HarmonyParser.ext rfl (append_assoc ..)

/-- Without an end tag the end that may begin one is kept. -/
theorem eat_content_plain {acc : Bytes} (h : cut acc tags.messageEndTag = none) :
    eat (⟨.parsingContent, acc⟩ : HarmonyParser tags) =
      (contentEvent (acc.take (acc.length - overlap acc tags.messageEndTag)),
        ⟨.parsingContent, acc.drop (acc.length - overlap acc tags.messageEndTag)⟩, false) := by
  unfold eat
  rw [h]
  simp only
  split
  · rfl
  rw [show acc.length - overlap acc tags.messageEndTag = acc.length by omega, take_length,
    drop_length]
  unfold contentEvent
  split
  · next hnil => rw [hnil]
  · rfl

theorem eat_content_end {acc content after : Bytes}
    (h : cut acc tags.messageEndTag = some (content, after)) :
    eat (⟨.parsingContent, acc⟩ : HarmonyParser tags) =
      (contentEvent content ++ [.messageEnd], ⟨.lookingForMessageStart, after⟩, true) := by
  unfold eat
  rw [h]

theorem eat_header_end {acc header after : Bytes}
    (h : cut acc tags.headerEndTag = some (header, after)) :
    eat (⟨.parsingHeader, acc⟩ : HarmonyParser tags) =
      ([.headerComplete (parseHeader header)], ⟨.parsingContent, after⟩, true) := by
  unfold eat
  rw [h]

theorem eat_header_plain {acc : Bytes} (h : cut acc tags.headerEndTag = none) :
    eat (⟨.parsingHeader, acc⟩ : HarmonyParser tags) = ([], ⟨.parsingHeader, acc⟩, false) := by
  unfold eat
  rw [h]

theorem eat_start {acc before after : Bytes}
    (h : cut acc tags.messageStartTag = some (before, after)) :
    eat (⟨.lookingForMessageStart, acc⟩ : HarmonyParser tags) =
      ([.messageStart], ⟨.parsingHeader, after⟩, true) := by
  unfold eat
  rw [h]

theorem eat_start_plain {acc : Bytes} (h : cut acc tags.messageStartTag = none) :
    eat (⟨.lookingForMessageStart, acc⟩ : HarmonyParser tags) =
      ([], ⟨.lookingForMessageStart, acc⟩, false) := by
  unfold eat
  rw [h]

/-- A turn that goes on has found a tag, and finds it as well when more text is there. -/
theorem eat_more (h : (eat s).2.2 = true) (u : Bytes) : (eat s).2.1.acc.length < s.acc.length ∧
      eat (s.write u) = ((eat s).1, (eat s).2.1.write u, true) := by
  obtain ⟨state, acc⟩ := s
  cases state with
  | lookingForMessageStart =>
    cases hcut : cut acc tags.messageStartTag with
    | none =>
      rw [eat_start_plain hcut] at h
      exact absurd h Bool.false_ne_true
    | some p =>
      have hlen := cut_length tags.messageStartTag_ne hcut
      have := length_pos_iff.mpr tags.messageStartTag_ne
      rw [eat_start hcut]
      refine ⟨?_, eat_start (cut_append tags.messageStartTag_ne hcut u)⟩
      show p.2.length < acc.length
      omega
  | parsingHeader =>
    cases hcut : cut acc tags.headerEndTag with
    | none =>
      rw [eat_header_plain hcut] at h
      exact absurd h Bool.false_ne_true
    | some p =>
      have hlen := cut_length tags.headerEndTag_ne hcut
      have := length_pos_iff.mpr tags.headerEndTag_ne
      rw [eat_header_end hcut]
      refine ⟨?_, eat_header_end (cut_append tags.headerEndTag_ne hcut u)⟩
      show p.2.length < acc.length
      omega
  | parsingContent =>
    cases hcut : cut acc tags.messageEndTag with
    | none =>
      rw [eat_content_plain hcut] at h
      exact absurd h Bool.false_ne_true
    | some p =>
      have hlen := cut_length tags.messageEndTag_ne hcut
      have := length_pos_iff.mpr tags.messageEndTag_ne
      rw [eat_content_end hcut]
      refine ⟨?_, eat_content_end (cut_append tags.messageEndTag_ne hcut u)⟩
      show p.2.length < acc.length
      omega

theorem eat_shorter (s : HarmonyParser tags) (h : (eat s).2.2 = true) :
    (eat s).2.1.acc.length < s.acc.length :=
  (eat_more h []).1

variable {es : List HarmonyEvent} {s' : HarmonyParser tags}

theorem loop_more (h : eat s = (es, s', true)) : loop s = (es ++ (loop s').1, (loop s').2) := by
  have hmore : (eat s).2.2 = true := by rw [h]
  have hlt := eat_shorter s hmore
  unfold loop
  rw [drain_more hmore, drain_enough (fun s => s.acc.length) eat_shorter _ _ hlt, h]

theorem loop_last (h : eat s = (es, s', false)) : loop s = (es, s') := by
  have hlast : (eat s).2.2 = false := by rw [h]
  unfold loop
  rw [drain_last hlast, h]

/-! ## §5  Chunks -/

def Same (out out' : List HarmonyEvent × HarmonyParser tags) : Prop :=
  merged out.1 = merged out'.1 ∧ out.2 = out'.2

@[simp] theorem merged_cons (e : HarmonyEvent) (es : List HarmonyEvent) :
    merged (e :: es) = joinContent e (merged es) := rfl

theorem merged_append (es es' : List HarmonyEvent) :
    merged (es ++ es') = es.foldr joinContent (merged es') := foldr_append

theorem merged_append_congr {x y : List HarmonyEvent} (h : merged x = merged y)
    (es : List HarmonyEvent) : merged (es ++ x) = merged (es ++ y) := by
  rw [merged_append, merged_append, h]

/-- Content that comes in two parts. -/
theorem merged_contentEvent (c d : Bytes) (es : List HarmonyEvent) :
    merged (contentEvent c ++ (contentEvent d ++ es)) = merged (contentEvent (c ++ d) ++ es) := by
  unfold contentEvent
  by_cases hc : c = []
  · rw [if_pos hc, hc]
    rfl
  by_cases hd : d = []
  · rw [if_pos hd, hd, append_nil]
    rfl
  rw [if_neg hc, if_neg hd, if_neg fun h => hc (append_eq_nil_iff.mp h).1]
  simp only [singleton_append, merged_cons]
  cases merged es with
  | nil => rfl
  | cons e es =>
    cases e with
    | contentEmitted x =>
      show [HarmonyEvent.contentEmitted (c ++ (d ++ x))] ++ es =
        [HarmonyEvent.contentEmitted (c ++ d ++ x)] ++ es
      rw [append_assoc]
    | _ => rfl

/-- The last turn on content: what it emits is the beginning of the content to come. -/
theorem same_content {acc : Bytes} (h : cut acc tags.messageEndTag = none) (u : Bytes) :
    Same (loop (⟨.parsingContent, acc ++ u⟩ : HarmonyParser tags))
      (contentEvent (acc.take (acc.length - overlap acc tags.messageEndTag)) ++
        (loop (⟨.parsingContent, acc.drop (acc.length - overlap acc tags.messageEndTag) ++ u⟩ :
          HarmonyParser tags)).1,
        (loop (⟨.parsingContent, acc.drop (acc.length - overlap acc tags.messageEndTag) ++ u⟩ :
          HarmonyParser tags)).2) := by
  have hne := tags.messageEndTag_ne
  generalize hd : acc.take (acc.length - overlap acc tags.messageEndTag) = d
  generalize ha : acc.drop (acc.length - overlap acc tags.messageEndTag) = a
  have hacc : acc = d ++ a := by rw [← hd, ← ha, take_append_drop]
  have hov : overlap (d ++ a) tags.messageEndTag ≤ a.length := by
    have := overlap_le_left acc tags.messageEndTag
    rw [← hacc, ← ha, length_drop]
    omega
  rw [hacc] at h
  rw [hacc, append_assoc]
  have hcut := cut_held hne h hov u
  cases hcut' : cut (a ++ u) tags.messageEndTag with
  | some p =>
    rw [hcut'] at hcut
    rw [loop_more (eat_content_end hcut), loop_more (eat_content_end hcut')]
    refine ⟨?_, rfl⟩
    rw [append_assoc, append_assoc, merged_contentEvent]
  | none =>
    rw [hcut'] at hcut
    have heat := eat_content_plain hcut
    rw [overlap_held hov] at heat
    have hle := overlap_le_left (a ++ u) tags.messageEndTag
    have hsub : (d ++ (a ++ u)).length - overlap (a ++ u) tags.messageEndTag =
        d.length + ((a ++ u).length - overlap (a ++ u) tags.messageEndTag) := by
      rw [length_append]
      omega
    rw [hsub, take_length_add_append, drop_length_add_append] at heat
    rw [loop_last heat, loop_last (eat_content_plain hcut')]
    refine ⟨?_, rfl⟩
    have hmerge := merged_contentEvent d
      ((a ++ u).take ((a ++ u).length - overlap (a ++ u) tags.messageEndTag)) []
    rw [append_nil, append_nil] at hmerge
    exact hmerge.symm

/-- **Cut.** Reading a text at once is reading its beginning and then the rest. -/
theorem loop_write (s : HarmonyParser tags) (u : Bytes) :
    Same (loop (s.write u)) ((loop s).1 ++ (loop ((loop s).2.write u)).1,
      (loop ((loop s).2.write u)).2) := by
  refine drain_rule (fun s => s.acc.length) eat_shorter
    (P := fun s es s' => Same (loop (s.write u)) (es ++ (loop (s'.write u)).1, (loop (s'.write u)).2))
    (fun s hlast => ?_) (fun s es s' hmore ih => ?_) _ s (Nat.lt_succ_self _)
  · obtain ⟨state, acc⟩ := s
    cases state with
    | lookingForMessageStart =>
      cases hcut : cut acc tags.messageStartTag with
      | none =>
        rw [eat_start_plain hcut]
        exact ⟨rfl, rfl⟩
      | some p =>
        rw [eat_start hcut] at hlast
        cases hlast
    | parsingHeader =>
      cases hcut : cut acc tags.headerEndTag with
      | none =>
        rw [eat_header_plain hcut]
        exact ⟨rfl, rfl⟩
      | some p =>
        rw [eat_header_end hcut] at hlast
        cases hlast
    | parsingContent =>
      cases hcut : cut acc tags.messageEndTag with
      | none =>
        rw [eat_content_plain hcut]
        exact same_content hcut u
      | some p =>
        rw [eat_content_end hcut] at hlast
        cases hlast
  · obtain ⟨-, heat⟩ := eat_more hmore u
    rw [loop_more heat]
    refine ⟨?_, ih.2⟩
    rw [append_assoc]
    exact merged_append_congr ih.1 _

/-- **Chunks.** By induction on them. -/
theorem addAll_same (s : HarmonyParser tags) {chunks : List Bytes} (hne : chunks ≠ []) :
    Same (s.addAll chunks) (s.addContent chunks.flatten) := by
  induction chunks generalizing s with
  | nil => exact absurd rfl hne
  | cons content chunks ih =>
    have hcut := loop_write (s.write content) chunks.flatten
    rw [write_write] at hcut
    rw [flatten_cons]
    by_cases hnil : chunks = []
    · subst hnil
      rw [flatten_nil, append_nil]
      show Same ((s.addContent content).1 ++ [], (s.addContent content).2) _
      rw [append_nil]
      exact ⟨rfl, rfl⟩
    · obtain ⟨hevents, hparser⟩ := ih (s.addContent content).2 hnil
      refine ⟨?_, hparser.trans hcut.2.symm⟩
      exact (merged_append_congr hevents _).trans hcut.1.symm

end HarmonyParser

namespace HarmonyMessageHandler

/-! ## §6  Routing -/

open HarmonyParser

variable {tags : HarmonyTags} {st : HarmonyMessageState × Option Bytes}

theorem route_append (es es' : List HarmonyEvent) :
    route st (es ++ es') = ((route st es).1 ++ (route (route st es).2 es').1,
      (route (route st es).2 es').2) := by
  induction es generalizing st with
  | nil => rfl
  | cons e es ih =>
    show (routed st.1 e ++ (route (handle st e) (es ++ es')).1,
      (route (handle st e) (es ++ es')).2) = _
    rw [ih, ← Routed.append_assoc]
    rfl

/-- Content is routed in one piece as in two. -/
theorem route_joinContent (e : HarmonyEvent) (es : List HarmonyEvent) :
    route st (joinContent e es) = route st (e :: es) := by
  cases e with
  | contentEmitted c =>
    cases es with
    | nil => rfl
    | cons e es =>
      cases e with
      | contentEmitted d =>
        refine Prod.ext ?_ rfl
        show routed st.1 (.contentEmitted (c ++ d)) ++ (route st es).1 =
          routed st.1 (.contentEmitted c) ++ (routed st.1 (.contentEmitted d) ++ (route st es).1)
        rw [← Routed.append_assoc]
        cases st.1 <;> rfl
      | _ => rfl
  | _ => rfl

theorem route_merged (es : List HarmonyEvent) : route st (merged es) = route st es := by
  induction es generalizing st with
  | nil => rfl
  | cons e es ih =>
    rw [merged_cons, route_joinContent]
    show (_ ++ (route _ (merged es)).1, (route _ (merged es)).2) = _
    rw [ih]
    rfl

theorem addAll_eq (h : HarmonyMessageHandler tags) (chunks : List Bytes) : h.addAll chunks =
      ((route (h.state, h.toolName) (h.parser.addAll chunks).1).1,
        ⟨(route (h.state, h.toolName) (h.parser.addAll chunks).1).2.1,
          (route (h.state, h.toolName) (h.parser.addAll chunks).1).2.2,
          (h.parser.addAll chunks).2⟩) := by
  induction chunks generalizing h with
  | nil => rfl
  | cons content chunks ih =>
    unfold addAll HarmonyParser.addAll
    simp only
    rw [ih, route_append]
    rfl

theorem addAll_same (h : HarmonyMessageHandler tags) {chunks : List Bytes} (hne : chunks ≠ []) :
    h.addAll chunks = h.addContent chunks.flatten := by
  obtain ⟨hevents, hparser⟩ := HarmonyParser.addAll_same h.parser hne
  rw [addAll_eq, ← route_merged, hevents, route_merged, hparser]
  rfl

end HarmonyMessageHandler

/-! ## §7  Complete messages -/

/-- A complete message: its header goes up to the first header end tag, its content up to
the first message end tag. -/
structure Message (tags : HarmonyTags) where
  header : Bytes
  content : Bytes
  header_ends : cut (header ++ tags.headerEndTag) tags.headerEndTag = some (header, [])
  content_ends : cut (content ++ tags.messageEndTag) tags.messageEndTag = some (content, [])

namespace Message

open HarmonyParser

variable {tags : HarmonyTags}

def text (m : Message tags) : Bytes :=
  tags.messageStartTag ++ (m.header ++ (tags.headerEndTag ++ (m.content ++ tags.messageEndTag)))

def events (m : Message tags) : List HarmonyEvent :=
  .messageStart :: .headerComplete (parseHeader m.header) ::
    (contentEvent m.content ++ [.messageEnd])

/-- Of tags that begin with a byte they have nowhere else, a message without end tags in
its parts is complete. -/
def ofPlain {c : UInt8} (hheader : Marked c tags.headerEndTag) (hend : Marked c tags.messageEndTag)
    (header content : Bytes) (h : cut header tags.headerEndTag = none)
    (h' : cut content tags.messageEndTag = none) : Message tags where
  header := header
  content := content
  header_ends := by
    have := cut_marked_self (x := header) (y := []) hheader
    rw [h, append_nil] at this
    exact this
  content_ends := by
    have := cut_marked_self (x := content) (y := []) hend
    rw [h', append_nil] at this
    exact this

theorem cut_start (t u : Bytes) (ht : t ≠ []) : cut (t ++ u) t = some ([], u) :=
  (cut_eq_some ht).mpr ⟨rfl, fun _ hj => absurd hj (Nat.not_lt_zero _)⟩

/-- Three turns read a message. -/
theorem loop_text (m : Message tags) (u : Bytes) :
    loop (⟨.lookingForMessageStart, m.text ++ u⟩ : HarmonyParser tags) =
      (m.events ++ (loop (⟨.lookingForMessageStart, u⟩ : HarmonyParser tags)).1,
        (loop (⟨.lookingForMessageStart, u⟩ : HarmonyParser tags)).2) := by
  have hstart : eat (⟨.lookingForMessageStart, m.text ++ u⟩ : HarmonyParser tags) =
      ([.messageStart], ⟨.parsingHeader,
        m.header ++ tags.headerEndTag ++ (m.content ++ (tags.messageEndTag ++ u))⟩, true) := by
    unfold text
    simp only [append_assoc]
    exact eat_start (cut_start _ _ tags.messageStartTag_ne)
  have hheader : eat (⟨.parsingHeader,
      m.header ++ tags.headerEndTag ++ (m.content ++ (tags.messageEndTag ++ u))⟩ :
      HarmonyParser tags) = ([.headerComplete (parseHeader m.header)],
        ⟨.parsingContent, m.content ++ tags.messageEndTag ++ u⟩, true) := by
    rw [eat_header_end (cut_append tags.headerEndTag_ne m.header_ends _), nil_append, append_assoc]
  have hcontent : eat (⟨.parsingContent, m.content ++ tags.messageEndTag ++ u⟩ :
      HarmonyParser tags) =
        (contentEvent m.content ++ [.messageEnd], ⟨.lookingForMessageStart, u⟩, true) := by
    rw [eat_content_end (cut_append tags.messageEndTag_ne m.content_ends _), nil_append]
  rw [loop_more hstart, loop_more hheader, loop_more hcontent]
  unfold events
  simp only [append_assoc, cons_append, nil_append]

theorem loop_texts (ms : List (Message tags)) :
    loop (⟨.lookingForMessageStart, ms.flatMap text⟩ : HarmonyParser tags) =
      (ms.flatMap events, new tags) := by
  induction ms with
  | nil =>
    exact loop_last (eat_start_plain (cut_nil tags.messageStartTag_ne))
  | cons m ms ih => rw [flatMap_cons, flatMap_cons, loop_text, ih]

theorem merged_events (m : Message tags) (es : List HarmonyEvent) :
    merged (m.events ++ es) = m.events ++ merged es := by
  unfold events contentEvent
  split <;> rfl

theorem merged_flatMap_events (ms : List (Message tags)) :
    merged (ms.flatMap events) = ms.flatMap events := by
  induction ms with
  | nil => rfl
  | cons m ms ih => rw [flatMap_cons, merged_events, ih]

end Message

/-- The events, the buffer and what the handler routes do not depend on the cut, and
complete messages come out one by one. -/
theorem chunks_same {tags : HarmonyTags} (h : HarmonyMessageHandler tags) {chunks : List Bytes}
    (hne : chunks ≠ []) :
    (merged (h.parser.addAll chunks).1 = merged (h.parser.addContent chunks.flatten).1 ∧
      (h.parser.addAll chunks).2 = (h.parser.addContent chunks.flatten).2) ∧
    h.addAll chunks = h.addContent chunks.flatten ∧
    ∀ ms : List (Message tags), h.parser.state = .lookingForMessageStart →
      h.parser.acc ++ chunks.flatten = ms.flatMap Message.text →
      merged (h.parser.addAll chunks).1 = ms.flatMap Message.events ∧
        (h.parser.addAll chunks).2 = .new tags := by
  have hsame := HarmonyParser.addAll_same h.parser hne
  refine ⟨hsame, h.addAll_same hne, fun ms hstate hacc => ?_⟩
  have hwrite : h.parser.write chunks.flatten = ⟨.lookingForMessageStart, ms.flatMap Message.text⟩ :=
    HarmonyParser.ext hstate hacc
  have hwhole : h.parser.addContent chunks.flatten = (ms.flatMap Message.events, .new tags) := by
    unfold HarmonyParser.addContent
    rw [hwrite, Message.loop_texts]
  rw [hwhole] at hsame
  exact ⟨hsame.1.trans (Message.merged_flatMap_events ms), hsame.2⟩

theorem chunks_same_final : merged ((newHarmonyMessageHandler none).parser.addAll
        [lit "<|channel|>fin", lit "al<|mess", lit "age|>a <|", lit "b<|en", lit "d|>"]).1 =
      [.messageStart, .headerComplete ⟨lit "assistant", lit "final", []⟩,
        .contentEmitted (lit "a <|b"), .messageEnd] :=
  (chunks_same (newHarmonyMessageHandler none) (cons_ne_nil _ _)).1.1.trans (by decide +kernel)

end Ollama.Harmony
