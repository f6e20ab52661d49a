import Ollama.Parsers.Parser

/-!
# The parser of qwen3-coder

`model/parsers/qwen3coder.go`: content and tool calls between `<tool_call>` and
`</tool_call>`. What reads the text of a tool call (`parseToolCall` with the request's tools)
is a parameter.
-/

namespace Ollama.Parsers

open Lib List

/-! ## §1  The parser -/

inductive Qwen3CoderParserState
  | lookingForToolStart
  | collectingToolContent
  deriving DecidableEq

def toolOpenTag : Text := "<tool_call>".toList

def toolCloseTag : Text := "</tool_call>".toList

@[ext] structure Qwen3CoderParser where
  state : Qwen3CoderParserState
  acc : Text
  deriving DecidableEq

inductive QwenEvent
  | rawToolCall (raw : Text)
  | content (content : Text)
  deriving DecidableEq

namespace Qwen3CoderParser

variable {τ : Type}

/-- The parser after `Init`. -/
def init : Qwen3CoderParser := ⟨.lookingForToolStart, []⟩

def contentEvent (content : Text) : List QwenEvent :=
  if content = [] then [] else [.content content]

/-- `eat`. Without a partial tag `overlap` is 0, and only the white space at the end is
held back. -/
def eat (p : Qwen3CoderParser) : List QwenEvent × Qwen3CoderParser × Bool :=
  match p.state with
  | .lookingForToolStart =>
      match cut p.acc toolOpenTag with
      | some (before, after) =>
          (contentEvent (trimRight before), ⟨.collectingToolContent, after⟩, true)
      | none =>
          let start := ambiguousStart p.acc (overlap p.acc toolOpenTag)
          (contentEvent (p.acc.take start), { p with acc := p.acc.drop start }, false)
  | .collectingToolContent =>
      match cut p.acc toolCloseTag with
      | some (before, after) =>
          ([.rawToolCall before], ⟨.lookingForToolStart, trimLeft after⟩, true)
      | none => ([], p, false)

/-- `parseEvents`: every turn that goes on takes a tag out of the buffer. -/
def parseEvents (p : Qwen3CoderParser) : List QwenEvent × Qwen3CoderParser :=
  drain eat (p.acc.length + 1) p

/-- The loop of `Add` over the events: the content and the tool calls. -/
def collect (parseToolCall : Text → Except Error τ) : List QwenEvent → Except Error (Text × List τ)
  | [] => .ok ([], [])
  | .rawToolCall raw :: events => do
      let toolCall ← parseToolCall raw
      let later ← collect parseToolCall events
      return (later.1, toolCall :: later.2)
  | .content content :: events => do
      let later ← collect parseToolCall events
      return (content ++ later.1, later.2)

/-- `acc.WriteString` -/
def write (p : Qwen3CoderParser) (s : Text) : Qwen3CoderParser := { p with acc := p.acc ++ s }

/-- `Add`; whether the response is done makes no difference. -/
def add (parseToolCall : Text → Except Error τ) (s : Text) (p : Qwen3CoderParser) :
    Except Error (Text × List τ) × Qwen3CoderParser :=
  let out := (p.write s).parseEvents
  (collect parseToolCall out.1, out.2)

end Qwen3CoderParser

/-! ## §2  Readings -/

/-- What is returned of a text, with whitespace removed, up to the first error, and what
stays in a buffer. -/
@[ext] structure Reading (τ : Type) where
  response : Response τ
  pending : Text

namespace Response

variable {τ : Type}

def ofContent (s : Text) : Response τ := ⟨visible s, [], [], Option.none⟩

def ofThinking (s : Text) : Response τ := ⟨[], visible s, [], Option.none⟩

def ofCall (call : τ) : Response τ := ⟨[], [], [call], Option.none⟩

def ofError (e : Error) : Response τ := ⟨[], [], [], some e⟩

def before (r : Response τ) (next : Reading τ) : Reading τ :=
  if r.err.isSome then ⟨r, []⟩ else ⟨r ++ next.response, next.pending⟩

theorem before_of_none {r : Response τ} (h : r.err = Option.none) (next : Reading τ) :
    r.before next = ⟨r ++ next.response, next.pending⟩ := by
  unfold before
  rw [h]
  rfl

theorem before_of_some {r : Response τ} {e : Error} (h : r.err = some e) (next : Reading τ) :
    r.before next = ⟨r, []⟩ := by
  unfold before
  rw [h]
  rfl

@[simp] theorem none_before (next : Reading τ) : (none : Response τ).before next = next := rfl

def stepThen (r r' : Response τ) : Response τ := if r.err.isSome then r else r ++ r'

theorem before_before (r r' : Response τ) (next : Reading τ) :
    r.before (r'.before next) = (r.stepThen r').before next := by
  unfold stepThen
  cases h : r.err with
  | some e =>
    rw [before_of_some h]
    exact (before_of_some h _).symm
  | none =>
    rw [before_of_none h]
    show _ = (r ++ r').before next
    cases h' : r'.err with
    | some e =>
      rw [before_of_some h', before_of_some (r := r ++ r') (e := e) (by rw [err_append, h, h']; rfl)]
    | none =>
      rw [before_of_none h', before_of_none (by rw [err_append, h, h']; rfl), append_assoc]

@[simp] theorem stepThen_none (r : Response τ) : r.stepThen none = r := by
  unfold stepThen
  split
  · rfl
  · exact append_none r

theorem stepThen_assoc (r r' r'' : Response τ) :
    r.stepThen (r'.stepThen r'') = (r.stepThen r').stepThen r'' := by
  unfold stepThen
  cases h : r.err with
  | some e => simp [h]
  | none =>
    cases h' : r'.err with
    | some e => simp [h, h']
    | none => simp [h, h', append_assoc]

theorem ofContent_append (s t : Text) :
    (ofContent (s ++ t) : Response τ) = ofContent s ++ ofContent t :=
  ext' (visible_append s t) rfl rfl rfl

theorem ofContent_congr {s t : Text} (h : visible s = visible t) :
    (ofContent s : Response τ) = ofContent t := by
  unfold ofContent
  rw [h]

theorem ofThinking_congr {s t : Text} (h : visible s = visible t) :
    (ofThinking s : Response τ) = ofThinking t := by
  unfold ofThinking
  rw [h]

theorem ofContent_of_blank {s : Text} (h : Blank s) : (ofContent s : Response τ) = none := by
  unfold ofContent
  rw [visible_eq_nil.mpr h]
  rfl

theorem ofThinking_of_blank {s : Text} (h : Blank s) : (ofThinking s : Response τ) = none := by
  unfold ofThinking
  rw [visible_eq_nil.mpr h]
  rfl

theorem ofThinking_append (s t : Text) :
    (ofThinking (s ++ t) : Response τ) = ofThinking s ++ ofThinking t :=
  ext' rfl (visible_append s t) rfl rfl

theorem ofThinking_before (s t : Text) (next : Reading τ) :
    (ofThinking s).before ((ofThinking t).before next) = (ofThinking (s ++ t)).before next := by
  rw [before_before, ofThinking_append]
  rfl

theorem ofContent_before (s t : Text) (next : Reading τ) :
    (ofContent s).before ((ofContent t).before next) = (ofContent (s ++ t)).before next := by
  rw [before_before, ofContent_append]
  rfl

end Response

namespace Qwen3CoderParser

variable {τ : Type} (parseToolCall : Text → Except Error τ)

/-- What the events return, up to the first error. -/
def returned : List QwenEvent → Response τ
  | [] => .none
  | .content content :: events => (Response.ofContent content).stepThen (returned events)
  | .rawToolCall raw :: events =>
      match parseToolCall raw with
      | .ok call => (Response.ofCall call).stepThen (returned events)
      | .error e => .ofError e

def reading (p : Qwen3CoderParser) : Reading τ :=
  (returned parseToolCall p.parseEvents.1).before ⟨.none, visible p.parseEvents.2.acc⟩

/-! ## §3  One turn -/

variable {parseToolCall} {p p' : Qwen3CoderParser} {es : List QwenEvent} {t b a w : Text}

theorem eat_open (h : cut t toolOpenTag = some (b, a)) : eat ⟨.lookingForToolStart, t⟩ =
      (contentEvent (trimRight b), ⟨.collectingToolContent, a⟩, true) := by
  unfold eat
  rw [h]

theorem eat_plain (h : cut t toolOpenTag = none) : eat ⟨.lookingForToolStart, t⟩ =
      (contentEvent (t.take (ambiguousStart t (overlap t toolOpenTag))),
        ⟨.lookingForToolStart, t.drop (ambiguousStart t (overlap t toolOpenTag))⟩, false) := by
  unfold eat
  rw [h]

theorem eat_close (h : cut t toolCloseTag = some (b, a)) : eat ⟨.collectingToolContent, t⟩ =
      ([.rawToolCall b], ⟨.lookingForToolStart, trimLeft a⟩, true) := by
  unfold eat
  rw [h]

theorem eat_wait (h : cut t toolCloseTag = none) :
    eat ⟨.collectingToolContent, t⟩ = ([], ⟨.collectingToolContent, t⟩, false) := by
  unfold eat
  rw [h]

/-- A turn that goes on has taken a tag out of the buffer. -/
theorem eat_shorter (p : Qwen3CoderParser) (h : (eat p).2.2 = true) :
    (eat p).2.1.acc.length < p.acc.length := by
  obtain ⟨state, t⟩ := p
  cases state with
  | lookingForToolStart =>
    cases hcut : cut t toolOpenTag with
    | none =>
      rw [eat_plain hcut] at h
      cases h
    | some q =>
      have hlen := cut_length (by decide) hcut
      have : toolOpenTag.length = 11 := rfl
      rw [eat_open hcut]
      show q.2.length < t.length
      omega
  | collectingToolContent =>
    cases hcut : cut t toolCloseTag with
    | none =>
      rw [eat_wait hcut] at h
      cases h
    | some q =>
      have hlen := cut_length (by decide) hcut
      have htrim := trimLeft_length_le q.2
      have : toolCloseTag.length = 12 := rfl
      rw [eat_close hcut]
      show (trimLeft q.2).length < t.length
      omega

theorem parseEvents_more (h : eat p = (es, p', true)) :
    p.parseEvents = (es ++ p'.parseEvents.1, p'.parseEvents.2) := by
  have hmore : (eat p).2.2 = true := by rw [h]
  have hlt := eat_shorter p hmore
  unfold parseEvents
  rw [drain_more hmore, drain_enough (fun p => p.acc.length) eat_shorter _ _ hlt, h]

theorem parseEvents_last (h : eat p = (es, p', false)) : p.parseEvents = (es, p') := by
  have hlast : (eat p).2.2 = false := by rw [h]
  unfold parseEvents
  rw [drain_last hlast, h]

theorem returned_append (es es' : List QwenEvent) : returned parseToolCall (es ++ es') =
      (returned parseToolCall es).stepThen (returned parseToolCall es') := by
  induction es with
  | nil => rfl
  | cons e es ih =>
    cases e with
    | content c =>
      show (Response.ofContent c).stepThen (returned parseToolCall (es ++ es')) = _
      rw [ih]
      exact Response.stepThen_assoc _ _ _
    | rawToolCall raw =>
      show (match parseToolCall raw with
        | .ok call => (Response.ofCall call).stepThen (returned parseToolCall (es ++ es'))
        | .error e => .ofError e) = (match parseToolCall raw with
        | .ok call => (Response.ofCall call).stepThen (returned parseToolCall es)
        | .error e => .ofError e : Response τ).stepThen _
      cases parseToolCall raw with
      | ok call =>
        rw [ih]
        exact Response.stepThen_assoc _ _ _
      | error e => rfl

theorem returned_contentEvent (c : Text) :
    returned parseToolCall (contentEvent c) = Response.ofContent c := by
  unfold contentEvent
  split
  · next h =>
    rw [h]
    rfl
  · exact Response.append_none _

theorem reading_more (h : eat p = (es, p', true)) :
    reading parseToolCall p = (returned parseToolCall es).before (reading parseToolCall p') := by
  unfold reading
  rw [parseEvents_more h, returned_append, ← Response.before_before]

theorem reading_last (h : eat p = (es, p', false)) :
    reading parseToolCall p = (returned parseToolCall es).before ⟨.none, visible p'.acc⟩ := by
  unfold reading
  rw [parseEvents_last h]

theorem reading_open (h : cut t toolOpenTag = some (b, a)) :
    reading parseToolCall ⟨.lookingForToolStart, t⟩ =
      (Response.ofContent b).before (reading parseToolCall ⟨.collectingToolContent, a⟩) := by
  rw [reading_more (eat_open h), returned_contentEvent,
    Response.ofContent_congr (visible_trimRight b)]

def settledLen (s : Text) : ℕ := s.length - overlap s toolOpenTag

theorem reading_plain (h : cut t toolOpenTag = none) :
    reading parseToolCall ⟨.lookingForToolStart, t⟩ =
      ⟨.ofContent (t.take (settledLen t)), visible (t.drop (settledLen t))⟩ := by
  obtain ⟨htake, hdrop⟩ := visible_ambiguousStart (overlap_le_left t toolOpenTag)
  rw [reading_last (eat_plain h), returned_contentEvent, Response.before_of_none rfl,
    Response.append_none]
  exact Reading.ext (Response.ofContent_congr htake) hdrop

theorem reading_wait (h : cut t toolCloseTag = none) :
    reading parseToolCall ⟨.collectingToolContent, t⟩ = ⟨.none, visible t⟩ := by
  rw [reading_last (eat_wait h)]
  rfl

theorem reading_close (h : cut t toolCloseTag = some (b, a)) :
    reading parseToolCall ⟨.collectingToolContent, t⟩ =
      (returned parseToolCall [.rawToolCall b]).before
        (reading parseToolCall ⟨.lookingForToolStart, trimLeft a⟩) :=
  reading_more (eat_close h)

/-! ## §4  More text -/

@[simp] theorem write_nil (p : Qwen3CoderParser) : p.write [] = p :=
  Qwen3CoderParser.ext rfl (append_nil _)

theorem write_write (p : Qwen3CoderParser) (s t : Text) : (p.write s).write t = p.write (s ++ t) :=
  Qwen3CoderParser.ext rfl (append_assoc ..)

theorem reading_init : reading parseToolCall init = ⟨.none, []⟩ :=
  reading_plain (cut_nil (by decide))

/-- White space in front is not seen. -/
theorem reading_blank (hw : Blank w) (t : Text) :
    reading parseToolCall ⟨.lookingForToolStart, w ++ t⟩ =
      reading parseToolCall ⟨.lookingForToolStart, t⟩ := by
  have hcut := cut_prepend (by decide : toolOpenTag ≠ []) (d := w) (s := t)
    fun i hi => not_occurs_of_blank (by decide) hw hi
  cases h : cut t toolOpenTag with
  | some q =>
    rw [h] at hcut
    rw [reading_open hcut, reading_open h]
    congr 1
    exact Response.ofContent_congr (by rw [visible_append, visible_eq_nil.mpr hw, nil_append])
  | none =>
    rw [h] at hcut
    have hlen : settledLen (w ++ t) = w.length + settledLen t := by
      have := overlap_le_left t toolOpenTag
      unfold settledLen
      rw [overlap_blank (by decide) hw, length_append]
      omega
    rw [reading_plain hcut, reading_plain h, hlen, take_length_add_append, drop_length_add_append]
    refine Reading.ext (Response.ofContent_congr ?_) rfl
    rw [visible_append, visible_eq_nil.mpr hw, nil_append]

theorem reading_trimLeft (t : Text) : reading parseToolCall ⟨.lookingForToolStart, trimLeft t⟩ =
      reading parseToolCall ⟨.lookingForToolStart, t⟩ := by
  obtain ⟨w, hw, ht⟩ := trimLeft_spec t
  conv_rhs => rw [ht]
  exact (reading_blank hw _).symm

/-- The last turn on content: what it returns is the beginning of the content to come. -/
theorem reading_held (h : cut t toolOpenTag = none) (u : Text) :
    reading parseToolCall ⟨.lookingForToolStart, t ++ u⟩ =
      (Response.ofContent (t.take (ambiguousStart t (overlap t toolOpenTag)))).before
        (reading parseToolCall ⟨.lookingForToolStart,
          t.drop (ambiguousStart t (overlap t toolOpenTag)) ++ u⟩) := by
  obtain ⟨w, x, -, hx, -, hdrop⟩ := ambiguousStart_spec (overlap_le_left t toolOpenTag)
  have ht : t = t.take (ambiguousStart t (overlap t toolOpenTag)) ++ (w ++ x) := by
    rw [← hdrop, take_append_drop]
  have hov : overlap t toolOpenTag ≤ (w ++ x).length := by
    rw [length_append]
    omega
  rw [hdrop]
  generalize t.take (ambiguousStart t (overlap t toolOpenTag)) = d at ht ⊢
  subst ht
  generalize w ++ x = y at h hov ⊢
  have hcut := cut_held (by decide) h hov u
  rw [append_assoc]
  cases h' : cut (y ++ u) toolOpenTag with
  | some q =>
    rw [h'] at hcut
    rw [reading_open hcut, reading_open h', Response.ofContent_before]
  | none =>
    rw [h'] at hcut
    have hlen : settledLen (d ++ (y ++ u)) = d.length + settledLen (y ++ u) := by
      have := overlap_le_left (y ++ u) toolOpenTag
      unfold settledLen
      rw [overlap_held hov, length_append]
      omega
    rw [reading_plain hcut, reading_plain h', hlen, take_length_add_append,
      drop_length_add_append, Response.before_of_none rfl, Response.ofContent_append]

/-- **More text.** What the turns return comes before the reading of what they left in the
buffer with the text that follows. -/
theorem reading_write (p : Qwen3CoderParser) (u : Text) :
    reading parseToolCall (p.write u) = (returned parseToolCall p.parseEvents.1).before
      (reading parseToolCall (p.parseEvents.2.write u)) := by
  refine drain_rule (fun p => p.acc.length) eat_shorter
    (P := fun p es p' => reading parseToolCall (p.write u) =
      (returned parseToolCall es).before (reading parseToolCall (p'.write u)))
    (fun p hlast => ?_) (fun p es p' hmore ih => ?_) _ p (Nat.lt_succ_self _)
  · obtain ⟨state, t⟩ := p
    cases state with
    | lookingForToolStart =>
      cases hcut : cut t toolOpenTag with
      | some q =>
        rw [eat_open hcut] at hlast
        cases hlast
      | none =>
        rw [eat_plain hcut, returned_contentEvent]
        exact reading_held hcut u
    | collectingToolContent =>
      cases hcut : cut t toolCloseTag with
      | some q =>
        rw [eat_close hcut] at hlast
        cases hlast
      | none =>
        rw [eat_wait hcut]
        rfl
  · rw [returned_append, ← Response.before_before, ← ih]
    obtain ⟨state, t⟩ := p
    cases state with
    | lookingForToolStart =>
      cases hcut : cut t toolOpenTag with
      | none =>
        rw [eat_plain hcut] at hmore
        cases hmore
      | some q =>
        rw [eat_open hcut]
        exact reading_more (eat_open (cut_append (by decide) hcut u))
    | collectingToolContent =>
      cases hcut : cut t toolCloseTag with
      | none =>
        rw [eat_wait hcut] at hmore
        cases hmore
      | some q =>
        rw [eat_close hcut]
        refine (reading_more (eat_close (cut_append (by decide) hcut u))).trans ?_
        congr 1
        rw [← trimLeft_append]
        exact reading_trimLeft _

variable (parseToolCall) in
/-- What the loop leaves in the buffer it leaves there again. -/
theorem parseEvents_settled (p : Qwen3CoderParser) :
    reading parseToolCall p.parseEvents.2 = ⟨.none, visible p.parseEvents.2.acc⟩ := by
  refine drain_rule (fun p => p.acc.length) eat_shorter
    (P := fun _ _ p' => reading parseToolCall p' = ⟨.none, visible p'.acc⟩)
    (fun p hlast => ?_) (fun _ _ _ _ h => h) _ p (Nat.lt_succ_self _)
  obtain ⟨state, t⟩ := p
  cases state with
  | lookingForToolStart =>
    cases hcut : cut t toolOpenTag with
    | some q =>
      rw [eat_open hcut] at hlast
      cases hlast
    | none =>
      rw [eat_plain hcut]
      obtain ⟨w, x, hw, hx, -, hdrop⟩ := ambiguousStart_spec (overlap_le_left t toolOpenTag)
      have ht : t = t.take (ambiguousStart t (overlap t toolOpenTag)) ++ (w ++ x) := by
        rw [← hdrop, take_append_drop]
      rw [hdrop]
      have hnone := cut_none_of_suffix (by decide) hcut (hdrop ▸ drop_suffix _ t)
      have hov : overlap (w ++ x) toolOpenTag = x.length := by
        have hheld := overlap_held (t := toolOpenTag) (d := t.take (ambiguousStart t
          (overlap t toolOpenTag))) (a := w ++ x) (by
            rw [← ht, length_append]
            omega) []
        rw [append_nil, ← ht] at hheld
        omega
      have hlen : settledLen (w ++ x) = w.length := by
        unfold settledLen
        rw [hov, length_append]
        omega
      rw [reading_plain hnone, hlen, take_left, drop_left, visible_append, visible_eq_nil.mpr hw]
      exact Reading.ext (Response.ofContent_of_blank hw) rfl
  | collectingToolContent =>
    cases hcut : cut t toolCloseTag with
    | some q =>
      rw [eat_close hcut] at hlast
      cases hlast
    | none =>
      rw [eat_wait hcut]
      exact reading_wait hcut

end Qwen3CoderParser

end Ollama.Parsers
