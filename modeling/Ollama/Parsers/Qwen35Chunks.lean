import Ollama.Parsers.Qwen35Reading

/-!
# Chunks of qwen3.5

Which texts may be cut anywhere: those that end in nothing held back, without an error after
something was returned, and whose thinking no tool call interrupts.
-/

namespace Ollama.Parsers

open Lib List Qwen3CoderParser

/-! ## §1  One call -/

namespace Qwen3CoderParser

variable {τ : Type} {parseToolCall : Text → Except Error τ}

/-- What `Add` returns of the events, when there is no error. -/
theorem returned_of_collect_ok {es : List QwenEvent} {out : Text × List τ}
    (h : collect parseToolCall es = .ok out) :
    returned parseToolCall es = ⟨visible out.1, [], out.2, none⟩ := by
  induction es generalizing out with
  | nil =>
    cases h
    rfl
  | cons e es ih =>
    cases hlater : collect parseToolCall es with
    | error err =>
      cases e with
      | content c =>
        unfold collect at h
        rw [hlater] at h
        cases h
      | rawToolCall raw =>
        unfold collect at h
        rw [hlater] at h
        cases hraw : parseToolCall raw <;> rw [hraw] at h <;> cases h
    | ok later =>
      cases e with
      | content c =>
        unfold collect at h
        rw [hlater] at h
        cases h
        show (Response.ofContent c).stepThen (returned parseToolCall es) = _
        rw [ih hlater]
        exact Response.ext' (visible_append c later.1).symm rfl rfl rfl
      | rawToolCall raw =>
        unfold collect at h
        rw [hlater] at h
        cases hraw : parseToolCall raw with
        | error err =>
          rw [hraw] at h
          cases h
        | ok call =>
          rw [hraw] at h
          cases h
          unfold returned
          rw [hraw, ih hlater]
          rfl

theorem returned_of_collect_error {es : List QwenEvent} {err : Error}
    (h : collect parseToolCall es = .error err) :
    (returned parseToolCall es).err = some err := by
  induction es with
  | nil => cases h
  | cons e es ih =>
    cases e with
    | content c =>
      unfold collect at h
      cases hlater : collect parseToolCall es with
      | error err' =>
        rw [hlater] at h
        cases h
        exact ih hlater
      | ok later =>
        rw [hlater] at h
        cases h
    | rawToolCall raw =>
      unfold collect at h
      unfold returned
      cases hraw : parseToolCall raw with
      | error err' =>
        rw [hraw] at h
        cases h
        rfl
      | ok call =>
        rw [hraw] at h
        cases hlater : collect parseToolCall es with
        | error err' =>
          rw [hlater] at h
          cases h
          exact ih hlater
        | ok later =>
          rw [hlater] at h
          cases h

end Qwen3CoderParser

namespace Qwen35Parser

variable {τ : Type} {parseToolCall : Text → Except Error τ} {p : Qwen35Parser}

/-- What `Add` makes of the events, and what they deliver. -/
structure Collected (out : Except Error (Response τ) × Qwen3CoderParser)
    (r : Response τ × Qwen3CoderParser) : Prop where
  tool : out.2 = r.2
  ok : ∀ answer, out.1 = .ok answer → answer.seen = r.1 ∧ answer.err = none
  error : ∀ e, out.1 = .error e → r.1.err = some e

variable (parseToolCall) in
theorem collect_delivered (es : List Qwen35Event) (toolParser : Qwen3CoderParser) :
    Collected (collect parseToolCall es toolParser) (delivered parseToolCall es toolParser) := by
  induction es generalizing toolParser with
  | nil => exact ⟨rfl, fun answer h => by cases h; exact ⟨rfl, rfl⟩, nofun⟩
  | cons e es ih =>
    cases e with
    | thinkingContent c =>
      have hlater := ih toolParser
      show Collected ((collect parseToolCall es toolParser).1.map _, _) (_, _)
      refine ⟨hlater.tool, fun answer h => ?_, fun e h => ?_⟩
      · cases hc : (collect parseToolCall es toolParser).1 with
        | error e =>
          rw [hc] at h
          cases h
        | ok r =>
          obtain ⟨hseen, herr⟩ := hlater.ok r hc
          rw [hc] at h
          cases h
          refine ⟨?_, herr⟩
          rw [← hseen]
          exact Response.seen_append _ _
      · cases hc : (collect parseToolCall es toolParser).1 with
        | error e' =>
          rw [hc] at h
          cases h
          exact hlater.error e hc
        | ok r =>
          rw [hc] at h
          cases h
    | content c =>
      unfold collect delivered Qwen3CoderParser.add
      simp only
      generalize (toolParser.write c).parseEvents = out
      cases hout : Qwen3CoderParser.collect parseToolCall out.1 with
      | error e =>
        have herr := returned_of_collect_error hout
        rw [herr]
        refine ⟨rfl, nofun, fun e' h => ?_⟩
        cases h
        exact herr
      | ok parsed =>
        have hreturned := returned_of_collect_ok hout
        have hlater := ih out.2
        simp only
        rw [hreturned]
        refine ⟨hlater.tool, fun answer h => ?_, fun e h => ?_⟩
        · cases hc : (collect parseToolCall es out.2).1 with
          | error e =>
            rw [hc] at h
            cases h
          | ok r =>
            obtain ⟨hseen, herr⟩ := hlater.ok r hc
            rw [hc] at h
            cases h
            refine ⟨?_, herr⟩
            rw [← hseen]
            exact Response.seen_append _ _
        · cases hc : (collect parseToolCall es out.2).1 with
          | error e' =>
            rw [hc] at h
            cases h
            exact hlater.error e hc
          | ok r =>
            rw [hc] at h
            cases h

variable (parseToolCall) in
/-- What one call does, for the text `u` to come. -/
structure Call (p : Qwen35Parser) (s u : Text) (out : Response τ × Qwen35Parser) (r : Response τ) :
    Prop where
  reads : reading parseToolCall p (p.buffer ++ (s ++ u)) =
    r.before (reading parseToolCall out.2 (out.2.buffer ++ u))
  seen : r.err = none → out.1.seen = r
  error : ∀ e, r.err = some e → out.1 = .ofError e
  ready : Ready parseToolCall out.2
  kept : Kept p (p.buffer ++ (s ++ u)) → Kept out.2 (out.2.buffer ++ u)
  settled : Settled parseToolCall out.2

theorem add_call (hready : Ready parseToolCall p) (s : Text) (u : Text) (done : Bool)
    (hu : u = [] ∨ Kept p (p.buffer ++ (s ++ u))) :
    ∃ r, Call parseToolCall p s u (add parseToolCall s done p) r := by
  have hready' : Ready parseToolCall { p with buffer := p.buffer ++ s } :=
    ⟨hready.unused, hready.settled⟩
  have hu' : u = [] ∨ Kept { p with buffer := p.buffer ++ s } (p.buffer ++ s ++ u) := by
    rw [append_assoc]
    exact hu
  obtain ⟨hreads, hsettled⟩ := parseEvents_reads _ u hready' hu'
  have hcollected := collect_delivered parseToolCall
    ({ p with buffer := p.buffer ++ s } : Qwen35Parser).parseEvents.1 p.toolParser
  have htool := hreads.tool
  have hread := hreads.reads
  have hkept := hreads.kept
  have hready'' := hreads.ready
  rw [append_assoc] at hread hkept
  unfold add
  simp only
  generalize ({ p with buffer := p.buffer ++ s } : Qwen35Parser).parseEvents = out at *
  rw [htool]
  generalize delivered parseToolCall out.1 p.toolParser = d at *
  generalize collect parseToolCall out.1 p.toolParser = c at *
  refine ⟨d.1, ⟨?_, fun h => ?_, fun e h => ?_, ?_, hkept, ?_⟩⟩
  · rw [hcollected.tool]
    exact hread
  · cases hc : c.1 with
    | ok answer => exact (hcollected.ok answer hc).1
    | error e =>
      have := hcollected.error e hc
      rw [h] at this
      cases this
  · cases hc : c.1 with
    | ok answer =>
      obtain ⟨hseen, herr⟩ := hcollected.ok answer hc
      have : d.1.err = none := by
        rw [← hseen]
        exact herr
      rw [h] at this
      cases this
    | error e' =>
      have := hcollected.error e' hc
      rw [h] at this
      cases this
      rfl
  · rw [hcollected.tool]
    exact hready''
  · rw [hcollected.tool]
    exact hsettled

theorem Call.err {s u : Text} {out : Response τ × Qwen35Parser} {r : Response τ}
    (h : Call parseToolCall p s u out r) : out.1.err = r.err := by
  cases hr : r.err with
  | none =>
    have := congrArg Response.err (h.seen hr)
    exact this.trans hr
  | some e => rw [h.error e hr]; rfl

/-! ## §2  Runs -/

def withheld (p : Qwen35Parser) : Text := visible p.buffer ++ visible p.toolParser.acc

variable (parseToolCall) in
theorem ready_init (thinkingEnabled assistantPrefill : Bool) :
    Ready parseToolCall (init thinkingEnabled assistantPrefill) := by
  refine ready_of_unused ?_
  unfold init
  split <;> rfl

theorem outcome_single (p : Qwen35Parser) (c : Text) :
    outcome (add parseToolCall) p [c] = (add parseToolCall c true p).1.seen := by
  show ((add parseToolCall c true p).1 ++ Response.none).seen = _
  rw [Response.append_none]

theorem outcome_cons_of_none {c : Text} (c' : Text) (cs : List Text)
    (h : (add parseToolCall c false p).1.err = none) :
    outcome (add parseToolCall) p (c :: c' :: cs) = (add parseToolCall c false p).1.seen ++
        outcome (add parseToolCall) (add parseToolCall c false p).2 (c' :: cs) ∧
    (stream (add parseToolCall) p (c :: c' :: cs)).2 =
      (stream (add parseToolCall) (add parseToolCall c false p).2 (c' :: cs)).2 := by
  have hno : ¬(add parseToolCall c false p).1.err.isSome = true := by
    rw [h]
    exact Bool.false_ne_true
  unfold outcome stream
  rw [Lib.feed, if_neg hno, Response.all_cons, Response.seen_append]
  exact ⟨rfl, rfl⟩

theorem outcome_cons_of_some {c c' : Text} {cs : List Text} {e : Error}
    (h : (add parseToolCall c false p).1 = .ofError e) :
    outcome (add parseToolCall) p (c :: c' :: cs) = .ofError e := by
  have hyes : (add parseToolCall c false p).1.err.isSome = true := by
    rw [h]
    rfl
  unfold outcome stream
  rw [Lib.feed, if_pos hyes, h]
  rfl

/-- One call reads all of its text. -/
theorem outcome_whole (hready : Ready parseToolCall p) (hbuf : p.buffer = []) (t : Text) :
    (∀ r y, reading parseToolCall p t = ⟨r, y⟩ → r.err = none →
      outcome (add parseToolCall) p [t] = r ∧ withheld (stream (add parseToolCall) p [t]).2 = y) ∧
    ∀ e, (reading parseToolCall p t).response.err = some e →
      outcome (add parseToolCall) p [t] = .ofError e := by
  obtain ⟨r, hcall⟩ := add_call hready t [] true (Or.inl rfl)
  have hread := hcall.reads
  rw [hbuf, nil_append, append_nil, append_nil, hcall.settled] at hread
  rw [outcome_single]
  cases hr : r.err with
  | none =>
    rw [Response.before_of_none hr, Response.append_none] at hread
    refine ⟨fun r' y h hr' => ?_, fun e he => ?_⟩
    · rw [hread] at h
      cases h
      exact ⟨hcall.seen hr, rfl⟩
    · rw [hread] at he
      exact absurd (hr.symm.trans he) nofun
  | some e =>
    rw [Response.before_of_some hr] at hread
    refine ⟨fun r' y h hr' => ?_, fun e' he => ?_⟩
    · rw [hread] at h
      cases h
      exact absurd (hr.symm.trans hr') nofun
    · rw [hread] at he
      cases hr.symm.trans he
      rw [hcall.error e hr]
      rfl

/-- **Runs.** However a text is cut, what the client has in the end is the reading, unless an
error follows something that was returned. -/
theorem outcome_chunks : ∀ (chunks : List Text) (p : Qwen35Parser), chunks ≠ [] →
    Ready parseToolCall p → Kept p (p.buffer ++ chunks.flatten) →
    (∀ r y, reading parseToolCall p (p.buffer ++ chunks.flatten) = ⟨r, y⟩ → r.err = none →
      outcome (add parseToolCall) p chunks = r ∧
        withheld (stream (add parseToolCall) p chunks).2 = y) ∧
    ∀ e, (reading parseToolCall p (p.buffer ++ chunks.flatten)).response = .ofError e →
      outcome (add parseToolCall) p chunks = .ofError e
  | [], _, hne, _, _ => absurd rfl hne
  | [c], p, _, hready, _ => by
    obtain ⟨r, hcall⟩ := add_call hready c [] true (Or.inl rfl)
    have hread := hcall.reads
    rw [append_nil, append_nil, hcall.settled] at hread
    rw [flatten_cons, flatten_nil, append_nil, hread, outcome_single]
    cases hr : r.err with
    | none =>
      rw [Response.before_of_none hr, Response.append_none]
      refine ⟨fun r' y h hr' => ?_, fun e he => ?_⟩
      · cases h
        exact ⟨hcall.seen hr, rfl⟩
      · have herr := congrArg Response.err he
        exact absurd (hr.symm.trans herr) nofun
    | some e =>
      rw [Response.before_of_some hr]
      refine ⟨fun r' y h hr' => ?_, fun e' he => ?_⟩
      · cases h
        exact absurd (hr.symm.trans hr') nofun
      · have herr : r = .ofError e' := he
        rw [hcall.error e' (by rw [herr]; rfl)]
        rfl
  | c :: c' :: cs, p, _, hready, hkept => by
    rw [flatten_cons] at hkept ⊢
    obtain ⟨r, hcall⟩ := add_call hready c (c' :: cs).flatten false (Or.inr hkept)
    rw [hcall.reads]
    cases hr : r.err with
    | none =>
      obtain ⟨hall, hfinal⟩ := outcome_cons_of_none c' cs (hcall.err.trans hr)
      obtain ⟨hlater, herror⟩ := outcome_chunks (c' :: cs) _ (cons_ne_nil _ _) hcall.ready
        (hcall.kept hkept)
      rw [Response.before_of_none hr, hall, hfinal, hcall.seen hr]
      refine ⟨fun r' y h hr' => ?_, fun e he => ?_⟩
      · cases h
        rw [Response.err_append, hr] at hr'
        obtain ⟨heq, hheld⟩ := hlater _ _ rfl hr'
        rw [heq]
        exact ⟨rfl, hheld⟩
      · -- nothing was returned before the error
        have hnone : r = .none := by
          have hcontent := congrArg Response.content he
          have hthinking := congrArg Response.thinking he
          have hcalls := congrArg Response.calls he
          exact Response.ext' (append_eq_nil_iff.mp hcontent).1
            (append_eq_nil_iff.mp hthinking).1 (append_eq_nil_iff.mp hcalls).1 hr
        rw [hnone] at he ⊢
        rw [herror e he]
        rfl
    | some e =>
      rw [Response.before_of_some hr, outcome_cons_of_some (hcall.error e hr)]
      refine ⟨fun r' y h hr' => ?_, fun e' he => ?_⟩
      · cases h
        exact absurd (hr.symm.trans hr') nofun
      · have herr := congrArg Response.err he
        cases hr.symm.trans herr
        rfl

/-! ## §3  Texts that are read whole -/

variable {t b a u raw rest body : Text} {said : Bool} {r : Response τ} {e : Error} {call : τ}

section

variable (parseToolCall)

/-- Content that is decided at its end, and what is read of it; `said` is whether something
was returned before it. A tool call that cannot be read comes first or not at all. -/
inductive Complete : Bool → Text → Response τ → Prop
  | plain {said : Bool} {t : Text} (h : cut t toolOpenTag = none)
      (hend : overlap t toolOpenTag = 0) : Complete said t (.ofContent t)
  | unclosed {said : Bool} {t b a : Text} (h : cut t toolOpenTag = some (b, a)) (ha : Blank a) :
      Complete said t (.ofContent b)
  | call {said : Bool} {t b a raw rest : Text} {call : τ} {r : Response τ}
      (h : cut t toolOpenTag = some (b, a)) (h' : cut a toolCloseTag = some (raw, rest))
      (hcall : parseToolCall raw = .ok call) (later : Complete true rest r) :
      Complete said t (.ofContent b ++ (.ofCall call ++ r))
  | failed {t b a raw rest : Text} {e : Error} (h : cut t toolOpenTag = some (b, a))
      (h' : cut a toolCloseTag = some (raw, rest)) (hb : Blank b)
      (hcall : parseToolCall raw = .error e) : Complete false t (.ofError e)

inductive Thought : Text → Response τ → Prop
  | closed {t b a : Text} {r : Response τ} (h : cut t qwen35ThinkingCloseTag = some (b, a))
      (together : Together t) (later : Complete parseToolCall (decide (visible b ≠ [])) a r) :
      Thought t (.ofThinking b ++ r)
  | plain {t : Text} (h : cut t qwen35ThinkingCloseTag = none)
      (h' : cut t qwen35ToolCallOpenTag = none) (hend : tagOverlap t = 0) :
      Thought t (.ofThinking t)
  | unclosed {t b a : Text} (h : cut t qwen35ThinkingCloseTag = none)
      (h' : cut t qwen35ToolCallOpenTag = some (b, a)) (hne : a ≠ []) (ha : Blank a) :
      Thought t (.ofThinking b)

/-- A text that is read whole, from thinking or from content. -/
inductive Whole : Bool → Text → Response τ → Prop
  | content {t : Text} {r : Response τ} (h : Complete parseToolCall false t r) : Whole false t r
  | thinking {t body : Text} {r : Response τ} (h : bodyOf t = some body)
      (h' : Thought parseToolCall body r) : Whole true t r
  | blank {t : Text} (h : Blank t) : Whole true t .none

end

theorem readContent_open (h : cut t toolOpenTag = some (b, a)) :
    readContent parseToolCall t = (Response.ofContent b).before
      (Qwen3CoderParser.reading parseToolCall ⟨.collectingToolContent, a⟩) :=
  reading_open h

theorem reading_call (h : cut a toolCloseTag = some (raw, rest)) :
    Qwen3CoderParser.reading parseToolCall ⟨.collectingToolContent, a⟩ =
      match parseToolCall raw with
      | .ok call => (Response.ofCall call).before (readContent parseToolCall rest)
      | .error e => ⟨.ofError e, []⟩ := by
  rw [reading_close h, reading_trimLeft]
  unfold returned
  cases parseToolCall raw <;> rfl

variable {tag : Text}

theorem cut_of_blank (htag : Marked '<' tag) (ht : Blank t) : cut t tag = none := by
  refine (cut_eq_none htag.ne_nil).mpr fun i ho => ?_
  have hget := ho.getElem? (length_pos_iff.mpr htag.ne_nil)
  rw [htag.getElem?_zero] at hget
  exact absurd (ht _ (mem_of_getElem? hget)) (by decide)

theorem Complete.reads (h : Complete parseToolCall said t r) :
    readContent parseToolCall t = ⟨r, []⟩ := by
  induction h with
  | @plain said t h hend =>
    have hlen : settledLen t = t.length := by
      unfold settledLen
      rw [hend, Nat.sub_zero]
    unfold readContent
    rw [reading_plain h, hlen, take_length, drop_length]
    rfl
  | unclosed h ha =>
    rw [readContent_open h, reading_wait (cut_of_blank (by decide) ha),
      visible_eq_nil.mpr ha, Response.before_of_none rfl, Response.append_none]
  | call h h' hcall later ih =>
    rw [readContent_open h, reading_call h', hcall, ih]
    rfl
  | failed h h' hb hcall =>
    rw [readContent_open h, reading_call h', hcall, Response.ofContent_of_blank hb]
    rfl

theorem Complete.err (h : Complete parseToolCall said t r) :
    r.err = none ∨ said = false ∧ ∃ e, r = .ofError e := by
  induction h with
  | plain => exact Or.inl rfl
  | unclosed => exact Or.inl rfl
  | call h h' hcall later ih =>
    refine Or.inl ?_
    rcases ih with hnone | ⟨hsaid, -⟩
    · exact hnone
    · cases hsaid
  | failed => exact Or.inr ⟨rfl, _, rfl⟩

theorem Thought.reads (h : Thought parseToolCall t r) :
    Together t ∧ readBody parseToolCall t = ⟨r, []⟩ := by
  cases h with
  | closed h together later =>
    refine ⟨together, ?_⟩
    unfold readBody
    rw [h]
    simp only
    rw [later.reads]
    rfl
  | plain h h' hend =>
    constructor
    · unfold Together
      rw [h, h']
      trivial
    · unfold readBody
      rw [h, h', hend]
      rfl
  | unclosed h h' hne ha =>
    have hzero : tagOverlap t = 0 := by
      rw [((cut_eq_some (by decide)).mp h').1, ← append_assoc]
      exact tagOverlap_blank_end ha hne _
    constructor
    · unfold Together
      rw [h, h']
      exact ⟨hne, ha⟩
    unfold readBody
    rw [h, h', hzero]
    simp only [Nat.lt_irrefl, if_false]
    rw [trimLeft_eq_nil.mpr ha, readContent_toolCall_blank fun _ hr => absurd hr not_mem_nil,
      Response.before_of_none rfl, Response.append_none]

theorem Thought.err (h : Thought parseToolCall t r) : r.err = none ∨ ∃ e, r = .ofError e := by
  cases h with
  | @closed b a r h together later =>
    rcases later.err with hnone | ⟨hsaid, e, rfl⟩
    · exact Or.inl hnone
    · have hb : Blank b := visible_eq_nil.mp (not_not.mp (of_decide_eq_false hsaid))
      rw [Response.ofThinking_of_blank hb]
      exact Or.inr ⟨e, rfl⟩
  | plain => exact Or.inl rfl
  | unclosed => exact Or.inl rfl

theorem bodyOf_blank (h : Blank t) : bodyOf t = none := by
  unfold bodyOf
  rw [trimLeft_eq_nil.mpr h]
  rfl

theorem reading_init_thinking (t : Text) :
    reading parseToolCall (init true false) t = readThinking parseToolCall t := rfl

variable {en prefill : Bool}

theorem reading_init_content (h : (en && !prefill) = false) (t : Text) :
    reading parseToolCall (init en prefill) t = readContent parseToolCall t := by
  unfold init
  rw [h]
  rfl

theorem init_thinking (h : (en && !prefill) = true) : init en prefill = init true false := by
  unfold init
  rw [h]
  rfl

theorem init_buffer (en prefill : Bool) : (init en prefill).buffer = [] := by
  unfold init
  split <;> rfl

theorem Whole.reads (h : Whole parseToolCall (en && !prefill) t r) :
    Kept (init en prefill) t ∧ reading parseToolCall (init en prefill) t = ⟨r, []⟩ ∧
      (r.err = none ∨ ∃ e, r = .ofError e) := by
  generalize hen : (en && !prefill) = thinking at h
  cases h with
  | content h =>
    refine ⟨?_, ?_, h.err.imp_right And.right⟩
    · unfold init
      rw [hen]
      trivial
    · rw [reading_init_content hen, h.reads]
  | thinking h h' =>
    obtain ⟨htogether, hread⟩ := h'.reads
    rw [init_thinking hen]
    refine ⟨?_, ?_, h'.err⟩
    · intro body hbody
      rw [h] at hbody
      cases hbody
      exact htogether
    · rw [reading_init_thinking]
      unfold readThinking
      rw [h]
      exact hread
  | blank h =>
    rw [init_thinking hen]
    refine ⟨?_, ?_, Or.inl rfl⟩
    · intro body hbody
      rw [bodyOf_blank h] at hbody
      cases hbody
    · rw [reading_init_thinking]
      unfold readThinking
      rw [bodyOf_blank h, visible_eq_nil.mpr h]

/-! ## §4  What a cut shows -/

theorem eq_zero_of_blank_take {k : ℕ} (htag : ∀ r ∈ tag, isSpace r = false)
    (hk : k ≤ tag.length) (h : visible (tag.take k) = []) : k = 0 := by
  by_contra hne
  obtain ⟨c, s, hs⟩ := @List.exists_cons_of_ne_nil _ (tag.take k) (by
    intro hnil
    have hlen := congrArg List.length hnil
    rw [length_take, length_nil] at hlen
    omega)
  have hc : c ∈ tag.take k := by
    rw [hs]
    exact mem_cons_self
  exact absurd (visible_eq_nil.mp h c hc) (by rw [htag c (mem_of_mem_take hc)]; decide)

/-- Content that leaves nothing behind, and no error after something, is read whole. -/
theorem complete_of_reads {y : Text} (hread : readContent parseToolCall t = ⟨r, y⟩)
    (hy : r.err = none → y = [])
    (herr : ∀ e, r.err = some e → said = false ∧ r = .ofError e) :
    Complete parseToolCall said t r := by
  induction hn : t.length using Nat.strong_induction_on generalizing t said r y with
  | _ n ih =>
    cases hcut : cut t toolOpenTag with
    | none =>
      unfold readContent at hread
      rw [reading_plain hcut] at hread
      cases hread
      have hdrop := hy rfl
      unfold settledLen at hdrop ⊢
      rw [drop_overlap] at hdrop
      have hzero := eq_zero_of_blank_take (not_isSpace_of_all (by decide)) (overlap_le_right t toolOpenTag) hdrop
      rw [hzero, Nat.sub_zero, take_length]
      exact .plain hcut hzero
    | some q =>
      obtain ⟨b, a⟩ := q
      rw [readContent_open hcut] at hread
      cases hclose : cut a toolCloseTag with
      | none =>
        rw [reading_wait hclose, Response.before_of_none rfl, Response.append_none] at hread
        cases hread
        exact .unclosed hcut (visible_eq_nil.mp (hy rfl))
      | some q =>
        obtain ⟨raw, rest⟩ := q
        rw [reading_call hclose] at hread
        cases hraw : parseToolCall raw with
        | error e =>
          rw [hraw] at hread
          cases hread
          obtain ⟨rfl, hr⟩ := herr e rfl
          have hb : visible b ++ [] = [] := congrArg Response.content hr
          rw [append_nil] at hb
          rw [hr]
          exact .failed hcut hclose (visible_eq_nil.mp hb) hraw
        | ok call =>
          rw [hraw] at hread
          cases hrest : readContent parseToolCall rest with
          | mk r' y' =>
            rw [hrest] at hread
            cases hread
            have hlen := cut_length (by decide) hcut
            have hlen' := cut_length (by decide) hclose
            have hopen : toolOpenTag.length = 11 := rfl
            refine .call hcut hclose hraw (ih rest.length (by omega) hrest hy ?_ rfl)
            intro e he
            obtain ⟨-, hr⟩ := herr e he
            exact absurd (congrArg Response.calls hr) (cons_ne_nil _ _)

theorem cut_through (htag : tag ≠ []) (h : cut t tag = some (b, a)) (a' : Text) :
    cut (b ++ (tag ++ a')) tag = some (b, a') := by
  obtain ⟨rfl, hmin⟩ := (cut_eq_some htag).mp h
  refine (cut_eq_some htag).mpr ⟨rfl, fun j hj ho => hmin j hj ?_⟩
  have hpre : Occurs tag (b ++ tag) j := by
    rw [← append_assoc] at ho
    refine ho.of_append ?_
    rw [length_append]
    omega
  rw [← append_assoc]
  exact hpre.append htag a

/-- An error comes in its own call when the text is cut after the opening tag before it. -/
theorem exists_error_cut {y : Text} (hread : readContent parseToolCall t = ⟨r, y⟩)
    (herr : r.err = some e) :
    ∃ x u, t = x ++ u ∧ readContent parseToolCall x = ⟨{ r with err := none }, []⟩ := by
  induction hn : t.length using Nat.strong_induction_on generalizing t r y with
  | _ n ih =>
    cases hcut : cut t toolOpenTag with
    | none =>
      unfold readContent at hread
      rw [reading_plain hcut] at hread
      cases hread
      cases herr
    | some q =>
      obtain ⟨b, a⟩ := q
      rw [readContent_open hcut] at hread
      obtain ⟨ht, -⟩ := (cut_eq_some (by decide)).mp hcut
      cases hclose : cut a toolCloseTag with
      | none =>
        rw [reading_wait hclose, Response.before_of_none rfl] at hread
        cases hread
        cases herr
      | some q =>
        obtain ⟨raw, rest⟩ := q
        obtain ⟨ha, -⟩ := (cut_eq_some (by decide)).mp hclose
        rw [reading_call hclose] at hread
        cases hraw : parseToolCall raw with
        | error e' =>
          rw [hraw] at hread
          cases hread
          refine ⟨b ++ (toolOpenTag ++ []), a, ?_, ?_⟩
          · rw [append_nil, append_assoc]
            exact ht
          · rw [readContent_open (cut_through (by decide) hcut []),
              reading_wait (cut_nil (by decide))]
            rfl
        | ok call =>
          rw [hraw] at hread
          cases hrest : readContent parseToolCall rest with
          | mk r' y' =>
            rw [hrest] at hread
            cases hread
            have hlen := cut_length (by decide) hcut
            have hlen' := cut_length (by decide) hclose
            have hopen : toolOpenTag.length = 11 := rfl
            obtain ⟨x, u, hxu, hx⟩ := ih rest.length (by omega) hrest herr rfl
            refine ⟨b ++ (toolOpenTag ++ (raw ++ (toolCloseTag ++ x))), u, ?_, ?_⟩
            · rw [ht, ha, hxu]
              simp only [append_assoc]
            · rw [readContent_open (cut_through (by decide) hcut _),
                reading_call (cut_through (by decide) hclose x), hraw, hx]
              rfl

variable (parseToolCall) in
theorem returned_thinking (es : List QwenEvent) : (returned parseToolCall es).thinking = [] := by
  induction es with
  | nil => rfl
  | cons e es ih =>
    cases e with
    | content c => exact ih
    | rawToolCall raw =>
      unfold returned
      cases parseToolCall raw with
      | ok call => exact ih
      | error e => rfl

variable (parseToolCall) in
theorem readContent_thinking (t : Text) : (readContent parseToolCall t).response.thinking = [] := by
  have h := returned_thinking parseToolCall
    (⟨.lookingForToolStart, t⟩ : Qwen3CoderParser).parseEvents.1
  unfold readContent Qwen3CoderParser.reading Response.before
  split
  · exact h
  · show _ ++ [] = []
    rw [append_nil]
    exact h

/-- The thinking of a text that is cut after enough of it. -/
theorem bodyOf_cut (h : bodyOf t = some body) : ∃ lead, t = lead ++ body ∧
    ∀ z, z <+: body → 8 ≤ (visible z).length → bodyOf (lead ++ z) = some z := by
  unfold bodyOf at h
  split at h
  · next hopen =>
    obtain ⟨rest, hrest⟩ := hopen
    rw [← hrest, drop_left] at h
    cases h
    obtain ⟨w, hw, ht⟩ := trimLeft_spec t
    obtain ⟨w', hw', hrest'⟩ := trimLeft_spec rest
    refine ⟨w ++ (qwen35ThinkingOpenTag ++ w'), ?_, fun z hz hlong => ?_⟩
    · rw [append_assoc, append_assoc, ← hrest', hrest]
      exact ht
    have htag : trimLeft (w ++ qwen35ThinkingOpenTag) = qwen35ThinkingOpenTag ++ [] :=
      trimLeft_append_of_blank hw _
    have hbody := bodyOf_tag htag (w' ++ z)
    rw [nil_append, trimLeft_append_of_blank hw',
      trimLeft_of_prefix hz (trimLeft_trimLeft rest)] at hbody
    rw [← hbody]
    simp only [append_assoc]
  · next hopen =>
    split at h
    · cases h
    cases h
    refine ⟨[], rfl, fun z hz hlong => ?_⟩
    rw [nil_append, ← append_nil z]
    have hlen : 8 ≤ (trimLeft z).length := by
      rw [← visible_trimLeft] at hlong
      exact hlong.trans (length_filter_le _ _)
    have hne : trimLeft z ≠ [] := fun hnil => by
      rw [hnil] at hlen
      exact absurd hlen (by decide)
    refine bodyOf_plain (fun hp => hopen ?_) (fun hp => ?_) []
    · obtain ⟨u, rfl⟩ := hz
      rw [trimLeft_append_of_ne hne]
      exact hp.trans (prefix_append _ _)
    · have := hp.length_le
      have : qwen35ThinkingOpenTag.length = 7 := rfl
      omega

/-- The thinking ends in the buffer, or has ended. -/
def Ended (p : Qwen35Parser) : Prop :=
  match p.state with
  | .collectingThinking =>
      ∃ body, (if p.allowLeadingThinkOpenTag then bodyOf p.buffer = some body
          else body = p.buffer) ∧
        (cut body qwen35ThinkingCloseTag ≠ none ∨
          tagOverlap body = 0 ∧ cut body qwen35ToolCallOpenTag ≠ none)
  | _ => True

theorem ended_body (hstate : p.state = .collectingThinking)
    (hallow : p.allowLeadingThinkOpenTag = false) :
    Ended p ↔ cut p.buffer qwen35ThinkingCloseTag ≠ none ∨
      tagOverlap p.buffer = 0 ∧ cut p.buffer qwen35ToolCallOpenTag ≠ none := by
  unfold Ended
  rw [hstate, hallow]
  simp only [Bool.false_eq_true, if_false, exists_eq_left]

theorem ended_trimLeft : (cut (trimLeft t) qwen35ThinkingCloseTag ≠ none ∨
      tagOverlap (trimLeft t) = 0 ∧ cut (trimLeft t) qwen35ToolCallOpenTag ≠ none) ↔
    (cut t qwen35ThinkingCloseTag ≠ none ∨
      tagOverlap t = 0 ∧ cut t qwen35ToolCallOpenTag ≠ none) := by
  obtain ⟨w, hw, ht⟩ := trimLeft_spec t
  conv_rhs => rw [ht, cut_blank (by decide) hw, cut_blank (by decide) hw, tagOverlap_blank hw]
  simp only [ne_eq, Option.map_eq_none_iff]

theorem eatBody_ended (hstate : p.state = .collectingThinking)
    (hallow : p.allowLeadingThinkOpenTag = false) (h : Ended p) :
    (eatBody p).2.2 = true ∧ Ended (eatBody p).2.1 := by
  obtain ⟨toolParser, state, buffer, allow, trim⟩ := p
  cases hstate
  cases hallow
  rw [ended_body rfl rfl] at h
  unfold eatBody
  cases hclose : cut buffer qwen35ThinkingCloseTag with
  | some q =>
    unfold Ended
    simp only
    split
    · next hthinking =>
      split at hthinking <;> cases hthinking
    · trivial
  | none =>
    obtain ⟨hzero, htool⟩ := h.resolve_left (not_not.mpr hclose)
    obtain ⟨⟨b, v⟩, hcut⟩ := Option.ne_none_iff_exists'.mp htool
    rw [hzero, hcut]
    refine ⟨rfl, (ended_body rfl rfl).mpr (Or.inl ?_)⟩
    have hb : cut b qwen35ThinkingCloseTag = none :=
      cut_none_of_front (by decide) hclose ⟨_, ((cut_eq_some (by decide)).mp hcut).1.symm⟩
    have hclosed := cut_closed hb v []
    rw [append_nil] at hclosed
    show cut (closed b v) qwen35ThinkingCloseTag ≠ none
    rw [hclosed]
    exact Option.some_ne_none _

theorem eatSpace_ended (hstate : p.state = .collectingThinking)
    (hallow : p.allowLeadingThinkOpenTag = false) (h : Ended p) :
    (eatSpace p).2.2 = true ∧ Ended (eatSpace p).2.1 := by
  unfold eatSpace
  split
  · have htrim := ended_trimLeft.mpr ((ended_body hstate hallow).mp h)
    simp only
    split
    · next hnil =>
      rw [hnil, cut_nil (by decide), cut_nil (by decide)] at htrim
      simp at htrim
    exact eatBody_ended (p := { p with
      buffer := trimLeft p.buffer
      trimLeadingThinkingSpace := false }) hstate hallow ((ended_body (p := { p with
          buffer := trimLeft p.buffer
          trimLeadingThinkingSpace := false }) hstate hallow).mpr htrim)
  · exact eatBody_ended hstate hallow h

/-- Once the thinking ends in the buffer the loop goes on until it has ended. -/
theorem eat_ended (h : Ended p) : Ended (eat p).2.1 ∧
    ((eat p).2.2 = false → (eat p).2.1.state ≠ .collectingThinking) := by
  obtain ⟨toolParser, state, buffer, allow, trim⟩ := p
  cases state with
  | collectingThinking =>
    suffices hmore : (eat ⟨toolParser, .collectingThinking, buffer, allow, trim⟩).2.2 = true ∧
        Ended (eat ⟨toolParser, .collectingThinking, buffer, allow, trim⟩).2.1 from
      ⟨hmore.2, fun hlast => absurd (hmore.1.symm.trans hlast) nofun⟩
    cases allow with
    | false => exact eatSpace_ended rfl rfl h
    | true =>
      obtain ⟨body, hbody, hend⟩ := h
      unfold eat
      unfold maybeConsumeLeadingThinkOpenTag
      unfold bodyOf at hbody
      by_cases hopen : qwen35ThinkingOpenTag <+: trimLeft buffer
      · rw [if_pos hopen] at hbody ⊢
        cases hbody
        refine ⟨?_, (ended_body rfl rfl).mpr hend⟩
        refine decide_eq_true fun hnil => ?_
        rw [hnil, cut_nil (by decide), cut_nil (by decide)] at hend
        simp at hend
      · rw [if_neg hopen] at hbody ⊢
        by_cases hpart : trimLeft buffer <+: qwen35ThinkingOpenTag
        · rw [if_pos hpart] at hbody
          cases hbody
        · rw [if_neg hpart] at hbody ⊢
          cases hbody
          exact eatSpace_ended rfl rfl ((ended_body rfl rfl).mpr hend)
  | thinkingDoneEatingWhitespace =>
    unfold eat
    simp only
    split
    · exact ⟨trivial, fun _ => nofun⟩
    · exact ⟨trivial, nofun⟩
  | collectingContent =>
    unfold eat
    simp only
    split
    · exact ⟨trivial, fun _ => nofun⟩
    · exact ⟨trivial, fun _ => nofun⟩

theorem parseEvents_ended (h : Ended p) : p.parseEvents.2.state ≠ .collectingThinking := by
  refine drain_rule turns turns_lt (P := fun p _ p' => Ended p → p'.state ≠ .collectingThinking)
    (fun p hlast h => (eat_ended h).2 hlast) (fun p _ _ _ ih h => ih (eat_ended h).1) _ p
    (Nat.lt_succ_self _) h

theorem eat_content (h : p.state ≠ .collectingThinking) :
    (eat p).2.1.state ≠ .collectingThinking ∧ ∀ ev ∈ (eat p).1, ∃ c, ev = .content c := by
  obtain ⟨toolParser, state, buffer, allow, trim⟩ := p
  unfold eat
  cases state with
  | collectingThinking => exact absurd rfl h
  | thinkingDoneEatingWhitespace =>
    simp only
    split
    · exact ⟨nofun, nofun⟩
    · exact ⟨nofun, nofun⟩
  | collectingContent =>
    simp only
    split
    · exact ⟨nofun, nofun⟩
    · exact ⟨nofun, forall_mem_singleton.mpr ⟨buffer, rfl⟩⟩

theorem parseEvents_content (h : p.state ≠ .collectingThinking) :
    ∀ ev ∈ p.parseEvents.1, ∃ c, ev = .content c := by
  refine drain_rule turns turns_lt
    (P := fun p es _ => p.state ≠ .collectingThinking → ∀ ev ∈ es, ∃ c, ev = .content c)
    (fun p _ h => (eat_content h).2) (fun p es _ _ ih h => ?_) _ p (Nat.lt_succ_self _) h
  obtain ⟨hstate, hfirst⟩ := eat_content h
  exact forall_mem_append.mpr ⟨hfirst, ih hstate⟩

theorem collect_thinking {es : List Qwen35Event} (h : ∀ ev ∈ es, ∃ c, ev = .content c)
    (toolParser : Qwen3CoderParser) (answer : Response τ)
    (hanswer : (collect parseToolCall es toolParser).1 = .ok answer) : answer.thinking = [] := by
  induction es generalizing toolParser answer with
  | nil =>
    cases hanswer
    rfl
  | cons ev es ih =>
    obtain ⟨hfirst, hes⟩ := forall_mem_cons.mp h
    obtain ⟨c, rfl⟩ := hfirst
    unfold collect at hanswer
    generalize toolParser.add parseToolCall c = out at hanswer
    obtain ⟨parsed, later⟩ := out
    cases parsed with
    | error e => cases hanswer
    | ok parsed =>
      simp only at hanswer
      cases hlater : (collect parseToolCall es later).1 with
      | error e =>
        rw [hlater] at hanswer
        cases hanswer
      | ok r =>
        rw [hlater] at hanswer
        cases hanswer
        exact ih hes later r hlater

variable (parseToolCall) in
theorem add_thinking (h : p.state ≠ .collectingThinking) (s : Text) (done : Bool) :
    (add parseToolCall s done p).1.thinking = [] := by
  have hevents := parseEvents_content (p := { p with buffer := p.buffer ++ s }) h
  unfold add
  simp only
  generalize ({ p with buffer := p.buffer ++ s } : Qwen35Parser).parseEvents = out at *
  cases hc : (collect parseToolCall out.1 out.2.toolParser).1 with
  | ok answer => exact collect_thinking hevents _ answer hc
  | error e => rfl

/-! ## §5  Every cut -/

/-- **Texts read whole.** However they are cut. -/
theorem Whole.outcome {chunks : List Text} (hne : chunks ≠ [])
    (h : Whole parseToolCall (en && !prefill) chunks.flatten r) :
    outcome (add parseToolCall) (init en prefill) chunks = r ∧
      (r.err = none → withheld (stream (add parseToolCall) (init en prefill) chunks).2 = []) := by
  obtain ⟨hkept, hread, hr⟩ := h.reads
  have hbuf := init_buffer en prefill
  obtain ⟨hall, herror⟩ := outcome_chunks chunks (init en prefill) hne
    (ready_init parseToolCall en prefill) (by rw [hbuf]; exact hkept)
  rw [hbuf, nil_append] at hall herror
  rcases hr with hnone | ⟨e, rfl⟩
  · obtain ⟨heq, hheld⟩ := hall _ _ hread hnone
    exact ⟨heq, fun _ => hheld⟩
  · exact ⟨herror e (by rw [hread]), nofun⟩

section

variable {en prefill : Bool} {x y : Text}

variable (parseToolCall en prefill) in
/-- The parser does not care how the text is cut, and keeps nothing. -/
def ChunkIndependent (text : Text) : Prop :=
  ∀ chunks : List Text, chunks ≠ [] → chunks.flatten = text →
    outcome (add parseToolCall) (init en prefill) chunks =
      outcome (add parseToolCall) (init en prefill) [text] ∧
    ((outcome (add parseToolCall) (init en prefill) chunks).err = none →
      withheld (stream (add parseToolCall) (init en prefill) chunks).2 = [])

theorem ChunkIndependent.pending (h : ChunkIndependent parseToolCall en prefill t)
    (hread : reading parseToolCall (init en prefill) t = ⟨r, y⟩) (hr : r.err = none) : y = [] := by
  obtain ⟨hall, -⟩ := outcome_whole (ready_init parseToolCall en prefill) (init_buffer en prefill) t
  obtain ⟨heq, hheld⟩ := hall r y hread hr
  obtain ⟨-, hkeep⟩ := h [t] (cons_ne_nil _ _) (append_nil t)
  rw [← hheld]
  exact hkeep (by rw [heq]; exact hr)

section

variable (h : ChunkIndependent parseToolCall en prefill (x ++ u))
include h

/-- What the first of two calls returns is at the beginning of what one call returns. -/
theorem ChunkIndependent.first
    (hread : reading parseToolCall (init en prefill) x = ⟨r, y⟩) (hr : r.err = none) :
    outcome (add parseToolCall) (init en prefill) [x ++ u] = r ++
      outcome (add parseToolCall) (add parseToolCall x false (init en prefill)).2 [u] := by
  have hbuf := init_buffer en prefill
  obtain ⟨r', hcall⟩ := add_call (ready_init parseToolCall en prefill) x [] false (Or.inl rfl)
  have hfirst := hcall.reads
  rw [hbuf, nil_append, append_nil, append_nil, hcall.settled, hread] at hfirst
  have hrr' : r' = r := by
    cases hr' : r'.err with
    | none =>
      rw [Response.before_of_none hr', Response.append_none] at hfirst
      exact (congrArg Reading.response hfirst).symm
    | some e =>
      rw [Response.before_of_some hr'] at hfirst
      exact (congrArg Reading.response hfirst).symm
  subst hrr'
  obtain ⟨hall, -⟩ := h [x, u] (cons_ne_nil _ _)
    (by rw [flatten_cons, flatten_cons, flatten_nil, append_nil])
  rw [← hall, (outcome_cons_of_none u [] (hcall.err.trans hr)).1, hcall.seen hr]

theorem ChunkIndependent.first_error
    (hread : reading parseToolCall (init en prefill) x = ⟨r, y⟩) (hr : r.err = some e) :
    outcome (add parseToolCall) (init en prefill) [x ++ u] = .ofError e := by
  have hbuf := init_buffer en prefill
  obtain ⟨r', hcall⟩ := add_call (ready_init parseToolCall en prefill) x [] false (Or.inl rfl)
  have hfirst := hcall.reads
  rw [hbuf, nil_append, append_nil, append_nil, hcall.settled, hread] at hfirst
  have hr' : r'.err = some e := by
    cases hr' : r'.err with
    | none =>
      rw [Response.before_of_none hr', Response.append_none] at hfirst
      cases hfirst
      exact hr'.symm.trans hr
    | some e' =>
      rw [Response.before_of_some hr'] at hfirst
      cases hfirst
      exact hr'.symm.trans hr
  obtain ⟨hall, -⟩ := h [x, u] (cons_ne_nil _ _)
    (by rw [flatten_cons, flatten_cons, flatten_nil, append_nil])
  rw [← hall, outcome_cons_of_some (hcall.error e hr')]

/-- Nothing is returned before an error. -/
theorem ChunkIndependent.error_alone
    (hread : reading parseToolCall (init en prefill) x = ⟨{ r with err := none }, []⟩)
    (hall : (reading parseToolCall (init en prefill) (x ++ u)).response = r)
    (hr : r.err = some e) : r = .ofError e := by
  have hone := (outcome_whole (ready_init parseToolCall en prefill) (init_buffer en prefill)
    (x ++ u)).2 e (by rw [hall]; exact hr)
  rw [h.first hread rfl] at hone
  have hcontent := congrArg Response.content hone
  have hthinking := congrArg Response.thinking hone
  have hcalls := congrArg Response.calls hone
  exact Response.ext' (append_eq_nil_iff.mp hcontent).1
    (append_eq_nil_iff.mp hthinking).1 (append_eq_nil_iff.mp hcalls).1 hr

end

theorem ChunkIndependent.content (hen : (en && !prefill) = false)
    (h : ChunkIndependent parseToolCall en prefill t) :
    ∃ r, Whole parseToolCall false t r := by
  cases hread : readContent parseToolCall t with
  | mk r y =>
    have hreading := (reading_init_content hen t).trans hread
    refine ⟨r, .content (complete_of_reads hread (h.pending hreading) fun e he => ⟨rfl, ?_⟩)⟩
    obtain ⟨x, u, rfl, hx⟩ := exists_error_cut hread he
    exact h.error_alone ((reading_init_content hen x).trans hx) (by rw [hreading]) he

theorem reading_body (h : bodyOf t = some body) :
    reading parseToolCall (init true false) t = readBody parseToolCall body := by
  rw [reading_init_thinking]
  unfold readThinking
  rw [h]

theorem readBody_close (h : cut t qwen35ThinkingCloseTag = some (b, a)) :
    readBody parseToolCall t = (Response.ofThinking b).before (readContent parseToolCall a) := by
  unfold readBody
  rw [h]

/-- The tag of a tool call comes before the closing tag when a beginning of the text without
a closing tag has it. -/
theorem tool_before_close {z v : Text} (h : cut t qwen35ThinkingCloseTag = some (b, a))
    (hz : z <+: t) (hclose : cut z qwen35ThinkingCloseTag = none)
    (htool : cut z qwen35ToolCallOpenTag = some (x, v)) :
    ∃ d, b = x ++ (qwen35ToolCallOpenTag ++ d) := by
  obtain ⟨w, rfl⟩ := hz
  have hall := cut_append (by decide) htool w
  have hsplit := ((cut_eq_some (by decide)).mp h).1
  rw [hsplit] at hall
  rcases cut_marked (c := '<') (by decide) (by decide) (by decide) (by decide) hall with
    ⟨d, hd, -⟩ | ⟨d, -, hd⟩
  · exact ⟨d, hd⟩
  -- the closing tag would be in the beginning
  exfalso
  refine (cut_eq_none (by decide)).mp hclose b.length ?_
  have hocc := occurs_middle b qwen35ThinkingCloseTag (d ++ (qwen35ToolCallOpenTag ++ v))
  rw [((cut_eq_some (by decide)).mp htool).1, hd]
  simp only [append_assoc] at hocc ⊢
  exact hocc

theorem visible_length_tool (x d : Text) : (visible (x ++ (qwen35ToolCallOpenTag ++ d))).length =
      (visible x).length + 11 + (visible d).length := by
  rw [visible_append, visible_append, length_append, length_append]
  have : (visible qwen35ToolCallOpenTag).length = 11 := by decide
  omega

/-- No tool call interrupts the thinking, or the text cut after it gives less thinking. -/
theorem ChunkIndependent.together (h : ChunkIndependent parseToolCall true false t)
    (hbody : bodyOf t = some body) (hclose : cut body qwen35ThinkingCloseTag = some (b, a))
    (hread : readContent parseToolCall a = ⟨r, y⟩) (hone : ∀ e, r.err = some e → Blank b) :
    Together body := by
  obtain ⟨lead, rfl, hcut⟩ := bodyOf_cut hbody
  unfold Together
  rw [hclose]
  intro z hz hzclose hztool
  by_contra hzero
  obtain ⟨⟨b', v⟩, htool⟩ := Option.ne_none_iff_exists'.mp hztool
  obtain ⟨d, hd⟩ := tool_before_close hclose hz hzclose htool
  have hlong : 8 ≤ (visible z).length := by
    rw [((cut_eq_some (by decide)).mp htool).1, visible_length_tool]
    omega
  have hzbody := hcut z hz hlong
  have hended : Ended ({ init true false with buffer := lead ++ z } : Qwen35Parser) :=
    ⟨z, hzbody, Or.inr ⟨by omega, hztool⟩⟩
  have hlater := fun u => add_thinking parseToolCall
    (p := (add parseToolCall (lead ++ z) false (init true false)).2) (parseEvents_ended hended) u
    true
  have hzread : reading parseToolCall (init true false) (lead ++ z) = (Response.ofThinking b').before
      (readContent parseToolCall (qwen35ToolCallOpenTag ++ trimLeft v)) := by
    rw [reading_body hzbody]
    unfold readBody
    rw [hzclose]
    rw [if_neg hzero, htool]
  have hthinking : (outcome (add parseToolCall) (init true false) [lead ++ body]).thinking =
      visible b := by
    have hwhole := outcome_whole (ready_init parseToolCall true false) (init_buffer true false)
      (lead ++ body)
    rw [reading_body hbody, readBody_close hclose, hread, Response.before_of_none rfl] at hwhole
    cases hr : r.err with
    | none =>
      rw [(hwhole.1 _ _ rfl hr).1]
      have hnil := readContent_thinking parseToolCall a
      rw [hread] at hnil
      show visible b ++ r.thinking = visible b
      rw [show r.thinking = [] from hnil, append_nil]
    | some e =>
      rw [hwhole.2 e hr, visible_eq_nil.mpr (hone e hr)]
      rfl
  obtain ⟨u, rfl⟩ := hz
  rw [← append_assoc] at h hthinking
  have hless : (visible b').length < (visible b).length := by
    rw [hd, visible_length_tool]
    omega
  cases hrest : readContent parseToolCall (qwen35ToolCallOpenTag ++ trimLeft v) with
  | mk r₁ y₁ =>
    rw [hrest, Response.before_of_none rfl] at hzread
    cases hr₁ : r₁.err with
    | none =>
      rw [h.first hzread hr₁, outcome_single] at hthinking
      have hnil := readContent_thinking parseToolCall (qwen35ToolCallOpenTag ++ trimLeft v)
      rw [hrest] at hnil
      have hshort : visible b' ++ r₁.thinking ++ visible (add parseToolCall u true
          (add parseToolCall (lead ++ z) false (init true false)).2).1.thinking = visible b :=
        hthinking
      rw [show r₁.thinking = [] from hnil, hlater u, visible_nil, append_nil, append_nil] at hshort
      rw [hshort] at hless
      omega
    | some e =>
      rw [h.first_error hzread hr₁] at hthinking
      have hempty : visible b = [] := hthinking.symm
      rw [hempty, length_nil] at hless
      omega

theorem tagOverlap_eq_zero (h : visible (t.drop (t.length - tagOverlap t)) = []) :
    tagOverlap t = 0 := by
  unfold tagOverlap at h ⊢
  rcases Nat.le_total (overlap t qwen35ThinkingCloseTag) (overlap t qwen35ToolCallOpenTag) with
    hle | hle
  · rw [Nat.max_eq_right hle, drop_overlap] at h
    rw [Nat.max_eq_right hle]
    exact eq_zero_of_blank_take (not_isSpace_of_all (by decide)) (overlap_le_right _ _) h
  · rw [Nat.max_eq_left hle, drop_overlap] at h
    rw [Nat.max_eq_left hle]
    exact eq_zero_of_blank_take (not_isSpace_of_all (by decide)) (overlap_le_right _ _) h

section

variable (h : ChunkIndependent parseToolCall true false t)
include h

theorem ChunkIndependent.unheld
    (hbody : bodyOf t = some body) (hclose : cut body qwen35ThinkingCloseTag = none) :
    tagOverlap body = 0 := by
  by_contra hne
  refine hne (tagOverlap_eq_zero (h.pending (r := .ofThinking
    (body.take (body.length - tagOverlap body))) ?_ rfl))
  rw [reading_body hbody]
  unfold readBody
  rw [hclose]
  rw [if_pos (Nat.pos_of_ne_zero hne)]

/-- Cut before the closing tag of the tool call, its opening tag is returned as thinking. -/
theorem ChunkIndependent.unclosed
    (hbody : bodyOf t = some body) (hclose : cut body qwen35ThinkingCloseTag = none)
    (htool : cut body qwen35ToolCallOpenTag = some (b, a)) : Blank a := by
  have hzero := h.unheld hbody hclose
  have hread : reading parseToolCall (init true false) t = (Response.ofThinking b).before
      (readContent parseToolCall (qwen35ToolCallOpenTag ++ trimLeft a)) := by
    rw [reading_body hbody]
    unfold readBody
    rw [hclose]
    simp only
    rw [if_neg (by omega), htool]
  cases hcall : cut a toolCloseTag with
  | none =>
    obtain ⟨w, -, ha⟩ := trimLeft_spec a
    have hnone : cut (trimLeft a) toolCloseTag = none :=
      cut_none_of_suffix (by decide) hcall ⟨w, ha.symm⟩
    rw [readContent_toolCall, reading_wait hnone, Response.before_of_none rfl,
      Response.append_none] at hread
    have := h.pending hread rfl
    rw [visible_trimLeft] at this
    exact visible_eq_nil.mp this
  | some q =>
    exfalso
    obtain ⟨raw, rest⟩ := q
    obtain ⟨hs, -⟩ := (cut_eq_some (by decide)).mp htool
    obtain ⟨ha, -⟩ := (cut_eq_some (by decide)).mp hcall
    obtain ⟨lead, rfl, hcut⟩ := bodyOf_cut hbody
    have hthinking : (outcome (add parseToolCall) (init true false)
        [lead ++ body]).thinking.length ≤ (visible b).length := by
      have hwhole := outcome_whole (ready_init parseToolCall true false) (init_buffer true false)
        (lead ++ body)
      rw [hread] at hwhole
      have hnil := readContent_thinking parseToolCall (qwen35ToolCallOpenTag ++ trimLeft a)
      generalize readContent parseToolCall (qwen35ToolCallOpenTag ++ trimLeft a) = r at hwhole hnil
      rw [Response.before_of_none rfl] at hwhole
      cases hr : r.response.err with
      | none =>
        rw [(hwhole.1 _ _ rfl hr).1]
        show (visible b ++ r.response.thinking).length ≤ _
        rw [hnil, append_nil]
      | some e =>
        rw [hwhole.2 e hr]
        exact Nat.zero_le _
    -- the first call ends in the first character of the closing tag
    have hsplit : body = b ++ (qwen35ToolCallOpenTag ++ raw) ++ ['<'] ++
        (toolCloseTag.drop 1 ++ rest) := by
      rw [hs, ha]
      simp only [append_assoc]
      rfl
    generalize hd : b ++ (qwen35ToolCallOpenTag ++ raw) = d at hsplit
    have hov : tagOverlap (d ++ ['<']) = 1 := by
      unfold tagOverlap
      rw [overlap_concat (by decide), overlap_concat (by decide)]
      rfl
    have hz : d ++ ['<'] <+: body := by
      rw [hsplit]
      exact prefix_append _ _
    have hdlen : (visible d).length = (visible b).length + 11 + (visible raw).length := by
      rw [← hd, visible_length_tool]
    have hzbody := hcut _ hz (by rw [visible_append, length_append]; omega)
    have hzread : reading parseToolCall (init true false) (lead ++ (d ++ ['<'])) =
        ⟨.ofThinking d, ['<']⟩ := by
      rw [reading_body hzbody]
      unfold readBody
      rw [cut_none_of_front (by decide) hclose hz, hov]
      simp only [Nat.lt_one_iff, if_true]
      rw [length_append, length_singleton, Nat.add_sub_cancel, take_left, drop_left]
      rfl
    rw [hsplit, ← append_assoc] at h hthinking
    rw [h.first hzread rfl] at hthinking
    have hmore : (visible d ++ (outcome (add parseToolCall) (add parseToolCall
      (lead ++ (d ++ ['<'])) false (init true false)).2
        [toolCloseTag.drop 1 ++ rest]).thinking).length ≤ (visible b).length := hthinking
    rw [length_append] at hmore
    omega

theorem ChunkIndependent.thinking :
    ∃ r, Whole parseToolCall true t r := by
  cases hbody : bodyOf t with
  | none =>
    refine ⟨_, .blank (visible_eq_nil.mp (h.pending (r := .none) ?_ rfl))⟩
    rw [reading_init_thinking]
    unfold readThinking
    rw [hbody]
  | some body =>
    suffices hthought : ∃ r, Thought parseToolCall body r from
      hthought.imp fun r hr => .thinking hbody hr
    cases hclose : cut body qwen35ThinkingCloseTag with
    | none =>
      have hzero := h.unheld hbody hclose
      cases htool : cut body qwen35ToolCallOpenTag with
      | none => exact ⟨_, .plain hclose htool hzero⟩
      | some q =>
        obtain ⟨b, a⟩ := q
        refine ⟨_, .unclosed hclose htool (fun hnil => ?_) (h.unclosed hbody hclose htool)⟩
        -- a tag at the end is held back
        have hfull := le_overlap (s := body) (t := qwen35ToolCallOpenTag) le_rfl (by
          rw [take_length, ((cut_eq_some (by decide)).mp htool).1, hnil, append_nil]
          exact suffix_append _ _)
        have hlen : qwen35ToolCallOpenTag.length = 11 := rfl
        have hle : overlap body qwen35ToolCallOpenTag ≤ tagOverlap body := Nat.le_max_right _ _
        omega
    | some q =>
      obtain ⟨b, a⟩ := q
      cases hread : readContent parseToolCall a with
      | mk r y =>
        have hwhole : reading parseToolCall (init true false) t = ⟨.ofThinking b ++ r, y⟩ := by
          rw [reading_body hbody, readBody_close hclose, hread, Response.before_of_none rfl]
        have hone : ∀ e, r.err = some e → Blank b ∧ r = .ofError e := by
          intro e he
          obtain ⟨lead, rfl, hcut⟩ := bodyOf_cut hbody
          obtain ⟨x, u, rfl, hx⟩ := exists_error_cut hread he
          obtain ⟨hs, -⟩ := (cut_eq_some (by decide)).mp hclose
          have hz : b ++ (qwen35ThinkingCloseTag ++ x) <+: body := by
            rw [hs]
            exact ⟨u, by simp only [append_assoc]⟩
          have hzbody := hcut _ hz (by
            have : (visible qwen35ThinkingCloseTag).length = 8 := by decide
            rw [visible_append, visible_append, length_append, length_append]
            omega)
          have hzread : reading parseToolCall (init true false)
              (lead ++ (b ++ (qwen35ThinkingCloseTag ++ x))) =
                ⟨{ (Response.ofThinking b ++ r) with err := none }, []⟩ := by
            rw [reading_body hzbody, readBody_close (cut_through (by decide) hclose x), hx]
            rfl
          have hsplit : lead ++ body = lead ++ (b ++ (qwen35ThinkingCloseTag ++ x)) ++ u := by
            rw [hs]
            simp only [append_assoc]
          rw [hsplit] at h hwhole
          have halone := h.error_alone hzread (by rw [hwhole]) he
          have hthinking : visible b ++ r.thinking = [] := congrArg Response.thinking halone
          have hb := visible_eq_nil.mp (append_eq_nil_iff.mp hthinking).1
          rw [Response.ofThinking_of_blank hb] at halone
          exact ⟨hb, halone⟩
        refine ⟨_, .closed hclose (h.together hbody hclose hread fun e he => (hone e he).1)
          (complete_of_reads hread (fun hr => h.pending (r := .ofThinking b ++ r) hwhole hr)
            fun e he => ?_)⟩
        obtain ⟨hb, hr⟩ := hone e he
        exact ⟨decide_eq_false (not_not.mpr (visible_eq_nil.mpr hb)), hr⟩

end

end

/-- **Every cut.** For every text, every cut of it gives what the whole text in one call
gives, and nothing is kept, if and only if the text is read whole; and then that is what is
returned. -/
theorem chunks_same_iff (parseToolCall : Text → Except Error τ)
    (thinkingEnabled assistantPrefill : Bool) (text : Text) :
    (ChunkIndependent parseToolCall thinkingEnabled assistantPrefill text ↔
      ∃ r, Whole parseToolCall (thinkingEnabled && !assistantPrefill) text r) ∧
    ∀ r, Whole parseToolCall (thinkingEnabled && !assistantPrefill) text r →
      outcome (add parseToolCall) (init thinkingEnabled assistantPrefill) [text] = r := by
  have hone : ∀ r, Whole parseToolCall (thinkingEnabled && !assistantPrefill) text r →
      outcome (add parseToolCall) (init thinkingEnabled assistantPrefill) [text] = r := by
    intro r hwhole
    rw [← append_nil text] at hwhole
    have hflat : ([text] : List Text).flatten = text ++ [] := rfl
    exact (hwhole.outcome (cons_ne_nil _ _)).1
  refine ⟨⟨fun h => ?_, ?_⟩, hone⟩
  · cases hen : thinkingEnabled && !assistantPrefill with
    | false => exact h.content hen
    | true =>
      have hinit := init_thinking hen
      refine ChunkIndependent.thinking (t := text) fun chunks hne hflat => ?_
      have := h chunks hne hflat
      rwa [hinit] at this
  · rintro ⟨r, hwhole⟩ chunks hne rfl
    obtain ⟨heq, hheld⟩ := hwhole.outcome hne
    refine ⟨heq.trans (hone r hwhole).symm, fun herr => hheld ?_⟩
    rw [heq] at herr
    exact herr

/-- A tool call whose text is its name. -/
def namedCall (raw : Text) : Except Error Text :=
  if raw = [] then .error "empty tool call" else .ok raw

/-- Thinking with the tag of a tool call in it is cut there when its chunk ends after the
tag, and goes on to the closing tag when it does not. -/
theorem thinking_cut_at_tool_call :
    ¬ ∀ text : Text, ChunkIndependent namedCall true false text := by
  intro hall
  have h := (hall _ ["a<tool_call>x".toList, "</think>b".toList] (by decide) rfl).1
  revert h
  decide +kernel

end Qwen35Parser

end Ollama.Parsers
