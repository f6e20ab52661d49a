import Ollama.Anthropic.Stream

/-!
# When the event stream is well formed

The converter closes thinking when text comes, and text when a tool call comes, and nothing
else. The stream is well formed exactly when the responses need nothing else.
-/

namespace Ollama.Anthropic

open Api Lib.Blocks Server List StreamConverter

variable {α : Type}

/-- `message_start`, numbered content blocks, `message_delta` and `message_stop`. -/
def WellFormed (events : List (StreamEvent α)) : Prop :=
  ∃ message marks stopReason outputTokens, Numbered Fits marks ∧ events = .messageStart message ::
      (marks.map .contentBlock ++ [.messageDelta stopReason outputTokens, .messageStop])

/-! ## §1  The order of what comes -/

inductive Kind
  | thinking
  | text
  | toolUse
  deriving DecidableEq

/-- What one response brings, when responses before it had up to `sent` tool calls: a call at
a position that was sent before counts for nothing. -/
def kindsOf (sent : ℕ) (r : ChatResponse α) : List Kind :=
  (if r.message.thinking = [] then [] else [.thinking]) ++
    ((if r.message.content = [] then [] else [.text]) ++
      List.replicate (r.message.toolCalls.length - sent) .toolUse)

def kinds : ℕ → List (ChatResponse α) → List Kind
  | _, [] => []
  | sent, r :: rs => kindsOf sent r ++ kinds (max sent r.message.toolCalls.length) rs

/-- The first thinking does not directly follow text, and between it and the next text there
is no tool call. -/
def Orderly (ks : List Kind) : Prop :=
  .thinking ∈ ks → (ks.takeWhile (· ≠ .thinking)).getLast? ≠ some .text ∧
      .toolUse ∉ (ks.dropWhile (· ≠ .thinking)).takeWhile (· ≠ .text)

instance (ks : List Kind) : Decidable (Orderly ks) :=
  inferInstanceAs (Decidable (_ → _))

/-- How far the thinking is. Before it, `text` says whether text came last. -/
inductive Phase
  | unthought (text : Bool)
  | thinking
  | thought

def Phase.next : Phase → Kind → Option Phase
  | .unthought true, .thinking => none
  | .unthought false, .thinking => some .thinking
  | .unthought _, .text => some (.unthought true)
  | .unthought _, .toolUse => some (.unthought false)
  | .thinking, .thinking => some .thinking
  | .thinking, .text => some .thought
  | .thinking, .toolUse => none
  | .thought, _ => some .thought

def Phase.run : Phase → List Kind → Option Phase
  | p, [] => some p
  | p, k :: ks => (p.next k).bind fun q => q.run ks

theorem Phase.run_append (p : Phase) (ks ls : List Kind) :
    p.run (ks ++ ls) = (p.run ks).bind fun q => q.run ls := by
  induction ks generalizing p with
  | nil => rfl
  | cons k ks ih =>
      rw [cons_append, Phase.run, Phase.run]
      rcases p.next k with - | q
      · rfl
      · exact ih q

theorem Phase.run_thought (ks : List Kind) : Phase.run .thought ks = some .thought := by
  induction ks with
  | nil => rfl
  | cons k ks ih => exact ih

theorem Phase.run_thinking (ks : List Kind) :
    (Phase.run .thinking ks).isSome ↔ .toolUse ∉ ks.takeWhile (· ≠ .text) := by
  induction ks with
  | nil => simp [Phase.run]
  | cons k ks ih =>
      cases k with
      | thinking => simpa [Phase.run, Phase.next] using ih
      | text => simp [Phase.run, Phase.next, Phase.run_thought]
      | toolUse => simp [Phase.run, Phase.next]

theorem Phase.run_unthought (b : Bool) (ks : List Kind) : (Phase.run (.unthought b) ks).isSome ↔
      (.thinking ∈ ks →
        (ks.takeWhile (· ≠ .thinking)).getLast?.getD (if b then .text else .toolUse) ≠ .text ∧
          .toolUse ∉ (ks.dropWhile (· ≠ .thinking)).takeWhile (· ≠ .text)) := by
  induction ks generalizing b with
  | nil => simp [Phase.run]
  | cons k ks ih =>
      cases k with
      | thinking =>
          cases b with
          | true => simp [Phase.run, Phase.next]
          | false => simpa [Phase.run, Phase.next] using Phase.run_thinking ks
      | text => simpa [Phase.run, Phase.next, getLast?_cons] using ih true
      | toolUse => simpa [Phase.run, Phase.next, getLast?_cons] using ih false

theorem orderly_iff (ks : List Kind) : Orderly ks ↔ (Phase.run (.unthought false) ks).isSome := by
  have atLast : ∀ k : Option Kind, k.getD .toolUse ≠ .text ↔ k ≠ some .text := by
    intro k
    cases k <;> simp
  rw [Phase.run_unthought, if_neg Bool.false_ne_true, atLast]
  rfl

/-! ## §2  What the converter has open -/

def reading (c : StreamConverter) : Reading (ContentBlock α) :=
  ⟨c.contentIndex,
    if c.textStarted then some (.text [])
    else if c.thinkingStarted ∧ c.thinkingDone = false then some (.thinking [])
    else none⟩

def Phase.Is (c : StreamConverter) : Phase → Prop
  | .unthought text =>
      c.thinkingStarted = false ∧ c.thinkingDone = false ∧ c.textStarted = text
  | .thinking => c.thinkingStarted = true ∧ c.thinkingDone = false ∧ c.textStarted = false
  | .thought => c.thinkingStarted = true ∧ c.thinkingDone = true

/-- The converter is in the phase, and `sent` tool calls have been sent. -/
structure Tracks (c : StreamConverter) (p : Phase) (sent : ℕ) : Prop where
  phase : p.Is c
  sent : ∀ i, i ∈ c.toolCallsSent ↔ i < sent

/-- What a part of `Process` writes can be read on exactly when what comes is in order. -/
def Follows (f : Part α) (ks : List Kind) (sent sent' : ℕ) : Prop :=
  ∀ c p, Tracks c p sent →
    match p.run ks with
    | some q => ReadsAll Fits (reading c) (f c).1 (reading (f c).2) ∧ Tracks (f c).2 q sent'
    | none => ∀ s, ¬ReadsAll Fits (reading c) (f c).1 s

theorem Follows.andThen {f g : Part α} {ks ls : List Kind} {n n' n'' : ℕ}
    (hf : Follows f ks n n') (hg : Follows g ls n' n'') :
    Follows (f.andThen g) (ks ++ ls) n n'' := by
  intro c p t
  have first := hf c p t
  rw [Phase.run_append]
  rcases hks : p.run ks with - | q
  · rw [hks] at first
    intro s whole
    obtain ⟨r, begun, -⟩ := readsAll_append.mp whole
    exact first r begun
  rw [hks] at first
  obtain ⟨begun, t'⟩ := first
  have second := hg (f c).2 q t'
  rw [Option.bind_some]
  rcases hls : q.run ls with - | u
  · rw [hls] at second
    intro s whole
    exact second s (begun.then_iff.mp whole)
  · rw [hls] at second
    exact ⟨begun.append second.1, second.2⟩

theorem Follows.nothing (n : ℕ) : Follows (fun c => ([], c) : Part α) [] n n :=
  fun c _ t => ⟨.nil (reading c), t⟩

variable {c : StreamConverter}

theorem reading_text (h : c.textStarted = true) :
    reading (α := α) c = ⟨c.contentIndex, some (.text [])⟩ := by
  rw [reading, if_pos h]

theorem reading_thinking (h : Phase.thinking.Is c) :
    reading (α := α) c = ⟨c.contentIndex, some (.thinking [])⟩ := by
  obtain ⟨started, notDone, noText⟩ := h
  rw [reading, if_neg (by simp [noText]), if_pos ⟨started, notDone⟩]

theorem reading_none (noText : c.textStarted = false)
    (h : c.thinkingStarted = true → c.thinkingDone = true) :
    reading (α := α) c = ⟨c.contentIndex, none⟩ := by
  rw [reading, if_neg (by simp [noText]), if_neg]
  rintro ⟨started, notDone⟩
  simp [h started] at notDone

/-! ## §3  The parts of a response -/

theorem thinking_follows (t : Text) (n : ℕ) :
    Follows (thinking t : Part α) (if t = [] then [] else [.thinking]) n n := by
  by_cases empty : t = []
  · rw [if_pos empty]
    have : (thinking t : Part α) = fun c => ([], c) :=
      funext fun c => if_neg fun h => h.1 empty
    rw [this]
    exact .nothing n
  rw [if_neg empty]
  intro c p track
  cases p with
  | unthought text =>
      obtain ⟨notStarted, notDone, isText⟩ := track.phase
      have wrote : (thinking t : Part α) c =
          ([.start c.contentIndex (.thinking []), .piece c.contentIndex (.thinking t)],
            { c with thinkingStarted := true }) := by
        simp [thinking, empty, notDone, notStarted]
      rw [wrote]
      cases text with
      | true =>
          -- the text block stays open
          intro s
          rw [reading_text isText]
          exact not_readsAll_start
      | false =>
          refine ⟨?_, ⟨⟨rfl, notDone, isText⟩, track.sent⟩⟩
          rw [reading_none isText (by simp [notStarted]),
            reading_thinking (c := { c with thinkingStarted := true }) ⟨rfl, notDone, isText⟩]
          exact .cons (.start _ _) (.cons (.piece _ _ _ (.thinking _ _)) (.nil _))
  | thinking =>
      have now := track.phase
      obtain ⟨started, notDone, noText⟩ := now
      have same : { c with thinkingStarted := true } = c := by rw [← started]
      have wrote : (thinking t : Part α) c = ([.piece c.contentIndex (.thinking t)], c) := by
        rw [thinking, if_pos ⟨empty, notDone⟩, same, if_pos started]
        rfl
      rw [wrote]
      refine ⟨?_, track⟩
      rw [reading_thinking track.phase]
      exact .cons (.piece _ _ _ (.thinking _ _)) (.nil _)
  | thought =>
      have wrote : (thinking t : Part α) c = ([], c) :=
        if_neg fun h => by simp [track.phase.2] at h
      rw [wrote]
      exact ⟨.nil _, track⟩

def NotThinking (c : StreamConverter) : Prop := c.thinkingStarted = true → c.thinkingDone = true

variable {p : Phase}

theorem Phase.Is.notThinking (h : p.Is c) (other : p ≠ .thinking) : NotThinking c := by
  cases p with
  | unthought text => simp [NotThinking, h.1]
  | thinking => exact absurd rfl other
  | thought => exact fun _ => h.2

theorem closeThinking_idle (h : NotThinking c) : (closeThinking : Part α) c = ([], c) :=
  if_neg fun ⟨started, notDone⟩ => by simp [h started] at notDone

theorem addText_reads (h : NotThinking c) (t : Text) :
    ReadsAll Fits (reading c) (addText t c : _ × _).1
      (reading (α := α) (addText (α := α) t c).2) := by
  rcases hb : c.textStarted with - | -
  · rw [reading_none hb h]
    simp only [addText, hb, Bool.false_eq_true, if_false]
    exact .cons (.start _ _) (.cons (.piece _ _ _ (.text _ _)) (.nil _))
  · rw [reading_text hb]
    simp only [addText, hb, if_true]
    exact .cons (.piece _ _ _ (.text _ _)) (.nil _)

theorem content_follows (t : Text) (n : ℕ) :
    Follows (content t : Part α) (if t = [] then [] else [.text]) n n := by
  by_cases empty : t = []
  · rw [if_pos empty, content, if_pos empty]
    exact .nothing n
  rw [if_neg empty, content, if_neg empty]
  intro c p track
  cases p with
  | unthought text =>
      have idle := track.phase.notThinking Phase.noConfusion
      have run : (Phase.unthought text).run [.text] = some (.unthought true) := by
        cases text <;> rfl
      obtain ⟨notStarted, notDone, -⟩ := track.phase
      rw [run]
      simp only [Part.andThen, closeThinking_idle idle, nil_append]
      exact ⟨addText_reads idle t, ⟨notStarted, notDone, rfl⟩, track.sent⟩
  | thinking =>
      obtain ⟨started, notDone, noText⟩ := track.phase
      have closed : (closeThinking : Part α) c = ([.stop c.contentIndex],
          { c with thinkingDone := true, contentIndex := c.contentIndex + 1 }) :=
        if_pos ⟨started, notDone⟩
      let c' := { c with thinkingDone := true, contentIndex := c.contentIndex + 1 }
      have text := addText_reads (α := α) (c := c') (fun _ => rfl) t
      have between : reading (α := α) c' = ⟨c.contentIndex + 1, none⟩ :=
        reading_none noText fun _ => rfl
      simp only [Part.andThen, closed]
      refine ⟨?_, ⟨started, rfl⟩, track.sent⟩
      rw [reading_thinking track.phase]
      rw [between] at text
      exact .cons (.stop _ _) text
  | thought =>
      have idle := track.phase.notThinking Phase.noConfusion
      obtain ⟨started, done⟩ := track.phase
      simp only [Part.andThen, closeThinking_idle idle, nil_append]
      exact ⟨addText_reads idle t, ⟨started, done⟩, track.sent⟩

theorem closeText_reads (h : NotThinking c) : ReadsAll Fits (reading c) (closeText c : _ × _).1
      (reading (α := α) (closeText (α := α) c).2) := by
  rcases hb : c.textStarted with - | -
  · simp only [closeText, hb, Bool.false_eq_true, if_false]
    exact .nil _
  simp only [closeText, hb, if_true]
  have after : reading (α := α)
      { c with contentIndex := c.contentIndex + 1, textStarted := false } =
        ⟨c.contentIndex + 1, none⟩ := reading_none rfl h
  rw [reading_text hb, after]
  exact .cons (.stop _ _) (.nil _)

theorem closeText_noText (c : StreamConverter) : (closeText (α := α) c).2.textStarted = false := by
  rw [closeText]
  split
  · rfl
  · next h => exact Bool.not_eq_true _ ▸ h

theorem closeText_thinking (c : StreamConverter) :
    (closeText (α := α) c).2.thinkingStarted = c.thinkingStarted ∧
      (closeText (α := α) c).2.thinkingDone = c.thinkingDone ∧
      (closeText (α := α) c).2.toolCallsSent = c.toolCallsSent := by
  rw [closeText]
  split
  · exact ⟨rfl, rfl, rfl⟩
  · exact ⟨rfl, rfl, rfl⟩

theorem closeText_reading (h : NotThinking c) : reading (α := α) (closeText (α := α) c).2 =
      ⟨(closeText (α := α) c).2.contentIndex, none⟩ := by
  obtain ⟨started, done, -⟩ := closeText_thinking (α := α) c
  exact reading_none (closeText_noText c) (by rw [started, done]; exact h)

variable (marshal : α → Option Text) (toolUseID : ℕ → Text)

theorem addToolUse_reads (between : reading (α := α) c =
    ⟨c.contentIndex, none⟩) (noText : c.textStarted = false) (h : NotThinking c) {tc : ToolCall α}
    {argsJSON : Text} (hm : marshal tc.function.arguments = some argsJSON) (i : ℕ) (tcID : Text) :
    ReadsAll Fits (reading c) (addToolUse marshal i tcID tc c).1
      (reading (α := α) (addToolUse marshal i tcID tc c).2) := by
  simp only [addToolUse, hm]
  have after : reading (α := α) { c with
      toolCallsSent := i :: c.toolCallsSent, contentIndex := c.contentIndex + 1 } =
        ⟨c.contentIndex + 1, none⟩ := reading_none noText h
  rw [between, after]
  exact .cons (.start _ _) (.cons (.piece _ _ _ (.toolUse _ _ _ _)) (.cons (.stop _ _) (.nil _)))

theorem toolCallID_same (i : ℕ) (tc : ToolCall α) (c : StreamConverter) :
    ∃ ids drawn, (c.toolCallID toolUseID i tc).2 =
      { c with toolCallIDs := ids, drawn := drawn } := by
  rw [toolCallID]
  split
  · split
    · exact ⟨_, _, rfl⟩
    · exact ⟨_, _, rfl⟩
  · exact ⟨_, _, rfl⟩

theorem toolCall_new {i : ℕ} (new : i ∉ c.toolCallsSent) (tc : ToolCall α) :
    toolCall marshal toolUseID i tc c = (closeText.andThen (addToolUse marshal i
        (c.toolCallID toolUseID i tc).1 tc)) (c.toolCallID toolUseID i tc).2 := by
  rw [toolCall, if_neg new]

theorem toolCall_follows {i n : ℕ} (near : i ≤ n) {tc : ToolCall α}
    (hm : (marshal tc.function.arguments).isSome) :
    Follows (toolCall marshal toolUseID i tc)
      (if i < n then [] else [.toolUse]) n (max n (i + 1)) := by
  intro c p track
  rcases Nat.lt_or_ge i n with sent | new
  · -- the position was sent before
    have same : toolCall marshal toolUseID i tc c = ([], c) :=
      if_pos ((track.sent i).mpr sent)
    rw [if_pos sent, same, Nat.max_eq_left sent]
    exact ⟨.nil _, track⟩
  obtain rfl : i = n := Nat.le_antisymm near new
  obtain ⟨argsJSON, written⟩ := Option.isSome_iff_exists.mp hm
  have notSent : i ∉ c.toolCallsSent := fun h => absurd ((track.sent i).mp h) (Nat.lt_irrefl i)
  obtain ⟨ids, drawn, same⟩ := toolCallID_same toolUseID i tc c
  rw [if_neg (Nat.lt_irrefl i), toolCall_new marshal toolUseID notSent, same,
    Nat.max_eq_right (Nat.le_succ i)]
  generalize (c.toolCallID toolUseID i tc).1 = tcID
  -- neither the blocks nor the phase depend on the identifiers
  have track' : Tracks { c with toolCallIDs := ids, drawn := drawn } p i := by
    refine ⟨?_, track.sent⟩
    cases p <;> exact track.phase
  have alike : reading (α := α) c = reading { c with toolCallIDs := ids, drawn := drawn } := rfl
  rw [alike]
  generalize { c with toolCallIDs := ids, drawn := drawn } = d at track'
  by_cases thinking : p = .thinking
  · -- the thinking stays open
    subst thinking
    intro s
    have wrote : (closeText.andThen (addToolUse marshal i tcID tc) d).1 =
          [.start d.contentIndex (.toolUse tcID tc.function.name none),
            .piece d.contentIndex (.inputJson argsJSON), .stop d.contentIndex] := by
      simp [Part.andThen, closeText, track'.phase.2.2, addToolUse, written]
    rw [wrote, reading_thinking track'.phase]
    exact not_readsAll_start
  · have idle := track'.phase.notThinking thinking
    obtain ⟨started, done, sent⟩ := closeText_thinking (α := α) d
    have idle' : NotThinking (closeText (α := α) d).2 := by
      rw [NotThinking, started, done]
      exact idle
    have noText := closeText_noText (α := α) d
    have use := addToolUse_reads marshal (closeText_reading idle) noText idle' written i tcID
    have after : (addToolUse marshal i tcID tc (closeText (α := α) d).2).2 =
          { (closeText (α := α) d).2 with
            toolCallsSent := i :: (closeText (α := α) d).2.toolCallsSent
            contentIndex := (closeText (α := α) d).2.contentIndex + 1 } := by
      simp only [addToolUse, written]
    have count : ∀ j, j ∈ i :: (closeText (α := α) d).2.toolCallsSent ↔ j < i + 1 := by
      intro j
      rw [mem_cons, sent, track'.sent j]
      omega
    have reads := (closeText_reads idle).append use
    cases p with
    | unthought text =>
        have run : (Phase.unthought text).run [.toolUse] = some (.unthought false) := by
          cases text <;> rfl
        rw [run]
        refine ⟨reads, ?_, ?_⟩
        · rw [Part.andThen, after]
          exact ⟨started.trans track'.phase.1, done.trans track'.phase.2.1, noText⟩
        · rw [Part.andThen, after]
          exact count
    | thinking => exact absurd rfl thinking
    | thought =>
        refine ⟨reads, ?_, ?_⟩
        · rw [Part.andThen, after]
          exact ⟨started.trans track'.phase.1, done.trans track'.phase.2⟩
        · rw [Part.andThen, after]
          exact count

theorem toolCalls_follows {i n : ℕ} (near : i ≤ n) (tcs : List (ToolCall α))
    (hm : ∀ tc ∈ tcs, (marshal tc.function.arguments).isSome) :
    Follows (toolCalls marshal toolUseID i tcs)
      (List.replicate (i + tcs.length - n) .toolUse) n (max n (i + tcs.length)) := by
  induction tcs generalizing i n with
  | nil =>
      rw [length_nil, Nat.add_zero, Nat.sub_eq_zero_of_le near, Nat.max_eq_left near]
      exact .nothing n
  | cons tc tcs ih =>
      have one := toolCall_follows marshal toolUseID near (hm tc mem_cons_self)
      have rest := ih (i := i + 1) (n := max n (i + 1)) (Nat.le_max_right _ _)
        fun tc' h => hm tc' (mem_cons_of_mem _ h)
      have both := one.andThen rest
      have count : (if i < n then [] else [Kind.toolUse]) ++
          List.replicate (i + 1 + tcs.length - max n (i + 1)) .toolUse =
            List.replicate (i + (tc :: tcs).length - n) .toolUse := by
        rw [length_cons]
        split
        · rw [nil_append]
          congr 1
          omega
        · rw [← replicate_one, ← replicate_add]
          congr 1
          omega
      have last : max (max n (i + 1)) (i + 1 + tcs.length) = max n (i + (tc :: tcs).length) := by
        rw [length_cons]
        omega
      rw [count, last] at both
      exact both

theorem body_follows (r : ChatResponse α) (n : ℕ)
    (hm : ∀ tc ∈ r.message.toolCalls, (marshal tc.function.arguments).isSome) :
    Follows ((thinking r.message.thinking).andThen ((content r.message.content).andThen
        (toolCalls marshal toolUseID 0 r.message.toolCalls)))
      (kindsOf n r) n (max n r.message.toolCalls.length) := by
  have calls := toolCalls_follows marshal toolUseID (Nat.zero_le n) r.message.toolCalls hm
  rw [Nat.zero_add] at calls
  exact (thinking_follows _ n).andThen ((content_follows _ n).andThen calls)

theorem blocks_eq (r : ChatResponse α) : blocks marshal toolUseID r =
      ((thinking r.message.thinking).andThen ((content r.message.content).andThen
          (toolCalls marshal toolUseID 0 r.message.toolCalls))).andThen
        (closeLast r.done) := by
  funext c
  simp [blocks, Part.andThen]

theorem blocks_follows (r : ChatResponse α) (n : ℕ) (goesOn : r.done = false)
    (hm : ∀ tc ∈ r.message.toolCalls, (marshal tc.function.arguments).isSome) :
    Follows (blocks marshal toolUseID r) (kindsOf n r) n (max n r.message.toolCalls.length) := by
  have open_ : (closeLast r.done : Part α) = fun c => ([], c) := by
    funext c
    simp [closeLast, goesOn]
  have whole := (body_follows marshal toolUseID r n hm).andThen (.nothing _)
  rw [append_nil] at whole
  rw [blocks_eq, open_]
  exact whole

/-- At the end what is open is closed. -/
theorem closeLast_reads (c : StreamConverter) :
    ∃ m, ReadsAll Fits (reading (α := α) c) (closeLast true c).1 ⟨m, none⟩ := by
  by_cases text : c.textStarted = true
  · have closed : (closeLast true : Part α) c = ([.stop c.contentIndex], c) :=
      if_pos ⟨rfl, Or.inl text⟩
    rw [closed, reading_text text]
    exact ⟨_, .cons (.stop _ _) (.nil _)⟩
  rw [Bool.not_eq_true] at text
  by_cases thinking : c.thinkingStarted = true ∧ c.thinkingDone = false
  · have closed : (closeLast true : Part α) c = ([.stop c.contentIndex], c) :=
      if_pos ⟨rfl, Or.inr thinking⟩
    rw [closed, reading_thinking ⟨thinking.1, thinking.2, text⟩]
    exact ⟨_, .cons (.stop _ _) (.nil _)⟩
  have nothing : (closeLast true : Part α) c = ([], c) := by
    refine if_neg ?_
    rintro ⟨-, h | h⟩
    · simp [text] at h
    · exact thinking h
  rw [nothing, reading_none text fun started => by simpa [started] using thinking]
  exact ⟨_, .nil _⟩

variable {n : ℕ}

/-- The last response: what comes is in order exactly when nothing is left open. -/
theorem last_iff (track : Tracks c p n) (r : ChatResponse α) (done : r.done = true)
    (hm : ∀ tc ∈ r.message.toolCalls, (marshal tc.function.arguments).isSome) :
    (∃ m, ReadsAll Fits (reading c) (blocks marshal toolUseID r c).1 ⟨m, none⟩) ↔
      (p.run (kindsOf n r)).isSome := by
  have body := body_follows marshal toolUseID r n hm c p track
  rw [blocks_eq, done, Part.andThen]
  rcases hrun : p.run (kindsOf n r) with - | q
  · rw [hrun] at body
    refine iff_of_false ?_ (by simp)
    rintro ⟨m, whole⟩
    obtain ⟨s, begun, -⟩ := readsAll_append.mp whole
    exact body s begun
  · rw [hrun] at body
    obtain ⟨m, closed⟩ := closeLast_reads (α := α) _
    exact iff_of_true ⟨m, body.1.append closed⟩ rfl

/-! ## §4  Whole streams -/

def marksAll : StreamConverter → List (ChatResponse α) → List (Mark (ContentBlock α) Delta)
  | _, [] => []
  | c, r :: rs =>
      (blocks marshal toolUseID r (c.messageStart r).2).1 ++
        marksAll (c.process marshal toolUseID r).2 rs

theorem Tracks.messageStart (track : Tracks c p n)
    (r : ChatResponse α) : Tracks (c.messageStart r).2 p n := by
  rw [StreamConverter.messageStart]
  split
  · refine ⟨?_, track.sent⟩
    cases p <;> exact track.phase
  · exact track

theorem Tracks.messageStop (track : Tracks c p n)
    (r : ChatResponse α) : Tracks (c.messageStop r).2 p n := by
  rw [StreamConverter.messageStop]
  split
  · refine ⟨?_, track.sent⟩
    cases p <;> exact track.phase
  · exact track

theorem reading_messageStart (c : StreamConverter) (r : ChatResponse α) :
    reading (α := α) (c.messageStart r).2 = reading c := by
  rw [messageStart]
  split
  · rfl
  · rfl

theorem reading_messageStop (c : StreamConverter) (r : ChatResponse α) :
    reading (α := α) (c.messageStop r).2 = reading c := by
  rw [messageStop]
  split
  · rfl
  · rfl

/-- The arguments of every tool call can be written as JSON. -/
def Marshalable (rs : List (ChatResponse α)) : Prop :=
  ∀ r ∈ rs, ∀ tc ∈ r.message.toolCalls, (marshal tc.function.arguments).isSome

variable {rs : List (ChatResponse α)}

theorem marksAll_iff (ends : DoneLast rs) (hm : Marshalable marshal rs) (track : Tracks c p n) :
    (∃ m, ReadsAll Fits (reading c) (marksAll marshal toolUseID c rs) ⟨m, none⟩) ↔
      (p.run (kinds n rs)).isSome := by
  induction ends generalizing c p n with
  | last r done =>
      have one := last_iff marshal toolUseID (track.messageStart r) r done (hm r mem_cons_self)
      rw [reading_messageStart] at one
      simpa only [marksAll, kinds, append_nil] using one
  | cons r goesOn ends ih =>
      have step := blocks_follows marshal toolUseID r n goesOn (hm r mem_cons_self)
        _ p (track.messageStart r)
      rw [kinds, Phase.run_append, marksAll]
      rw [reading_messageStart] at step
      rcases hrun : p.run (kindsOf n r) with - | q
      · rw [hrun] at step
        refine iff_of_false ?_ (by simp)
        rintro ⟨m, whole⟩
        obtain ⟨s, begun, -⟩ := readsAll_append.mp whole
        exact step s begun
      rw [hrun] at step
      obtain ⟨begun, track'⟩ := step
      have later := ih (fun r' h => hm r' (mem_cons_of_mem _ h)) (track'.messageStop r)
      rw [reading_messageStop] at later
      rw [Option.bind_some, ← later]
      exact exists_congr fun m => begun.then_iff

/-- A part of `Process` leaves what `view` sees as it is. -/
def Keeps {β : Type} (view : StreamConverter → β) (f : Part α) : Prop :=
  ∀ c, view (f c).2 = view c

theorem Keeps.andThen {β : Type} {view : StreamConverter → β} {f g : Part α} (hf : Keeps view f)
    (hg : Keeps view g) : Keeps view (f.andThen g) :=
  fun c => (hg (f c).2).trans (hf c)

def flags (c : StreamConverter) : Bool × Bool × Bool :=
  (c.firstWrite, c.thinkingStarted, c.thinkingDone)

theorem toolCall_keeps (i : ℕ) (tc : ToolCall α) :
    Keeps flags (toolCall marshal toolUseID i tc) := by
  intro c
  by_cases sent : i ∈ c.toolCallsSent
  · rw [toolCall, if_pos sent]
  · obtain ⟨ids, drawn, same⟩ := toolCallID_same toolUseID i tc c
    rw [toolCall_new marshal toolUseID sent, same]
    simp only [Part.andThen, closeText, addToolUse]
    split <;> split <;> rfl

theorem toolCalls_keeps (i : ℕ) (tcs : List (ToolCall α)) :
    Keeps flags (toolCalls marshal toolUseID i tcs) := by
  induction tcs generalizing i with
  | nil => exact fun c => rfl
  | cons tc tcs ih => exact (toolCall_keeps marshal toolUseID i tc).andThen (ih _)

theorem closeLast_keeps {β : Type} (view : StreamConverter → β) (done : Bool) :
    Keeps view (closeLast done : Part α) := by
  intro c
  rw [closeLast]
  split <;> rfl

theorem thinking_keeps (t : Text) : Keeps (·.firstWrite) (thinking t : Part α) := by
  intro c
  rw [thinking]
  split <;> rfl

theorem content_keeps (t : Text) : Keeps (·.firstWrite) (content t : Part α) := by
  rw [content]
  split
  · exact fun c => rfl
  · refine .andThen (fun c => ?_) fun c => rfl
    rw [closeThinking]
    split <;> rfl

theorem blocks_keeps (r : ChatResponse α) : Keeps (·.firstWrite) (blocks marshal toolUseID r) := by
  have calls : Keeps (·.firstWrite) (toolCalls marshal toolUseID 0 r.message.toolCalls) :=
    fun c => congrArg (·.1) (toolCalls_keeps marshal toolUseID 0 r.message.toolCalls c)
  exact (thinking_keeps _).andThen ((content_keeps _).andThen (calls.andThen (closeLast_keeps _ _)))

def headOf (c : StreamConverter) (rs : List (ChatResponse α)) : List (StreamEvent α) :=
  (rs.head?.map fun r => (c.messageStart r).1).getD []

theorem process_firstWrite (c : StreamConverter) (r : ChatResponse α) :
    (c.process marshal toolUseID r).2.firstWrite = false := by
  have start : (c.messageStart r).2.firstWrite = false := by
    rw [messageStart]
    split
    · rfl
    · next h => exact Bool.not_eq_true _ ▸ h
  have body := blocks_keeps marshal toolUseID r (c.messageStart r).2
  simp only [process, messageStop]
  split
  · exact body.trans start
  · exact body.trans start

/-- The events of a whole stream: the header, the content blocks and the trailer. -/
theorem processAll_events (ends : DoneLast rs) (c : StreamConverter) :
    (c.processAll marshal toolUseID rs).1 =
      headOf c rs ++ ((marksAll marshal toolUseID c rs).map .contentBlock ++ [.messageDelta
            (mapStopReason (rs.getLast?.getD {}).doneReason
              (!(c.processAll marshal toolUseID rs).2.toolCallsSent.isEmpty))
            (rs.getLast?.getD {}).metrics.evalCount,
          .messageStop]) := by
  induction ends generalizing c with
  | last r done =>
      simp [processAll, process, messageStop, done, headOf, marksAll]
  | cons r goesOn ends ih =>
      rename_i rs
      have later := ih (c.process marshal toolUseID r).2
      have noHead : headOf (c.process marshal toolUseID r).2 rs = [] := by
        rw [headOf]
        cases rs with
        | nil => rfl
        | cons r' rs' =>
            simp [messageStart, process_firstWrite]
      have last : (r :: rs).getLast?.getD {} = rs.getLast?.getD {} := by
        cases ends <;> simp [getLast?_cons]
      have first : (c.process marshal toolUseID r).1 = headOf c (r :: rs) ++
          (blocks marshal toolUseID r (c.messageStart r).2).1.map .contentBlock := by
        simp [process, messageStop, goesOn, headOf]
      rw [noHead, nil_append] at later
      rw [last, marksAll, map_append]
      simp only [processAll, first, later, append_assoc]

theorem headOf_new (id model : Text) (ends : DoneLast rs) :
    ∃ message, headOf (newStreamConverter id model) rs = [.messageStart message] := by
  cases ends <;> exact ⟨_, rfl⟩

theorem contentBlock_injective :
    Function.Injective (StreamEvent.contentBlock : Mark (ContentBlock α) Delta → StreamEvent α) :=
  fun _ _ h => StreamEvent.contentBlock.inj h

theorem wellFormed_iff_numbered {message : MessagesResponse α}
    {ms : List (Mark (ContentBlock α) Delta)} {stopReason : Text} {outputTokens : ℤ} :
    WellFormed (.messageStart message ::
      (ms.map .contentBlock ++ [.messageDelta stopReason outputTokens, .messageStop])) ↔
      Numbered Fits ms := by
  constructor
  · rintro ⟨message', ns, stopReason', outputTokens', numbered, same⟩
    have rest := (List.cons.inj same).2
    have marks := (append_inj' rest rfl).1
    rwa [map_injective_iff.mpr contentBlock_injective marks]
  · exact fun numbered => ⟨_, ms, _, _, numbered, rfl⟩

/-- **The event stream.** It is well formed exactly when the first thinking does not directly
follow text and no tool call comes between it and the next text. -/
theorem stream_wellFormed (id model : Text) (rs : List (ChatResponse α)) (ends : DoneLast rs)
    (hm : Marshalable marshal rs) :
    WellFormed ((newStreamConverter id model).processAll marshal toolUseID rs).1 ↔
      Orderly (kinds 0 rs) := by
  obtain ⟨message, head⟩ := headOf_new id model ends
  have track : Tracks (newStreamConverter id model) (.unthought false) 0 :=
    ⟨⟨rfl, rfl, rfl⟩, fun i => by simp [newStreamConverter]⟩
  rw [processAll_events marshal toolUseID ends, head, singleton_append,
    wellFormed_iff_numbered, numbered_iff, orderly_iff, ← marksAll_iff marshal toolUseID ends hm track]
  rfl

/-- Thinking, then text, then a tool call. -/
theorem stream_wellFormed_inOrder :
    WellFormed ((newStreamConverter [] []).processAll (fun _ : Unit => some ['{', '}'])
      (fun n => List.replicate n 'x')
      [{ message := { thinking := ['a'] } }, { message := { content := ['b'] } },
        { message := { toolCalls := [{ function := { name := ['f'], arguments := () } }] }
          done := true }]).1 :=
  (stream_wellFormed _ _ _ _ _ (.cons _ rfl (.cons _ rfl (.last _ rfl)))
    (fun _ _ _ _ => rfl)).mpr (by decide)

/-- A tool call directly after thinking starts a block inside the one that is open. -/
theorem stream_notWellFormed_toolCall :
    ¬WellFormed ((newStreamConverter [] []).processAll (fun _ : Unit => some ['{', '}'])
      (fun n => List.replicate n 'x')
      [{ message := { thinking := ['a'] } },
        { message := { toolCalls := [{ function := { name := ['f'], arguments := () } }] }
          done := true }]).1 := by
  have events : ((newStreamConverter [] []).processAll (fun _ : Unit => some ['{', '}'])
      (fun n => List.replicate n 'x')
      [{ message := { thinking := ['a'] } },
        { message := { toolCalls := [{ function := { name := ['f'], arguments := () } }] }
          done := true }]).1 =
        .messageStart ⟨[], [], [], [], ⟨0, 0⟩⟩ ::
          ([.start 0 (.thinking []), .piece 0 (.thinking ['a']), .start 0 (.toolUse [] ['f'] none),
            .piece 0 (.inputJson ['{', '}']), .stop 0, .stop 1].map .contentBlock ++
            [.messageDelta "tool_use".toList 0, .messageStop]) := by decide
  rw [events, wellFormed_iff_numbered, numbered_iff]
  rintro ⟨m, reads⟩
  obtain ⟨-, ⟨⟩, reads⟩ := readsAll_cons.mp reads
  obtain ⟨-, ⟨⟩, reads⟩ := readsAll_cons.mp reads
  exact not_readsAll_start reads

end Ollama.Anthropic
