import Mathlib.Data.List.Forall2
import Ollama.Parsers.Bodies
import Ollama.Parsers.Qwen35Reading

/-!
# Tool calls of qwen3.5

Which content the parser of qwen3.5 passes on to the parser of qwen3-coder, and which calls that
one finds in it. Where a tool call stands in the thinking, this depends on the cut.
-/

namespace Ollama.Parsers

open Lib List

namespace Qwen35Parser

variable {τ : Type} {p q : Qwen35Parser} {t u c b v x a : Text} {es : List Qwen35Event}

/-! ## §1  Content after thinking -/

/-- The content that some cut of a text that begins with thinking leads to: what follows the
closing tag; all from a tool call on, when a chunk has the tool call and no closing tag, and does
not end in the beginning of a tag; or what the end of a chunk that is held back leads to. -/
inductive ContentAfter : Text → Text → Prop
  | closed {t b a : Text} (h : cut t qwen35ThinkingCloseTag = some (b, a)) :
      ContentAfter t (trimLeft a)
  | interrupted {x b v u : Text} (hclose : cut x qwen35ThinkingCloseTag = none)
      (hov : tagOverlap x = 0) (htool : cut x qwen35ToolCallOpenTag = some (b, v)) :
      ContentAfter (x ++ u) (qwen35ToolCallOpenTag ++ (trimLeft v ++ u))
  | held {x u c : Text} (hclose : cut x qwen35ThinkingCloseTag = none)
      (htool : cut x qwen35ToolCallOpenTag = none ∨ 0 < tagOverlap x)
      (h : ContentAfter (x.drop (hold x) ++ u) c) : ContentAfter (x ++ u) c

/-- Where no tool call interrupts the thinking, the content is what follows the closing tag. -/
theorem ContentAfter.of_together (h : ContentAfter t c)
    (hcut : cut t qwen35ThinkingCloseTag = some (b, a)) (htogether : Together t) :
    c = trimLeft a := by
  induction h generalizing b with
  | closed h =>
    rw [h] at hcut
    cases hcut
    rfl
  | @interrupted x _ _ u hclose hov htool =>
    unfold Together at htogether
    rw [hcut] at htogether
    have hpos := htogether x (prefix_append x u) hclose (by rw [htool]; exact nofun)
    exact absurd hov (Nat.ne_of_gt hpos)
  | @held x u c hclose htool h ih =>
    have hheld := held_hold hclose htool
    have hx : x ++ u = x.take (hold x) ++ (x.drop (hold x) ++ u) := by
      rw [← append_assoc, take_append_drop]
    rw [hx] at hcut htogether
    generalize x.take (hold x) = d at *
    rw [hheld.cut_close] at hcut
    obtain ⟨⟨b', a'⟩, hlater, heq⟩ := Option.map_eq_some_iff.mp hcut
    cases heq
    exact ih hlater (together_held hheld htogether)

/-- The closing tag that is put in before a tool call. -/
theorem ContentAfter.of_closed (hclose : cut x qwen35ThinkingCloseTag = none)
    (hov : tagOverlap x = 0) (htool : cut x qwen35ToolCallOpenTag = some (b, v))
    (h : ContentAfter (Qwen35Parser.closed b v ++ u) c) : ContentAfter (x ++ u) c := by
  have hb : cut b qwen35ThinkingCloseTag = none := by
    refine cut_none_of_front (by decide) hclose ⟨qwen35ToolCallOpenTag ++ v, ?_⟩
    exact ((cut_eq_some (by decide)).mp htool).1.symm
  have hc := h.of_together (cut_closed hb v u)
    (together_closed hb (cut_before (by decide) htool) v u)
  have htrim : trimLeft (qwen35ToolCallOpenTag ++ (trimLeft v ++ u)) =
      qwen35ToolCallOpenTag ++ (trimLeft v ++ u) := dropWhile_cons_of_neg (by decide)
  rw [hc, htrim]
  exact .interrupted hclose hov htool

def thought (p : Qwen35Parser) (t : Text) : Option Text :=
  (if p.allowLeadingThinkOpenTag then bodyOf t else some t).map fun t =>
    if p.trimLeadingThinkingSpace then trimLeft t else t

def Passes (p : Qwen35Parser) (u c : Text) : Prop :=
  match p.state with
  | .collectingThinking => c = [] ∨ ∃ t, thought p (p.buffer ++ u) = some t ∧ ContentAfter t c
  | .thinkingDoneEatingWhitespace => c = trimLeft (p.buffer ++ u)
  | .collectingContent => c = p.buffer ++ u

/-! ## §2  One turn -/

/-- The content of the events. -/
def contents : List Qwen35Event → Text
  | [] => []
  | .content content :: events => content ++ contents events
  | .thinkingContent _ :: events => contents events

theorem contents_append (es es' : List Qwen35Event) :
    contents (es ++ es') = contents es ++ contents es' := by
  induction es with
  | nil => rfl
  | cons e es ih => cases e <;> simp only [cons_append, contents, ih, append_assoc]

theorem contents_thinkingEvent (c : Text) : contents (thinkingEvent c) = [] := by
  unfold thinkingEvent
  split <;> rfl

theorem eatBody_passes (hp : p.state = .collectingThinking)
    (hallow : p.allowLeadingThinkOpenTag = false) (htrim : p.trimLeadingThinkingSpace = false)
    (h : Passes (eatBody p).2.1 u c) : Passes p u (contents (eatBody p).1 ++ c) := by
  have self : ∀ t, thought p t = some t := by
    intro t
    rw [thought, hallow, htrim]
    rfl
  unfold eatBody at h ⊢
  cases hcut : cut p.buffer qwen35ThinkingCloseTag with
  | some x =>
    obtain ⟨b, a⟩ := x
    rw [hcut] at h
    dsimp only at h ⊢
    rw [contents_thinkingEvent, nil_append, Passes, hp]
    refine .inr ⟨_, self _, ?_⟩
    have hc : c = trimLeft (a ++ u) := by
      rw [← trimLeft_append]
      by_cases hnil : trimLeft a = []
      · rw [if_pos hnil] at h
        exact h
      · rw [if_neg hnil] at h
        rw [trimLeft_append_of_ne (by rwa [trimLeft_trimLeft]), trimLeft_trimLeft]
        exact h
    rw [hc]
    exact .closed (cut_append (by decide) hcut u)
  | none =>
    rw [hcut] at h
    have kept : cut p.buffer qwen35ToolCallOpenTag = none ∨ 0 < tagOverlap p.buffer →
        Passes { p with buffer := p.buffer.drop (hold p.buffer) } u c → Passes p u c := by
      intro htool h
      rw [Passes, hp] at h ⊢
      rcases h with rfl | ⟨t, ht, hafter⟩
      · exact .inl rfl
      · have ht' : t = p.buffer.drop (hold p.buffer) ++ u := by
          rw [thought, hallow, htrim] at ht
          exact (Option.some.inj ht).symm
        rw [ht'] at hafter
        exact .inr ⟨_, self _, .held hcut htool hafter⟩
    by_cases hov : 0 < tagOverlap p.buffer
    · rw [if_pos hov] at h ⊢
      rw [contents_thinkingEvent, nil_append]
      exact kept (.inr hov) h
    rw [if_neg hov] at h ⊢
    cases htool : cut p.buffer qwen35ToolCallOpenTag with
    | none =>
      rw [htool] at h
      rw [contents_thinkingEvent, nil_append]
      exact kept (.inl htool) h
    | some x =>
      obtain ⟨b, v⟩ := x
      rw [htool] at h
      rw [contents, nil_append, Passes, hp]
      rw [Passes, hp] at h
      rcases h with rfl | ⟨t, ht, hafter⟩
      · exact .inl rfl
      · have ht' : t = closed b v ++ u := by
          rw [thought, hallow, htrim] at ht
          exact (Option.some.inj ht).symm
        rw [ht'] at hafter
        exact .inr ⟨_, self _, .of_closed hcut (Nat.eq_zero_of_not_pos hov) htool hafter⟩

theorem passes_congr (hs : q.state = p.state)
    (ht : thought q (q.buffer ++ u) = thought p (p.buffer ++ u))
    (hb : q.state ≠ .collectingThinking → q.buffer = p.buffer) (h : Passes q u c) :
    Passes p u c := by
  unfold Passes at h ⊢
  rw [← hs, ← ht]
  cases hq : q.state with
  | collectingThinking =>
    rw [hq] at h
    exact h
  | _ =>
    rw [hq] at h
    rw [← hb (by rw [hq]; nofun)]
    exact h

theorem eatSpace_passes (hp : p.state = .collectingThinking)
    (hallow : p.allowLeadingThinkOpenTag = false) (h : Passes (eatSpace p).2.1 u c) :
    Passes p u (contents (eatSpace p).1 ++ c) := by
  unfold eatSpace at h ⊢
  by_cases htrim : p.trimLeadingThinkingSpace = true
  · rw [if_pos htrim] at h ⊢
    have self : ∀ t, thought p t = some (trimLeft t) := by
      intro t
      rw [thought, hallow, htrim]
      rfl
    by_cases hnil : trimLeft p.buffer = []
    · rw [if_pos hnil] at h ⊢
      refine passes_congr (q := { p with buffer := trimLeft p.buffer }) rfl ?_
        (fun hne => absurd hp hne) h
      rw [self]
      refine Eq.trans (b := some (trimLeft (trimLeft p.buffer ++ u))) ?_ ?_
      · rw [thought, hallow, htrim]
        rfl
      · rw [trimLeft_append]
    · rw [if_neg hnil] at h ⊢
      refine passes_congr (q := { p with
        buffer := trimLeft p.buffer, trimLeadingThinkingSpace := false }) rfl ?_
        (fun hne => absurd hp hne) (eatBody_passes hp hallow rfl h)
      rw [self, trimLeft_append_of_ne hnil]
      rw [thought, hallow]
      rfl
  · rw [if_neg htrim] at h ⊢
    exact eatBody_passes hp hallow ((Bool.not_eq_true _).mp htrim) h

theorem leading_passes (hp : p.state = .collectingThinking)
    (hallow : p.allowLeadingThinkOpenTag = true) (h : Passes (eat p).2.1 u c) :
    Passes p u (contents (eat p).1 ++ c) := by
  unfold eat at h ⊢
  rw [hp] at h ⊢
  unfold maybeConsumeLeadingThinkOpenTag at h ⊢
  rw [if_pos hallow] at h ⊢
  by_cases hopen : qwen35ThinkingOpenTag <+: trimLeft p.buffer
  · obtain ⟨rest, hrest⟩ := hopen
    rw [← hrest, if_pos (prefix_append _ _), drop_left] at h ⊢
    refine passes_congr (q := { p with
      buffer := trimLeft rest
      allowLeadingThinkOpenTag := false
      trimLeadingThinkingSpace := decide (trimLeft rest = []) }) rfl ?_
      (fun hne => absurd hp hne) h
    rw [thought, thought, hallow, if_pos rfl, if_neg Bool.false_ne_true, bodyOf_tag hrest.symm]
    dsimp only [Option.map_some]
    have twice : trimLeft (trimLeft (rest ++ u)) = trimLeft (rest ++ u) := trimLeft_trimLeft _
    rw [twice, ite_self]
    by_cases hnil : trimLeft rest = []
    · rw [if_pos (decide_eq_true hnil), trimLeft_append]
    · rw [if_neg (by rwa [decide_eq_true_eq]), trimLeft_append_of_ne hnil]
  · rw [if_neg hopen] at h ⊢
    by_cases hpart : trimLeft p.buffer <+: qwen35ThinkingOpenTag
    · rw [if_pos hpart] at h ⊢
      exact h
    · rw [if_neg hpart] at h ⊢
      refine passes_congr (q := { p with allowLeadingThinkOpenTag := false }) rfl ?_
        (fun _ => rfl) (eatSpace_passes hp rfl h)
      rw [thought, thought, hallow, if_pos rfl, if_neg Bool.false_ne_true, bodyOf_plain hopen hpart]

section

variable (p : Qwen35Parser)

/-- One turn: what its events pass on comes first. -/
theorem eat_passes (h : Passes (eat p).2.1 u c) :
    Passes p u (contents (eat p).1 ++ c) := by
  cases hp : p.state with
  | collectingThinking =>
    cases hallow : p.allowLeadingThinkOpenTag with
    | true => exact leading_passes hp hallow h
    | false =>
      have heat : eat p = eatSpace p := by
        unfold eat
        rw [hp]
        unfold maybeConsumeLeadingThinkOpenTag
        rw [hallow]
        rfl
      rw [heat] at h ⊢
      exact eatSpace_passes hp hallow h
  | thinkingDoneEatingWhitespace =>
    unfold eat at h ⊢
    rw [hp] at h ⊢
    rw [Passes, hp]
    by_cases hnil : trimLeft p.buffer = []
    · rw [if_pos hnil] at h ⊢
      rw [← trimLeft_append, hnil]
      exact h
    · rw [if_neg hnil] at h ⊢
      rw [trimLeft_append_of_ne hnil]
      exact h
  | collectingContent =>
    unfold eat at h ⊢
    rw [hp] at h ⊢
    rw [Passes, hp]
    by_cases hnil : p.buffer = []
    · rw [if_pos hnil] at h ⊢
      rw [Passes, hp] at h
      exact h
    · rw [if_neg hnil] at h ⊢
      rw [show c = u from h]
      show p.buffer ++ [] ++ u = p.buffer ++ u
      rw [append_nil]

theorem parseEvents_passes :
    ∀ c, Passes (parseEvents p).2 u c → Passes p u (contents (parseEvents p).1 ++ c) := by
  refine drain_rule turns turns_lt
    (P := fun p es p' => ∀ c, Passes p' u c → Passes p u (contents es ++ c))
    (fun p _ c h => eat_passes p h) (fun p es p' _ ih c h => ?_) _ p (Nat.lt_succ_self _)
  rw [contents_append, append_assoc]
  exact eat_passes p (ih c h)

theorem eatBody_toolParser : (eatBody p).2.1.toolParser = p.toolParser := by
  unfold eatBody
  split
  · rfl
  · split
    · rfl
    · split <;> rfl

theorem eatSpace_toolParser : (eatSpace p).2.1.toolParser = p.toolParser := by
  unfold eatSpace
  split
  · dsimp only
    split
    · rfl
    · exact eatBody_toolParser _
  · exact eatBody_toolParser p

/-- Turns do not touch the parser of the tool calls. -/
theorem eat_toolParser : (eat p).2.1.toolParser = p.toolParser := by
  unfold eat maybeConsumeLeadingThinkOpenTag
  cases p.state with
  | collectingThinking =>
    dsimp only
    split
    · next heq =>
      split at heq
      · split at heq
        · cases heq
          rfl
        · split at heq <;> cases heq
          rfl
      · cases heq
    · next heq =>
      refine (eatSpace_toolParser _).trans ?_
      split at heq
      · split at heq
        · cases heq
        · split at heq <;> cases heq
          rfl
      · cases heq
        rfl
  | thinkingDoneEatingWhitespace =>
    dsimp only
    split <;> rfl
  | collectingContent =>
    dsimp only
    split <;> rfl

theorem parseEvents_toolParser :
    (parseEvents p).2.toolParser = p.toolParser := by
  refine drain_rule turns turns_lt (P := fun p _ p' => p'.toolParser = p.toolParser)
    (fun p _ => eat_toolParser p) (fun p es p' _ ih => ?_) _ p (Nat.lt_succ_self _)
  exact ih.trans (eat_toolParser p)

end

/-! ## §3  Calls of `Add` -/

variable {parse : Text → Except Error τ}

/-- Without an error all of the tool calls in the content are read. -/
theorem allRead_of_collect (tool : Qwen3CoderParser) (c : Text) {r : Response τ}
    (h : (collect parse es tool).1 = .ok r) : r.err = none ∧ ∃ raws, AllRead parse raws r.calls ∧
      tool.ahead (contents es ++ c) = raws ++ (collect parse es tool).2.ahead c := by
  induction es generalizing tool r with
  | nil =>
    cases h
    exact ⟨rfl, [], .nil, rfl⟩
  | cons e es ih =>
    cases e with
    | thinkingContent s =>
      unfold collect at h ⊢
      dsimp only at h ⊢
      cases hlater : (collect parse es tool).1 with
      | error e =>
        rw [hlater] at h
        cases h
      | ok later =>
        obtain ⟨herr, raws, hread, hahead⟩ := ih tool hlater
        rw [hlater] at h
        cases h
        exact ⟨herr, raws, hread, hahead⟩
    | content s =>
      rw [collect] at h ⊢
      unfold Qwen3CoderParser.add at h ⊢
      dsimp only at h ⊢
      cases hcollect : Qwen3CoderParser.collect parse (tool.write s).parseEvents.1 with
      | error e =>
        rw [hcollect] at h
        cases h
      | ok out =>
        rw [hcollect] at h
        dsimp only at h ⊢
        cases hlater : (collect parse es (tool.write s).parseEvents.2).1 with
        | error e =>
          rw [hlater] at h
          cases h
        | ok later =>
          rw [hlater] at h
          cases h
          obtain ⟨herr, raws, hread, hahead⟩ := ih _ hlater
          have first := Qwen3CoderParser.parseEvents_ahead (tool.write s) (contents es ++ c)
          rw [Qwen3CoderParser.ahead_write, ← append_assoc] at first
          refine ⟨herr, _, rel_append (Qwen3CoderParser.allRead_of_collect hcollect) hread, ?_⟩
          rw [contents, first, hahead, append_assoc]

theorem passes_nil (p : Qwen35Parser) (u : Text) : ∃ c, Passes p u c := by
  cases hp : p.state with
  | collectingThinking => exact ⟨[], by rw [Passes, hp]; exact .inl rfl⟩
  | thinkingDoneEatingWhitespace => exact ⟨trimLeft (p.buffer ++ u), by rw [Passes, hp]⟩
  | collectingContent => exact ⟨p.buffer ++ u, by rw [Passes, hp]⟩

theorem passes_write {s : Text} :
    Passes { p with buffer := p.buffer ++ s } u c ↔ Passes p (s ++ u) c := by
  unfold Passes thought
  rw [append_assoc]

/-- One call: the calls that it returns come before those of the content that is passed on
later. -/
theorem add_passes (parse : Text → Except Error τ) (s : Text) (done : Bool) (p : Qwen35Parser)
    (herr : (add parse s done p).1.err = none) (h : Passes (add parse s done p).2 u c) :
    ∃ c', Passes p (s ++ u) c' ∧ okCalls parse (p.toolParser.ahead c') =
      (add parse s done p).1.calls ++ okCalls parse ((add parse s done p).2.toolParser.ahead c) := by
  unfold add at herr h ⊢
  dsimp only at herr h ⊢
  have htool := parseEvents_toolParser { p with buffer := p.buffer ++ s }
  have hpasses := parseEvents_passes (u := u) { p with buffer := p.buffer ++ s } c
  generalize parseEvents { p with buffer := p.buffer ++ s } = out at *
  rw [htool] at herr h ⊢
  have hevents : Passes p (s ++ u) (contents out.1 ++ c) := passes_write.mp (hpasses h)
  cases hcollect : (collect parse out.1 p.toolParser).1 with
  | error e =>
    rw [hcollect] at herr
    cases herr
  | ok r =>
    obtain ⟨-, raws, hread, hahead⟩ := allRead_of_collect p.toolParser c hcollect
    refine ⟨_, hevents, ?_⟩
    rw [hahead, okCalls_append hread]

/-- The calls that the parser returns are those of content that it passes on. -/
theorem foretells (parse : Text → Except Error τ) : Foretells (add parse) fun p u calls =>
      ∃ c, Passes p u c ∧ calls = okCalls parse (p.toolParser.ahead c) := by
  refine ⟨fun p u => ?_, fun p s done herr => ?_, ?_, ?_⟩
  · obtain ⟨c, hc⟩ := passes_nil p u
    exact ⟨_, c, hc, rfl⟩
  · unfold add at herr ⊢
    dsimp only at herr ⊢
    split
    · next r hcollect =>
      rw [hcollect] at herr
      rw [(allRead_of_collect _ [] hcollect).1] at herr
      cases herr
    · rfl
  · rintro p s u calls herr ⟨c, hc, rfl⟩
    obtain ⟨c', hc', heq⟩ := add_passes parse s false p herr hc
    exact ⟨c', hc', heq.symm⟩
  · intro p s herr
    obtain ⟨c, hc⟩ := passes_nil (add parse s true p).2 []
    obtain ⟨c', hc', heq⟩ := add_passes parse s true p herr hc
    rw [append_nil] at hc'
    exact ⟨_, c', hc', heq.symm⟩

end Qwen35Parser

end Ollama.Parsers
