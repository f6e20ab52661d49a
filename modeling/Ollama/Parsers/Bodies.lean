import Ollama.Parsers.Qwen3Coder

/-!
# Tool calls in a text

Which texts stand between the tags of tool calls, and which calls a run of `Add` returns when a
call of it returns the next ones.
-/

namespace Ollama.Parsers

open Lib List

/-! ## §1  Bodies -/

/-- What stands between `<tool_call>` and `</tool_call>`; `inside`: the text begins inside a tool
call. Every step takes a tag off the text, so `t.length` steps are enough. -/
def bodiesWithin : ℕ → Bool → Text → List Text
  | 0, _, _ => []
  | n + 1, false, t =>
      match cut t toolOpenTag with
      | none => []
      | some (_, after) => bodiesWithin n true after
  | n + 1, true, t =>
      match cut t toolCloseTag with
      | none => []
      | some (raw, after) => raw :: bodiesWithin n false after

def bodies (inside : Bool) (t : Text) : List Text := bodiesWithin t.length inside t

variable {t u w d y b a raw : Text}

theorem bodiesWithin_enough (n : ℕ) (inside : Bool) (t : Text) (h : t.length ≤ n) :
    bodiesWithin n inside t = bodies inside t := by
  unfold bodies
  induction n using Nat.strong_induction_on generalizing inside t with
  | h n ih =>
    rcases t with - | ⟨r, t⟩
    · cases n with
      | zero => rfl
      | succ n => cases inside <;> rfl
    obtain ⟨n, rfl⟩ := Nat.exists_eq_succ_of_ne_zero
      (Nat.pos_iff_ne_zero.mp (Nat.lt_of_lt_of_le (Nat.succ_pos t.length) h))
    have hle : t.length ≤ n := Nat.le_of_succ_le_succ h
    rw [length_cons]
    cases inside with
    | false =>
      unfold bodiesWithin
      cases hcut : cut (r :: t) toolOpenTag with
      | none => rfl
      | some x =>
        have hlen := cut_length (by decide) hcut
        rw [length_cons, show toolOpenTag.length = 11 by decide] at hlen
        dsimp only
        rw [ih n (Nat.lt_succ_self n) true x.2 (by omega)]
        rcases Nat.lt_or_ge t.length (n + 1) with hlt | hge
        · rw [ih t.length hlt true x.2 (by omega)]
        · omega
    | true =>
      unfold bodiesWithin
      cases hcut : cut (r :: t) toolCloseTag with
      | none => rfl
      | some x =>
        have hlen := cut_length (by decide) hcut
        rw [length_cons, show toolCloseTag.length = 12 by decide] at hlen
        dsimp only
        rw [ih n (Nat.lt_succ_self n) false x.2 (by omega),
          ih t.length (Nat.lt_succ_of_le hle) false x.2 (by omega)]

theorem bodies_open (h : cut t toolOpenTag = some (b, a)) : bodies false t = bodies true a := by
  have hlen := cut_length (by decide) h
  rw [← bodiesWithin_enough (t.length + 1) false t (Nat.le_succ _), bodiesWithin, h]
  exact bodiesWithin_enough _ _ _ (by omega)

theorem bodies_plain (h : cut t toolOpenTag = none) : bodies false t = [] := by
  rw [← bodiesWithin_enough (t.length + 1) false t (Nat.le_succ _), bodiesWithin, h]

theorem bodies_close (h : cut t toolCloseTag = some (raw, a)) :
    bodies true t = raw :: bodies false a := by
  have hlen := cut_length (by decide) h
  rw [← bodiesWithin_enough (t.length + 1) true t (Nat.le_succ _), bodiesWithin, h]
  dsimp only
  rw [bodiesWithin_enough _ _ _ (by omega)]

theorem bodies_prepend (h : cut (d ++ y) toolOpenTag =
    (cut y toolOpenTag).map fun p => (d ++ p.1, p.2)) : bodies false (d ++ y) = bodies false y := by
  cases hcut : cut y toolOpenTag with
  | none =>
    rw [hcut] at h
    rw [bodies_plain hcut, bodies_plain h]
  | some x =>
    rw [hcut] at h
    rw [bodies_open hcut, bodies_open h]

theorem bodies_blank (hw : Blank w) (t : Text) : bodies false (w ++ t) = bodies false t :=
  bodies_prepend (cut_blank (by decide) hw t)

theorem bodies_trimLeft (t u : Text) : bodies false (trimLeft t ++ u) = bodies false (t ++ u) := by
  obtain ⟨w, hw, ht⟩ := trimLeft_spec t
  conv_rhs => rw [ht, append_assoc]
  exact (bodies_blank hw _).symm

/-- What is returned of content has no tag in it. -/
theorem bodies_held (h : cut t toolOpenTag = none) (u : Text) :
    bodies false (t.drop (ambiguousStart t (overlap t toolOpenTag)) ++ u) =
      bodies false (t ++ u) := by
  obtain ⟨w, x, -, hx, -, hdrop⟩ := ambiguousStart_spec (overlap_le_left t toolOpenTag)
  have hov : overlap t toolOpenTag ≤
      (t.drop (ambiguousStart t (overlap t toolOpenTag))).length := by
    rw [hdrop, length_append, hx]
    exact Nat.le_add_left _ _
  have ht := (take_append_drop (ambiguousStart t (overlap t toolOpenTag)) t).symm
  generalize t.take (ambiguousStart t (overlap t toolOpenTag)) = d at ht
  generalize t.drop (ambiguousStart t (overlap t toolOpenTag)) = y at *
  subst ht
  rw [append_assoc]
  exact (bodies_prepend (cut_held (by decide) h hov u)).symm

/-! ## §2  Calls -/

variable {τ : Type} (parse : Text → Except Error τ)

def okCalls : List Text → List τ
  | [] => []
  | raw :: raws =>
      match parse raw with
      | .ok call => call :: okCalls raws
      | .error _ => []

variable {parse}

def AllRead (parse : Text → Except Error τ) : List Text → List τ → Prop :=
  List.Forall₂ fun raw call => parse raw = .ok call

theorem okCalls_append {raws : List Text} {calls : List τ} (h : AllRead parse raws calls)
    (raws' : List Text) : okCalls parse (raws ++ raws') = calls ++ okCalls parse raws' := by
  induction h with
  | nil => rfl
  | cons hcall h ih =>
    rw [cons_append, okCalls, hcall]
    rw [ih, cons_append]

/-! ## §3  Runs -/

variable {σ : Type}

/-- What a relation has to satisfy so that it tells which calls a run of `Add` returns for the
rest of a text: after an error nothing is returned, and otherwise the calls that a step returns
come before those of the rest. -/
structure Foretells (add : Text → Bool → σ → Response τ × σ)
    (rel : σ → Text → List τ → Prop) : Prop where
  some : ∀ p u, ∃ calls, rel p u calls
  failed : ∀ p c done, (add c done p).1.err.isSome = true → (add c done p).1.calls = []
  more : ∀ p c u calls, (add c false p).1.err = none → rel (add c false p).2 u calls →
    rel p (c ++ u) ((add c false p).1.calls ++ calls)
  last : ∀ p c, (add c true p).1.err = none → ∃ calls, rel p c ((add c true p).1.calls ++ calls)

/-- **Runs.** What a run returns is the beginning of what is foretold for some cut of the text. -/
theorem Foretells.run {add : Text → Bool → σ → Response τ × σ} {rel : σ → Text → List τ → Prop}
    (h : Foretells add rel) (chunks : List Text) (p : σ) :
    ∃ calls, rel p chunks.flatten calls ∧ (Response.all (stream add p chunks).1).calls <+: calls := by
  induction chunks generalizing p with
  | nil =>
    obtain ⟨calls, hcalls⟩ := h.some p []
    exact ⟨calls, hcalls, List.nil_prefix⟩
  | cons c chunks ih =>
    have one : ∀ done, (Response.all [(add c done p).1]).calls = (add c done p).1.calls := by
      intro done
      rw [Response.all_cons, Response.all_nil, Response.append_none]
    cases chunks with
    | nil =>
      rw [flatten_cons, flatten_nil, append_nil]
      show ∃ calls, rel p c calls ∧ (Response.all [(add c true p).1]).calls <+: calls
      rw [one]
      cases herr : (add c true p).1.err with
      | some e =>
        obtain ⟨calls, hcalls⟩ := h.some p c
        rw [h.failed p c true (by rw [herr]; rfl)]
        exact ⟨calls, hcalls, List.nil_prefix⟩
      | none =>
        obtain ⟨calls, hcalls⟩ := h.last p c herr
        exact ⟨_, hcalls, prefix_append _ _⟩
    | cons c' chunks =>
      unfold stream at ih ⊢
      rw [Lib.feed, flatten_cons]
      cases herr : (add c false p).1.err with
      | some e =>
        obtain ⟨calls, hcalls⟩ := h.some p (c ++ (c' :: chunks).flatten)
        rw [Option.isSome_some, if_pos rfl, one, h.failed p c false (by rw [herr]; rfl)]
        exact ⟨calls, hcalls, List.nil_prefix⟩
      | none =>
        obtain ⟨calls, hcalls, hpre⟩ := ih (add c false p).2
        exact ⟨_, h.more p c _ calls herr hcalls, (prefix_append_right_inj _).mpr hpre⟩

/-- The calls of a text are foretold when each step takes off it what it returns. -/
theorem foretells_of_take {add : Text → Bool → σ → Response τ × σ} {ahead : σ → Text → List Text}
    (failed : ∀ p c done, (add c done p).1.err.isSome = true → (add c done p).1.calls = [])
    (take : ∀ p c done u, (add c done p).1.err = none → ∃ raws,
      AllRead parse raws (add c done p).1.calls ∧
        ahead p (c ++ u) = raws ++ ahead (add c done p).2 u) :
    Foretells add fun p u calls => calls = okCalls parse (ahead p u) := by
  refine ⟨fun p u => ⟨_, rfl⟩, failed, ?_, ?_⟩
  · rintro p c u calls herr rfl
    obtain ⟨raws, hread, hahead⟩ := take p c false u herr
    rw [hahead, okCalls_append hread]
  · intro p c herr
    obtain ⟨raws, hread, hahead⟩ := take p c true [] herr
    rw [append_nil] at hahead
    refine ⟨okCalls parse (ahead (add c true p).2 []), ?_⟩
    rw [hahead, okCalls_append hread]

/-! ## §4  The parser of qwen3-coder -/

namespace Qwen3CoderParser

variable {p q : Qwen3CoderParser} {es : List QwenEvent}

/-- The tool calls among the events. -/
def raws : List QwenEvent → List Text
  | [] => []
  | .rawToolCall raw :: events => raw :: raws events
  | .content _ :: events => raws events

theorem raws_append (es es' : List QwenEvent) : raws (es ++ es') = raws es ++ raws es' := by
  induction es with
  | nil => rfl
  | cons e es ih =>
    cases e with
    | rawToolCall raw => rw [cons_append, raws, raws, ih, cons_append]
    | content c => rw [cons_append, raws, raws, ih]

theorem raws_contentEvent (c : Text) : raws (contentEvent c) = [] := by
  unfold contentEvent
  split <;> rfl

def ahead (p : Qwen3CoderParser) (u : Text) : List Text :=
  bodies (p.state = .collectingToolContent) (p.acc ++ u)

theorem ahead_looking (t u : Text) : ahead ⟨.lookingForToolStart, t⟩ u = bodies false (t ++ u) := rfl

theorem ahead_collecting (t u : Text) :
    ahead ⟨.collectingToolContent, t⟩ u = bodies true (t ++ u) := rfl

/-- One turn takes off the bodies ahead what it returns. -/
theorem eat_ahead (p : Qwen3CoderParser) (u : Text) :
    ahead p u = raws (eat p).1 ++ ahead (eat p).2.1 u := by
  obtain ⟨state, t⟩ := p
  cases state with
  | lookingForToolStart =>
    cases hcut : cut t toolOpenTag with
    | some x =>
      rw [eat_open hcut, raws_contentEvent, ahead_looking]
      exact bodies_open (cut_append (by decide) hcut u)
    | none =>
      rw [eat_plain hcut, raws_contentEvent, ahead_looking]
      exact (bodies_held hcut u).symm
  | collectingToolContent =>
    cases hcut : cut t toolCloseTag with
    | some x =>
      rw [eat_close hcut, ahead_collecting, bodies_close (cut_append (by decide) hcut u)]
      rw [ahead_looking, bodies_trimLeft]
      rfl
    | none =>
      rw [eat_wait hcut]
      rfl

theorem parseEvents_ahead (p : Qwen3CoderParser) (u : Text) :
    ahead p u = raws p.parseEvents.1 ++ ahead p.parseEvents.2 u := by
  refine drain_rule (fun p => p.acc.length) eat_shorter
    (P := fun p es p' => ahead p u = raws es ++ ahead p' u)
    (fun p _ => eat_ahead p u) (fun p es p' _ ih => ?_) _ p (Nat.lt_succ_self _)
  rw [raws_append, append_assoc, ← ih]
  exact eat_ahead p u

theorem ahead_write (p : Qwen3CoderParser) (s u : Text) : ahead (p.write s) u = ahead p (s ++ u) := by
  show bodies _ (p.acc ++ s ++ u) = bodies _ (p.acc ++ (s ++ u))
  rw [append_assoc]
  rfl

/-- Without an error all of the tool calls are read. -/
theorem allRead_of_collect {out : Text × List τ} (h : collect parse es = .ok out) :
    AllRead parse (raws es) out.2 := by
  induction es generalizing out with
  | nil =>
    cases h
    exact .nil
  | cons e es ih =>
    cases e with
    | content c =>
      rw [collect] at h
      cases hlater : collect parse es with
      | error err =>
        rw [hlater] at h
        cases h
      | ok later =>
        rw [hlater] at h
        cases h
        exact (ih hlater : AllRead parse (raws es) later.2)
    | rawToolCall raw =>
      rw [collect] at h
      cases hraw : parse raw with
      | error err =>
        rw [hraw] at h
        cases h
      | ok call =>
        cases hlater : collect parse es with
        | error err =>
          rw [hraw, hlater] at h
          cases h
        | ok later =>
          rw [hraw, hlater] at h
          cases h
          exact .cons hraw (ih hlater)

end Qwen3CoderParser

end Ollama.Parsers
