import Ollama.Parsers.Parser

/-!
# The thinking parser

`thinking/parser.go`: thinking between two tags at the beginning of a response, content
after it. Tags and chunks are valid UTF-8, so both are lists of characters.
-/

namespace Ollama.Thinking

open Lib Parsers List

/-! ## §1  The parser -/

inductive ThinkingState
  | lookingForOpening
  | thinkingStartedEatingWhitespace
  | thinking
  | thinkingDoneEatingWhitespace
  | thinkingDone
  deriving DecidableEq

structure Parser where
  state : ThinkingState
  openingTag : Text
  closingTag : Text
  acc : Text
  deriving DecidableEq

namespace Parser

/-- The parser before the first chunk. -/
def new (openingTag closingTag : Text) : Parser := ⟨.lookingForOpening, openingTag, closingTag, []⟩

def quiet : Text × Text := ([], [])

/-- `eat`: the thinking and the remaining text to return, and whether to go on. -/
def eat (s : Parser) : (Text × Text) × Parser × Bool :=
  match s.state with
  | .lookingForOpening =>
      let trimmed := trimLeft s.acc
      if s.openingTag <+: trimmed then
        let after := trimLeft (trimmed.drop s.openingTag.length)
        if after = [] then
          (quiet, { s with acc := after, state := .thinkingStartedEatingWhitespace }, true)
        else (quiet, { s with acc := after, state := .thinking }, true)
      else if trimmed <+: s.openingTag then (quiet, s, false)
      else if trimmed = [] then (quiet, s, false)
      else (([], s.acc), { s with acc := [], state := .thinkingDone }, false)
  | .thinkingStartedEatingWhitespace =>
      let trimmed := trimLeft s.acc
      if trimmed = [] then (quiet, { s with acc := [] }, false)
      else (quiet, { s with acc := trimmed, state := .thinking }, true)
  | .thinking =>
      match cut s.acc s.closingTag with
      | some (thinking, rest) =>
          let remaining := trimLeft rest
          if remaining = [] then
            ((thinking, remaining), { s with acc := [], state := .thinkingDoneEatingWhitespace }, false)
          else ((thinking, remaining), { s with acc := [], state := .thinkingDone }, false)
      | none =>
          let overlapLen := overlap s.acc s.closingTag
          if 0 < overlapLen then
            ((s.acc.take (s.acc.length - overlapLen), []),
              { s with acc := s.acc.drop (s.acc.length - overlapLen) }, false)
          else ((s.acc, []), { s with acc := [] }, false)
  | .thinkingDoneEatingWhitespace =>
      let trimmed := trimLeft s.acc
      if trimmed = [] then (([], trimmed), { s with acc := [] }, false)
      else (([], trimmed), { s with acc := [], state := .thinkingDone }, false)
  | .thinkingDone => (([], s.acc), { s with acc := [] }, false)

/-- The turns that the loop still goes on for. -/
def turns (s : Parser) : ℕ :=
  match s.state with
  | .lookingForOpening => 2
  | .thinkingStartedEatingWhitespace => 1
  | _ => 0

def joined (outs : List (Text × Text)) : Text × Text :=
  ((outs.map Prod.fst).flatten, (outs.map Prod.snd).flatten)

/-- `AddContent` -/
def addContent (s : Parser) (content : Text) : (Text × Text) × Parser :=
  let s := { s with acc := s.acc ++ content }
  let out := drain (fun s => ([(eat s).1], (eat s).2)) (turns s + 1) s
  (joined out.1, out.2)

/-- The chunks passed to `AddContent` in order. -/
def addAll (s : Parser) : List Text → (Text × Text) × Parser
  | [] => (quiet, s)
  | content :: chunks =>
      let out := addContent s content
      let later := addAll out.2 chunks
      ((out.1.1 ++ later.1.1, out.1.2 ++ later.1.2), later.2)

end Parser

/-! ## §2  The grammar -/

/-- A response taken apart: its thinking, its content, and the end of it that the text to
come decides about. -/
@[ext] structure Parsed where
  thinking : Text
  content : Text
  pending : Text
  deriving DecidableEq

/-- Thinking up to the first closing tag, white space, content. Without a closing tag the
end that may begin one is pending. -/
def readThinking (closingTag t : Text) : Parsed :=
  match cut t closingTag with
  | some (thinking, rest) => ⟨thinking, trimLeft rest, []⟩
  | none =>
      let n := t.length - overlap t closingTag
      ⟨t.take n, [], t.drop n⟩

/-- The whole response: white space, the opening tag, white space, thinking. Without an
opening tag all of it is content. -/
def readResponse (openingTag closingTag t : Text) : Parsed :=
  if openingTag <+: trimLeft t then
    readThinking closingTag (trimLeft ((trimLeft t).drop openingTag.length))
  else if trimLeft t <+: openingTag then ⟨[], [], t⟩
  else ⟨[], t, []⟩

example : readResponse "<t>".toList "</t>".toList " <t>\n a </t> b".toList =
    ⟨"a ".toList, "b".toList, []⟩ := by decide

example : readResponse "<t>".toList "</t>".toList " <tt> b".toList =
    ⟨[], " <tt> b".toList, []⟩ := by decide

/-- What may be pending: a part of the opening tag after white space, or a part of the
closing tag; white space alone is the empty part. -/
inductive Pending (openingTag closingTag t : Text) : Prop
  | opening (w x : Text) : t = w ++ x → Blank w → x <+: openingTag → x ≠ openingTag →
      Pending openingTag closingTag t
  | closing : t <+: closingTag → t ≠ closingTag → Pending openingTag closingTag t

theorem readThinking_pending {closingTag : Text} (openingTag t : Text) (hcl : closingTag ≠ []) :
    Pending openingTag closingTag (readThinking closingTag t).pending := by
  unfold readThinking
  cases h : cut t closingTag with
  | some p => exact .closing List.nil_prefix (Ne.symm hcl)
  | none =>
    have hlt := overlap_lt hcl h
    show Pending openingTag closingTag (t.drop (t.length - overlap t closingTag))
    rw [drop_overlap]
    refine .closing (List.take_prefix _ _) fun heq => ?_
    have hlen := congrArg List.length heq
    rw [length_take] at hlen
    omega

theorem readResponse_pending (openingTag : Text) {closingTag : Text} (hcl : closingTag ≠ [])
    (t : Text) :
    Pending openingTag closingTag (readResponse openingTag closingTag t).pending := by
  unfold readResponse
  split
  · exact readThinking_pending _ _ hcl
  rename_i hopen
  split
  · next hpart =>
    obtain ⟨w, hw, ht⟩ := trimLeft_spec t
    refine .opening w (trimLeft t) ht hw hpart fun heq => hopen ?_
    rw [heq]
  · exact .closing List.nil_prefix (Ne.symm hcl)

namespace Parser

/-! ## §3  Readings -/

variable {s : Parser} {t d a : Text}

/-- What the parser returns for all the text to come, and what stays in its buffer. -/
def reading (s : Parser) (t : Text) : Parsed :=
  match s.state with
  | .lookingForOpening => readResponse s.openingTag s.closingTag t
  | .thinkingStartedEatingWhitespace => readThinking s.closingTag (trimLeft t)
  | .thinking => readThinking s.closingTag t
  | .thinkingDoneEatingWhitespace => ⟨[], trimLeft t, []⟩
  | .thinkingDone => ⟨[], t, []⟩

def andThen (out : Text × Text) (r : Parsed) : Parsed :=
  ⟨out.1 ++ r.thinking, out.2 ++ r.content, r.pending⟩

theorem andThen_andThen (out out' : Text × Text) (r : Parsed) :
    andThen out (andThen out' r) = andThen (out.1 ++ out'.1, out.2 ++ out'.2) r :=
  Parsed.ext (append_assoc ..).symm (append_assoc ..).symm rfl

def Settled (s : Parser) : Prop := reading s s.acc = ⟨[], [], s.acc⟩

theorem readThinking_none {closingTag : Text} (h : cut t closingTag = none) :
    readThinking closingTag t = ⟨t.take (t.length - overlap t closingTag), [],
      t.drop (t.length - overlap t closingTag)⟩ := by
  unfold readThinking
  rw [h]

/-- Text that is not held back can be returned before the rest is read. -/
theorem readThinking_held {closingTag : Text} (hcl : closingTag ≠ [])
    (hnone : cut (d ++ a) closingTag = none) (hov : overlap (d ++ a) closingTag ≤ a.length)
    (u : Text) :
    readThinking closingTag (d ++ (a ++ u)) =
      andThen (d, []) (readThinking closingTag (a ++ u)) := by
  have hcut := cut_held hcl hnone hov u
  cases h : cut (a ++ u) closingTag with
  | some p =>
    rw [h] at hcut
    unfold readThinking
    rw [h, hcut]
    rfl
  | none =>
    rw [h] at hcut
    rw [readThinking_none hcut, readThinking_none h, overlap_held hov]
    have hle := overlap_le_left (a ++ u) closingTag
    have hsub : (d ++ (a ++ u)).length - overlap (a ++ u) closingTag =
        d.length + ((a ++ u).length - overlap (a ++ u) closingTag) := by
      rw [length_append]
      omega
    rw [hsub, take_length_add_append, drop_length_add_append]
    rfl

/-! ## §4  One turn -/

/-- What a turn does: it takes off the reading what it returns, and stops only when
nothing more can be returned. -/
structure Turn (s : Parser) (out : (Text × Text) × Parser × Bool) : Prop where
  openingTag : out.2.1.openingTag = s.openingTag
  closingTag : out.2.1.closingTag = s.closingTag
  reads : ∀ u, reading s (s.acc ++ u) = andThen out.1 (reading out.2.1 (out.2.1.acc ++ u))
  settled : out.2.2 = false → Settled out.2.1

variable {openingTag closingTag : Text}

theorem turn_opening (hop : openingTag ≠ []) (acc : Text) :
    Turn ⟨.lookingForOpening, openingTag, closingTag, acc⟩
      (eat ⟨.lookingForOpening, openingTag, closingTag, acc⟩) := by
  unfold eat
  by_cases hopen : openingTag <+: trimLeft acc
  · obtain ⟨rest, hrest⟩ := hopen
    have hread : ∀ u, readResponse openingTag closingTag (acc ++ u) =
        readThinking closingTag (trimLeft (trimLeft rest ++ u)) := by
      intro u
      have hne : trimLeft acc ≠ [] := by
        rw [← hrest]
        exact append_ne_nil_of_left_ne_nil hop rest
      unfold readResponse
      rw [trimLeft_append_of_ne hne, ← hrest, append_assoc, if_pos (prefix_append _ _),
        drop_left, trimLeft_append]
    rw [← hrest, if_pos (prefix_append _ _), drop_left]
    by_cases hnil : trimLeft rest = []
    · rw [if_pos hnil]
      exact ⟨rfl, rfl, hread, nofun⟩
    rw [if_neg hnil]
    refine ⟨rfl, rfl, fun u => ?_, nofun⟩
    have htrim : trimLeft (trimLeft rest) = trimLeft rest := by
      have := trimLeft_append rest []
      rwa [append_nil, append_nil] at this
    refine (hread u).trans ?_
    rw [trimLeft_append_of_ne (by rwa [htrim]), htrim]
    rfl
  · rw [if_neg hopen]
    by_cases hpart : trimLeft acc <+: openingTag
    · rw [if_pos hpart]
      refine ⟨rfl, rfl, fun u => rfl, fun _ => ?_⟩
      show readResponse openingTag closingTag acc = _
      unfold readResponse
      rw [if_neg hopen, if_pos hpart]
    · have hne : trimLeft acc ≠ [] := fun hnil => hpart (hnil ▸ List.nil_prefix)
      rw [if_neg hpart, if_neg hne]
      refine ⟨rfl, rfl, fun u => ?_, fun _ => rfl⟩
      -- more text does not change that no opening tag begins the text
      show readResponse openingTag closingTag (acc ++ u) = ⟨[], acc ++ u, []⟩
      unfold readResponse
      rw [trimLeft_append_of_ne hne, if_neg, if_neg]
      · exact fun h => hpart ((prefix_append _ u).trans h)
      · intro h
        rcases prefix_or_prefix_of_prefix h (prefix_append (trimLeft acc) u) with h | h
        · exact hopen h
        · exact hpart h

theorem turn_started (hcl : closingTag ≠ []) (acc : Text) :
    Turn ⟨.thinkingStartedEatingWhitespace, openingTag, closingTag, acc⟩
      (eat ⟨.thinkingStartedEatingWhitespace, openingTag, closingTag, acc⟩) := by
  unfold eat
  by_cases hnil : trimLeft acc = []
  · rw [if_pos hnil]
    refine ⟨rfl, rfl, fun u => ?_, fun _ => ?_⟩
    · show readThinking closingTag (trimLeft (acc ++ u)) = readThinking closingTag (trimLeft u)
      rw [trimLeft_append_of_blank (trimLeft_eq_nil.mp hnil)]
    · show readThinking closingTag [] = _
      rw [readThinking_none (cut_nil hcl), take_nil, drop_nil]
  · rw [if_neg hnil]
    refine ⟨rfl, rfl, fun u => ?_, nofun⟩
    show readThinking closingTag (trimLeft (acc ++ u)) =
      andThen quiet (readThinking closingTag (trimLeft acc ++ u))
    rw [trimLeft_append_of_ne hnil]
    rfl

/-- Without a closing tag the end that may begin one is kept. -/
theorem eat_thinking_plain {acc : Text} (h : cut acc closingTag = none) :
    eat ⟨.thinking, openingTag, closingTag, acc⟩ =
      ((acc.take (acc.length - overlap acc closingTag), []),
        ⟨.thinking, openingTag, closingTag, acc.drop (acc.length - overlap acc closingTag)⟩,
        false) := by
  unfold eat
  rw [h]
  simp only
  split
  · rfl
  · next hzero =>
    rw [show acc.length - overlap acc closingTag = acc.length by omega, take_length, drop_length]

theorem turn_thinking (hcl : closingTag ≠ []) (acc : Text) :
    Turn ⟨.thinking, openingTag, closingTag, acc⟩
      (eat ⟨.thinking, openingTag, closingTag, acc⟩) := by
  cases h : cut acc closingTag with
  | some p =>
    obtain ⟨thinking, rest⟩ := p
    have hread : ∀ u, readThinking closingTag (acc ++ u) =
        ⟨thinking, trimLeft (rest ++ u), []⟩ := by
      intro u
      unfold readThinking
      rw [cut_append hcl h]
    unfold eat
    rw [h]
    simp only
    by_cases hnil : trimLeft rest = []
    · rw [if_pos hnil]
      refine ⟨rfl, rfl, fun u => ?_, fun _ => rfl⟩
      refine (hread u).trans ?_
      rw [trimLeft_append_of_blank (trimLeft_eq_nil.mp hnil), hnil]
      exact Parsed.ext (append_nil _).symm rfl rfl
    · rw [if_neg hnil]
      refine ⟨rfl, rfl, fun u => ?_, fun _ => rfl⟩
      refine (hread u).trans ?_
      rw [trimLeft_append_of_ne hnil]
      exact Parsed.ext (append_nil _).symm rfl rfl
  | none =>
    rw [eat_thinking_plain h]
    generalize hd : acc.take (acc.length - overlap acc closingTag) = d
    generalize ha : acc.drop (acc.length - overlap acc closingTag) = a
    have hacc : acc = d ++ a := by rw [← hd, ← ha, take_append_drop]
    have hlen : overlap acc closingTag ≤ a.length := by
      have := overlap_le_left acc closingTag
      rw [← ha, length_drop]
      omega
    rw [hacc] at h hlen
    refine ⟨rfl, rfl, fun u => ?_, fun _ => ?_⟩
    · rw [hacc, append_assoc]
      exact readThinking_held hcl h hlen u
    -- what is kept is a beginning of the closing tag, and is kept again
    have hnone := cut_none_of_suffix hcl h (suffix_append d a)
    have hov : overlap a closingTag = a.length := by
      have hheld := overlap_held hlen []
      rw [append_nil] at hheld
      have hal := congrArg List.length ha
      rw [length_drop, hacc] at hal
      omega
    show readThinking closingTag a = _
    rw [readThinking_none hnone, hov, Nat.sub_self]
    rfl

theorem turn_done (acc : Text) : Turn ⟨.thinkingDoneEatingWhitespace, openingTag, closingTag, acc⟩
      (eat ⟨.thinkingDoneEatingWhitespace, openingTag, closingTag, acc⟩) := by
  unfold eat
  simp only
  by_cases hnil : trimLeft acc = []
  · rw [if_pos hnil]
    refine ⟨rfl, rfl, fun u => ?_, fun _ => rfl⟩
    refine Parsed.ext rfl ?_ rfl
    show trimLeft (acc ++ u) = trimLeft acc ++ trimLeft u
    rw [trimLeft_append_of_blank (trimLeft_eq_nil.mp hnil), hnil]
    rfl
  · rw [if_neg hnil]
    exact ⟨rfl, rfl, fun u => Parsed.ext rfl (trimLeft_append_of_ne hnil u) rfl, fun _ => rfl⟩

/-- **Turn.** One case for each state. -/
theorem eat_turn (hop : s.openingTag ≠ []) (hcl : s.closingTag ≠ []) : Turn s (eat s) := by
  obtain ⟨state, openingTag, closingTag, acc⟩ := s
  cases state with
  | lookingForOpening => exact turn_opening hop acc
  | thinkingStartedEatingWhitespace => exact turn_started hcl acc
  | thinking => exact turn_thinking hcl acc
  | thinkingDoneEatingWhitespace => exact turn_done acc
  | thinkingDone => exact ⟨rfl, rfl, fun _ => rfl, fun _ => rfl⟩

/-- The loop goes on over two states at most. -/
theorem turns_lt (s : Parser) : (eat s).2.2 = true → turns (eat s).2.1 < turns s := by
  obtain ⟨state, openingTag, closingTag, acc⟩ := s
  unfold eat
  cases state with
  | lookingForOpening =>
    simp only
    split
    · split
      · exact fun _ => Nat.lt_succ_self 1
      · exact fun _ => Nat.zero_lt_two
    · repeat' split
      all_goals exact nofun
  | thinkingStartedEatingWhitespace =>
    simp only
    split
    · exact nofun
    · exact fun _ => Nat.zero_lt_one
  | _ =>
    simp only
    repeat' split
    all_goals exact nofun

/-! ## §5  Runs -/

/-- What turns, or calls, do together that read `t`. -/
structure Returns (s : Parser) (t : Text) (out : Text × Text) (s' : Parser) : Prop where
  openingTag : s'.openingTag = s.openingTag
  closingTag : s'.closingTag = s.closingTag
  reads : ∀ u, reading s (t ++ u) = andThen out (reading s' (s'.acc ++ u))
  settled : Settled s'

theorem joined_singleton (out : Text × Text) : joined [out] = out :=
  Prod.ext (append_nil _) (append_nil _)

theorem drain_returns {n : ℕ} (s : Parser) (hn : turns s < n) (hop : s.openingTag ≠ [])
    (hcl : s.closingTag ≠ []) :
    Returns s s.acc (joined (drain (fun s => ([(eat s).1], (eat s).2)) n s).1)
      (drain (fun s => ([(eat s).1], (eat s).2)) n s).2 := by
  refine drain_rule turns turns_lt
    (P := fun s outs s' => s.openingTag ≠ [] → s.closingTag ≠ [] → Returns s s.acc (joined outs) s')
    (fun s hlast hop hcl => ?_) (fun s outs s' hmore ih hop hcl => ?_) n s hn hop hcl
  · have h := eat_turn hop hcl
    rw [joined_singleton]
    exact ⟨h.openingTag, h.closingTag, h.reads, h.settled hlast⟩
  have h := eat_turn hop hcl
  have hlater := ih (by rwa [h.openingTag]) (by rwa [h.closingTag])
  refine ⟨hlater.openingTag.trans h.openingTag, hlater.closingTag.trans h.closingTag,
    fun u => ?_, hlater.settled⟩
  rw [h.reads, hlater.reads, andThen_andThen]
  rfl

/-- **Call.** -/
theorem addContent_returns (hop : s.openingTag ≠ []) (hcl : s.closingTag ≠ []) (content : Text) :
    Returns s (s.acc ++ content) (addContent s content).1 (addContent s content).2 := by
  have h := drain_returns { s with acc := s.acc ++ content } (Nat.lt_succ_self _) hop hcl
  exact ⟨h.openingTag, h.closingTag, h.reads, h.settled⟩

/-- **Run.** By induction on the chunks. -/
theorem addAll_returns (hs : Settled s) (hop : s.openingTag ≠ []) (hcl : s.closingTag ≠ [])
    (chunks : List Text) :
    Returns s (s.acc ++ chunks.flatten) (addAll s chunks).1 (addAll s chunks).2 := by
  induction chunks generalizing s with
  | nil =>
    rw [flatten_nil, append_nil]
    exact ⟨rfl, rfl, fun _ => rfl, hs⟩
  | cons content chunks ih =>
    have h := addContent_returns hop hcl content
    have hlater := ih h.settled (by rwa [h.openingTag]) (by rwa [h.closingTag])
    refine ⟨hlater.openingTag.trans h.openingTag, hlater.closingTag.trans h.closingTag,
      fun u => ?_, hlater.settled⟩
    calc reading s (s.acc ++ (content :: chunks).flatten ++ u)
        = reading s (s.acc ++ content ++ (chunks.flatten ++ u)) := by
          rw [flatten_cons, append_assoc, append_assoc, append_assoc]
      _ = andThen (addContent s content).1 (reading (addContent s content).2
            ((addContent s content).2.acc ++ chunks.flatten ++ u)) := by
          rw [h.reads, append_assoc]
      _ = _ := by
          rw [hlater.reads, andThen_andThen]
          rfl

theorem settled_new (hop : openingTag ≠ []) (closingTag : Text) :
    Settled (new openingTag closingTag) := by
  show readResponse openingTag closingTag [] = ⟨[], [], []⟩
  unfold readResponse
  rw [if_neg, if_pos]
  · exact List.nil_prefix
  · exact fun h => hop (prefix_nil.mp h)

/-- However a response is cut into chunks, what is returned and what is still buffered are
its parts by the grammar. -/
theorem addAll_parses (hop : openingTag ≠ []) (hcl : closingTag ≠ []) (chunks : List Text) :
    Parsed.mk (addAll (new openingTag closingTag) chunks).1.1
        (addAll (new openingTag closingTag) chunks).1.2
        (addAll (new openingTag closingTag) chunks).2.acc =
      readResponse openingTag closingTag chunks.flatten ∧
    Pending openingTag closingTag (addAll (new openingTag closingTag) chunks).2.acc := by
  have h := addAll_returns (settled_new hop closingTag) hop hcl chunks
  have hread := h.reads []
  rw [append_nil, append_nil, h.settled] at hread
  have hparsed : Parsed.mk (addAll (new openingTag closingTag) chunks).1.1
      (addAll (new openingTag closingTag) chunks).1.2
      (addAll (new openingTag closingTag) chunks).2.acc =
      readResponse openingTag closingTag chunks.flatten := by
    refine Eq.trans ?_ hread.symm
    unfold andThen
    rw [append_nil, append_nil]
  refine ⟨hparsed, ?_⟩
  have hpending := readResponse_pending openingTag hcl chunks.flatten
  rwa [← hparsed] at hpending

theorem addAll_parses_think : Parsed.mk "a <".toList [] "</t".toList =
      readResponse "<t>".toList "</t>".toList " <t>\n a <</t".toList ∧
    Pending "<t>".toList "</t>".toList "</t".toList :=
  addAll_parses (by decide : "<t>".toList ≠ []) (by decide : "</t>".toList ≠ [])
    [" <".toList, "t>\n".toList, " a <<".toList, "/t".toList]

end Parser

end Ollama.Thinking
