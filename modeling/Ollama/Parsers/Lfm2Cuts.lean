import Ollama.Parsers.Lfm2Chunks

/-!
# Cuts of LFM2 output

Where a text may be cut so that the LFM2 parser makes something else of it, and what it returns
of a text.
-/

namespace Ollama.Parsers

open Lib List
open Api (ToolCall)

variable {α : Type} {args : PythonArgs α}

theorem Response.append_left_cancel {τ : Type} {r s s' : Response τ} (hr : r.err = Option.none)
    (h : r ++ s = r ++ s') : s = s' := by
  have herr := congrArg Response.err h
  rw [err_append, err_append, hr, Option.none_or, Option.none_or] at herr
  exact Response.ext' (append_cancel_left (congrArg Response.content h))
    (append_cancel_left (congrArg Response.thinking h))
    (append_cancel_left (congrArg Response.calls h)) herr

namespace LFM2Parser

variable {p q : LFM2Parser} {t u b a c : Text}

/-! ## §1  Tags that are mistaken -/

/-- Where a wrapped call begins, either calls are returned, or nothing more is. -/
theorem parseEvents_tag (args : PythonArgs α) (hp : p.state = .collectingContent)
    (h : cut p.buffer lfm2ToolCallStartTag ≠ none) :
    (collect (parseEvents args p).1).calls ≠ [] ∨
      (visible (collect (parseEvents args p).1).content).length < (visible p.buffer).length := by
  have hnil : p.buffer ≠ [] := by
    intro hnil
    rw [hnil] at h
    exact h (cut_nil (by decide))
  have hbuf : visible (trimContent p).buffer = visible p.buffer := by
    unfold trimContent
    split
    · exact visible_trimLeft _
    · rfl
  cases hcut : cut (trimContent p).buffer lfm2ToolCallStartTag with
  | none =>
    refine absurd ?_ h
    unfold trimContent at hcut
    split at hcut
    · obtain ⟨w, hw, ht⟩ := trimLeft_spec p.buffer
      rw [ht, cut_blank (by decide) hw, hcut]
      rfl
    · exact hcut
  | some x =>
    obtain ⟨b, a⟩ := x
    have heat : eat args p = (contentEvent (trimRight b),
        { trimContent p with buffer := a, state := .collectingToolCalls }, true) := by
      unfold eat
      rw [if_neg hnil, hp]
      rw [eatContent, hcut]
    have short : (visible (trimRight b)).length < (visible p.buffer).length := by
      have htag : 0 < (visible lfm2ToolCallStartTag).length := by decide
      obtain ⟨hs, -⟩ := (cut_eq_some (by decide)).mp hcut
      rw [← hbuf, hs, visible_append, visible_append, visible_trimRight, length_append,
        length_append]
      omega
    rw [parseEvents_more heat, collect_append, collect_contentEvent]
    generalize hq : ({ trimContent p with buffer := a, state := .collectingToolCalls } :
      LFM2Parser) = q
    have hstate : q.state = .collectingToolCalls := by rw [← hq]
    have nothing : eat args q = ([], q, false) → (visible (⟨trimRight b, [], [], none⟩ ++
        collect (parseEvents args q).1 : Response (ToolCall α)).content).length <
          (visible p.buffer).length := by
      intro h
      rw [parseEvents_last h]
      show (visible (trimRight b ++ [])).length < _
      rwa [append_nil]
    by_cases hempty : q.buffer = []
    · exact .inr (nothing (by rw [eat, if_pos hempty]))
    have htool : eat args q = eatToolCalls args q := by rw [eat, if_neg hempty, hstate]
    rw [htool] at nothing
    unfold eatToolCalls at htool nothing
    cases hend : cut q.buffer lfm2ToolCallEndTag with
    | none => exact .inr (nothing (by rw [hend]))
    | some y =>
      obtain ⟨body, remaining⟩ := y
      rw [hend] at htool nothing
      dsimp only at htool nothing
      cases hcalls : parseToolCallsContent args body with
      | error e => exact .inr (nothing (by rw [hcalls]))
      | ok toolCalls =>
        rw [hcalls] at htool nothing
        dsimp only at htool nothing
        by_cases hno : toolCalls = []
        · exact .inr (nothing (by rw [if_pos hno]))
        left
        obtain ⟨call, calls, rfl⟩ := exists_cons_of_ne_nil hno
        rw [if_neg hno] at htool
        split at htool
        · rw [parseEvents_more htool, collect_append]
          exact cons_ne_nil _ _
        · rw [parseEvents_more htool, collect_append]
          exact cons_ne_nil _ _

/-- The last call does not bring back what has been swallowed. -/
theorem fallback_swallowed (args : PythonArgs α) {r : Response (ToolCall α)} {n : ℕ}
    (h : r.calls ≠ [] ∨ (visible r.content).length < n) :
    (fallback args true p r).calls ≠ [] ∨
      (visible (fallback args true p r).content).length < n := by
  unfold fallback
  split
  · split
    · exact h
    split
    · next allowed =>
      left
      rintro rfl
      cases allowed
    · exact h
  · exact h

/-- A text with a wrapped call in its content is not returned as content by the last call. -/
theorem add_tag (args : PythonArgs α) {s : Text}
    (hp : (commit true (write p c)).state = .collectingContent)
    (h : cut (commit true (write p c)).buffer lfm2ToolCallStartTag ≠ none)
    (hs : visible (commit true (write p c)).buffer = visible s) :
    (add args c true p).1.seen ≠ .ofContent s := by
  intro heq
  have out := fallback_swallowed (p := (parseEvents args (commit true (write p c))).2) args
    (parseEvents_tag args hp h)
  rw [hs] at out
  rw [add] at heq
  have hc := congrArg Response.content heq
  have ht := congrArg Response.calls heq
  dsimp only [Response.seen, Response.ofContent] at hc ht
  rcases out with hcalls | hshort
  · exact hcalls (number_eq_nil.mp ht)
  · refine Nat.lt_irrefl _ (Nat.lt_of_le_of_lt (Nat.le_of_eq ?_) hshort)
    rw [← hc]
    rfl

structure Fresh (p : LFM2Parser) : Prop where
  state : p.state = .collectingThinking
  buffer : p.buffer = []
  trim : p.needsThinkingLeadingTrim = true

theorem Fresh.ready (h : Fresh p) : Ready p := by
  rw [Ready, h.state]
  rw [h.buffer]
  exact ⟨fun _ => rfl, by decide⟩

/-- A call whose chunk completes an opening tag at the beginning of the buffer drops it. -/
theorem add_open (args : PythonArgs α) (hp : p.state = .collectingThinking)
    (h : p.buffer ++ c = lfm2ThinkingOpenTag) :
    (add args c false p).1 = .none ∧ Fresh (add args c false p).2 := by
  have heat : eat args (write p c) = ([], { write p c with
      buffer := [], needsThinkingLeadingTrim := true }, false) := by
    have hbuf : (write p c).buffer = lfm2ThinkingOpenTag := h
    unfold eat
    rw [hbuf, if_neg (by decide), show (write p c).state = p.state from rfl, hp]
    rw [eatThinking, stripOpenTag, hbuf, if_pos (prefix_refl _)]
    rfl
  have hadd : add args c false p = (.none, { write p c with
      buffer := [], needsThinkingLeadingTrim := true, callIndex := p.callIndex + 0 }) := by
    rw [add, commit_false]
    rw [show ({ p with buffer := p.buffer ++ c } : LFM2Parser) = write p c from rfl,
      parseEvents_last heat, fallback_false]
    rfl
  rw [hadd]
  exact ⟨rfl, hp, rfl, rfl⟩

theorem cut_open (v : Text) : cut (lfm2ThinkingOpenTag ++ v) lfm2ThinkingCloseTag =
    (cut v lfm2ThinkingCloseTag).map fun x => (lfm2ThinkingOpenTag ++ x.1, x.2) := by
  refine cut_prepend (by decide) fun i hi ho => ?_
  have hopen : Occurs lfm2ThinkingOpenTag (lfm2ThinkingOpenTag ++ v) 0 := prefix_append _ _
  rcases Nat.eq_zero_or_pos i with rfl | hpos
  · refine not_open_and_close hopen ?_
    exact (List.take_prefix _ _).trans ho
  · have hend := hopen.apart (c := '<') (by decide) (by decide) ho hpos
    omega

theorem overlap_open (v : Text) : overlap (lfm2ThinkingOpenTag ++ v) lfm2ThinkingCloseTag =
    overlap v lfm2ThinkingCloseTag := by
  have hle := overlap_le_right (lfm2ThinkingOpenTag ++ v) lfm2ThinkingCloseTag
  have hsuf := overlap_suffix (lfm2ThinkingOpenTag ++ v) lfm2ThinkingCloseTag
  have hback := (overlap_suffix v lfm2ThinkingCloseTag).trans (suffix_append lfm2ThinkingOpenTag v)
  refine Nat.le_antisymm ?_ (le_overlap (overlap_le_right _ _) hback)
  refine le_overlap hle ?_
  obtain ⟨d, hd⟩ := hsuf
  rcases append_eq_append_iff.mp hd with ⟨m, hm, hk⟩ | ⟨m, hm, hk⟩
  · -- the part of the closing tag would begin in the opening tag
    have hpre : m ++ v <+: lfm2ThinkingCloseTag := hk ▸ List.take_prefix _ _
    rcases m with - | ⟨r, m⟩
    · rw [hk, nil_append]
    have hr : r = '<' := by
      obtain ⟨rest, hrest⟩ := hpre
      exact (List.cons.inj hrest).1
    have hget : lfm2ThinkingOpenTag[d.length]? = some '<' := by
      rw [hm, getElem?_append_right (Nat.le_refl _), Nat.sub_self, hr]
      rfl
    rcases d with - | ⟨r', d⟩
    · rw [nil_append] at hm
      rw [← hm] at hpre
      exact absurd ((prefix_append _ _).trans hpre) (by decide)
    · exact absurd hget (Marked.getElem?_ne (by decide) (Nat.succ_pos _))
  · exact ⟨m, hk.symm⟩

theorem readThought_open (v : Text) : (readThought (lfm2ThinkingOpenTag ++ v) :
    Response (ToolCall α)) = .ofThinking lfm2ThinkingOpenTag ++ readThought v := by
  rw [readThought, readThought, cut_open]
  cases cut v lfm2ThinkingCloseTag with
  | some x =>
    dsimp only [Option.map_some]
    rw [Response.ofThinking_append, Response.append_assoc]
  | none =>
    have hle := overlap_le_left v lfm2ThinkingCloseTag
    dsimp only [Option.map_none]
    rw [settled, settled, overlap_open, length_append, Nat.add_sub_assoc hle,
      take_length_add_append, Response.ofThinking_append]

/-! ## §2  The residual of a steady text -/

def Steady (args : PythonArgs α) (p : LFM2Parser) (u : Text) : Prop :=
  ∀ chunks : List Text, chunks ≠ [] → chunks.flatten = u → outcome (add args) p chunks = reading p u

theorem Steady.whole (h : Steady args p u) : (add args u true p).1.seen = reading p u := by
  rw [← outcome_single]
  exact h [u] (cons_ne_nil _ _) (by rw [flatten_cons, flatten_nil, append_nil])

theorem Steady.rest (h : Steady args p (c ++ u)) (hr : Ready p) (hs : Safe p c) :
    Steady args (add args c false p).2 u := by
  have more := add_more args hr hs
  intro chunks hne hu
  have hall := h (c :: chunks) (cons_ne_nil _ _) (by rw [flatten_cons, hu])
  rw [outcome_cons p c hne more.err, ← more.reads] at hall
  refine Response.append_left_cancel ?_ hall
  exact more.err

theorem chars_flatten (u : Text) : (u.map (fun r => [r]) ++ [[]]).flatten = u := by
  rw [flatten_append, flatten_cons, flatten_nil, append_nil, append_nil]
  induction u with
  | nil => rfl
  | cons r u ih => rw [map_cons, flatten_cons, ih, singleton_append]

/-- An opening tag at the beginning of the buffer is not returned, if a cut comes after it. -/
theorem not_steady_open (hp : p.state = .collectingThinking)
    (h : p.buffer ++ c = lfm2ThinkingOpenTag) (v : Text) : ¬Steady args p (c ++ v) := by
  intro steady
  obtain ⟨hnone, fresh⟩ := add_open args hp h
  have hall := steady (c :: (v.map (fun r => [r]) ++ [[]])) (cons_ne_nil _ _)
    (by rw [flatten_cons, chars_flatten])
  rw [outcome_cons p c (append_ne_nil_of_right_ne_nil _ (cons_ne_nil _ _))
    (by rw [hnone]; rfl), hnone, outcome_chars v fresh.ready, reading_thinking fresh.state,
    fresh.buffer, reading_thinking hp, ← append_assoc, h, readThought_open] at hall
  have hlen := congrArg (List.length ∘ Response.thinking) hall
  have htag : 0 < (visible lfm2ThinkingOpenTag).length := by decide
  simp only [Function.comp_apply, Response.thinking_append, length_append] at hlen
  have : (Response.ofThinking lfm2ThinkingOpenTag : Response (ToolCall α)).thinking.length =
      (visible lfm2ThinkingOpenTag).length := rfl
  have hz : (Response.none : Response (ToolCall α)).seen.thinking.length = 0 := rfl
  rw [nil_append] at hlen
  omega

/-! ## §3  Steady texts are readable -/

theorem Steady.plainContent (hp : p.state = .collectingContent) (hr : Ready p)
    (h : Steady args p u) : PlainContent args p u := by
  have hnil : p.buffer = [] := by
    rw [Ready, hp] at hr
    exact hr
  have hstay : commit true (write p u) = write p u :=
    commit_of_state (by rw [show (write p u).state = p.state from rfl, hp]; decide) true
  have hwrite : (commit true (write p u)).buffer = u := by rw [hstay, write_content hp hr]
  have plain : cut u lfm2ToolCallStartTag = none := by
    by_contra hcut
    refine add_tag args (p := p) (c := u) (s := u) ?_ ?_ ?_ ?_
    · rw [hstay]
      exact hp
    · rwa [hwrite]
    · rw [hwrite]
    · rw [h.whole, reading_content hp, hnil, nil_append]
  refine ⟨plain, ?_⟩
  rintro s ⟨x, rfl⟩ bare
  have hsafe : Safe p x := by
    rw [Safe, hp]
    exact cut_none_of_front (by decide) plain (prefix_append x s)
  have more := add_more args hr hsafe
  have hstate : (add args x false p).2.state = .collectingContent := by
    exact (took_write args hr hsafe).stays hp
  have hsafe' : Safe (add args x false p).2 s := by
    rw [Safe, hstate]
    exact cut_none_of_suffix (by decide) plain (suffix_append x s)
  have whole := (h.rest hr hsafe).whole
  rw [reading_content hstate] at whole
  refine add_last_bare args more.ready hsafe' ?_ (congrArg Response.calls whole)
  rw [lastContent, hstate]
  exact (more.tools.bare s).mpr bare

theorem cut_none_of_take {i : ℕ} (hi : i < thoughtLen u) :
    cut (u.take (i + 1)) lfm2ThinkingCloseTag = none := by
  refine (cut_eq_none (by decide)).mpr fun j ho => ?_
  have hend := ho.add_le (by decide)
  rw [length_take] at hend
  have htag : lfm2ThinkingCloseTag.length = 8 := by decide
  have ho' : Occurs lfm2ThinkingCloseTag u j := by
    rw [← take_append_drop (i + 1) u]
    exact ho.append (by decide) _
  rw [thoughtLen] at hi
  cases hcut : cut u lfm2ThinkingCloseTag with
  | none => exact (cut_eq_none (by decide)).mp hcut j ho'
  | some x =>
    rw [hcut] at hi
    dsimp only at hi
    exact ((cut_eq_some (by decide)).mp hcut).2 j (by omega) ho'

/-- Thinking that is cut before it is closed. -/
theorem more_thinking (args : PythonArgs α) (hp : p.state = .collectingThinking)
    (hopen : ¬lfm2ThinkingOpenTag <+: p.buffer ++ c)
    (hcut : cut (p.buffer ++ c) lfm2ThinkingCloseTag = none) :
    Safe p c ∧ (add args c false p).2.state = .collectingThinking ∧
      (add args c false p).2.buffer = (thought (write p c)).drop (hold (thought (write p c))) ∧
      (add args c false p).2.needsThinkingLeadingTrim =
        (p.needsThinkingLeadingTrim && decide (thought (write p c) = [])) := by
  have hsafe : Safe p c := by
    rw [Safe, hp]
    refine ⟨hopen, fun b a h => ?_⟩
    rw [hcut] at h
    cases h
  have hthought : cut (thought (write p c)) lfm2ThinkingCloseTag = none := by
    obtain ⟨w, hw, hwt, -⟩ := thought_spec (write p c)
    refine cut_none_of_suffix (by decide) hcut ⟨w, hwt.symm⟩
  obtain ⟨turned, htrim⟩ := parseEvents_thinking args (p := write p c) hp hopen hthought
  refine ⟨hsafe, ?_, ?_, ?_⟩
  · exact turned.state
  · exact turned.buffer
  · exact htrim

/-- An opening tag after nothing but white space is mistaken. -/
theorem Steady.not_after_blank {w v : Text} (hp : Fresh p) (hw : Blank w) :
    ¬Steady args p (w ++ (lfm2ThinkingOpenTag ++ v)) := by
  intro h
  have hthought : thought (write p w) = [] := by
    rw [thought, show (write p w).needsThinkingLeadingTrim = true from hp.trim, if_pos rfl,
      show (write p w).buffer = p.buffer ++ w from rfl, hp.buffer, nil_append]
    exact trimLeft_eq_nil.mpr hw
  obtain ⟨hsafe, hstate, hbuf, -⟩ := more_thinking args (c := w) hp.state (by
      rw [hp.buffer, nil_append]
      rintro ⟨rest, hrest⟩
      exact absurd (hw '<' (by rw [← hrest]; exact mem_cons_self)) (by decide))
    (by
      rw [hp.buffer, nil_append, ← append_nil w, cut_blank (by decide) hw, cut_nil (by decide)]
      rfl)
  rw [hthought, drop_nil] at hbuf
  exact not_steady_open hstate (by rw [hbuf, nil_append]) v (h.rest hp.ready hsafe)

theorem trimLeft_concat {v : Char} (hv : ¬isSpace v = true) (r s : Text) :
    ∃ y, trimLeft (r ++ [v] ++ s) = y ++ [v] ++ s := by
  by_cases hr : trimLeft r = []
  · refine ⟨[], ?_⟩
    rw [append_assoc, trimLeft_append_of_blank (trimLeft_eq_nil.mp hr)]
    exact dropWhile_cons_of_neg hv
  · refine ⟨trimLeft r, ?_⟩
    rw [append_assoc, trimLeft_append_of_ne hr, ← append_assoc]

/-- An opening tag right after something visible is mistaken, when the cut comes after its first
character. -/
theorem Steady.not_after_visible {r v : Text} {x : Char} (hp : Fresh p)
    (hx : ¬isSpace x = true) (hopen : ¬lfm2ThinkingOpenTag <+: r ++ [x] ++ ['<'])
    (hcut : cut (r ++ [x] ++ ['<']) lfm2ThinkingCloseTag = none) :
    ¬Steady args p (r ++ [x] ++ (lfm2ThinkingOpenTag ++ v)) := by
  intro h
  have hsplit : r ++ [x] ++ (lfm2ThinkingOpenTag ++ v) =
      r ++ [x] ++ ['<'] ++ ("think>".toList ++ v) := by
    rw [append_assoc (r ++ [x])]
    rfl
  obtain ⟨hsafe, hstate, hbuf, -⟩ := more_thinking args (c := r ++ [x] ++ ['<'])
    hp.state (by rwa [hp.buffer, nil_append])
    (by rwa [hp.buffer, nil_append])
  obtain ⟨y, hy⟩ := trimLeft_concat hx r ['<']
  have hthought : thought (write p (r ++ [x] ++ ['<'])) = y ++ [x] ++ ['<'] := by
    rw [thought, show (write p _).needsThinkingLeadingTrim = true from hp.trim, if_pos rfl,
      show (write p (r ++ [x] ++ ['<'])).buffer = p.buffer ++ (r ++ [x] ++ ['<']) from rfl,
      hp.buffer, nil_append, hy]
  have hhold : hold (y ++ [x] ++ ['<']) = (y ++ [x]).length := by
    rw [hold, overlap_concat (by decide), ambiguousStart, length_append,
      length_singleton, Nat.add_sub_cancel, take_left, trailingWhitespaceLen,
      rtakeWhile_concat_neg _ _ _ hx]
    rfl
  rw [hthought, hhold, drop_left] at hbuf
  rw [hsplit] at h
  exact not_steady_open hstate (by rw [hbuf]; decide) v (h.rest hp.ready hsafe)

theorem Steady.spaced (hp : Fresh p) (h : Steady args p u) : Spaced true u := by
  intro i hi ho
  have hu := ho.eq_append
  have hcut := cut_none_of_take hi
  have hsucc : u.take (i + 1) = u.take i ++ ['<'] := by
    have hget : u[i]? = some '<' := ho.getElem? (k := 0) (by decide)
    rw [take_add_one, hget]
    rfl
  rw [hsucc] at hcut
  generalize u.drop (i + lfm2ThinkingOpenTag.length) = rest at hu
  rcases eq_nil_or_concat' (u.take i) with hnil | ⟨r, x, htake⟩
  · rw [hnil] at hu
    rw [hu] at h
    exact absurd h (Steady.not_after_blank hp nofun)
  rw [htake] at hu hcut
  by_cases hx : isSpace x = true
  · refine ⟨r, x, htake, hx, fun _ hr => ?_⟩
    rw [hu] at h
    refine Steady.not_after_blank hp (fun c hc => ?_) h
    rcases mem_append.mp hc with hc | hc
    · exact hr c hc
    · rw [mem_singleton.mp hc]
      exact hx
  · exfalso
    by_cases hopen : lfm2ThinkingOpenTag <+: r ++ [x] ++ ['<']
    · obtain ⟨w, hw⟩ := hopen
      have same : r ++ [x] ++ (lfm2ThinkingOpenTag ++ rest) =
          [] ++ (lfm2ThinkingOpenTag ++ (w ++ ("think>".toList ++ rest))) := by
        rw [nil_append, ← append_assoc lfm2ThinkingOpenTag, hw, append_assoc (r ++ [x])]
        rfl
      rw [hu, same] at h
      exact Steady.not_after_blank hp (w := []) nofun h
    · rw [hu] at h
      exact Steady.not_after_visible hp hx hopen hcut h

/-- Thinking that is closed. -/
theorem Steady.closed (hp : Fresh p) (h : Steady args p u)
    (hcut : cut u lfm2ThinkingCloseTag = some (b, a)) : PlainContent args p a := by
  obtain ⟨hu, -⟩ := (cut_eq_some (by decide)).mp hcut
  have hopen : ¬lfm2ThinkingOpenTag <+: u := by
    intro ⟨v, hv⟩
    rw [← hv] at h
    exact Steady.not_after_blank (w := []) hp nofun h
  have hcut' : cut (b ++ lfm2ThinkingCloseTag) lfm2ThinkingCloseTag = some (b, []) := by
    refine (cut_eq_some (by decide)).mpr ⟨by rw [append_nil], fun j hj ho => ?_⟩
    refine ((cut_eq_some (by decide)).mp hcut).2 j hj ?_
    rw [hu, ← append_assoc]
    exact ho.append (by decide) a
  have hopen' : ¬lfm2ThinkingOpenTag <+: b ++ lfm2ThinkingCloseTag := by
    refine fun hpre => hopen (hpre.trans ?_)
    rw [hu, ← append_assoc]
    exact prefix_append _ _
  have hsafe : Safe p (b ++ lfm2ThinkingCloseTag) := by
    rw [Safe, hp.state]
    rw [hp.buffer, nil_append]
    refine ⟨hopen', fun b' a' h' => ?_⟩
    rw [hcut'] at h'
    cases h'
    exact cut_nil (by decide)
  have more := add_more args hp.ready hsafe
  have hstate : (add args (b ++ lfm2ThinkingCloseTag) false p).2.state = .collectingContent := by
    have hbuf : (write p (b ++ lfm2ThinkingCloseTag)).buffer = b ++ lfm2ThinkingCloseTag := by
      rw [show (write p (b ++ lfm2ThinkingCloseTag)).buffer =
        p.buffer ++ (b ++ lfm2ThinkingCloseTag) from rfl, hp.buffer, nil_append]
    obtain ⟨w, hw, hwt, -⟩ := thought_spec (write p (b ++ lfm2ThinkingCloseTag))
    rw [hbuf] at hwt
    rw [hwt, cut_blank (by decide) hw] at hcut'
    obtain ⟨⟨b', a'⟩, hthought, heq⟩ := Option.map_eq_some_iff.mp hcut'
    cases heq
    exact (parseEvents_thinking_close args (p := write p _) hp.state (by rwa [hbuf]) hthought
      (cut_nil (by decide))).state
  rw [hu, ← append_assoc] at h
  have plain := (h.rest hp.ready hsafe).plainContent hstate more.ready
  exact SameTools.plainContent ⟨more.tools.toolNames.symm, more.tools.hasTools.symm⟩ plain

theorem ready_looking (hp : p.state = .lookingForThinking) (hb : p.buffer = []) : Ready p := by
  rw [Ready, hp, hb]
  exact ⟨List.nil_prefix, by decide⟩

variable {w : Text}

/-- The chunk that completes the opening tag in front of the thinking. -/
theorem more_open (args : PythonArgs α) (hp : p.state = .lookingForThinking)
    (hb : p.buffer = []) (hw : Blank w) :
    Safe p (w ++ lfm2ThinkingOpenTag) ∧ Ready p ∧
      Fresh (add args (w ++ lfm2ThinkingOpenTag) false p).2 := by
  have htrim : trimLeft (w ++ lfm2ThinkingOpenTag) = lfm2ThinkingOpenTag := by
    rw [trimLeft_append_of_blank hw]
    decide
  have hready := ready_looking hp hb
  have hsafe : Safe p (w ++ lfm2ThinkingOpenTag) := by
    rw [Safe, hp]
    rw [hb, nil_append, htrim, if_pos (prefix_refl _), drop_length]
    refine ⟨by decide, fun b a h => ?_⟩
    cases h
  have second : (add args (w ++ lfm2ThinkingOpenTag) false p).2 =
      { (parseEvents args (write p (w ++ lfm2ThinkingOpenTag))).2 with
        callIndex := (add args (w ++ lfm2ThinkingOpenTag) false p).2.callIndex } := by
    rfl
  have hbuf : (write p (w ++ lfm2ThinkingOpenTag)).buffer = w ++ lfm2ThinkingOpenTag := by
    rw [show (write p (w ++ lfm2ThinkingOpenTag)).buffer =
      p.buffer ++ (w ++ lfm2ThinkingOpenTag) from rfl, hb, nil_append]
  have events := parseEvents_open args (p := write p (w ++ lfm2ThinkingOpenTag)) hp
    (by rw [hbuf, htrim])
  rw [hbuf, htrim, drop_length, parseEvents_nil (p := { write p (w ++ lfm2ThinkingOpenTag)
    with buffer := [], state := .collectingThinking, needsThinkingLeadingTrim := true }) rfl]
    at events
  refine ⟨hsafe, hready, ?_, ?_, ?_⟩ <;> rw [second, events]

/-- A direct answer. -/
theorem Steady.direct (hp : p.state = .lookingForThinking) (hb : p.buffer = [])
    (hopen : ¬lfm2ThinkingOpenTag <+: trimLeft u) (h : Steady args p u) :
    cut (trimLeft u) lfm2ToolCallStartTag = none ∧ ¬Bare args p (trimLeft u) ∧
      ∀ x s, u = x ++ s → ¬trimLeft x <+: lfm2ThinkingOpenTag → ¬Bare args p s := by
  have hready := ready_looking hp hb
  have hread : ∀ v, ¬lfm2ThinkingOpenTag <+: trimLeft v →
      (reading p v : Response (ToolCall α)) = .ofContent (trimLeft v) := by
    intro v hv
    rw [reading, hp, hb]
    exact if_neg hv
  have hwrite : (write p u).buffer = u := by
    rw [show (write p u).buffer = p.buffer ++ u from rfl, hb, nil_append]
  have move : commit true (write p u) =
      { write p u with buffer := trimLeft u, state := .collectingContent } := by
    rw [commit, hwrite, if_pos ⟨rfl, hp, hopen⟩]
  have plain : cut (trimLeft u) lfm2ToolCallStartTag = none := by
    by_contra hcut
    refine add_tag args (p := p) (c := u) (s := trimLeft u) ?_ ?_ ?_ ?_
    · rw [move]
    · rwa [move]
    · rw [move]
    · rw [h.whole, hread u hopen]
  refine ⟨plain, fun bare => ?_, ?_⟩
  · have hsafe : Safe p u := by
      rw [Safe, hp, hb]
      rwa [nil_append, if_neg hopen]
    have whole := h.whole
    rw [hread u hopen] at whole
    refine add_last_bare args hready hsafe ?_ (congrArg Response.calls whole)
    rw [lastContent, hp, hb]
    rwa [nil_append, if_neg hopen]
  · rintro x s rfl hx bare
    have hne : trimLeft x ≠ [] := by
      intro hnil
      rw [hnil] at hx
      exact hx List.nil_prefix
    have hall : trimLeft (x ++ s) = trimLeft x ++ s := trimLeft_append_of_ne hne s
    rw [hall] at hopen plain
    have hopen' : ¬lfm2ThinkingOpenTag <+: trimLeft x := fun hpre =>
      hopen (hpre.trans (prefix_append _ _))
    have plain' : cut (trimLeft x) lfm2ToolCallStartTag = none :=
      cut_none_of_front (by decide) plain (prefix_append _ s)
    have hbuf : (write p x).buffer = x := by
      rw [show (write p x).buffer = p.buffer ++ x from rfl, hb, nil_append]
    have hsafe : Safe p x := by
      rw [Safe, hp, hb]
      rwa [nil_append, if_neg hopen']
    have more := add_more args hready hsafe
    have hstate : (add args x false p).2.state = .collectingContent := by
      rw [more.state, parseEvents_direct args (p := write p x) hp (by rwa [hbuf]) (by rwa [hbuf])]
      refine (parseEvents_content args rfl ?_).state
      rwa [hbuf]
    have hsafe' : Safe (add args x false p).2 s := by
      rw [Safe, hstate]
      exact cut_none_of_suffix (by decide) plain (suffix_append _ s)
    have whole := (h.rest hready hsafe).whole
    rw [reading_content hstate] at whole
    refine add_last_bare args more.ready hsafe' ?_ (congrArg Response.calls whole)
    rw [lastContent, hstate]
    exact (more.tools.bare s).mpr bare

/-! ## §4  Accounts of a text -/

/-- The four tags. -/
def tags : List Text :=
  [lfm2ThinkingOpenTag, lfm2ThinkingCloseTag, lfm2ToolCallStartTag, lfm2ToolCallEndTag]

/-- What is returned accounts for a text: every character is white space, belongs to a tag or to
calls that are returned, or is itself returned as content or as thinking. -/
inductive Accounts (args : PythonArgs α) : Text → Response (ToolCall α) → Prop
  | nil : Accounts args [] .none
  | blank {r : Char} {t : Text} {out : Response (ToolCall α)} (hr : isSpace r = true)
      (h : Accounts args t out) : Accounts args (r :: t) out
  | tag {tag t : Text} {out : Response (ToolCall α)} (htag : tag ∈ tags)
      (h : Accounts args t out) : Accounts args (tag ++ t) out
  | call {body t : Text} {calls : List (ToolCall α)} {i : ℤ} {out : Response (ToolCall α)}
      (hcalls : parseToolCallsContent args body = .ok calls) (h : Accounts args t out) :
      Accounts args (body ++ t) (⟨[], [], number i calls, none⟩ ++ out)
  | content {r : Char} {t : Text} {out : Response (ToolCall α)} (hr : isSpace r = false)
      (h : Accounts args t out) : Accounts args (r :: t) (⟨[r], [], [], none⟩ ++ out)
  | thinking {r : Char} {t : Text} {out : Response (ToolCall α)} (hr : isSpace r = false)
      (h : Accounts args t out) : Accounts args (r :: t) (⟨[], [r], [], none⟩ ++ out)

theorem visible_cons (r : Char) (s : Text) :
    visible (r :: s) = if isSpace r then visible s else r :: visible s := by
  unfold visible
  cases h : isSpace r <;> simp [h]

variable {out : Response (ToolCall α)}

theorem Accounts.of_blank (hw : Blank w)
    (h : Accounts args t out) : Accounts args (w ++ t) out := by
  induction w with
  | nil => exact h
  | cons r w ih =>
    exact .blank (hw r mem_cons_self) (ih fun c hc => hw c (mem_cons_of_mem r hc))

theorem Accounts.of_content (s : Text) (h : Accounts args t out) :
    Accounts args (s ++ t) (.ofContent s ++ out) := by
  induction s with
  | nil => exact h
  | cons r s ih =>
    rw [Response.ofContent, visible_cons]
    by_cases hr : isSpace r = true
    · rw [if_pos hr]
      exact .blank hr ih
    · rw [if_neg hr]
      exact .content ((Bool.not_eq_true _).mp hr) ih

theorem Accounts.of_thinking (s : Text) (h : Accounts args t out) :
    Accounts args (s ++ t) (.ofThinking s ++ out) := by
  induction s with
  | nil => exact h
  | cons r s ih =>
    rw [Response.ofThinking, visible_cons]
    by_cases hr : isSpace r = true
    · rw [if_pos hr]
      exact .blank hr ih
    · rw [if_neg hr]
      exact .thinking ((Bool.not_eq_true _).mp hr) ih

theorem accounts_content (s : Text) : Accounts args s (.ofContent s) := by
  have h : Accounts args (s ++ []) (.ofContent s ++ .none) := .of_content s .nil
  rwa [append_nil, Response.append_none] at h

/-- The reading of thinking accounts for it when no part of a closing tag is held back. -/
theorem accounts_thought (h : cut t lfm2ThinkingCloseTag = none →
    overlap t lfm2ThinkingCloseTag = 0) : Accounts args t (readThought t) := by
  rw [readThought]
  cases hcut : cut t lfm2ThinkingCloseTag with
  | some x =>
    obtain ⟨b, a⟩ := x
    rw [((cut_eq_some (by decide)).mp hcut).1]
    exact (Accounts.tag (by decide) (accounts_content a)).of_thinking b
  | none =>
    have hall : Accounts args (t ++ []) (.ofThinking t ++ .none) := .of_thinking t .nil
    rw [settled, h hcut, Nat.sub_zero, take_length]
    rwa [append_nil, Response.append_none] at hall

theorem parse_ok_ne_nil {body : Text} {calls : List (ToolCall α)}
    (h : parseToolCallsContent args body = .ok calls) : calls ≠ [] := by
  rw [parseToolCallsContent, parsePythonStyleToolCalls] at h
  split at h
  · cases h
  · split at h
    · cases h
    · next hne =>
      cases h
      exact hne

def returned (out : Response (ToolCall α)) : Text := out.content ++ out.thinking

theorem returned_append (out out' : Response (ToolCall α)) (r : Char) :
    (returned (out ++ out')).length = (returned out).length + (returned out').length ∧
      (returned (out ++ out')).count r = (returned out).count r + (returned out').count r := by
  simp only [returned, Response.content_append, Response.thinking_append, length_append,
    count_append]
  omega

theorem one_more {r : Char} {l n i j : ℕ} {s : Text} (hr : isSpace r = false)
    (hlen : (visible t).length = n + l) (hcount : (visible t).count '/' = i + j)
    (hl : s.length = 1 + l) (hc : s.count '/' = [r].count '/' + j) :
    (visible (r :: t)).length = n + s.length ∧ (visible (r :: t)).count '/' = i + s.count '/' := by
  rw [visible_cons, if_neg (by rw [hr]; exact Bool.false_ne_true), length_cons, hlen, hl, hc,
    ← singleton_append, count_append, hcount]
  omega

/-- Where no calls are returned, tags and what is returned make up the visible characters. -/
theorem Accounts.count (h : Accounts args t out) (hcalls : out.calls = []) : ∃ n n' m k : ℕ,
      (visible t).length = 7 * n + 8 * n' + 19 * m + 17 * k + (returned out).length ∧
        (visible t).count '/' = n' + (returned out).count '/' := by
  induction h with
  | nil => exact ⟨0, 0, 0, 0, rfl, rfl⟩
  | blank hr h ih =>
    obtain ⟨n, n', m, k, hlen, hcount⟩ := ih hcalls
    refine ⟨n, n', m, k, ?_, ?_⟩ <;> rwa [visible_cons, if_pos hr]
  | tag htag h ih =>
    obtain ⟨n, n', m, k, hlen, hcount⟩ := ih hcalls
    simp only [tags, mem_cons, not_mem_nil, or_false] at htag
    rcases htag with rfl | rfl | rfl | rfl
    · refine ⟨n + 1, n', m, k, ?_, ?_⟩
      · rw [visible_append, length_append, hlen,
          show (visible lfm2ThinkingOpenTag).length = 7 by decide]
        omega
      · rw [visible_append, count_append, hcount,
          show (visible lfm2ThinkingOpenTag).count '/' = 0 by decide, Nat.zero_add]
    · refine ⟨n, n' + 1, m, k, ?_, ?_⟩
      · rw [visible_append, length_append, hlen,
          show (visible lfm2ThinkingCloseTag).length = 8 by decide]
        omega
      · rw [visible_append, count_append, hcount,
          show (visible lfm2ThinkingCloseTag).count '/' = 1 by decide]
        omega
    · refine ⟨n, n', m + 1, k, ?_, ?_⟩
      · rw [visible_append, length_append, hlen,
          show (visible lfm2ToolCallStartTag).length = 19 by decide]
        omega
      · rw [visible_append, count_append, hcount,
          show (visible lfm2ToolCallStartTag).count '/' = 0 by decide, Nat.zero_add]
    · refine ⟨n, n', m, k + 1, ?_, ?_⟩
      · rw [visible_append, length_append, hlen,
          show (visible lfm2ToolCallEndTag).length = 17 by decide]
        omega
      · rw [visible_append, count_append, hcount,
          show (visible lfm2ToolCallEndTag).count '/' = 0 by decide, Nat.zero_add]
  | call hbody h ih =>
    obtain ⟨hnumber, -⟩ := append_eq_nil_iff.mp hcalls
    exact absurd (number_eq_nil.mp hnumber) (parse_ok_ne_nil hbody)
  | @content r t out hr h ih =>
    obtain ⟨n, n', m, k, hlen, hcount⟩ := ih hcalls
    obtain ⟨hl, hc⟩ := returned_append (⟨[r], [], [], none⟩ : Response (ToolCall α)) out '/'
    exact ⟨n, n', m, k, one_more hr hlen hcount hl hc⟩
  | @thinking r t out hr h ih =>
    obtain ⟨n, n', m, k, hlen, hcount⟩ := ih hcalls
    obtain ⟨hl, hc⟩ := returned_append (⟨[], [r], [], none⟩ : Response (ToolCall α)) out '/'
    exact ⟨n, n', m, k, one_more hr hlen hcount hl hc⟩

/-- A part of a closing tag that is held back to the end is not accounted for. -/
theorem overlap_of_accounts (hw : Blank w) (hcut : cut t lfm2ThinkingCloseTag = none)
    (h : Accounts args (w ++ (lfm2ThinkingOpenTag ++ t)) (.ofThinking (settled t))) :
    overlap t lfm2ThinkingCloseTag = 0 := by
  obtain ⟨n, n', m, k, hlen, hcount⟩ := h.count rfl
  have hlt := overlap_lt (by decide) hcut
  have htag : lfm2ThinkingCloseTag.length = 8 := by decide
  have ht : t = settled t ++ lfm2ThinkingCloseTag.take (overlap t lfm2ThinkingCloseTag) := by
    rw [settled, ← drop_overlap, take_append_drop]
  have hparts : (visible (w ++ (lfm2ThinkingOpenTag ++ t))) = visible lfm2ThinkingOpenTag ++
      (visible (settled t) ++
        visible (lfm2ThinkingCloseTag.take (overlap t lfm2ThinkingCloseTag))) := by
    conv_lhs => rw [ht]
    rw [visible_append, visible_eq_nil.mpr hw, nil_append, visible_append, visible_append]
  have hret : returned (.ofThinking (settled t) : Response (ToolCall α)) = visible (settled t) := rfl
  rw [hparts, hret] at hlen hcount
  simp only [length_append, count_append] at hlen hcount
  rw [show (visible lfm2ThinkingOpenTag).length = 7 by decide] at hlen
  rw [show (visible lfm2ThinkingOpenTag).count '/' = 0 by decide] at hcount
  generalize overlap t lfm2ThinkingCloseTag = o at *
  have hpart : (visible (lfm2ThinkingCloseTag.take o)).length = o ∧
      (visible (lfm2ThinkingCloseTag.take o)).count '/' = if 2 ≤ o then 1 else 0 := by
    have hall : ∀ o < 8, (visible (lfm2ThinkingCloseTag.take o)).length = o ∧
        (visible (lfm2ThinkingCloseTag.take o)).count '/' = if 2 ≤ o then 1 else 0 := by decide
    exact hall o (htag ▸ hlt)
  -- what is left of the length after the opening tag is too short for another tag
  have hn' : n' = if 2 ≤ o then 1 else 0 := by omega
  by_contra hpos
  have hm : m = 0 := by split at hn' <;> omega
  have hk : k = 0 := by split at hn' <;> omega
  split at hn' <;> omega

/-! ## §5  The exact condition -/

/-- However the text is cut, the same is returned as for the text in one call, and it accounts
for the text. -/
def ChunkIndependent (args : PythonArgs α) (p : LFM2Parser) (t : Text) : Prop :=
  ∀ chunks : List Text, chunks ≠ [] → chunks.flatten = t →
    outcome (add args) p chunks = outcome (add args) p [t] ∧
      Accounts args t (outcome (add args) p chunks)

theorem ChunkIndependent.steady (hr : Ready p) (h : ChunkIndependent args p t) :
    Steady args p t := by
  intro chunks hne ht
  have hchars := (h (t.map (fun r => [r]) ++ [[]])
    (append_ne_nil_of_right_ne_nil _ (cons_ne_nil _ _)) (chars_flatten t)).1
  rw [(h chunks hne ht).1, ← hchars, outcome_chars t hr]

theorem reading_open (hp : p.state = .lookingForThinking) (hb : p.buffer = [])
    (hopen : lfm2ThinkingOpenTag <+: trimLeft t) : (reading p t : Response (ToolCall α)) =
      readThought ((trimLeft t).drop lfm2ThinkingOpenTag.length) := by
  rw [reading, hp, hb]
  exact if_pos hopen

theorem open_spec (hopen : lfm2ThinkingOpenTag <+: trimLeft t) : ∃ w, Blank w ∧
    t = w ++ (lfm2ThinkingOpenTag ++ (trimLeft t).drop lfm2ThinkingOpenTag.length) := by
  obtain ⟨w, hw, ht⟩ := trimLeft_spec t
  obtain ⟨v, hv⟩ := hopen
  refine ⟨w, hw, ?_⟩
  rw [← hv, drop_left, hv]
  exact ht

/-- A readable text is accounted for by its reading. -/
theorem accounts_reading (hb : p.buffer = []) (h : Readable args p t) :
    Accounts args t (reading p t) := by
  unfold Readable at h
  cases hp : p.state with
  | lookingForThinking =>
    rw [hp, hb] at h
    rw [nil_append] at h
    by_cases hopen : lfm2ThinkingOpenTag <+: trimLeft t
    · obtain ⟨w, hw, ht⟩ := open_spec hopen
      rw [if_pos hopen] at h
      rw [reading_open hp hb hopen]
      generalize (trimLeft t).drop lfm2ThinkingOpenTag.length = v at *
      rw [ht]
      refine (Accounts.tag (by decide) (accounts_thought fun hcut => ?_)).of_blank hw
      have hover := h.2
      rwa [hcut] at hover
    · rw [reading, hp, hb]
      rw [nil_append, if_neg hopen, Response.ofContent, visible_trimLeft]
      exact accounts_content t
  | collectingThinking =>
    rw [hp, hb] at h
    rw [reading_thinking hp, hb]
    refine accounts_thought fun hcut => ?_
    have hover := h.2
    rw [nil_append] at hover
    rwa [hcut] at hover
  | _ =>
    rw [reading, hp, hb]
    exact accounts_content t

/-- A text that no cut changes and that is accounted for is readable. -/
theorem readable_of_steady (hp : p.state = .lookingForThinking ∨ p.state = .collectingContent)
    (hb : p.buffer = []) (h : Steady args p t) (hacc : Accounts args t (reading p t)) :
    Readable args p t := by
  rcases hp with hp | hp
  · have hopen : (if lfm2ThinkingOpenTag <+: trimLeft t then
        ReadableThought args p true ((trimLeft t).drop lfm2ThinkingOpenTag.length)
      else cut (trimLeft t) lfm2ToolCallStartTag = none ∧ ¬Bare args p (trimLeft t) ∧
        ∀ x s, t = x ++ s → ¬trimLeft x <+: lfm2ThinkingOpenTag → ¬Bare args p s) := by
      split
      · next hopen =>
        rw [reading_open hp hb hopen] at hacc
        obtain ⟨w, hw, ht⟩ := open_spec hopen
        generalize (trimLeft t).drop lfm2ThinkingOpenTag.length = v at *
        obtain ⟨hsafe, hr, fresh⟩ := more_open args hp hb hw
        have more := add_more args hr hsafe
        rw [ht, ← append_assoc] at h
        have rest := h.rest hr hsafe
        refine ⟨rest.spaced fresh, ?_⟩
        cases hcut : cut v lfm2ThinkingCloseTag with
        | some x =>
          exact SameTools.plainContent ⟨more.tools.toolNames.symm, more.tools.hasTools.symm⟩
            (rest.closed fresh hcut)
        | none =>
          rw [ht, readThought, hcut] at hacc
          exact overlap_of_accounts hw hcut hacc
      · next hopen => exact h.direct hp hb hopen
    rw [Readable, hp, hb]
    exact hopen
  · have hr : Ready p := by rwa [Ready, hp]
    exact (readable_content hp t).mpr (h.plainContent hp hr)

theorem init_ready (thinking : Bool) (tools : List Text) (prefilled : Bool) :
    ((init thinking tools prefilled).state = .lookingForThinking ∨
      (init thinking tools prefilled).state = .collectingContent) ∧
    (init thinking tools prefilled).buffer = [] ∧ Ready (init thinking tools prefilled) := by
  cases thinking <;> cases prefilled
  · exact ⟨.inr rfl, rfl, rfl⟩
  · exact ⟨.inr rfl, rfl, rfl⟩
  · exact ⟨.inl rfl, rfl, ready_looking rfl rfl⟩
  · exact ⟨.inr rfl, rfl, rfl⟩

/-- The LFM2 parser does not depend on where a text is cut, and returns all of it, exactly for
the texts that are readable. -/
theorem chunkIndependent_iff (args : PythonArgs α) (thinking : Bool) (tools : List Text)
    (prefilled : Bool) (text : Text) :
    ChunkIndependent args (init thinking tools prefilled) text ↔
      Readable args (init thinking tools prefilled) text := by
  obtain ⟨hstate, hbuf, hready⟩ := init_ready thinking tools prefilled
  generalize init thinking tools prefilled = p at *
  constructor
  · intro h
    have steady := h.steady hready
    refine readable_of_steady hstate hbuf steady ?_
    have whole : [text].flatten = text := by
      rw [flatten_cons, flatten_nil, append_nil]
    rw [← steady [text] (cons_ne_nil _ _) whole]
    exact (h [text] (cons_ne_nil _ _) whole).2
  · rintro h chunks hne rfl
    have one : outcome (add args) p [chunks.flatten] = reading p chunks.flatten := by
      have whole : [chunks.flatten].flatten = chunks.flatten := by
        rw [flatten_cons, flatten_nil, append_nil]
      have hread := outcome_readable [chunks.flatten] p (cons_ne_nil _ _) hready (whole.symm ▸ h)
      rw [whole] at hread
      exact hread.1
    have many := (outcome_readable chunks p hne hready h).1
    exact ⟨many.trans one.symm, many ▸ accounts_reading hbuf h⟩

/-- A wrapped call whose opening tag comes in two chunks is returned as content. -/
theorem notChunkIndependent_split : ¬ChunkIndependent (α := Text) ⟨[], .ok⟩ (init false [] false)
      "<|tool_call_start|>[f(x=1)]<|tool_call_end|>".toList := by
  intro h
  have split := (h ["<|tool_".toList, "call_start|>[f(x=1)]<|tool_call_end|>".toList]
    (cons_ne_nil _ _) (by decide)).1
  exact absurd split (by decide +kernel)

end LFM2Parser

end Ollama.Parsers
