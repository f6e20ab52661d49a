import Ollama.Parsers.Lfm2Reading

/-!
# Chunks of LFM2 output

What the LFM2 parser makes of a text does not depend on where it is cut, and all of it is
returned, exactly when the text is readable: it has no wrapped tool call, no end of its content
is taken for a bare one, and its thinking can be told from its tags.
-/

namespace Ollama.Parsers

open Lib List
open Api (ToolCall)

variable {α : Type} {args : PythonArgs α}

namespace LFM2Parser

variable {p q : LFM2Parser} {t b a c : Text}

/-! ## §1  Every cut of a readable text -/

theorem not_open_and_close (hopen : lfm2ThinkingOpenTag <+: t)
    (hclose : lfm2ThinkingCloseTag.take 2 <+: t) : False := by
  rcases prefix_or_prefix_of_prefix hopen hclose with h | h
  · exact absurd h (by decide)
  · exact absurd h (by decide)

theorem thoughtLen_pos (h : lfm2ThinkingOpenTag <+: t) : 0 < thoughtLen t := by
  rw [thoughtLen]
  cases hcut : cut t lfm2ThinkingCloseTag with
  | none => exact Nat.lt_of_lt_of_le (by decide) h.length_le
  | some x =>
    obtain ⟨b, a⟩ := x
    obtain ⟨hs, -⟩ := (cut_eq_some (by decide)).mp hcut
    rcases b with - | ⟨r, b⟩
    · refine (not_open_and_close h ?_).elim
      rw [hs, nil_append]
      exact (List.take_prefix _ _).trans (prefix_append _ _)
    · exact Nat.succ_pos _

theorem ReadableThought.safe {first : Bool} {u : Text}
    (h : ReadableThought args p first (t ++ u)) : SafeThought t := by
  constructor
  · intro hopen
    obtain ⟨r, v, htake, -⟩ := h.1 0 (thoughtLen_pos (hopen.trans (prefix_append t u)))
      (hopen.trans (prefix_append t u))
    simp at htake
  · intro b a hcut
    have hrest := h.2
    rw [cut_append (by decide) hcut] at hrest
    exact cut_none_of_front (by decide) hrest.1 (prefix_append a u)

theorem cut_none_of_short {s tag : Text} (h : s.length < tag.length) : cut s tag = none := by
  have htag : tag ≠ [] := length_pos_iff.mp (Nat.lt_of_le_of_lt (Nat.zero_le _) h)
  refine (cut_eq_none htag).mpr fun i ho => ?_
  have := ho.add_le htag
  omega

/-- In a readable text every chunk is safe. -/
theorem Readable.safe {u : Text} (hr : Ready p) (h : Readable args p (c ++ u)) : Safe p c := by
  unfold Readable at h
  unfold Safe
  cases hp : p.state with
  | lookingForThinking =>
    rw [hp] at h
    by_cases hnil : trimLeft (p.buffer ++ c) = []
    · rw [hnil, if_neg (by decide)]
      exact cut_nil (by decide)
    rw [← append_assoc, trimLeft_append_of_ne hnil] at h
    by_cases hopen : lfm2ThinkingOpenTag <+: trimLeft (p.buffer ++ c)
    · rw [if_pos (hopen.trans (prefix_append _ _)), drop_append_of_le_length hopen.length_le] at h
      rw [if_pos hopen]
      exact h.safe
    · rw [if_neg hopen]
      by_cases hpre : trimLeft (p.buffer ++ c) <+: lfm2ThinkingOpenTag
      · exact cut_none_of_short (Nat.lt_of_le_of_lt hpre.length_le (by decide))
      · rw [if_neg (not_open_append hopen hpre u)] at h
        exact cut_none_of_front (by decide) h.1 (prefix_append _ _)
  | collectingThinking =>
    rw [hp] at h
    rw [← append_assoc] at h
    exact h.safe
  | collectingContent =>
    rw [hp] at h
    exact cut_none_of_front (by decide) h.1 (prefix_append c u)
  | collectingToolCalls =>
    rw [Ready, hp] at hr
    exact hr.elim

theorem ReadableThought.not_bare {first : Bool} (h : ReadableThought args p first t) :
    ¬Bare args p (contentAfter t) := by
  have hrest := h.2
  rw [contentAfter]
  cases hcut : cut t lfm2ThinkingCloseTag with
  | some x =>
    rw [hcut] at hrest
    exact hrest.2 _ (suffix_refl _)
  | none => exact not_bare_noParen not_mem_nil

/-- The end of a readable text is not taken for a call. -/
theorem Readable.not_bare (h : Readable args p c) : ¬Bare args p (lastContent p c) := by
  unfold Readable at h
  unfold lastContent
  cases hp : p.state with
  | lookingForThinking =>
    rw [hp] at h
    dsimp only at h ⊢
    split
    · next hopen =>
      rw [if_pos hopen] at h
      exact h.not_bare
    · next hopen =>
      rw [if_neg hopen] at h
      exact h.2.1
  | collectingThinking =>
    rw [hp] at h
    exact ReadableThought.not_bare h
  | _ =>
    rw [hp] at h
    exact h.2 _ (suffix_refl _)

/-- Nothing visible is left when there is nothing more to read. -/
theorem Readable.blank (hr : Ready p) (hp : p.state ≠ .lookingForThinking)
    (h : Readable args p []) : Blank p.buffer := by
  cases hstate : p.state with
  | lookingForThinking => exact absurd hstate hp
  | collectingThinking =>
    rw [Ready, hstate] at hr
    obtain ⟨-, hcut, hhold⟩ := hr
    obtain ⟨-, hrest⟩ := (readable_thinking hstate []).mp h
    rw [append_nil, hcut] at hrest
    obtain ⟨w, k, hw, hk, hdrop, hov⟩ := hold_spec p.buffer
    rw [hhold, drop_zero, ← hov, hrest, take_zero, append_nil] at hdrop
    rw [hdrop]
    exact hw
  | collectingContent =>
    rw [Ready, hstate] at hr
    rw [hr]
    exact fun _ hc => absurd hc not_mem_nil
  | collectingToolCalls =>
    rw [Ready, hstate] at hr
    exact hr.elim

/-- **Runs.** However a readable text is cut, what is returned is its reading, and nothing
visible stays in the buffer. -/
theorem outcome_readable (chunks : List Text) (p : LFM2Parser) (hne : chunks ≠ [])
    (hr : Ready p) (h : Readable args p chunks.flatten) :
    outcome (add args) p chunks = reading p chunks.flatten ∧
      Blank (stream (add args) p chunks).2.buffer := by
  refine feed_rule (P := fun p t rs p' => (Response.all rs).seen = reading p t ∧ Blank p'.buffer)
    (G := fun p t => Ready p ∧ Readable args p t) ?_ ?_ ?_ chunks p hne ⟨hr, h⟩
  · rintro p c ⟨hr, h⟩
    have hs : Safe p c := Readable.safe hr (u := []) (by rwa [append_nil])
    obtain ⟨reads, ready, state, keeps⟩ := add_last args hr hs h.not_bare
    refine ⟨?_, (keeps h).blank ready state⟩
    rw [Response.all_cons, Response.all_nil, Response.append_none, reads]
  · rintro p c t ⟨hr, h⟩ herr
    rw [(add_more args hr (h.safe hr)).err] at herr
    cases herr
  · rintro p c t ⟨hr, h⟩ -
    have more := add_more args hr (h.safe hr)
    refine ⟨⟨more.ready, more.keeps t h⟩, fun os s' hos => ⟨?_, hos.2⟩⟩
    rw [Response.all_cons, Response.seen_append, hos.1, more.reads]

/-! ## §2  One character at a time -/

/-- A chunk of at most one character is safe. -/
theorem safe_char (hr : Ready p) (hc : c.length ≤ 1) : Safe p c := by
  have htag : lfm2ToolCallStartTag.length = 19 := by decide
  unfold Safe
  cases hp : p.state with
  | lookingForThinking =>
    rw [Ready, hp] at hr
    obtain ⟨hpre, hne⟩ := hr
    have hlt : (trimLeft p.buffer).length < 7 := by
      refine Nat.lt_of_le_of_ne (hpre.length_le : _ ≤ 7) fun hlen => hne ?_
      exact hpre.eq_of_length hlen
    have hlen : (trimLeft (p.buffer ++ c)).length ≤ 7 := by
      by_cases hnil : trimLeft p.buffer = []
      · rw [← trimLeft_append, hnil, nil_append]
        exact (trimLeft_length_le c).trans (hc.trans (by decide))
      · rw [trimLeft_append_of_ne hnil, length_append]
        omega
    dsimp only
    split
    · have hdrop : (trimLeft (p.buffer ++ c)).drop lfm2ThinkingOpenTag.length = [] :=
        drop_eq_nil_of_le hlen
      rw [hdrop]
      refine ⟨by decide, fun b a hcut => ?_⟩
      cases hcut
    · exact cut_none_of_short (by omega)
  | collectingThinking =>
    rw [Ready, hp] at hr
    obtain ⟨-, hcut, hhold⟩ := hr
    obtain ⟨w, k, hw, hk, hdrop, hov⟩ := hold_spec p.buffer
    rw [hhold, drop_zero] at hdrop
    constructor
    · intro hopen
      rw [hdrop, append_assoc] at hopen
      rcases w with - | ⟨r, w⟩
      · rw [nil_append] at hopen
        have hlen := hopen.length_le
        rw [length_append, length_take, Nat.min_eq_left hk] at hlen
        have hseven : lfm2ThinkingOpenTag.length = 7 := by decide
        refine not_open_and_close hopen ?_
        exact (take_prefix_take_left (by omega)).trans (prefix_append _ _)
      · obtain ⟨rest, hrest⟩ := hopen
        have hr : isSpace r = true := hw r mem_cons_self
        rw [← (List.cons.inj hrest).1] at hr
        exact absurd hr (by decide)
    · intro b a hcut'
      obtain ⟨hs, -⟩ := (cut_eq_some (by decide)).mp hcut'
      have hlen := congrArg List.length hs
      simp only [length_append] at hlen
      have ho : Occurs lfm2ThinkingCloseTag (p.buffer ++ c) b.length := by
        rw [hs]
        exact occurs_middle b lfm2ThinkingCloseTag a
      refine cut_none_of_short ?_
      by_contra hlong
      exact (cut_eq_none (by decide)).mp hcut b.length (ho.of_append (by omega))
  | _ => exact cut_none_of_short (by omega)

theorem outcome_cons (p : LFM2Parser) (c : Text) {cs : List Text} (hne : cs ≠ [])
    (h : (add args c false p).1.err = none) :
    outcome (add args) p (c :: cs) =
      (add args c false p).1.seen ++ outcome (add args) (add args c false p).2 cs := by
  obtain ⟨c', cs, rfl⟩ := exists_cons_of_ne_nil hne
  have hno : ¬(add args c false p).1.err.isSome = true := by
    rw [h]
    exact Bool.false_ne_true
  unfold outcome stream
  rw [feed, if_neg hno, Response.all_cons, Response.seen_append]

theorem outcome_single (p : LFM2Parser) (c : Text) :
    outcome (add args) p [c] = (add args c true p).1.seen := by
  show ((add args c true p).1 ++ Response.none).seen = _
  rw [Response.append_none]

/-- At the end nothing is taken for a call. -/
theorem not_bare_nil (hr : Ready p) : ¬Bare args p (lastContent p []) := by
  refine not_bare_noParen ?_
  unfold lastContent
  cases hp : p.state with
  | lookingForThinking =>
    rw [Ready, hp] at hr
    dsimp only
    rw [append_nil]
    split
    · next hopen => exact absurd (hr.1.eq_of_length_le hopen.length_le) hr.2
    · exact fun hm => absurd (hr.1.subset hm) (by decide)
  | collectingThinking =>
    rw [Ready, hp] at hr
    rw [append_nil, contentAfter, hr.2.1]
    exact not_mem_nil
  | _ => exact not_mem_nil

/-- Read one character at a time, no text has a call or a tag that is mistaken. -/
theorem outcome_chars (u : Text) (hr : Ready p) :
    outcome (add args) p (u.map (fun r => [r]) ++ [[]]) = reading p u := by
  induction u generalizing p with
  | nil =>
    have hs : Safe p [] := safe_char hr (Nat.zero_le 1)
    rw [map_nil, nil_append, outcome_single]
    exact (add_last args hr hs (not_bare_nil hr)).1
  | cons r u ih =>
    have more := add_more args hr (safe_char hr (Nat.le_refl 1) : Safe p [r])
    rw [map_cons, cons_append, outcome_cons p [r] (append_ne_nil_of_right_ne_nil _
      (cons_ne_nil _ _)) more.err, ih more.ready, more.reads]
    rfl

end LFM2Parser

end Ollama.Parsers
