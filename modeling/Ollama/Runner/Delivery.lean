import Ollama.Runner.Stop

/-!
# Delivery of the sampled text

The end of the second section of `computeBatch`: a piece is appended to what is
pending; a stop string ends the sequence, the beginning of one or a character
that is cut off holds the text back, and otherwise what is pending is sent.
-/

namespace Ollama.Runner

open Lib Lib.Utf8 List

/-! ## §1  The model -/

/-- `utf8.ValidString` -/
def validString (s : Text) : Bool := s.toByteArray.validateUTF8

structure Reply where
  pendingResponses : List Text
  responses : List Text

def Reply.empty : Reply := ⟨[], []⟩

/-- The loop of `flushPending`: bytes are taken off the end until the text is
valid. -/
def trimInvalid (joined : Text) : ℕ → Text
  | 0 => []
  | n + 1 => if validString (joined.take (n + 1)) then joined.take (n + 1) else trimInvalid joined n

/-- `flushPending`: `quit` says that the client is gone. The result is `false`
when the text could not be sent. -/
def Reply.flushPending (r : Reply) (quit : Bool) : Reply × Bool :=
  let joined := trimInvalid r.pendingResponses.flatten r.pendingResponses.flatten.length
  if joined = [] then (⟨[], r.responses⟩, true)
  else if quit then (⟨[], r.responses⟩, false)
  else (⟨[], r.responses ++ [joined]⟩, true)

inductive DoneReason
  | stop
  | length
  | connectionClosed
  deriving DecidableEq

/-- A sampled piece is added to what is pending. The reason is the one the
sequence is removed for, if it is; `removeSequence` flushes once more. -/
def Reply.respond (stops : List Text) (quit : Bool) (r : Reply) (piece : Text) :
    Reply × Option DoneReason :=
  let pending := r.pendingResponses ++ [piece]
  let sequence := pending.flatten
  match findStop sequence stops with
  | some stop =>
      ((Reply.flushPending ⟨(truncateStop pending stop).1, r.responses⟩ quit).1, some .stop)
  | none =>
      if containsStopSuffix sequence stops then (⟨pending, r.responses⟩, none)
      else if incompleteUnicode sequence then (⟨pending, r.responses⟩, none)
      else
        match Reply.flushPending ⟨pending, r.responses⟩ quit with
        | (r', true) => (r', none)
        | (r', false) => ((r'.flushPending quit).1, some .connectionClosed)

/-- The pieces of a sequence whose client stays, one after the other; the
sequence is removed by a stop string, or after the last piece. -/
def Reply.deliver (stops : List Text) : Reply → List Text → Reply
  | r, [] => (r.flushPending false).1
  | r, piece :: pieces =>
      match r.respond stops false piece with
      | (r', none) => deliver stops r' pieces
      | (r', some _) => r'

/-- Everything the client receives. -/
def delivered (stops pieces : List Text) : List Text := (Reply.empty.deliver stops pieces).responses

/-! ## §2  What is sent -/

variable {s : Text}

theorem validString_iff : validString s = true ↔ Valid s := by
  rw [validString, ByteArray.validateUTF8_eq_true_iff]
  constructor
  · rintro ⟨cs, hcs⟩
    refine ⟨cs, ?_⟩
    have hdata := congrArg (fun b : ByteArray => b.data.toList) hcs
    rw [data_toByteArray, List.utf8Encode, data_toByteArray] at hdata
    exact hdata
  · rintro ⟨cs, rfl⟩
    exact ⟨cs, rfl⟩

/-- What is sent is the longest valid prefix. -/
theorem trimInvalid_spec (s : Text) (n : ℕ) :
    Valid (trimInvalid s n) ∧ trimInvalid s n <+: s.take n ∧
      ∀ m ≤ n, Valid (s.take m) → s.take m <+: trimInvalid s n := by
  induction n with
  | zero =>
    refine ⟨Valid.nil, List.nil_prefix, fun m hm _ => ?_⟩
    rw [Nat.le_zero.mp hm]
    exact List.nil_prefix
  | succ n ih =>
    unfold trimInvalid
    by_cases hv : validString (s.take (n + 1)) = true
    · rw [if_pos hv]
      exact ⟨validString_iff.mp hv, prefix_refl _, fun m hm _ => take_prefix_take_left hm⟩
    rw [if_neg hv]
    obtain ⟨hvalid, hpre, hmax⟩ := ih
    refine ⟨hvalid, hpre.trans (take_prefix_take_left n.le_succ), fun m hm hm' => ?_⟩
    rcases Nat.lt_or_eq_of_le hm with hlt | rfl
    · exact hmax m (Nat.le_of_lt_succ hlt) hm'
    · exact absurd (validString_iff.mpr hm') hv

theorem trimInvalid_valid (h : Valid s) : trimInvalid s s.length = s := by
  obtain ⟨_, hpre, hmax⟩ := trimInvalid_spec s s.length
  rw [take_length] at hpre
  have hle := hmax s.length le_rfl (by rwa [take_length])
  rw [take_length] at hle
  exact hpre.eq_of_length (Nat.le_antisymm hpre.length_le hle.length_le)

/-- Sending what is pending. -/
theorem Reply.flushPending_false (r : Reply) :
    (r.flushPending false).2 = true ∧ (r.flushPending false).1.pendingResponses = [] ∧
    (r.flushPending false).1.responses.flatten = r.responses.flatten ++
      trimInvalid r.pendingResponses.flatten r.pendingResponses.flatten.length ∧
    ((∀ c ∈ r.responses, Valid c) → ∀ c ∈ (r.flushPending false).1.responses, Valid c) := by
  have hvalid := (trimInvalid_spec r.pendingResponses.flatten r.pendingResponses.flatten.length).1
  unfold flushPending
  generalize trimInvalid r.pendingResponses.flatten r.pendingResponses.flatten.length = joined
    at hvalid ⊢
  by_cases hj : joined = []
  · rw [if_pos hj]
    refine ⟨rfl, rfl, ?_, fun h => h⟩
    rw [hj, append_nil]
  rw [if_neg hj]
  refine ⟨rfl, rfl, ?_, fun h c hc => ?_⟩
  · simp only [Bool.false_eq_true, if_false, flatten_append, flatten_cons, flatten_nil, append_nil]
  · rcases mem_append.mp hc with hmem | hmem
    · exact h c hmem
    · rw [mem_singleton.mp hmem]
      exact hvalid

/-! ## §3  One piece -/

/-- Between two pieces of a text: `rest` is still to come, no stop string
begins in what has been sent and none stands in what is held back. -/
structure Held (stops : List Text) (text rest : Text) (r : Reply) : Prop where
  split : text = r.responses.flatten ++ (r.pendingResponses.flatten ++ rest)
  chunks : ∀ c ∈ r.responses, Valid c
  valid : Valid (r.pendingResponses.flatten ++ rest)
  before : ∀ t ∈ stops, ∀ i < r.responses.flatten.length, ¬Occurs t text i
  pending : ∀ i, ∀ t ∈ stops, ¬Occurs t r.pendingResponses.flatten i

variable {stops : List Text}

theorem Held.empty (hne : ∀ t ∈ stops, t ≠ []) {text : Text}
    (h : Valid text) : Held stops text text Reply.empty where
  split := rfl
  chunks := fun c hc => (by cases hc)
  valid := h
  before := fun t _ i hi => absurd hi (Nat.not_lt_zero i)
  pending := fun i t ht ho => by
    have := ho.add_le (hne t ht)
    have hpos := length_pos_iff.mpr (hne t ht)
    have hnil : (Reply.empty.pendingResponses.flatten).length = 0 := rfl
    omega

variable {r : Reply}

/-- No stop string begins in what is sent when none ends in it and none has
begun at its end. -/
theorem Held.before_flush {text rest : Text} (h : Held stops text rest r) (hsuffix :
      containsStopSuffix r.pendingResponses.flatten stops = false) :
    ∀ t ∈ stops, ∀ i < (r.responses.flatten ++ r.pendingResponses.flatten).length,
      ¬Occurs t text i := by
  intro t ht i hi ho
  by_cases hlt : i < r.responses.flatten.length
  · exact h.before t ht i hlt ho
  obtain ⟨k, rfl⟩ := Nat.exists_eq_add_of_le (Nat.not_lt.mp hlt)
  rw [length_append] at hi
  rw [h.split, occurs_append_right] at ho
  by_cases hend : k + t.length ≤ r.pendingResponses.flatten.length
  · exact h.pending k t ht (ho.of_append hend)
  · obtain ⟨n, hn, hpos, hsuf, _⟩ := ho.straddle (by omega) (Nat.not_le.mp hend)
    have hfound := containsStopSuffix_of_suffix ht hpos hn.le hsuf
    rw [hsuffix] at hfound
    cases hfound

/-- **A piece that completes no stop string.** -/
theorem Held.respond_none (hne : ∀ t ∈ stops, t ≠ []) {text rest piece : Text}
    (h : Held stops text (piece ++ rest) r)
    (hnone : findStop (r.pendingResponses.flatten ++ piece) stops = none) :
    (r.respond stops false piece).2 = none ∧
      Held stops text rest (r.respond stops false piece).1 := by
  have hflat : (r.pendingResponses ++ [piece]).flatten = r.pendingResponses.flatten ++ piece := by
    rw [flatten_append, flatten_cons, flatten_nil, append_nil]
  -- the piece held back
  have hheld : Held stops text rest ⟨r.pendingResponses ++ [piece], r.responses⟩ := by
    refine ⟨?_, h.chunks, ?_, h.before, ?_⟩
    · rw [hflat, append_assoc]
      exact h.split
    · rw [hflat, append_assoc]
      exact h.valid
    · rw [hflat]
      exact (findStop_eq_none hne).mp hnone
  unfold Reply.respond
  simp only
  rw [hflat, hnone]
  by_cases hsuffix : containsStopSuffix (r.pendingResponses.flatten ++ piece) stops = true
  · rw [if_pos hsuffix]
    exact ⟨rfl, hheld⟩
  rw [if_neg hsuffix]
  by_cases hinc : incompleteUnicode (r.pendingResponses.flatten ++ piece) = true
  · rw [if_pos hinc]
    exact ⟨rfl, hheld⟩
  rw [if_neg hinc]
  have hvalid : Valid ((r.pendingResponses ++ [piece]).flatten ++ rest) := hheld.valid
  rw [hflat] at hvalid
  obtain ⟨hnow, hlater⟩ := valid_of_complete hvalid (Bool.eq_false_iff.mpr hinc)
  obtain ⟨hsent, hempty, hresp, hchunks⟩ :=
    Reply.flushPending_false ⟨r.pendingResponses ++ [piece], r.responses⟩
  generalize Reply.flushPending ⟨r.pendingResponses ++ [piece], r.responses⟩ false = f
    at hsent hempty hresp hchunks ⊢
  obtain ⟨r', b⟩ := f
  subst hsent
  rw [hflat, trimInvalid_valid hnow] at hresp
  refine ⟨rfl, ?_, hchunks h.chunks, ?_, ?_, ?_⟩
  · rw [hresp, hempty, append_assoc, flatten_nil, nil_append, append_assoc]
    exact h.split
  · rw [hempty]
    exact hlater
  · rw [hresp]
    have hbefore := hheld.before_flush
      (show containsStopSuffix (r.pendingResponses ++ [piece]).flatten stops = false by
        rw [hflat]
        exact Bool.eq_false_iff.mpr hsuffix)
    simp only [hflat] at hbefore
    exact hbefore
  · rw [hempty]
    exact (Held.empty hne Valid.nil).pending

/-- **A piece that completes a stop string**: what stands before the first
occurrence of the stop string found is sent, and the sequence ends. -/
theorem Held.respond_some (hok : ∀ t ∈ stops, t ≠ [] ∧ Valid t)
    {text rest piece stop : Text} (h : Held stops text (piece ++ rest) r)
    (hsome : findStop (r.pendingResponses.flatten ++ piece) stops = some stop) :
    (r.respond stops false piece).2 = some .stop ∧
    (∀ c ∈ (r.respond stops false piece).1.responses, Valid c) ∧
    ∃ i, index (r.pendingResponses.flatten ++ piece) stop = some i ∧
      (r.respond stops false piece).1.responses.flatten =
        text.take (r.responses.flatten.length + i) := by
  have hflat : (r.pendingResponses ++ [piece]).flatten = r.pendingResponses.flatten ++ piece := by
    rw [flatten_append, flatten_cons, flatten_nil, append_nil]
  obtain ⟨hmem, i, hi⟩ := findStop_eq_some hsome
  obtain ⟨hne, hvalid⟩ := hok stop hmem
  have hocc := ((index_eq_some hne).mp hi).1
  have hle := hocc.add_le hne
  have hkept : ((truncateStop (r.pendingResponses ++ [piece]) stop).1).flatten =
      (r.pendingResponses.flatten ++ piece).take i := by
    rw [← hflat]
    exact truncateStop_flatten (by rw [hflat]; exact hi)
  -- what stands before the stop string is a text of its own
  have hbefore : Valid ((r.pendingResponses.flatten ++ piece).take i) := by
    have hall := h.valid
    rw [← append_assoc, hocc.eq_append, append_assoc, append_assoc] at hall
    exact hall.before hvalid hne
  unfold Reply.respond
  simp only
  rw [hflat, hsome]
  obtain ⟨_, _, hresp, hchunks⟩ := Reply.flushPending_false
    ⟨(truncateStop (r.pendingResponses ++ [piece]) stop).1, r.responses⟩
  refine ⟨rfl, hchunks h.chunks, i, hi, ?_⟩
  have hhead : (r.pendingResponses.flatten ++ (piece ++ rest)).take i =
      (r.pendingResponses.flatten ++ piece).take i := by
    rw [← append_assoc]
    exact take_append_of_le_length (by omega)
  rw [hresp, hkept, trimInvalid_valid hbefore, h.split, take_length_add_append, hhead]

/-! ## §4  All pieces -/

theorem findStop_none_of_append {s u : Text} (hne : ∀ t ∈ stops, t ≠ [])
    (h : findStop (s ++ u) stops = none) : findStop s stops = none :=
  (findStop_eq_none hne).mpr fun i t ht ho =>
    (findStop_eq_none hne).mp h i t ht (ho.append (hne t ht) u)

theorem Held.findStop_seen (hne : ∀ t ∈ stops, t ≠ [])
    {text rest piece : Text} (h : Held stops text (piece ++ rest) r) :
    ∀ t ∈ stops, ∀ i < r.responses.flatten.length,
      ¬Occurs t (r.responses.flatten ++ (r.pendingResponses.flatten ++ piece)) i := by
  intro t ht i hi ho
  refine h.before t ht i hi ?_
  rw [h.split, ← append_assoc _ piece, ← append_assoc]
  exact ho.append (hne t ht) rest

/-- **Run lemma.** From any state between two pieces: without a stop string in
what is read, everything is sent; otherwise what stands before the first
occurrence of the stop string found, at the first piece that completes one. -/
theorem Held.deliver (hok : ∀ t ∈ stops, t ≠ [] ∧ Valid t) {text : Text} (pieces : List Text) :
    ∀ (r : Reply) (seen : Text), Held stops text pieces.flatten r →
      seen = r.responses.flatten ++ r.pendingResponses.flatten →
      (∀ c ∈ (r.deliver stops pieces).responses, Valid c) ∧
      (findStop (seen ++ pieces.flatten) stops = none →
        (r.deliver stops pieces).responses.flatten = text) ∧
      ∀ k < pieces.length, findStop (seen ++ (pieces.take k).flatten) stops = none →
        ∀ stop, findStop (seen ++ (pieces.take (k + 1)).flatten) stops = some stop →
          ∃ i, index (seen ++ (pieces.take (k + 1)).flatten) stop = some i ∧
            (r.deliver stops pieces).responses.flatten = text.take i := by
  have hne : ∀ t ∈ stops, t ≠ [] := fun t ht => (hok t ht).1
  induction pieces with
  | nil =>
    intro r seen h _
    obtain ⟨_, _, hresp, hchunks⟩ := r.flushPending_false
    refine ⟨hchunks h.chunks, fun _ => ?_, fun k hk => absurd hk (Nat.not_lt_zero k)⟩
    have hvalid := h.valid
    rw [flatten_nil, append_nil] at hvalid
    rw [Reply.deliver, hresp, trimInvalid_valid hvalid, h.split, flatten_nil, append_nil]
  | cons piece pieces ih =>
    intro r seen h hseen
    have hbefore := h.findStop_seen hne
    have hseen' : seen ++ piece = r.responses.flatten ++ (r.pendingResponses.flatten ++ piece) := by
      rw [hseen, append_assoc]
    have hstep : findStop (seen ++ piece) stops =
        findStop (r.pendingResponses.flatten ++ piece) stops := by
      rw [hseen', findStop_append hne hbefore]
    have htake : ∀ k, seen ++ ((piece :: pieces).take (k + 1)).flatten =
        (seen ++ piece) ++ (pieces.take k).flatten := by
      intro k
      rw [take_succ_cons, flatten_cons, append_assoc]
    cases hfind : findStop (r.pendingResponses.flatten ++ piece) stops with
    | none =>
      obtain ⟨hgo, hheld⟩ := h.respond_none hne hfind
      have hdeliver : r.deliver stops (piece :: pieces) =
          (r.respond stops false piece).1.deliver stops pieces := by
        rw [Reply.deliver]
        generalize r.respond stops false piece = f at hgo
        obtain ⟨r', reason⟩ := f
        subst hgo
        rfl
      have hnow : seen ++ piece = (r.respond stops false piece).1.responses.flatten ++
          (r.respond stops false piece).1.pendingResponses.flatten := by
        refine @List.append_cancel_right _ _ pieces.flatten _ ?_
        rw [hseen', append_assoc, append_assoc, append_assoc, ← hheld.split, h.split, flatten_cons]
      obtain ⟨hchunks, hnone, hsome⟩ := ih _ _ hheld hnow
      rw [hdeliver]
      refine ⟨hchunks, fun hn => hnone ?_, fun k hk hn stop hs => ?_⟩
      · rw [append_assoc, ← flatten_cons]
        exact hn
      rw [htake] at hs ⊢
      cases k with
      | zero =>
        rw [take_zero, flatten_nil, append_nil, hstep, hfind] at hs
        cases hs
      | succ k =>
        rw [htake] at hn
        exact hsome k (Nat.lt_of_succ_lt_succ hk) hn stop hs
    | some stop =>
      obtain ⟨hgo, hchunks, i, hi, hresp⟩ := h.respond_some hok hfind
      have hdeliver : r.deliver stops (piece :: pieces) = (r.respond stops false piece).1 := by
        rw [Reply.deliver]
        generalize r.respond stops false piece = f at hgo
        obtain ⟨r', reason⟩ := f
        subst hgo
        rfl
      rw [hdeliver]
      refine ⟨hchunks, fun hn => ?_, fun k _ hn stop' hs => ?_⟩
      · rw [flatten_cons, ← append_assoc] at hn
        rw [← hstep, findStop_none_of_append hne hn] at hfind
        cases hfind
      cases k with
      | zero =>
        rw [htake, take_zero, flatten_nil, append_nil] at hs ⊢
        rw [hstep, hfind] at hs
        cases hs
        refine ⟨_, ?_, hresp⟩
        rw [hseen', index_append (hok stop (findStop_eq_some hfind).1).1
          (hbefore stop (findStop_eq_some hfind).1), hi, Option.map_some]
      | succ k =>
        rw [htake] at hn
        rw [← hstep, findStop_none_of_append hne hn] at hfind
        cases hfind

def upToStop (stops : List Text) (text : Text) : Text :=
  match earliest stops text with
  | none => text
  | some i => text.take i

/-- What the client receives is the text up to the earliest stop string, in
valid chunks. -/
structure DeliversUpToStop (stops pieces : List Text) : Prop where
  exact : (delivered stops pieces).flatten = upToStop stops pieces.flatten
  noStop : ∀ stop ∈ stops, contains (delivered stops pieces).flatten stop = false
  chunks : ∀ chunk ∈ delivered stops pieces, validString chunk = true

/-- **The condition on stop strings and cut**: at the first piece that completes
a stop string, the first stop string of the list in the text so far stands where
the earliest stop string of the whole text does. -/
def FirstListedIsEarliest (stops pieces : List Text) : Prop :=
  ∀ k < pieces.length, findStop (pieces.take k).flatten stops = none →
    ∀ stop, findStop (pieces.take (k + 1)).flatten stops = some stop →
      index (pieces.take (k + 1)).flatten stop = earliest stops pieces.flatten

/-- A text up to the earliest stop string holds none. -/
theorem upToStop_noStop (hne : ∀ t ∈ stops, t ≠ []) (text : Text) :
    ∀ stop ∈ stops, contains (upToStop stops text) stop = false := by
  intro stop hstop
  refine Bool.eq_false_iff.mpr fun hc => ?_
  obtain ⟨j, hj⟩ := (contains_iff (hne stop hstop)).mp hc
  unfold upToStop at hj
  cases hearliest : earliest stops text with
  | none =>
    rw [hearliest] at hj
    exact (earliest_eq_none hne).mp hearliest j stop hstop hj
  | some i =>
    rw [hearliest] at hj
    have hend := hj.add_le (hne stop hstop)
    have hpos := length_pos_iff.mpr (hne stop hstop)
    have htext := hj.append (hne stop hstop) (text.drop i)
    simp only [take_append_drop] at htext
    rw [length_take] at hend
    exact ((earliest_eq_some hne).mp hearliest).2 j (by omega) stop hstop htext

/-- The first piece that completes a stop string. -/
theorem exists_first {stops pieces : List Text} (hne : ∀ t ∈ stops, t ≠ []) {stop : Text}
    (h : findStop pieces.flatten stops = some stop) :
    ∃ k < pieces.length, findStop (pieces.take k).flatten stops = none ∧
      ∃ stop', findStop (pieces.take (k + 1)).flatten stops = some stop' := by
  induction pieces using List.reverseRecOn generalizing stop with
  | nil =>
    have hnone : findStop [] stops = none :=
      (findStop_eq_none hne).mpr (Held.empty hne Valid.nil).pending
    rw [flatten_nil, hnone] at h
    cases h
  | append_singleton pieces piece ih =>
    have htake : ∀ k ≤ pieces.length, (pieces ++ [piece]).take k = pieces.take k :=
      fun k hk => take_append_of_le_length hk
    cases hfind : findStop pieces.flatten stops with
    | none =>
      refine ⟨pieces.length, by simp, ?_, stop, ?_⟩
      · rw [htake _ le_rfl, take_length]
        exact hfind
      · rw [take_of_length_le (by simp)]
        exact h
    | some stop' =>
      obtain ⟨k, hk, hnone, hsome⟩ := ih hfind
      refine ⟨k, by simp; omega, ?_, ?_⟩
      · rw [htake k hk.le]
        exact hnone
      · rw [htake (k + 1) hk]
        exact hsome

theorem take_inj {i j : ℕ} (hi : i ≤ s.length) (hj : j ≤ s.length) :
    s.take i = s.take j ↔ i = j := by
  constructor
  · intro h
    have := congrArg List.length h
    rw [length_take, length_take] at this
    omega
  · rintro rfl
    rfl

/-- **Stop strings are honoured exactly when** the stop string that is found
first stands earliest. -/
theorem delivers_upToStop_iff {stops pieces : List Text} (hstops : ∀ t ∈ stops, t ≠ [] ∧
    validString t = true) (htext : validString pieces.flatten = true) :
    DeliversUpToStop stops pieces ↔ FirstListedIsEarliest stops pieces := by
  have hok : ∀ t ∈ stops, t ≠ [] ∧ Valid t :=
    fun t ht => ⟨(hstops t ht).1, validString_iff.mp (hstops t ht).2⟩
  have hne : ∀ t ∈ stops, t ≠ [] := fun t ht => (hok t ht).1
  obtain ⟨hchunks, hnone, hsome⟩ := Held.deliver hok pieces _ []
    (Held.empty hne (validString_iff.mp htext)) rfl
  simp only [nil_append] at hnone hsome
  -- only the text received is in question
  have hiff : DeliversUpToStop stops pieces ↔
      (delivered stops pieces).flatten = upToStop stops pieces.flatten := by
    refine ⟨fun h => h.exact, fun h => ⟨h, fun stop hstop => ?_,
      fun c hc => validString_iff.mpr (hchunks c hc)⟩⟩
    rw [h]
    exact upToStop_noStop hne _ stop hstop
  rw [hiff]
  cases hfind : findStop pieces.flatten stops with
  | none =>
    have hearliest : earliest stops pieces.flatten = none :=
      (earliest_eq_none hne).mpr ((findStop_eq_none hne).mp hfind)
    refine iff_of_true ?_ fun k _ _ stop hs => ?_
    · rw [upToStop, hearliest]
      exact hnone hfind
    · rw [← take_append_drop (k + 1) pieces, flatten_append] at hfind
      rw [findStop_none_of_append hne hfind] at hs
      cases hs
  | some stop =>
    obtain ⟨k, hk, hbefore, stop', hstop'⟩ := exists_first hne hfind
    obtain ⟨i, hi, hresp⟩ := hsome k hk hbefore stop' hstop'
    obtain ⟨hmem, n, hn⟩ := findStop_eq_some hfind
    have hoccurs := ((index_eq_some (hne stop hmem)).mp hn).1
    obtain ⟨m, hm⟩ : ∃ m, earliest stops pieces.flatten = some m := by
      rw [← Option.ne_none_iff_exists']
      exact fun h => (earliest_eq_none hne).mp h n stop hmem hoccurs
    obtain ⟨⟨t, ht, hto⟩, _⟩ := (earliest_eq_some hne).mp hm
    have hmle := hto.add_le (hne t ht)
    have hile : i ≤ pieces.flatten.length := by
      have hmem' := (findStop_eq_some hstop').1
      have ho := ((index_eq_some (hne stop' hmem')).mp hi).1.append (hne stop' hmem')
        (pieces.drop (k + 1)).flatten
      rw [← flatten_append, take_append_drop] at ho
      have := ho.add_le (hne stop' hmem')
      omega
    rw [show (delivered stops pieces).flatten = pieces.flatten.take i from hresp, upToStop, hm,
      show (match some m with | none => pieces.flatten | some i => pieces.flatten.take i) =
        pieces.flatten.take m from rfl, take_inj hile (by omega)]
    constructor
    · rintro rfl k' hk' hbefore' stop'' hstop''
      -- the first piece that completes a stop string is unique
      have hkk : k' = k := by
        rcases Nat.lt_trichotomy k' k with hlt | heq | hlt
        · rw [← take_append_drop (k' + 1) (pieces.take k), flatten_append,
            take_take, Nat.min_eq_left hlt] at hbefore
          rw [findStop_none_of_append hne hbefore] at hstop''
          cases hstop''
        · exact heq
        · rw [← take_append_drop (k + 1) (pieces.take k'), flatten_append,
            take_take, Nat.min_eq_left hlt] at hbefore'
          rw [findStop_none_of_append hne hbefore'] at hstop'
          cases hstop'
      subst hkk
      rw [hstop'] at hstop''
      cases hstop''
      rw [hi, hm]
    · intro h
      have := h k hk hbefore stop' hstop'
      rw [hi, hm] at this
      exact Option.some.inj this

/-- The stop strings "b" and "a". -/
def stopsBA : List Text := [[98], [97]]

theorem stopsBA_ok : ∀ t ∈ stopsBA, t ≠ [] ∧ validString t = true := by decide +kernel

/-- The text "ab" read as "a" and "b" is cut before "a". -/
theorem delivers_upToStop_iff_single : (∀ t ∈ stopsBA, t ≠ [] ∧ validString t = true) ∧
    validString ([[97], [98]] : List Text).flatten = true ∧
    (DeliversUpToStop stopsBA [[97], [98]] ↔ FirstListedIsEarliest stopsBA [[97], [98]]) :=
  ⟨stopsBA_ok, by decide +kernel, delivers_upToStop_iff stopsBA_ok (by decide +kernel)⟩

/-! ## §5  A stop string of the list before an earlier one -/

/-- **A stop string is delivered.** The text "ab" in one piece, with the stop
strings "b" and "a": "b" is found first, and "a" is sent. -/
theorem delivers_stop_string : (∀ t ∈ stopsBA, t ≠ [] ∧ validString t = true) ∧
    validString ([[97, 98]] : List Text).flatten = true ∧
    ¬DeliversUpToStop stopsBA [[97, 98]] := by
  refine ⟨stopsBA_ok, by decide +kernel, fun h => ?_⟩
  have hnone := h.noStop [97] (by decide)
  exact absurd hnone (by decide)

end Ollama.Runner
