import Ollama.Lib.Transition
import Ollama.Runner.Delivery

/-!
# The cache after a stop string

The decode loop of `runner/ollamarunner/runner.go` for one sequence, with the numbers of inputs
that are queued, in a batch and in the cache slot: `forwardBatch`, the two sections of
`computeBatch`, and the shifts of the context between them.
-/

namespace Ollama.Runner.StopCache

open Lib List

/-! ## §1  The loop -/

/-- `Sequence`. `sampling` says that the first section of `computeBatch` has queued the
placeholder of a token that the second one has not filled in yet. -/
structure Sequence where
  numPromptInputs : ℕ
  numPredicted : ℕ
  inputs : ℕ
  pendingInputs : ℕ
  cacheInputs : ℕ
  reply : Reply
  sampling : Bool
  done : Option DoneReason

/-- A sequence whose slot has a beginning of the prompt. -/
def start (cached inputs : ℕ) : Sequence where
  numPromptInputs := cached + inputs
  numPredicted := 0
  inputs := inputs
  pendingInputs := 0
  cacheInputs := cached
  reply := .empty
  sampling := false
  done := none

/-- `ShiftCacheSlot`: inputs of the slot are discarded; where the cache cannot do so, the others
are queued again. -/
inductive Shift
  | none
  | discard (n : ℕ)
  | reprocess (discard : ℕ)

def Shift.apply (s : Sequence) : Shift → Sequence
  | .none => s
  | .discard n => { s with cacheInputs := s.cacheInputs - n }
  | .reprocess n => { s with cacheInputs := 0, inputs := (s.cacheInputs - n) + s.inputs }

def requeue (enabled : Bool) (s : Sequence) : Sequence :=
  if enabled then s else { s with inputs := s.cacheInputs + s.inputs, cacheInputs := 0 }

/-- `forwardBatch`, which puts `n` inputs into the batch. -/
def forward (enabled : Bool) (shift : Shift) (n : ℕ) (s : Sequence) : Option Sequence :=
  if s.pendingInputs = 0 then
    let s := shift.apply (requeue enabled s)
    if n ≤ s.inputs then some { s with inputs := s.inputs - n, pendingInputs := n } else none
  else none

/-- The first section of `computeBatch`. -/
def queueNext (s : Sequence) : Option Sequence :=
  if s.sampling then none
  else
    let s := { s with cacheInputs := s.cacheInputs + s.pendingInputs, pendingInputs := 0 }
    if s.inputs ≠ 0 then some s
    else some { s with numPredicted := s.numPredicted + 1, inputs := 1, sampling := true }

def tokenLen (s : Sequence) (pieces : List Text) (stop : Text) : ℤ :=
  let truncated := truncateStop pieces stop
  let tokenLen : ℤ := s.cacheInputs + 1
  let tokenLen := tokenLen - (pieces.length - truncated.1.length)
  if truncated.2 ∨ pieces.length = truncated.1.length then tokenLen - 1 else tokenLen

/-- The second section of `computeBatch`; `none` when the slot is cut at a negative length. -/
def decode (stops : List Text) (quit : Bool) (piece : Text) (s : Sequence) : Option Sequence :=
  if s.sampling then
    let pieces := s.reply.pendingResponses ++ [piece]
    let (reply, done) := s.reply.respond stops quit piece
    match findStop pieces.flatten stops with
    | some stop =>
        if 0 ≤ tokenLen s pieces stop then
          some { s with
            cacheInputs := (tokenLen s pieces stop).toNat
            reply := reply
            sampling := false
            done := done }
        else none
    | none => some { s with reply := reply, sampling := false, done := done }
  else none

inductive Event
  | forward (shift : Shift) (n : ℕ)
  | queueNext
  | decode (quit : Bool) (piece : Text)

def step (enabled : Bool) (stops : List Text) (s : Sequence) (event : Event) : Option Sequence :=
  if s.done = none then
    match event with
    | .forward shift n => forward enabled shift n s
    | .queueNext => queueNext s
    | .decode quit piece => decode stops quit piece s
  else none

/-- The runs of a sequence; a slot never has the whole prompt. -/
def system (enabled : Bool) (stops : List Text) : System Sequence Event where
  init s := ∃ cached inputs, 0 < inputs ∧ s = start cached inputs
  step s event s' := step enabled stops s event = some s'

/-- The inputs of the sequence that are not in its slot, the last token apart. -/
def missing (s : Sequence) : ℕ := s.numPromptInputs + s.numPredicted - 1 - s.cacheInputs

/-! ## §2  Pieces before a stop -/

/-- The number of pieces that begin before `i` and end there or before. -/
def endedBefore (i : ℕ) : ℕ → List Text → ℕ
  | _, [] => 0
  | start, piece :: pieces =>
      (if start < i ∧ start + piece.length ≤ i then 1 else 0) +
        endedBefore i (start + piece.length) pieces

theorem endedBefore_zero {i start : ℕ} (h : i ≤ start) (pieces : List Text) :
    endedBefore i start pieces = 0 := by
  induction pieces generalizing start with
  | nil => rfl
  | cons piece pieces ih =>
    rw [endedBefore, if_neg fun hlt => absurd hlt.1 (Nat.not_lt.mpr h),
      ih (Nat.le_add_right_of_le h)]

/-! ## §3  What `TruncateStop` returns -/

/-- Pieces and a mark of truncation for the text before `i`: whole pieces, and at the end a part
of one exactly where truncation is reported. -/
def WholeOrPart (pieces result : List Text) (truncated : Bool) : Prop :=
  if truncated then
    ∃ whole piece rest part, pieces = whole ++ piece :: rest ∧ result = whole ++ [part] ∧
      part ≠ [] ∧ part <+: piece ∧ part ≠ piece
  else result <+: pieces

theorem splitBack_end {joined : Text} (lengths : List ℕ) :
    splitBack joined joined.length lengths = ([], false) := by
  cases lengths with
  | nil => rfl
  | cons length lengths => rw [splitBack, if_pos (Nat.le_refl _)]

/-- The loop over the pieces of a text from `start` on. -/
theorem splitBack_spec {text : Text} {i : ℕ} (hi : i ≤ text.length) (pieces : List Text)
    {start : ℕ} (htext : text.drop start = pieces.flatten) :
    WholeOrPart pieces (splitBack (text.take i) start (pieces.map List.length)).1
        (splitBack (text.take i) start (pieces.map List.length)).2 ∧
      (splitBack (text.take i) start (pieces.map List.length)).1.length =
        endedBefore i start pieces +
          if (splitBack (text.take i) start (pieces.map List.length)).2 then 1 else 0 := by
  have hlen : (text.take i).length = i := by rw [length_take, Nat.min_eq_left hi]
  induction pieces generalizing start with
  | nil => exact ⟨prefix_refl _, rfl⟩
  | cons piece pieces ih =>
    rw [map_cons, splitBack, hlen]
    by_cases hstart : i ≤ start
    · rw [if_pos hstart]
      exact ⟨List.nil_prefix, (endedBefore_zero hstart _).symm⟩
    rw [if_neg hstart]
    have hpiece : piece <+: text.drop start := by
      rw [htext, flatten_cons]
      exact prefix_append _ _
    by_cases hcut : i < start + piece.length
    · -- the piece is cut
      rw [if_pos hcut]
      have hend := @splitBack_end (text.take i) (pieces.map List.length)
      rw [hlen] at hend
      rw [hend]
      have hpart : (text.take i).drop start = piece.take (i - start) := by
        rw [drop_take]
        obtain ⟨rest, hrest⟩ := hpiece
        rw [← hrest, take_append_of_le_length (by omega)]
      have hpartLen : (piece.take (i - start)).length = i - start := by
        rw [length_take, Nat.min_eq_left (by omega)]
      constructor
      · refine ⟨[], piece, pieces, (text.take i).drop start, rfl, rfl, ?_, ?_, ?_⟩
        · rw [hpart]
          apply ne_nil_of_length_pos
          omega
        · rw [hpart]
          exact List.take_prefix _ _
        · intro heq
          have := congrArg List.length heq
          rw [hpart] at this
          omega
      · rw [endedBefore, if_neg (by omega), endedBefore_zero (by omega)]
        rfl
    · -- the piece is whole
      rw [if_neg hcut]
      have hnext : text.drop (start + piece.length) = pieces.flatten := by
        rw [← drop_drop, htext, flatten_cons, drop_left]
      obtain ⟨hwhole, hcount⟩ := ih hnext
      have htake : ((text.take i).drop start).take piece.length = piece := by
        rw [drop_take, take_take, Nat.min_eq_left (by omega)]
        exact (prefix_iff_eq_take.mp hpiece).symm
      rw [htake]
      dsimp only
      constructor
      · unfold WholeOrPart at hwhole ⊢
        split
        · next htrunc =>
          rw [if_pos htrunc] at hwhole
          obtain ⟨whole, p, rest, part, rfl, hr, hpart⟩ := hwhole
          exact ⟨piece :: whole, p, rest, part, rfl, by rw [hr]; rfl, hpart⟩
        · next htrunc =>
          rw [if_neg htrunc] at hwhole
          exact (cons_prefix_cons ..).mpr ⟨rfl, hwhole⟩
      · have hended : start < i ∧ start + piece.length ≤ i := by omega
        rw [length_cons, hcount, endedBefore, if_pos hended]
        omega

/-- What `TruncateStop` returns for pieces in which the stop string stands first at `i`. -/
structure Truncated (pieces : List Text) (stop : Text) (i : ℕ) : Prop where
  first : index pieces.flatten stop = some i
  text : (truncateStop pieces stop).1.flatten = pieces.flatten.take i
  pieces : WholeOrPart pieces (truncateStop pieces stop).1 (truncateStop pieces stop).2

theorem truncateStop_spec {pieces : List Text} {stop : Text} {i : ℕ}
    (hi : index pieces.flatten stop = some i) (hstop : stop ≠ []) :
    Truncated pieces stop i ∧ i < pieces.flatten.length ∧ (truncateStop pieces stop).1.length =
        endedBefore i 0 pieces + if (truncateStop pieces stop).2 then 1 else 0 := by
  have hocc := ((index_eq_some hstop).mp hi).1
  have hend := hocc.add_le hstop
  have hpos := length_pos_iff.mpr hstop
  have hlt : i < pieces.flatten.length := by omega
  have hspec := @splitBack_spec pieces.flatten i hlt.le pieces 0 drop_zero
  have heq : truncateStop pieces stop =
      splitBack (pieces.flatten.take i) 0 (pieces.map List.length) := by
    unfold truncateStop
    rw [hi]
  rw [← heq] at hspec
  exact ⟨⟨hi, truncateStop_flatten hi, hspec.1⟩, hlt, hspec.2⟩

theorem endedBefore_le (i : ℕ) (pieces : List Text) (start : ℕ) :
    endedBefore i start pieces ≤ pieces.length := by
  induction pieces generalizing start with
  | nil => exact Nat.le_refl 0
  | cons piece pieces ih =>
    have := ih (start + piece.length)
    rw [endedBefore, length_cons]
    split <;> omega

/-- Not every piece ends before the stop. -/
theorem endedBefore_lt {i : ℕ} (pieces : List Text) {start : ℕ} (hle : start ≤ i)
    (h : i < start + pieces.flatten.length) : endedBefore i start pieces < pieces.length := by
  induction pieces generalizing start with
  | nil => exact absurd h (Nat.not_lt.mpr hle)
  | cons piece pieces ih =>
    rw [flatten_cons, length_append] at h
    rw [endedBefore, length_cons]
    by_cases hended : start < i ∧ start + piece.length ≤ i
    · have := ih hended.2 (by omega)
      rw [if_pos hended]
      omega
    · have := endedBefore_le i pieces (start + piece.length)
      rw [if_neg hended]
      omega

/-- The new length, with the pieces that are left counted. -/
theorem tokenLen_eq (s : Sequence) {pieces : List Text} {stop : Text} {i : ℕ}
    (hi : index pieces.flatten stop = some i) (hstop : stop ≠ []) :
    tokenLen s pieces stop = s.cacheInputs + 1 - pieces.length + endedBefore i 0 pieces := by
  obtain ⟨-, hlt, hcount⟩ := truncateStop_spec hi hstop
  have hless := endedBefore_lt pieces (Nat.zero_le i) (by rw [Nat.zero_add]; exact hlt)
  unfold tokenLen
  dsimp only
  cases htrunc : (truncateStop pieces stop).2 with
  | true =>
    rw [htrunc, if_pos rfl] at hcount
    rw [if_pos (.inl rfl)]
    omega
  | false =>
    rw [htrunc, if_neg Bool.false_ne_true] at hcount
    rw [if_neg (by rintro (h | h); cases h; omega)]
    omega

/-! ## §4  Runs -/

variable {enabled : Bool} {stops : List Text} {s s' : Sequence}

theorem respond_pending (stops : List Text) (quit : Bool) (r : Reply) (piece : Text)
    (hnone : findStop (r.pendingResponses ++ [piece]).flatten stops = none) :
    (r.respond stops quit piece).1.pendingResponses.length ≤ r.pendingResponses.length + 1 := by
  have hflush : ∀ r : Reply, (r.flushPending quit).1.pendingResponses = [] := by
    intro r
    unfold Reply.flushPending
    dsimp only
    split
    · rfl
    · split <;> rfl
  have hpending : (r.pendingResponses ++ [piece]).length ≤ r.pendingResponses.length + 1 := by
    rw [length_append, length_singleton]
  unfold Reply.respond
  dsimp only
  rw [hnone]
  dsimp only
  split
  · exact hpending
  split
  · exact hpending
  split
  · next r' h =>
    have := hflush ⟨r.pendingResponses ++ [piece], r.responses⟩
    rw [h] at this
    rw [this]
    exact Nat.zero_le _
  · rw [hflush]
    exact Nat.zero_le _

/-- The inputs of a sequence are in one place at most, and its pending pieces are tokens it has
generated. -/
structure Placed (s : Sequence) : Prop where
  inputs : s.inputs + s.pendingInputs + s.cacheInputs ≤ s.numPromptInputs + s.numPredicted
  next : s.sampling = true → 1 ≤ s.inputs + s.pendingInputs
  pending : s.reply.pendingResponses.length + s.sampling.toNat ≤ s.numPredicted

theorem placed_start (cached inputs : ℕ) : Placed (start cached inputs) where
  inputs := by
    show inputs + 0 + cached ≤ cached + inputs + 0
    omega
  next h := nomatch h
  pending := Nat.zero_le _

/-- What a shift does: inputs are discarded or queued again. -/
theorem shift_apply (shift : Shift) (enabled : Bool) (s : Sequence) : ∃ inputs cacheInputs,
      shift.apply (requeue enabled s) = { s with inputs := inputs, cacheInputs := cacheInputs } ∧
        s.inputs ≤ inputs ∧ inputs + cacheInputs ≤ s.inputs + s.cacheInputs := by
  have hrequeue : ∃ inputs cacheInputs,
      requeue enabled s = { s with inputs := inputs, cacheInputs := cacheInputs } ∧
        s.inputs ≤ inputs ∧ inputs + cacheInputs ≤ s.inputs + s.cacheInputs := by
    cases enabled with
    | true => exact ⟨s.inputs, s.cacheInputs, rfl, Nat.le_refl _, Nat.le_refl _⟩
    | false => exact ⟨s.cacheInputs + s.inputs, 0, rfl, by omega, by omega⟩
  obtain ⟨inputs, cacheInputs, heq, hle, hsum⟩ := hrequeue
  rw [heq]
  cases shift with
  | none => exact ⟨inputs, cacheInputs, rfl, hle, hsum⟩
  | discard n => exact ⟨inputs, cacheInputs - n, rfl, hle, by omega⟩
  | reprocess n => exact ⟨(cacheInputs - n) + inputs, 0, rfl, by omega, by omega⟩

theorem forward_some {shift : Shift} {n : ℕ} (h : forward enabled shift n s = some s') :
    s.pendingInputs = 0 ∧ n ≤ (shift.apply (requeue enabled s)).inputs ∧
      s' = { shift.apply (requeue enabled s) with
        inputs := (shift.apply (requeue enabled s)).inputs - n
        pendingInputs := n } := by
  unfold forward at h
  split at h
  · next hzero =>
    dsimp only at h
    split at h
    · next hle => exact ⟨hzero, hle, (Option.some.inj h).symm⟩
    · cases h
  · cases h

theorem Placed.forward {shift : Shift} {n : ℕ} (h : Placed s)
    (hs : StopCache.forward enabled shift n s = some s') : Placed s' := by
  obtain ⟨hinputs, hnext, hpending⟩ := h
  obtain ⟨hzero, hle, rfl⟩ := forward_some hs
  obtain ⟨inputs, cacheInputs, heq, hmore, hsum⟩ := shift_apply shift enabled s
  rw [heq] at hle ⊢
  dsimp only at hle ⊢
  constructor
  · dsimp only
    omega
  · intro hsampling
    have := hnext hsampling
    dsimp only
    omega
  · exact hpending

/-- What the first section does: the batch is in the slot, and after the last input of the queue
the next token is queued. -/
theorem queueNext_some (h : queueNext s = some s') : s.sampling = false ∧ ((s.inputs ≠ 0 ∧
      s' = { s with cacheInputs := s.cacheInputs + s.pendingInputs, pendingInputs := 0 }) ∨
    (s.inputs = 0 ∧ s' = { s with
        cacheInputs := s.cacheInputs + s.pendingInputs
        pendingInputs := 0
        numPredicted := s.numPredicted + 1
        inputs := 1
        sampling := true })) := by
  unfold queueNext at h
  split at h
  · cases h
  rename_i hsampling
  refine ⟨Bool.eq_false_iff.mpr hsampling, ?_⟩
  dsimp only at h
  split at h
  · next hinputs => exact .inl ⟨hinputs, (Option.some.inj h).symm⟩
  · next hinputs => exact .inr ⟨not_not.mp hinputs, (Option.some.inj h).symm⟩

theorem Placed.queueNext (h : Placed s) (hs : StopCache.queueNext s = some s') : Placed s' := by
  obtain ⟨hinputs, hnext, hpending⟩ := h
  obtain ⟨hsampling, ⟨-, rfl⟩ | ⟨hzero, rfl⟩⟩ := queueNext_some hs
  · constructor
    · dsimp only
      omega
    · intro hsampling'
      rw [hsampling] at hsampling'
      cases hsampling'
    · exact hpending
  · constructor
    · dsimp only
      omega
    · intro _
      exact Nat.le_refl 1
    · rw [hsampling] at hpending
      exact Nat.succ_le_succ hpending

/-- What the second section does without a stop string. -/
theorem decode_some {quit : Bool} {piece : Text} (h : decode stops quit piece s = some s') :
    s.sampling = true ∧ ((findStop (s.reply.pendingResponses ++ [piece]).flatten stops = none ∧ s' =
        { s with
          reply := (s.reply.respond stops quit piece).1
          sampling := false
          done := (s.reply.respond stops quit piece).2 }) ∨
      ∃ stop, findStop (s.reply.pendingResponses ++ [piece]).flatten stops = some stop ∧
        0 ≤ tokenLen s (s.reply.pendingResponses ++ [piece]) stop ∧ s' =
        { s with
          cacheInputs := (tokenLen s (s.reply.pendingResponses ++ [piece]) stop).toNat
          reply := (s.reply.respond stops quit piece).1
          sampling := false
          done := (s.reply.respond stops quit piece).2 }) := by
  unfold decode at h
  split at h
  · next hsampling =>
    refine ⟨hsampling, ?_⟩
    dsimp only at h
    cases hfind : findStop (s.reply.pendingResponses ++ [piece]).flatten stops with
    | none =>
      rw [hfind] at h
      exact .inl ⟨rfl, (Option.some.inj h).symm⟩
    | some stop =>
      rw [hfind] at h
      dsimp only at h
      split at h
      · next hpos => exact .inr ⟨stop, rfl, hpos, (Option.some.inj h).symm⟩
      · cases h
  · cases h

theorem respond_stop {quit : Bool} {r : Reply} {piece stop : Text}
    (h : findStop (r.pendingResponses ++ [piece]).flatten stops = some stop) :
    (r.respond stops quit piece).2 = some .stop := by
  unfold Reply.respond
  dsimp only
  rw [h]

/-- A sequence that goes on after a piece. -/
theorem Placed.decode {quit : Bool} {piece : Text} (h : Placed s)
    (hs : StopCache.decode stops quit piece s = some s') (hdone : s'.done = none) :
    Placed s' := by
  obtain ⟨hinputs, hnext, hpending⟩ := h
  obtain ⟨hsampling, ⟨hnone, rfl⟩ | ⟨stop, hfind, hpos, rfl⟩⟩ := decode_some hs
  · refine ⟨hinputs, fun h => (nomatch h), ?_⟩
    have hrespond := respond_pending stops quit s.reply piece hnone
    rw [hsampling] at hpending
    exact hrespond.trans hpending
  · rw [respond_stop hfind] at hdone
    cases hdone

theorem step_cases {event : Event} (h : step enabled stops s event = some s') : s.done = none ∧
    ((∃ shift n, event = .forward shift n ∧ forward enabled shift n s = some s') ∨
      (event = .queueNext ∧ queueNext s = some s') ∨
      ∃ quit piece, event = .decode quit piece ∧ decode stops quit piece s = some s') := by
  unfold step at h
  split at h
  · next hdone =>
    refine ⟨hdone, ?_⟩
    cases event with
    | forward shift n => exact .inl ⟨shift, n, rfl, h⟩
    | queueNext => exact .inr (.inl ⟨rfl, h⟩)
    | decode quit piece => exact .inr (.inr ⟨quit, piece, rfl, h⟩)
  · cases h

theorem placed_reachable (h : (system enabled stops).Reachable s) (hdone : s.done = none) :
    Placed s := by
  refine h.invariant (P := fun s => s.done = none → Placed s) ?_ ?_ hdone
  · rintro s ⟨cached, inputs, -, rfl⟩ -
    exact placed_start cached inputs
  · intro s event s' hplaced hstep hdone'
    obtain ⟨hdone, ⟨shift, n, rfl, hs⟩ | ⟨rfl, hs⟩ | ⟨quit, piece, rfl, hs⟩⟩ := step_cases hstep
    · exact (hplaced hdone).forward hs
    · exact (hplaced hdone).queueNext hs
    · exact (hplaced hdone).decode hs hdone'

/-- The context is not shifted. -/
def Unshifted : Event → Prop
  | .forward .none _ => True
  | .forward _ _ => False
  | _ => True

structure AllPlaced (s : Sequence) : Prop where
  inputs : s.inputs + s.pendingInputs + s.cacheInputs = s.numPromptInputs + s.numPredicted
  next : s.sampling = true → s.inputs + s.pendingInputs = 1

theorem allPlaced_reachable
    (h : ((system true stops).guard fun _ => Unshifted).Reachable s) (hdone : s.done = none) :
    AllPlaced s := by
  refine h.invariant (P := fun s => s.done = none → AllPlaced s) ?_ ?_ hdone
  · rintro s ⟨cached, inputs, -, rfl⟩ -
    refine ⟨?_, fun h => (nomatch h)⟩
    show inputs + 0 + cached = cached + inputs + 0
    omega
  rintro s event s' hplaced ⟨hunshifted, hstep⟩ hdone'
  obtain ⟨hdone, ⟨shift, n, rfl, hs⟩ | ⟨rfl, hs⟩ | ⟨quit, piece, rfl, hs⟩⟩ := step_cases hstep
  · obtain ⟨hinputs, hnext⟩ := hplaced hdone
    cases shift with
    | discard _ => exact absurd hunshifted id
    | reprocess _ => exact absurd hunshifted id
    | none =>
      obtain ⟨hzero, hle, rfl⟩ := forward_some hs
      have heq : Shift.none.apply (requeue true s) = s := rfl
      rw [heq] at hle ⊢
      constructor
      · dsimp only
        omega
      · intro hsampling
        have := hnext hsampling
        dsimp only
        omega
  · obtain ⟨hinputs, hnext⟩ := hplaced hdone
    obtain ⟨hsampling, ⟨-, rfl⟩ | ⟨hzero, rfl⟩⟩ := queueNext_some hs
    · constructor
      · dsimp only
        omega
      · intro hsampling'
        rw [hsampling] at hsampling'
        cases hsampling'
    · constructor
      · dsimp only
        omega
      · exact fun _ => rfl
  · obtain ⟨hinputs, -⟩ := hplaced hdone
    obtain ⟨-, ⟨-, rfl⟩ | ⟨stop, hfind, -, rfl⟩⟩ := decode_some hs
    · exact ⟨hinputs, fun h => (nomatch h)⟩
    · rw [respond_stop hfind] at hdone'
      cases hdone'

/-! ## §5  The length of the cache -/

/-- The tokens of earlier flushes, and the pending ones that begin before the stop and end there
or before. -/
def delivered (s : Sequence) (pieces : List Text) (i : ℕ) : ℕ :=
  s.numPredicted - pieces.length + endedBefore i 0 pieces

/-- The slot after a stop string: the prompt and the delivered tokens, less the inputs that it did
not have before. -/
structure Cut (s : Sequence) (pieces : List Text) (i : ℕ) (s' : Sequence) : Prop where
  length : s'.cacheInputs + missing s = s.numPromptInputs + delivered s pieces i
  le : s'.cacheInputs ≤ s.cacheInputs

/-- **The cache after a stop string.** What `TruncateStop` returns is the text before the stop in
its pieces; the slot is cut to the prompt and the delivered tokens, less what shifts have taken
out of it, and without shifts nothing is missing. -/
theorem decode_cut (h : (system enabled stops).Reachable s) (hdone : s.done = none)
    (hsampling : s.sampling = true) (quit : Bool) {piece stop : Text}
    (hfind : findStop (s.reply.pendingResponses ++ [piece]).flatten stops = some stop)
    (hstop : stop ≠ []) :
    ∃ i, Truncated (s.reply.pendingResponses ++ [piece]) stop i ∧
      (missing s ≤ s.numPromptInputs + delivered s (s.reply.pendingResponses ++ [piece]) i →
        ∃ s', decode stops quit piece s = some s' ∧
          Cut s (s.reply.pendingResponses ++ [piece]) i s') ∧
      (enabled = true → ((system enabled stops).guard fun _ => Unshifted).Reachable s →
        missing s = 0) := by
  obtain ⟨-, i, hi⟩ := findStop_eq_some hfind
  obtain ⟨htruncated, hlt, -⟩ := truncateStop_spec hi hstop
  have hless := endedBefore_lt _ (Nat.zero_le i) (by rw [Nat.zero_add]; exact hlt)
  have hlen := tokenLen_eq s hi hstop
  obtain ⟨hinputs, hnext, hpending⟩ := placed_reachable h hdone
  have hone := hnext hsampling
  rw [hsampling] at hpending
  have hpieces : (s.reply.pendingResponses ++ [piece]).length =
      s.reply.pendingResponses.length + 1 := by rw [length_append, length_singleton]
  have hpredicted : s.reply.pendingResponses.length + 1 ≤ s.numPredicted := hpending
  refine ⟨i, htruncated, ?_, ?_⟩
  · intro hmissing
    unfold missing delivered at hmissing
    have hpos : 0 ≤ tokenLen s (s.reply.pendingResponses ++ [piece]) stop := by omega
    unfold decode
    rw [if_pos hsampling]
    dsimp only
    rw [hfind]
    dsimp only
    rw [if_pos hpos]
    refine ⟨_, rfl, ?_, ?_⟩
    · unfold missing delivered
      dsimp only
      omega
    · dsimp only
      omega
  · rintro rfl hunshifted
    obtain ⟨hall, hexact⟩ := allPlaced_reachable hunshifted hdone
    have := hexact hsampling
    unfold missing
    omega

def runAll (enabled : Bool) (stops : List Text) (s : Sequence) (events : List Event) :
    Option Sequence :=
  events.foldlM (step enabled stops) s

theorem reachable_runAll {events : List Event} (h : (system enabled stops).Reachable s)
    (hrun : runAll enabled stops s events = some s') : (system enabled stops).Reachable s' := by
  induction events generalizing s with
  | nil =>
    obtain rfl := Option.some.inj hrun
    exact h
  | cons event events ih =>
    obtain ⟨next, hstep, hrest⟩ := Option.bind_eq_some_iff.mp hrun
    exact ih (h.step hstep) hrest

def heldBack : List Event :=
  [.forward .none 1, .queueNext, .decode false [0x61],
    .forward .none 1, .queueNext, .decode false [],
    .forward .none 1, .queueNext]

def heldState : Sequence := (runAll true [[0x61, 0x61, 0x62]] (start 0 1) heldBack).getD (start 0 1)

theorem reachable_heldState : (system true [[0x61, 0x61, 0x62]]).Reachable heldState := by
  have hstart : (system true [[0x61, 0x61, 0x62]]).Reachable (start 0 1) :=
    .init ⟨0, 1, Nat.one_pos, rfl⟩
  have hsome : (runAll true [[0x61, 0x61, 0x62]] (start 0 1) heldBack).isSome = true := by
    decide +kernel
  obtain ⟨s, hs⟩ := Option.isSome_iff_exists.mp hsome
  have heq : heldState = s := by rw [heldState, hs, Option.getD_some]
  rw [heq]
  exact reachable_runAll hstart hs

theorem decode_cut_heldBack :
    ∃ i, Truncated (heldState.reply.pendingResponses ++ [[0x61, 0x61, 0x62]]) [0x61, 0x61, 0x62] i ∧
      (missing heldState ≤ heldState.numPromptInputs +
          delivered heldState (heldState.reply.pendingResponses ++ [[0x61, 0x61, 0x62]]) i →
        ∃ s', decode [[0x61, 0x61, 0x62]] false [0x61, 0x61, 0x62] heldState = some s' ∧
          Cut heldState (heldState.reply.pendingResponses ++ [[0x61, 0x61, 0x62]]) i s') ∧
      (true = true →
        ((system true [[0x61, 0x61, 0x62]]).guard fun _ => Unshifted).Reachable heldState →
        missing heldState = 0) :=
  decode_cut reachable_heldState (by decide +kernel) (by decide +kernel) false (by decide +kernel)
    (by decide)

/-- The number of pieces all of whose text lies before `i`. -/
def textBefore (i : ℕ) : ℕ → List Text → ℕ
  | _, [] => 0
  | start, piece :: pieces =>
      (if start + piece.length ≤ i then 1 else 0) + textBefore i (start + piece.length) pieces

/-- A piece without text at the place of the stop is not counted. -/
theorem cut_emptyPiece :
    let pieces := heldState.reply.pendingResponses ++ [[0x61, 0x61, 0x62]]
    (system true [[0x61, 0x61, 0x62]]).Reachable heldState ∧ missing heldState = 0 ∧
      index pieces.flatten [0x61, 0x61, 0x62] = some 1 ∧
      (decode [[0x61, 0x61, 0x62]] false [0x61, 0x61, 0x62] heldState).map Sequence.cacheInputs =
        some 2 ∧
      heldState.numPromptInputs +
        (heldState.numPredicted - pieces.length + textBefore 1 0 pieces) = 3 := by
  refine ⟨reachable_heldState, by decide +kernel, by decide +kernel, by decide +kernel,
    by decide +kernel⟩

end Ollama.Runner.StopCache
