import Ollama.LlamaRunner.Runs

/-!
# Resuming a windowed cache

The window cache of a sliding-window model forgets what lies outside the
window, and nothing tells the runner.
-/

namespace Ollama.LlamaRunner

open Lib List

/-! ## §1  Complete streams -/

def Stream.Complete (w : Window) (s : Stream) : Prop :=
  ∀ c ∈ s.full, w.masked c.1 s.full.length = false → c ∈ s.swa

theorem Stream.complete_empty (w : Window) : Stream.Complete w {} := fun _ hc => by cases hc

variable {w : Window}

theorem Window.masked_mono {p p' q q' : Int} (h : w.masked p q = true) (hp : p' ≤ p)
    (hpq : p ≤ q) (hq : q ≤ q') : w.masked p' q' = true :=
  isMaskedSwa_mono h hp hpq hq

variable {S : List Input}

theorem Holds.length {s : Stream} (h : Holds s S) : s.full.length = S.length := by
  rw [h.full, stored_length]

/-- What is purged was outside the window already. -/
theorem Stream.Complete.purge {s : Stream} (h : s.Complete w)
    (hs : Holds s S) (evict : Int) : (s.purge w.masked evict).Complete w := by
  unfold Stream.purge
  split
  · next hevict =>
    obtain ⟨-, hle, hmasked⟩ := hevict
    intro c hc hview
    change w.masked c.1 s.full.length = false at hview
    refine mem_filter.mpr ⟨h c hc hview, decide_eq_true ?_⟩
    by_contra hlow
    have hmax : seqPosMax s.swa ≤ (S.length : Int) - 1 := by
      apply seqPosMax_le (by omega)
      intro c' hc'
      have := pos_of_mem_stored (hs.swa c' hc')
      omega
    have hout : w.masked c.1 s.full.length = true := by
      apply Window.masked_mono hmasked (by omega) (by omega)
      rw [hs.length]
      omega
    rw [hout] at hview
    cases hview
  · exact h

/-- A position inside the next window is inside this one. -/
theorem Stream.Complete.store {s : Stream} (h : s.Complete w)
    (hs : Holds s S) (x : Input) : (s.store true ((S.length : Int), x)).Complete w := by
  intro c hc hview
  change c ∈ s.full ++ [((S.length : Int), x)] at hc
  show c ∈ s.swa ++ [((S.length : Int), x)]
  rcases mem_append.mp hc with hc | hc
  · apply mem_append_left
    apply h c hc
    change w.masked c.1 (s.full ++ [((S.length : Int), x)]).length = false at hview
    by_contra hmasked
    have hpos := pos_of_mem_stored (hs.full ▸ hc)
    have hlater : w.masked c.1 (s.full ++ [((S.length : Int), x)]).length = true := by
      apply Window.masked_mono (by simpa using hmasked) (Int.le_refl _)
      · rw [hs.length]
        omega
      · rw [length_append]
        push_cast
        omega
    rw [hlater] at hview
    cases hview
  · exact mem_append_right _ hc

theorem complete_keeps (hw : w.windowed = true) : StreamKeeps w (Stream.Complete w) := by
  constructor
  · exact fun s S evict hs h => h.purge hs evict
  · intro s S x hs h
    rw [hw]
    exact h.store hs x

/-! ## §2  Shifting a window -/

/-- Where `seq_add` moves a cell. -/
def moveCell (p0 p1 shift : Int) (c : Cell) : Cell :=
  if max p0 0 ≤ c.1 ∧ (p1 < 0 ∨ c.1 < p1) then (c.1 + shift, c.2) else c

theorem addCells_eq_map (p0 p1 shift : Int) (cells : List Cell) :
    addCells p0 p1 shift cells = cells.map (moveCell p0 p1 shift) := by
  unfold addCells
  split
  · next hnone =>
    have hid : ∀ c : Cell, moveCell p0 p1 shift c = c := by
      intro c
      unfold moveCell
      split
      · next hmoved =>
        rcases hnone with rfl | hempty
        · exact Prod.ext (Int.add_zero _) rfl
        · omega
      · rfl
    rw [map_congr_left fun c _ => hid c, map_id']
  · rfl

/-- The inputs that a shift would keep and move into the window of the next
position are in the window cache. -/
def ShiftKept (P : Params) (s : Stream) (numKeep : Nat) : Prop :=
  let len : Int := s.full.length
  let discard : Int := (shiftDiscard P len numKeep).toNat
  ∀ c ∈ s.full, (c.1 < numKeep ∧ P.window.masked c.1 (len - discard) = false) ∨
      (numKeep + discard ≤ c.1 ∧ P.window.masked (c.1 - discard) (len - discard) = false) →
    c ∈ s.swa

variable {P : Params} {mem mem' : Memory} {id numKeep : Nat} {inputs inputs' : List Input}

/-- How a shift of a full slot ends when it is not refused. -/
theorem shifted_spec {refused : Bool} (hid : id < mem.length)
    (hholds : Holds (streamOf mem id) inputs) (hkeep : numKeep < P.numCtx)
    (hfull : inputs.length = P.numCtx)
    (hres : shiftCacheSlot P mem id inputs numKeep refused = .shifted mem' inputs') :
    P.canShift = true ∧ ∃ discard, 0 < discard ∧ numKeep + discard ≤ inputs.length ∧
      discard = (shiftDiscard P inputs.length numKeep).toNat ∧
      inputs' = inputs.take numKeep ++ inputs.drop (numKeep + discard) ∧
      streamOf mem' id =
        { full := stored (inputs.take numKeep ++ inputs.drop (numKeep + discard)),
          swa := addCells (numKeep + discard : Nat) inputs.length (-(discard : Int))
            (rmCells numKeep (numKeep + discard : Nat) (streamOf mem id).swa) } := by
  have hspec := @shiftCacheSlot_spec mem inputs P refused id numKeep hid hholds hkeep hfull
  obtain ⟨discard, hpos, hle, hdef, ⟨mem₁, hres₁, -, -, hcan, hstream⟩ | ⟨mem₁, hres₁, -⟩⟩ :=
    hspec
  · rw [hres] at hres₁
    injection hres₁ with hmem hinputs
    subst hmem
    exact ⟨hcan, discard, hpos, hle, hdef, hinputs, hstream⟩
  · rw [hres] at hres₁
    cases hres₁

theorem reprocess_spec {refused : Bool} (hid : id < mem.length)
    (hholds : Holds (streamOf mem id) inputs) (hkeep : numKeep < P.numCtx)
    (hfull : inputs.length = P.numCtx)
    (hres : shiftCacheSlot P mem id inputs numKeep refused = .reprocess mem' inputs') :
    streamOf mem' id = {} := by
  have hspec := @shiftCacheSlot_spec mem inputs P refused id numKeep hid hholds hkeep hfull
  obtain ⟨discard, -, -, -, ⟨mem₁, hres₁, -⟩ | ⟨mem₁, hres₁, -, -, hempty⟩⟩ := hspec
  · rw [hres] at hres₁
    cases hres₁
  · rw [hres] at hres₁
    injection hres₁ with hmem
    subst hmem
    exact hempty

/-- **A shifted window is complete** if it kept what moves into it. -/
theorem complete_shifted {refused : Bool} (hid : id < mem.length)
    (hholds : Holds (streamOf mem id) inputs) (hkeep : numKeep < P.numCtx)
    (hfull : inputs.length = P.numCtx)
    (hres : shiftCacheSlot P mem id inputs numKeep refused = .shifted mem' inputs')
    (hkept : ShiftKept P (streamOf mem id) numKeep) :
    (streamOf mem' id).Complete P.window := by
  obtain ⟨-, discard, hpos, hle, hdef, -, hstream⟩ := shifted_spec hid hholds hkeep hfull hres
  intro c hc hview
  rw [hstream] at hc hview ⊢
  have hlen : (stored (inputs.take numKeep ++ inputs.drop (numKeep + discard))).length =
      inputs.length - discard := by
    rw [stored_length, length_append, length_take, length_drop]
    omega
  change P.window.masked c.1
    (stored (inputs.take numKeep ++ inputs.drop (numKeep + discard))).length = false at hview
  change c ∈ stored (inputs.take numKeep ++ inputs.drop (numKeep + discard)) at hc
  show c ∈ addCells _ _ _ (rmCells _ _ (streamOf mem id).swa)
  rw [hlen, Int.ofNat_sub (by omega)] at hview
  rw [← addCells_rmCells inputs hpos hle, addCells_eq_map] at hc
  rw [addCells_eq_map]
  -- the cell it was moved from
  obtain ⟨c', hc', rfl⟩ := mem_map.mp hc
  obtain ⟨hstored, hleft⟩ := mem_filter.mp hc'
  refine mem_map_of_mem (mem_filter.mpr ⟨?_, hleft⟩)
  have hbound := pos_of_mem_stored hstored
  have hside : c'.1 < numKeep ∨ (numKeep : Int) + discard ≤ c'.1 := by
    simp only [Bool.not_eq_true', Bool.and_eq_false_iff, Bool.or_eq_false_iff,
      decide_eq_false_iff_not] at hleft
    omega
  unfold ShiftKept at hkept
  dsimp only at hkept
  rw [hholds.length, ← hdef] at hkept
  apply hkept c' (hholds.full ▸ hstored)
  unfold moveCell at hview
  rcases hside with hlow | hhigh
  · rw [if_neg (by omega)] at hview
    exact Or.inl ⟨hlow, hview⟩
  · rw [if_pos (by omega)] at hview
    exact Or.inr ⟨hhigh, hview⟩

/-! ## §3  Filling and decoding a batch -/

/-- The inner loop: the window is complete, and was for every token decoded
before; a shift would leave it so. -/
structure FillingWindow (P : Params) (id : Nat) (f : Filling) : Prop where
  stream : (streamOf f.mem id).Complete P.window
  decoded : ∀ d ∈ f.seq.decoded, d.stream.Complete P.window
  shift : P.canShift = true → f.seq.shift = true → f.inputs.length = P.numCtx →
    ShiftKept P (streamOf f.mem id) f.seq.numKeep

/-- Putting an input into a batch changes neither the cache nor its slot. -/
theorem Filling.add_frame {seqIdx i : Nat} {input : Input} {f f' : Filling}
    {stop : Bool} (h : f.add P seqIdx i input = (f', stop)) :
    f'.mem = f.mem ∧ f'.inputs = f.inputs ∧ f'.seq.decoded = f.seq.decoded ∧
      f'.seq.shift = f.seq.shift ∧ f'.seq.numKeep = f.seq.numKeep := by
  unfold Filling.add at h
  dsimp only at h
  generalize f.batch.getD (if input.isEmbed then embedBatch P else tokenBatch P) = batch at h
  split at h
  · injection h with hf
    subst hf
    exact ⟨rfl, rfl, rfl, rfl, rfl⟩
  split at h
  · injection h with hf
    subst hf
    exact ⟨rfl, rfl, rfl, rfl, rfl⟩
  · injection h with hf
    subst hf
    exact ⟨rfl, rfl, rfl, rfl, rfl⟩

theorem fillingWindow_keeps {id : Nat} {b₀ : Option Batch} {mem₀ : Memory}
    (hid : id < mem₀.length) (refused : Bool) :
    FillingKeeps P id b₀ mem₀ refused (FillingWindow P id) := by
  constructor
  · intro f f' seqIdx i input stop hadd h
    obtain ⟨hmem, hinputs, hdecoded, hshift, hkeep⟩ := Filling.add_frame hadd
    refine ⟨by rw [hmem]; exact h.stream, by rw [hdecoded]; exact h.decoded, ?_⟩
    rw [hmem, hinputs, hshift, hkeep]
    exact h.shift
  · intro f mem inputs hf hfull hres hshift h
    have hlen : id < f.mem.length := by
      rw [hf.length]
      exact hid
    rw [hf.cache] at hres
    obtain ⟨hcan, discard, hpos, hle, -, hinputs, -⟩ :=
      shifted_spec hlen hf.holds hf.numKeep hfull hres
    have hcomplete :=
      complete_shifted hlen hf.holds hf.numKeep hfull hres (h.shift hcan hshift hfull)
    refine ⟨hcomplete, h.decoded, ?_⟩
    -- a second shift is not reached
    intro _ _ hlong
    change inputs.length = P.numCtx at hlong
    rw [hinputs, length_append, length_take, length_drop] at hlong
    omega
  · intro f mem inputs hf hfull hres h
    have hlen : id < f.mem.length := by
      rw [hf.length]
      exact hid
    rw [hf.cache] at hres
    refine ⟨?_, (fun d hd => by cases hd), ?_⟩
    · show (streamOf mem id).Complete P.window
      rw [reprocess_spec hlen hf.holds hf.numKeep hfull hres]
      exact Stream.complete_empty _
    · intro _ _ hzero
      have hpos := P.numCtx_pos
      change 0 = P.numCtx at hzero
      omega
  · exact fun f h => ⟨h.stream, h.decoded, h.shift⟩

/-- What a running sequence needs for its window to stay complete while a batch
is filled: a shift that is due keeps what moves into the window. -/
def Sequence.ShiftsWhole (P : Params) (s : Stream) (q : Sequence) : Prop :=
  P.canShift = true → ¬ (0 < q.numPredict ∧ q.numPredict ≤ q.numPredicted) → q.shift = true →
    s.full.length = P.numCtx → ShiftKept P s q.numKeep

/-- The outer loop: every running sequence has a complete window, and those
still to be visited keep it. -/
def FillWindow (P : Params) (todo : List Nat) (f : Fill) : Prop :=
  ∀ (j : Nat) q, f.seqs[j]? = some (some q) → (streamOf f.mem q.cache).Complete P.window ∧
    (∀ d ∈ q.decoded, d.stream.Complete P.window) ∧
    (j ∈ todo → q.ShiftsWhole P (streamOf f.mem q.cache))

variable {todo : List Nat} {f : Fill}

theorem FillWindow.visited {j : Nat} (h : FillWindow P (j :: todo) f) : FillWindow P todo f := by
  intro k q hq
  obtain ⟨hstream, hdecoded, hshift⟩ := h k q hq
  exact ⟨hstream, hdecoded, fun hk => hshift (mem_cons_of_mem _ hk)⟩

theorem FillWindow.remove (h : FillWindow P todo f) (slots : List InputCacheSlot) (j : Nat) :
    FillWindow P todo { f with slots, seqs := f.seqs.set j none } := by
  intro k q hq
  rcases getElem?_set_cases hq with ⟨-, hq⟩ | ⟨-, hq⟩
  · cases hq
  · exact h k q hq

theorem FillWindow.write {visited j : Nat}
    {q : Sequence} {r : Filling} (h : FillInv P f (j :: todo) visited) (hj : j ∉ todo)
    (hq : f.seqs[j]? = some (some q)) (hres : FillingInv P q.cache f.batch f.mem r)
    (hr : FillingWindow P q.cache r) (hw : FillWindow P (j :: todo) f) :
    FillWindow P todo (f.write j q.cache r) := by
  intro k q' hq'
  rcases getElem?_set_cases hq' with ⟨hkj, hq'⟩ | ⟨hkj, hq'⟩
  · injection hq' with hq'
    subst hq'
    show (streamOf r.mem r.seq.cache).Complete P.window ∧ _
    rw [hres.cache]
    exact ⟨hr.stream, hr.decoded, fun hk => absurd (hkj ▸ hk) hj⟩
  · have hne : q'.cache ≠ q.cache := fun heq => hkj (h.distinct k j q' q hq' hq heq)
    obtain ⟨hstream, hdecoded, hshift⟩ := hw k q' hq'
    show (streamOf r.mem q'.cache).Complete P.window ∧ _ ∧
      (k ∈ todo → q'.ShiftsWhole P (streamOf r.mem q'.cache))
    rw [hres.others _ hne]
    exact ⟨hstream, hdecoded, fun hk => hshift (mem_cons_of_mem _ hk)⟩

variable {refused : Nat → Bool}

/-- **The outer loop keeps the windows complete.** -/
theorem FillWindow.fillSeq {f f' : Fill}
    {visited j : Nat} (h : FillInv P f (j :: todo) visited) (hj : j ∉ todo)
    (hrun : fillSeq P refused f j = some f') (hw : FillWindow P (j :: todo) f) :
    FillWindow P todo f' := by
  unfold LlamaRunner.fillSeq at hrun
  split at hrun
  · next q hq =>
    split at hrun
    · injection hrun with hrun
      subst hrun
      exact hw.visited.remove _ j
    rename_i hgoes
    split at hrun
    · cases hrun
    rename_i slot hslot
    have hpend := h.fresh j q hq mem_cons_self
    have hid : q.cache < f.mem.length := by
      rw [h.slots.length]
      exact (List.getElem?_eq_some_iff.mp hslot).1
    split at hrun
    · cases hrun
    rename_i r hr
    have hbegin := h.filling hq hslot
    obtain ⟨hstream, hdecoded, hshift⟩ := hw j q hq
    have hwindow : FillingWindow P q.cache
        { inputs := slot.inputs, mem := f.mem, seq := q, batch := f.batch,
          nextSeq := f.nextSeq, numOutputs := f.numOutputs } := by
      refine ⟨hstream, hdecoded, fun hcan hsh hfull => ?_⟩
      apply hshift mem_cons_self hcan hgoes hsh
      rw [hbegin.holds.length]
      exact hfull
    obtain ⟨hres, hend⟩ := FillingInv.fillInputs_keeps (fillingWindow_keeps hid (refused j))
      hid q.inputs hbegin hwindow rfl (Or.inr ⟨by rw [hpend]; rfl, by rw [hpend]; rfl⟩) hr
    have hwritten := FillWindow.write h hj hq hres hend hw
    dsimp only at hrun
    split at hrun
    · injection hrun with hrun
      subst hrun
      exact hwritten.remove _ j
    · injection hrun with hrun
      exact hrun ▸ hwritten
  · injection hrun with hrun
    exact hrun ▸ hw.visited

/-- Every running sequence has a complete window, and had one for every token
decoded. -/
def WindowInv (P : Params) (s : State) : Prop :=
  ∀ (j : Nat) q, s.seqs[j]? = some (some q) →
    (streamOf s.mem q.cache).Complete P.window ∧ ∀ d ∈ q.decoded, d.stream.Complete P.window

variable {s s' : State}

/-- What `processBatch` comes to up to the results. -/
theorem decodeBatch_cases {evict : Nat → Int} (h : decodeBatch P refused evict s = some s') :
    ∃ f, fillBatch P refused s = some f ∧ ((s'.mem = f.mem ∧ s'.seqs = f.seqs) ∨
        ∃ b, f.batch = some b ∧ s'.mem = (decode P.window evict 0 f.mem b.entries).1 ∧
          s'.seqs = f.seqs.map
            (Option.map (Sequence.afterDecode (decode P.window evict 0 f.mem b.entries).2))) := by
  unfold decodeBatch at h
  split at h
  · cases h
  rename_i f hfill
  refine ⟨f, hfill, ?_⟩
  dsimp only at h
  split at h
  · injection h with h
    subst h
    exact Or.inl ⟨rfl, rfl⟩
  rename_i b hb
  split at h
  · injection h with h
    subst h
    exact Or.inl ⟨rfl, rfl⟩
  · injection h with h
    subst h
    exact Or.inr ⟨b, hb, rfl, rfl⟩

/-- **Filling and decoding a batch keeps the windows complete**, if the shifts
that are due keep what moves into them. -/
theorem WindowInv.decodeBatch {evict : Nat → Int}
    (h : WindowInv P s) (hw : P.window.windowed = true) (hinv : Inv P s)
    (hshift : ∀ (j : Nat) q, s.seqs[j]? = some (some q) → q.ShiftsWhole P (streamOf s.mem q.cache))
    (hrun : decodeBatch P refused evict s = some s') : WindowInv P s' := by
  obtain ⟨f, hfill, hcases⟩ := decodeBatch_cases hrun
  have hbegin : FillWindow P (order s.nextSeq s.seqs.length)
      { slots := s.slots, mem := s.mem, seqs := s.seqs, nextSeq := s.nextSeq } :=
    fun j q hq => ⟨(h j q hq).1, (h j q hq).2, fun _ => hshift j q hq⟩
  obtain ⟨hf, hfw⟩ := FillInv.foldlM_keeps FillWindow.fillSeq _ (hinv.fillInv _) hbegin
    (order_nodup _ _) hfill
  rcases hcases with ⟨hmem, hseqs⟩ | ⟨b, hb, hmem, hseqs⟩
  · intro j q hq
    rw [hseqs] at hq
    rw [hmem]
    exact ⟨(hfw j q hq).1, (hfw j q hq).2.1⟩
  intro j q hq
  rw [hseqs, getElem?_map] at hq
  obtain ⟨o, ho, heq⟩ := Option.map_eq_some_iff.mp hq
  obtain ⟨q₀, rfl, rfl⟩ := Option.map_eq_some_iff.mp heq
  obtain ⟨slot, hslot, hseq⟩ := hf.seqs j q₀ ho
  have hid : q₀.cache < f.mem.length := by
    rw [hf.slots.length]
    exact (List.getElem?_eq_some_iff.mp hslot).1
  have hplaced := hseq.placed
  rw [hb] at hplaced
  obtain ⟨-, hstream, -, hall⟩ := decode_spec (complete_keeps hw) evict b.entries 0 f.mem
    slot.inputs q₀.pendingInputs hid hseq.holds (hfw j q₀ ho).1 hplaced
  rw [hmem]
  refine ⟨hstream, ?_⟩
  intro d hd
  rcases mem_append.mp hd with hd | hd
  · exact (hfw j q₀ ho).2.1 d hd
  · exact (hall d hd).2

/-! ## §4  Reusing a prefix -/

/-- The first of the free slots with the longest common prefix, of `n` inputs. -/
structure LongestFreeSlot (slots : List InputCacheSlot) (prompt : List Input) (i n : Nat) :
    Prop where
  found : ∃ slot, slots[i]? = some slot ∧ slot.inUse = false ∧
    countCommonPrefix slot.inputs prompt = n
  longest : ∀ (j : Nat) slot, slots[j]? = some slot → slot.inUse = false →
    countCommonPrefix slot.inputs prompt ≤ n
  first : ∀ j < i, ∀ slot, slots[j]? = some slot → slot.inUse = false →
    countCommonPrefix slot.inputs prompt < n

/-- The slot whose inputs a request reuses, and how many they have in common:
under the multi-user policy it may be in use. -/
def Reuses (P : Params) (slots : List InputCacheSlot) (prompt : List Input) (i n : Nat) : Prop :=
  if P.multiUserCache then LongestSlot slots prompt i n else LongestFreeSlot slots prompt i n

variable {slots : List InputCacheSlot} {prompt : List Input}

theorem longestFreeSlot_of_scan {i : Nat}
    (h : (FirstMax.scan (freeKey prompt) (-1) slots).2 = some i) :
    ∃ n : Nat, (FirstMax.scan (freeKey prompt) (-1) slots).1 = (n : Int) ∧
      LongestFreeSlot slots prompt i n := by
  obtain ⟨habove, -, hsome⟩ := FirstMax.scan_isFirstMax (freeKey prompt) (-1) slots
  obtain ⟨-, ⟨slot, hslot, hkey⟩, hfirst⟩ := hsome i h
  obtain ⟨hfree, hcount⟩ := free_of_key hkey
  injection hcount with hcount
  have hkeyOf : ∀ other : InputCacheSlot, other.inUse = false →
      freeKey prompt other = some (countCommonPrefix other.inputs prompt : Int) := by
    intro other hother
    unfold freeKey
    rw [hother]
    rfl
  refine ⟨countCommonPrefix slot.inputs prompt, hcount.symm, ⟨slot, hslot, hfree, rfl⟩, ?_, ?_⟩
  · intro j other hother hofree
    have := habove j other _ hother (hkeyOf other hofree)
    omega
  · intro j hj other hother hofree
    have := hfirst j hj other _ hother (hkeyOf other hofree)
    omega

/-- What a search settles on is reused from the slot with the longest prefix. -/
theorem choose_reuses {now : Int} {c : Choice} (h : choose P slots prompt now = .ok c) :
    ∃ n : Nat, c.numPast = n ∧ (n = 0 ∨ Reuses P slots prompt c.src n) := by
  unfold choose at h
  unfold Reuses
  split at h
  · next hmulti =>
    simp only [if_pos hmulti]
    unfold findBestCacheSlot at h
    rw [foldl_bestStep] at h
    dsimp only at h
    split at h
    · cases h
    rename_i i longestSlot hi
    obtain ⟨hscan, -⟩ := bind_getElem? hi
    obtain ⟨n, hn, hlongest⟩ := longestSlot_of_scan hscan
    rw [hn] at h
    split at h
    · injection h with h
      subst h
      exact ⟨n, rfl, Or.inr hlongest⟩
    split at h
    · cases h
    rename_i k oldestSlot hk
    split at h
    · cases h
    injection h with h
    subst h
    refine ⟨n, rfl, ?_⟩
    rcases Nat.eq_zero_or_pos n with hzero | hpos
    · exact Or.inl hzero
    right
    dsimp only
    split
    · exact hlongest
    · next hsame =>
      have hik : i = k := by
        by_contra hne
        exact hsame ⟨by omega, hne⟩
      exact hik ▸ hlongest
  · next hsingle =>
    simp only [if_neg hsingle]
    unfold findLongestCacheSlot at h
    rw [longestStep_eq] at h
    dsimp only at h
    split at h
    · cases h
    · next i hi =>
      injection h with h
      subst h
      obtain ⟨n, hn, hlongest⟩ := longestFreeSlot_of_scan hi
      exact ⟨n, hn, Or.inr hlongest⟩

/-- The window of the position that a request would resume at is in the window
cache of the slot it reuses. -/
def ReuseKept (P : Params) (s : State) (prompt : List Input) (cachePrompt : Bool) : Prop :=
  ∀ i m, Reuses P s.slots prompt i m →
    let n := (keptInputs cachePrompt prompt m).toNat
    ∀ c ∈ stored (prompt.take n), P.window.masked c.1 n = false → c ∈ (streamOf s.mem i).swa

/-- **What `LoadCacheSlot` hands out has a complete window**, if the window was
still there. -/
theorem complete_loaded {s : State} {mem : Memory}
    {prompt rest : List Input} {cachePrompt refused : Bool} {nowSearch now : Int} {i : Nat}
    (hs : SlotsHold s.slots s.mem) (hne : prompt ≠ []) (hkept : ReuseKept P s prompt cachePrompt)
    (h : loadCacheSlot P s.slots s.mem prompt cachePrompt refused nowSearch now =
      .ok (slots, mem, i, rest)) :
    (streamOf mem i).Complete P.window := by
  obtain ⟨c, n, hchoose, -, -, hloads⟩ := loadCacheSlot_spec hs hne h
  have hfull := hloads.holds.full
  have hlen : (streamOf mem i).full.length = n := by
    rw [hloads.holds.length, length_take]
    exact Nat.min_eq_left (Nat.le_of_lt hloads.lt)
  intro cell hcell hview
  rw [hlen] at hview
  rw [hfull] at hcell
  have hpos := pos_of_mem_stored hcell
  rcases hloads.swa with rfl | ⟨hn, hswa⟩
  · exact absurd hpos.2 (by simp; omega)
  obtain ⟨m, hm, hreuse⟩ := choose_reuses hchoose
  rw [hm] at hn
  have hle : n ≤ m := by
    have hdef : keptInputs cachePrompt prompt m =
      if (if cachePrompt then (m : Int) else 0) = prompt.length
      then (if cachePrompt then (m : Int) else 0) - 1
      else if cachePrompt then (m : Int) else 0 := rfl
    rw [hdef] at hn
    split at hn <;> split at hn <;> omega
  rw [length_take] at hpos
  rcases hreuse with hzero | hreuse
  · omega
  have hold := hkept c.src m hreuse
  dsimp only at hold
  rw [← hn, Int.toNat_natCast] at hold
  rw [hswa]
  refine mem_filter.mpr ⟨hold cell hcell hview, ?_⟩
  simp
  omega

/-! ## §5  Runs -/

/-- When a step leaves the windows complete: what a request resumes from and
what a shift moves into the window has not been purged. -/
def WindowKept (P : Params) (s : State) : Action → Prop
  | .request r _ _ _ => ∀ inputs numKeep, newSequence P r = some (inputs, numKeep) →
      ReuseKept P s inputs r.cachePrompt
  | .decode _ _ => ∀ (j : Nat) q, s.seqs[j]? = some (some q) →
      q.ShiftsWhole P (streamOf s.mem q.cache)
  | .sample _ => True

theorem WindowInv.request {r : Request} {refused : Bool} {nowSearch now : Int}
    (h : WindowInv P s) (hinv : Inv P s) (hkept : WindowKept P s (.request r refused nowSearch now))
    (hrun : request P r refused nowSearch now s = some s') : WindowInv P s' := by
  rcases request_cases hrun with
    rfl | ⟨inputs, numKeep, hnew, ⟨-, rfl⟩ | ⟨j, slots, mem, i, rest, hload, rfl⟩⟩
  · exact h
  · exact h
  have hne := (newSequence_spec hnew).1
  have hcomplete := complete_loaded hinv.slots hne (hkept inputs numKeep hnew) hload
  obtain ⟨c, n, -, -, -, hloads⟩ := loadCacheSlot_spec hinv.slots hne hload
  obtain ⟨free, hfree, huse⟩ := hloads.free
  intro k q hq
  rcases getElem?_set_cases hq with ⟨-, hq⟩ | ⟨-, hq⟩
  · injection hq with hq
    subst hq
    exact ⟨hcomplete, fun d hd => by cases hd⟩
  · show (streamOf mem q.cache).Complete P.window ∧ _
    rw [(hloads.others _ (hinv.cache_ne hq hfree huse)).2]
    exact h k q hq

/-- Sampling does not touch the memory. -/
theorem WindowInv.sampleSeq {o : Sampled} {j : Nat}
    (hrun : sampleSeq o s j = some s') (h : WindowInv P s) : WindowInv P s' := by
  rcases sampleSeq_cases hrun with rfl | ⟨q, hq, -, rfl | ⟨n, rfl⟩ | rfl⟩
  · exact h
  · intro k r hr
    rcases getElem?_set_cases hr with ⟨-, hr⟩ | ⟨-, hr⟩
    · cases hr
    · exact h k r hr
  · intro k r hr
    rcases getElem?_set_cases hr with ⟨-, hr⟩ | ⟨-, hr⟩
    · cases hr
    · exact h k r hr
  intro k r hr
  rcases getElem?_set_cases hr with ⟨-, hr⟩ | ⟨-, hr⟩
  · injection hr with hr
    subst hr
    exact h j q hq
  · exact h k r hr

theorem WindowInv.step {a : Action} (h : WindowInv P s)
    (hw : P.window.windowed = true) (hinv : Inv P s) (hkept : WindowKept P s a)
    (hrun : step P s a = some s') : WindowInv P s' := by
  unfold LlamaRunner.step at hrun
  split at hrun
  · cases hrun
  cases a with
  | request r refused nowSearch now =>
    dsimp only at hrun
    split at hrun
    · cases hrun
    · exact h.request hinv hkept hrun
  | decode refused evict =>
    dsimp only at hrun
    split at hrun
    · cases hrun
    · exact h.decodeBatch hw hinv hkept hrun
  | sample o =>
    dsimp only at hrun
    split at hrun
    · obtain ⟨s₁, hsample, rfl⟩ := Option.map_eq_some_iff.mp hrun
      have h₁ : WindowInv P s₁ := sampleAll_keeps WindowInv.sampleSeq hsample h
      exact h₁
    · cases hrun

theorem initial_window (P : Params) (n : Nat) : WindowInv P (initial n) := by
  intro j q hq
  exact absurd hq (initial_idle n j q)

/-! ## §6  Resuming inside the window and behind it -/

/-- A token was decoded with what decoding all inputs before it from scratch
shows of them: the full cache holds them all, and inside the window of its
position the window cache does. -/
structure Resumed (d : Decoded) (w : Window) : Prop where
  full : d.stream.full = stored d.entry.before
  pos : d.entry.pos = (d.entry.before.length : Int)
  window : ∀ c, w.masked c.1 d.entry.pos = false → (c ∈ d.stream.swa ↔ c ∈ stored d.entry.before)

/-- **Every token was decoded with its window**, and on its own inputs: those
of its slot and of the queue are all that the sequence has. In the state after
a `Decode` this is about every token of the batch. -/
def ResumesWindow (P : Params) (s : State) : Prop :=
  ∀ (j : Nat) q, s.seqs[j]? = some (some q) → Running P s q ∧ ∀ d ∈ q.decoded, Resumed d P.window

theorem WindowInv.resumes {s : State} (h : WindowInv P s) (hinv : Inv P s) : ResumesWindow P s := by
  intro j q hq
  refine ⟨hinv.running hq, ?_⟩
  obtain ⟨-, slot, -, hseq⟩ := hinv.seqs j q hq
  intro d hd
  obtain ⟨hholds, hpos, -⟩ := hseq.decoded d hd
  refine ⟨hholds.full, hpos, fun c hview => ⟨hholds.swa c, fun hc => ?_⟩⟩
  apply (h j q hq).2 d hd c
  · rw [hholds.full]
    exact hc
  · rw [hholds.length, ← hpos]
    exact hview

/-- A window of two positions, and room for two more. -/
def windowParams : Params :=
  { numCtx := 8, batchSize := 2, nEmbd := 1, size := 8, image := false, multiUserCache := false,
    canShift := false, window := ⟨true, 2, .standard⟩, numCtx_pos := by decide,
    nEmbd_pos := Nat.one_pos }

/-- Decode a batch that overwrites up to `evict`; a sequence with nothing left
to decode ends. -/
def decodePurging (evict : Int) : List Action :=
  [.decode (fun _ => false) (fun _ => evict), .sample fun _ => ⟨0, true, none, false⟩]

def tokens (ts : List Int) : List Input := ts.map .token

/-- Six tokens in three batches; the third overwrites the positions of the
first. -/
def longRun : List Action :=
  ask (tokens [1, 2, 3, 4, 5, 6]) :: (decodePurging (-1) ++ decodePurging (-1) ++ decodePurging 1)

def windowState (as : List Action) : State := (runAll windowParams (initial 1) as).getD (initial 1)

theorem reuses_only {slot : InputCacheSlot} {i m : Nat}
    (hsingle : P.multiUserCache = false) (h : Reuses P [slot] prompt i m) :
    i = 0 ∧ m = countCommonPrefix slot.inputs prompt := by
  unfold Reuses at h
  rw [hsingle, if_neg Bool.false_ne_true] at h
  obtain ⟨slot', hslot, -, hcount⟩ := h.found
  cases i with
  | zero =>
    injection hslot with hslot
    exact ⟨rfl, by rw [hslot, hcount]⟩
  | succ i => cases hslot

/-- A request that goes on where the window still is. -/
def nearRun : List Action :=
  longRun ++ [ask (tokens [1, 2, 3, 4, 5, 7])] ++ [.decode (fun _ => false) fun _ => -1]

def farRun : List Action :=
  longRun ++ [ask (tokens [1, 2, 9])] ++ [.decode (fun _ => false) fun _ => -1]

theorem guarded_of_runAll {G : State → Action → Prop} {as : List Action}
    (hs : ((system P).guard G).Reachable s) (hG : ∀ a ∈ as, ∀ s, G s a)
    (h : runAll P s as = some s') : ((system P).guard G).Reachable s' := by
  induction as generalizing s with
  | nil =>
    injection h with h
    exact h ▸ hs
  | cons a as ih =>
    obtain ⟨t, hstep, hrest⟩ := Option.bind_eq_some_iff.mp h
    refine ih (.step hs ⟨hG a mem_cons_self s, hstep⟩) ?_ hrest
    exact fun a' ha' => hG a' (mem_cons_of_mem _ ha')

/-- **The runner resumes only what the window cache holds**, in every run whose
requests and shifts find their windows there. -/
theorem resumes_window (P : Params) (hw : P.window.windowed = true) (s : State)
    (h : ((system P).guard (WindowKept P)).Reachable s) : ResumesWindow P s := by
  have hinv : ∀ s, ((system P).guard (WindowKept P)).Reachable s → Inv P s :=
    fun s hs => reachable_inv (System.Reachable.of_guard hs)
  have hwindow : WindowInv P s := by
    apply h.invariant_of hinv
    · rintro s ⟨n, rfl⟩
      exact initial_window P n
    · exact fun s a s' hs hwin hstep => hwin.step hw hs hstep.1 hstep.2
  exact hwindow.resumes (hinv s h)

theorem resumes_window_near :
    ((windowState nearRun).seqs.head?.bind fun q => q.bind fun q => q.decoded.head?).map
        (·.stream.swa) = some [(2, .token 3), (3, .token 4), (4, .token 5)] ∧
      ResumesWindow windowParams (windowState nearRun) := by
  refine ⟨by rfl, resumes_window windowParams rfl (windowState nearRun) ?_⟩
  have hdecode : ∀ s refused evict, WindowKept windowParams s (.decode refused evict) := by
    intro s refused evict j q _ hcan
    cases hcan
  have hfirst : WindowKept windowParams (initial 1) (ask (tokens [1, 2, 3, 4, 5, 6])) := by
    intro inputs numKeep hnew i m hreuse
    have hinputs : tokens [1, 2, 3, 4, 5, 6] = inputs :=
      congrArg Prod.fst (Option.some.inj hnew)
    subst hinputs
    obtain ⟨rfl, rfl⟩ := reuses_only rfl (show Reuses windowParams [{}] _ i m from hreuse)
    dsimp only
    decide
  have hasked : ((system windowParams).guard (WindowKept windowParams)).Reachable
      (windowState (longRun.take 1)) := .step (.init ⟨1, rfl⟩) ⟨hfirst, rfl⟩
  have hlong : ((system windowParams).guard (WindowKept windowParams)).Reachable
      (windowState longRun) := by
    have hrun : runAll windowParams (windowState (longRun.take 1)) (longRun.drop 1) =
        some (windowState longRun) := by decide +kernel
    refine guarded_of_runAll hasked ?_ hrun
    intro a ha s
    simp only [longRun, decodePurging, drop_succ_cons, drop_zero, cons_append,
      nil_append, mem_cons, not_mem_nil, or_false] at ha
    rcases ha with rfl | rfl | rfl | rfl | rfl | rfl <;> first | exact hdecode s _ _ | exact trivial
  have hslots : (windowState longRun).slots = [{ inputs := tokens [1, 2, 3, 4, 5, 6] }] := by
    decide +kernel
  have hmem : (streamOf (windowState longRun).mem 0).swa =
      [(2, .token 3), (3, .token 4), (4, .token 5), (5, .token 6)] := by decide +kernel
  have hsecond : WindowKept windowParams (windowState longRun)
      (ask (tokens [1, 2, 3, 4, 5, 7])) := by
    intro inputs numKeep hnew i m hreuse
    have hinputs : tokens [1, 2, 3, 4, 5, 7] = inputs :=
      congrArg Prod.fst (Option.some.inj hnew)
    subst hinputs
    rw [hslots] at hreuse
    obtain ⟨rfl, rfl⟩ := reuses_only rfl hreuse
    rw [hmem]
    decide
  have hstep : step windowParams (windowState longRun) (ask (tokens [1, 2, 3, 4, 5, 7])) =
      some (windowState (nearRun.take 8)) := by decide +kernel
  have hlast : step windowParams (windowState (nearRun.take 8))
      (.decode (fun _ => false) fun _ => -1) = some (windowState nearRun) := by decide +kernel
  exact .step (.step hlong ⟨hsecond, hstep⟩) ⟨hdecode _ _ _, hlast⟩

theorem resumes_window_far :
    ∃ s, (system windowParams).Reachable s ∧ ¬ ResumesWindow windowParams s := by
  have hrun : runAll windowParams (initial 1) farRun = some (windowState farRun) := by rfl
  refine ⟨_, reachable_of_runAll (System.Reachable.init ⟨1, rfl⟩) hrun, ?_⟩
  intro hresumes
  have hdecoded : ∃ q d, (windowState farRun).seqs[0]? = some (some q) ∧ d ∈ q.decoded ∧
      d.stream.swa = [] ∧ d.entry.pos = 2 ∧ d.entry.before = tokens [1, 2] :=
    ⟨_, _, rfl, mem_cons_self, rfl, rfl, rfl⟩
  obtain ⟨q, d, hq, hd, hswa, hpos, hbefore⟩ := hdecoded
  have hview := ((hresumes 0 q hq).2 d hd).window (1, .token 2)
  rw [hswa, hpos, hbefore] at hview
  have hgone := (hview (by decide)).mpr (by decide)
  cases hgone

end Ollama.LlamaRunner
