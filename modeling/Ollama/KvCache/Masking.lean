import Ollama.KvCache.Runs

/-!
# The attention mask

After a `StartForward` that returns nil, and after every `SetCausal` that
follows it, the mask shows a cell to a token of the batch exactly when the
cell is `Visible` to it. The mask is built over the range `Get` returns only,
so the point is that no visible cell is outside of it: the ranges cover, and
`updateSlidingWindow` leaves out only what is before every token's window.
-/

namespace Ollama.KvCache

open List

namespace Causal

/-! ## §1  What a token may see -/

def chunkStart (chunkSize pos : Int) : Int := pos.tdiv chunkSize * chunkSize

theorem sub_tmod_eq_chunkStart (pos chunkSize : Int) :
    pos - pos.tmod chunkSize = chunkStart chunkSize pos := by
  have h := Int.tmod_add_mul_tdiv pos chunkSize
  rw [chunkStart, Int.mul_comm]
  omega

/-- The token `e` at index `i` of the batch may attend to the cell at `j`: it
holds the token's sequence, is not ahead of the token unless the token is
excepted, and lies in the token's window and chunk. -/
structure Visible (c : Causal) (i : Nat) (e : BatchEntry) (j : Nat) : Prop where
  holds : e.seq ∈ (cellAt c.cells j).sequences
  causal : i ∉ c.except → (cellAt c.cells j).pos ≤ e.pos
  window : e.pos - c.swaWindowSize ≤ (cellAt c.cells j).pos
  chunk : 0 < c.chunkSize → chunkStart c.chunkSize e.pos ≤ (cellAt c.cells j).pos

variable {c : Causal}

theorem hides_iff {i : Nat} {e : BatchEntry} {j : Nat} :
    c.hides i e j = false ↔ Visible c i e j := by
  unfold hides
  rw [decide_eq_false_iff_not, sub_tmod_eq_chunkStart]
  constructor
  · intro h
    refine ⟨?_, ?_, ?_, ?_⟩
    · by_contra hc
      exact h (Or.inl hc)
    · intro hi
      by_contra hc
      exact h (Or.inr (Or.inl ⟨by simpa using hi, Int.not_le.mp hc⟩))
    · by_contra hc
      exact h (Or.inr (Or.inr (Or.inr (Int.not_le.mp hc))))
    · intro hpos
      by_contra hc
      exact h (Or.inr (Or.inr (Or.inl ⟨hpos, Int.not_le.mp hc⟩)))
  · rintro ⟨hholds, hcausal, hwindow, hchunk⟩ (h | h | h | h)
    · exact h hholds
    · have := hcausal (by simpa using h.1)
      omega
    · omega
    · omega

/-! ## §2  The tensor -/

/-- Rows of equal length laid out one after the other. -/
theorem getElem?_flatMap_rows {α β : Type} {f : α → List β} {n : Nat}
    (hf : ∀ x, (f x).length = n) {k : Nat} (hk : k < n) :
    ∀ (xs : List α) (i : Nat), (xs.flatMap f)[i * n + k]? = xs[i]?.bind fun x => (f x)[k]?
  | [], i => by simp
  | x :: xs, 0 => by
      rw [flatMap_cons, Nat.zero_mul, Nat.zero_add, getElem?_append_left (by rw [hf]; exact hk)]
      rfl
  | x :: xs, i + 1 => by
      have hlen : (f x).length ≤ (i + 1) * n + k := by
        rw [hf, Nat.succ_mul]
        omega
      have hsub : (i + 1) * n + k - (f x).length = i * n + k := by
        rw [hf, Nat.succ_mul]
        omega
      rw [flatMap_cons, getElem?_append_right hlen, hsub,
        getElem?_flatMap_rows hf hk xs i, getElem?_cons_succ]

theorem length_maskRow (c : Causal) (length i : Nat) : (c.maskRow length i).length = length := by
  unfold maskRow
  split <;> simp

def alignRange (config : CacheConfig) (r : CellRange) : CellRange :=
  ⟨roundDown r.min config.cachePadding, roundUp (r.max + 1) config.cachePadding - 1⟩

def maskOver (c : Causal) (r : CellRange) : Mask :=
  ⟨r.max + 1 - r.min, roundUp c.curBatch.length c.config.maskBatchPadding,
    (List.range (roundUp c.curBatch.length c.config.maskBatchPadding)).flatMap
      (maskRow { c with curCellRange := r } (r.max + 1 - r.min))⟩

theorem buildMask_eq (c : Causal) : c.buildMask = { c with
      curCellRange := alignRange c.config c.curCellRange
      curMask := c.maskOver (alignRange c.config c.curCellRange) } := rfl

variable {r : CellRange}

/-- An entry of the mask, in the row of a token or in a padding row. -/
theorem masked_maskOver {i k : Nat} (hk : k < r.max + 1 - r.min)
    (hbatch : c.curBatch.length ≤ roundUp c.curBatch.length c.config.maskBatchPadding) :
    (c.maskOver r).masked i k =
      match c.curBatch[i]? with
      | some e => c.hides i e (r.min + k)
      | none => true := by
  have hrow : ∀ i, (maskRow { c with curCellRange := r } (r.max + 1 - r.min) i)[k]? =
      some (match c.curBatch[i]? with
        | some e => c.hides i e (r.min + k)
        | none => true) := by
    intro i
    show (match c.curBatch[i]? with
      | some e => (List.range (r.max + 1 - r.min)).map fun j => c.hides i e (r.min + j)
      | none => List.replicate (r.max + 1 - r.min) true)[k]? = _
    cases c.curBatch[i]? with
    | some e => simp [hk]
    | none => simp [hk]
  unfold Mask.masked maskOver
  rw [getElem?_flatMap_rows (fun i => length_maskRow _ _ i) hk]
  by_cases hlt : i < roundUp c.curBatch.length c.config.maskBatchPadding
  · rw [getElem?_range hlt, Option.bind_some, hrow i]
    rfl
  · rw [getElem?_eq_none (by simpa using hlt),
      getElem?_eq_none (Nat.le_trans hbatch (Nat.le_of_not_lt hlt))]
    rfl

/-! ## §3  Alignment -/

theorem roundDown_le (length pad : Nat) : roundDown length pad ≤ length :=
  Nat.div_mul_le_self length pad

variable {length pad : Nat}

theorem le_roundUp (hp : 0 < pad) : length ≤ roundUp length pad := by
  have h := Nat.lt_div_mul_add (a := length + pad - 1) hp
  unfold roundUp
  omega

theorem roundDown_of_dvd (h : pad ∣ length) : roundDown length pad = length := Nat.div_mul_cancel h

theorem roundUp_of_dvd (hp : 0 < pad) (h : pad ∣ length) : roundUp length pad = length := by
  obtain ⟨k, rfl⟩ := h
  unfold roundUp
  rw [show pad * k + pad - 1 = pad - 1 + pad * k by omega,
    Nat.add_mul_div_left _ _ hp, Nat.div_eq_of_lt (by omega), Nat.zero_add,
    Nat.mul_comm]

theorem le_alignRange {config : CacheConfig} (hp : 0 < config.cachePadding)
    (r : CellRange) : CellRange.Le r (alignRange config r) := by
  have h : r.max + 1 ≤ roundUp (r.max + 1) config.cachePadding := le_roundUp hp
  refine ⟨roundDown_le _ _, ?_⟩
  show r.max ≤ roundUp (r.max + 1) config.cachePadding - 1
  omega

theorem buildMask_curCellRange (c : Causal) :
    c.buildMask.curCellRange = alignRange c.config c.curCellRange := rfl

theorem alignRange_idem {config : CacheConfig} (hp : 0 < config.cachePadding)
    (r : CellRange) : alignRange config (alignRange config r) = alignRange config r := by
  have hmin : config.cachePadding ∣ (alignRange config r).min := Nat.dvd_mul_left _ _
  have hpos : r.max + 1 ≤ roundUp (r.max + 1) config.cachePadding := le_roundUp hp
  have hmax : (alignRange config r).max + 1 = roundUp (r.max + 1) config.cachePadding := by
    show roundUp (r.max + 1) config.cachePadding - 1 + 1 = _
    omega
  unfold alignRange at hmin hmax ⊢
  rw [roundDown_of_dvd hmin, hmax, roundUp_of_dvd hp (roundUp_dvd _ _)]

theorem buildMask_idem (hp : 0 < c.config.cachePadding) : c.buildMask.buildMask = c.buildMask := by
  rw [buildMask_eq c.buildMask, buildMask_curCellRange, buildMask_eq c]
  show ({ c with curCellRange := alignRange c.config (alignRange c.config c.curCellRange)
                 curMask := c.maskOver _ } : Causal) = _
  rw [alignRange_idem hp]

/-! ## §4  Exactness -/

/-- **The mask is exact** for the tokens of `batch`: `r` is the range before it
was padded. -/
structure MaskExact (batch : Batch) (r : CellRange) (c : Causal) : Prop where
  /-- In the columns of the mask a token sees what is visible to it. -/
  entry : ∀ i e, batch[i]? = some e → ∀ j, c.get.row ≤ j → j < c.get.row + c.get.size →
    (c.get.mask.masked i (j - c.get.row) = false ↔ Visible c i e j)
  /-- Nothing visible is outside of the rows `Get` returns. -/
  inside : ∀ i e, batch[i]? = some e → ∀ j, Visible c i e j →
    c.get.row ≤ j ∧ j < c.get.row + c.get.size
  paddingRow : ∀ i, batch.length ≤ i → ∀ k, k < c.get.size → c.get.mask.masked i k = true
  paddingColumn : ∀ j, c.get.row ≤ j → j < c.get.row + c.get.size → ¬ r.Has j →
    ∀ i, c.get.mask.masked i (j - c.get.row) = true
  nonempty : 0 < c.get.size

/-- A cache whose mask is up to date over the padded range `r`, which holds
every cell in a token's window. -/
structure UpToDate (batch : Batch) (r : CellRange) (c : Causal) : Prop where
  curBatch : c.curBatch = batch
  cachePadding : 0 < c.config.cachePadding
  maskBatchPadding : 0 < c.config.maskBatchPadding
  range : c.curCellRange = alignRange c.config r
  nonempty : ∃ j, r.Has j
  built : c.buildMask = c
  seen : ∀ e ∈ batch, ∀ j, e.seq ∈ (cellAt c.cells j).sequences →
    e.pos - c.swaWindowSize ≤ (cellAt c.cells j).pos → r.Has j

variable {batch : Batch}

theorem UpToDate.maskExact (h : UpToDate batch r c) : MaskExact batch r c := by
  have hmask : c.curMask = c.maskOver c.curCellRange := by
    have := congrArg Causal.curMask h.built
    rw [buildMask_eq, h.range, alignRange_idem h.cachePadding, ← h.range] at this
    exact this.symm
  have hle : CellRange.Le r c.curCellRange := by
    rw [h.range]
    exact le_alignRange h.cachePadding r
  have hsize : c.get.size = c.curCellRange.max + 1 - c.curCellRange.min := by
    show c.curMask.length = _
    rw [hmask]
    rfl
  have hrow : c.get.row = c.curCellRange.min := rfl
  have hentry : ∀ i j, c.get.row ≤ j → j < c.get.row + c.get.size →
      c.get.mask.masked i (j - c.get.row) =
        match batch[i]? with
        | some e => c.hides i e j
        | none => true := by
    intro i j h₁ h₂
    rw [hrow] at h₁
    show c.curMask.masked i (j - c.curCellRange.min) = _
    rw [hmask, masked_maskOver (by omega) (le_roundUp h.maskBatchPadding), h.curBatch,
      Nat.add_sub_cancel' h₁]
  refine ⟨?_, ?_, ?_, ?_, ?_⟩
  · intro i e hi j h₁ h₂
    rw [hentry i j h₁ h₂, hi]
    exact hides_iff
  · intro i e hi j hv
    have hhas := (h.seen e (mem_of_getElem? hi) j hv.holds hv.window).mono hle
    have := hhas.1
    have := hhas.2
    omega
  · intro i hi k hk
    have := hentry i (c.get.row + k) (Nat.le_add_right _ _) (by omega)
    rwa [Nat.add_sub_cancel_left, getElem?_eq_none hi] at this
  · intro j h₁ h₂ hnot i
    rw [hentry i j h₁ h₂]
    cases hi : batch[i]? with
    | none => rfl
    | some e =>
        by_contra hc
        have hv := hides_iff.mp (Bool.eq_false_iff.mpr hc)
        exact hnot (h.seen e (mem_of_getElem? hi) j hv.holds hv.window)
  · obtain ⟨j, hj⟩ := h.nonempty
    have := (hj.mono hle).1
    have := (hj.mono hle).2
    omega

theorem UpToDate.setCausal (h : UpToDate batch r c) (except : List Nat) :
    UpToDate batch r (c.setCausal true except) := by
  unfold Causal.setCausal
  by_cases heq : c.except = except
  · rw [if_pos heq]
    exact h
  rw [if_neg heq]
  refine ⟨h.curBatch, h.cachePadding, h.maskBatchPadding, ?_, h.nonempty,
    buildMask_idem h.cachePadding, h.seen⟩
  show alignRange c.config c.curCellRange = alignRange c.config r
  rw [h.range, alignRange_idem h.cachePadding]

theorem startForward_upToDate (hw : Wellformed c)
    (hne : batch ≠ []) {reserve : Bool} {maxMoves : Int}
    (hnil : (c.startForward batch reserve maxMoves).err = none) :
    UpToDate batch (c.prepareForward batch reserve maxMoves).cache.curCellRange
      (c.startForward batch reserve maxMoves).cache := by
  obtain ⟨_, _, hspec⟩ := prepareForward_spec hw.cover batch reserve maxMoves
  unfold startForward at hnil ⊢
  simp only at hnil ⊢
  generalize c.prepareForward batch reserve maxMoves = f at hspec hnil
  cases herr : f.err with
  | some err =>
      simp only [herr] at hnil
      cases hnil
  | none =>
      obtain ⟨hp, hnonempty, hseen⟩ := hspec herr
      have hw' : Wellformed f.cache := hw.of_cover hp.setup hp.cover
      refine ⟨hp.curBatch, hw'.cachePadding, hw'.maskBatchPadding, rfl, hnonempty hne,
        buildMask_idem hw'.cachePadding, ?_⟩
      intro e he j hj hpos
      refine hseen e he j hj ?_
      rw [← hp.setup.window]
      exact hpos

/-- **The attention mask is exactly the specification.** In every run, for
every batch stored or reserved without an error, and after any number of calls
of `SetCausal` in the same pass. -/
theorem mask_exact {c : Causal} (h : system.Reachable c) {batch : Batch}
    (hne : batch ≠ []) {reserve : Bool} {maxMoves : Int}
    (hnil : (c.startForward batch reserve maxMoves).err = none)
    (excepts : List (List Nat)) :
    MaskExact batch (c.prepareForward batch reserve maxMoves).cache.curCellRange
      (excepts.foldl (fun c except => c.setCausal true except)
        (c.startForward batch reserve maxMoves).cache) := by
  have hstart := startForward_upToDate (reachable_wellformed h) hne hnil
  generalize (c.startForward batch reserve maxMoves).cache = c' at hstart
  have hrun : ∀ (excepts : List (List Nat)) (c' : Causal),
      UpToDate batch (c.prepareForward batch reserve maxMoves).cache.curCellRange c' →
      UpToDate batch (c.prepareForward batch reserve maxMoves).cache.curCellRange
        (excepts.foldl (fun c except => c.setCausal true except) c') := by
    intro excepts
    induction excepts with
    | nil => exact fun c' h => h
    | cons except excepts ih => exact fun c' h => ih _ (h.setCausal except)
  exact (hrun excepts c' hstart).maskExact

theorem mask_exact_sixCells : MaskExact [⟨0, 0⟩, ⟨1, 0⟩]
      (sixCells.prepareForward [⟨0, 0⟩, ⟨1, 0⟩] false 1).cache.curCellRange
      ([[0], [0, 1]].foldl (fun c except => c.setCausal true except)
        (sixCells.startForward [⟨0, 0⟩, ⟨1, 0⟩] false 1).cache) :=
  mask_exact sixCells_reachable (by decide) (by decide +kernel) _

end Causal

end Ollama.KvCache
