import Mathlib.Data.List.Basic

/-!
# The memory of llama.cpp: model of `llama-kv-cache.cpp` and `llama-kv-cache-iswa.cpp`

With `kv_unified` false every sequence id has a stream of its own, so the
memory is a list of cells for each id: the positions and inputs stored in the
full-attention cache, and those in the cache of the sliding-window layers.
-/

namespace Ollama.LlamaRunner

open List

/-! ## §1  Inputs, cells and windows -/

/-- `input`: a token, or an image embedding. -/
inductive Input where
  | token (token : Int)
  | embed (embed : List Int)
deriving DecidableEq, Repr

/-- `input.embed != nil` -/
def Input.isEmbed : Input → Bool
  | .token _ => false
  | .embed _ => true

/-- A position and the input stored at it. -/
abbrev Cell := Int × Input

/-- `llama_swa_type` -/
inductive SwaType where
  | none
  | standard
  | chunked
  | symmetric
deriving DecidableEq, Repr

/-- `llama_hparams::is_masked_swa` -/
def isMaskedSwa (nSwa : Nat) (swaType : SwaType) (p0 p1 : Int) : Bool :=
  match swaType with
  | .none => false
  | .standard => decide ((nSwa : Int) ≤ p1 - p0)
  | .chunked => decide (p0 < p1 / (nSwa : Int) * nSwa)
  | .symmetric =>
      decide (p1 - p0 < -((nSwa / 2 : Nat) : Int)) || decide (((nSwa / 2 : Nat) : Int) < p1 - p0)

/-- What is masked stays masked: below a masked position, and for every later
one. -/
theorem isMaskedSwa_mono {nSwa : Nat} {swaType : SwaType} {p p' q q' : Int}
    (h : isMaskedSwa nSwa swaType p q = true) (hp : p' ≤ p) (hpq : p ≤ q) (hq : q ≤ q') :
    isMaskedSwa nSwa swaType p' q' = true := by
  cases swaType with
  | none => cases h
  | standard =>
    have h := of_decide_eq_true h
    exact decide_eq_true (by omega)
  | chunked =>
    have h := of_decide_eq_true h
    apply decide_eq_true
    have hdiv : q / (nSwa : Int) ≤ q' / (nSwa : Int) := by
      rcases Nat.eq_zero_or_pos nSwa with rfl | hpos
      · simp
      · exact Int.ediv_le_ediv (by omega) hq
    have hmul : q / (nSwa : Int) * nSwa ≤ q' / (nSwa : Int) * nSwa :=
      Int.mul_le_mul_of_nonneg_right hdiv (Int.natCast_nonneg nSwa)
    omega
  | symmetric =>
    rcases Bool.or_eq_true_iff.mp h with h | h
    · have h := of_decide_eq_true h
      omega
    · have h := of_decide_eq_true h
      apply Bool.or_eq_true_iff.mpr
      exact Or.inr (decide_eq_true (by omega))

/-! ## §2  One sequence -/

/-- The cells of one sequence id in both caches. Without sliding-window layers
the second list stays empty. -/
structure Stream where
  full : List Cell := []
  swa : List Cell := []
deriving DecidableEq, Repr

/-- `seq_rm`: forget the positions from `p0` up to `p1`, a negative bound
standing for none. -/
def rmCells (p0 p1 : Int) (cells : List Cell) : List Cell :=
  cells.filter fun c => !(decide (max p0 0 ≤ c.1) && (decide (p1 < 0) || decide (c.1 < p1)))

/-- `seq_add` -/
def addCells (p0 p1 shift : Int) (cells : List Cell) : List Cell :=
  if shift = 0 ∨ max p0 0 = p1 then cells
  else
    cells.map fun c =>
      if max p0 0 ≤ c.1 ∧ (p1 < 0 ∨ c.1 < p1) then (c.1 + shift, c.2) else c

/-- `seq_pos_max`, −1 when there is none. -/
def seqPosMax (cells : List Cell) : Int := cells.foldl (fun m c => max m c.1) (-1)

/-- The window cache may overwrite the cell at `evict` if it is masked for the
next position; `apply_ubatch` then purges all lower positions as well. -/
def Stream.purge (masked : Int → Int → Bool) (evict : Int) (s : Stream) : Stream :=
  if 0 ≤ evict ∧ evict ≤ seqPosMax s.swa ∧ masked evict (seqPosMax s.swa + 1) then
    { s with swa := s.swa.filter fun c => decide (evict < c.1) }
  else s

def Stream.store (windowed : Bool) (c : Cell) (s : Stream) : Stream :=
  { full := s.full ++ [c], swa := if windowed then s.swa ++ [c] else s.swa }

/-! ## §3  The memory -/

abbrev Memory := List Stream

def streamOf (mem : Memory) (id : Nat) : Stream := mem[id]?.getD {}

/-- `seq_rm`, which a memory may refuse for a part of a sequence (`refused`). -/
def seqRm (mem : Memory) (id : Nat) (p0 p1 : Int) (refused : Bool) : Memory × Bool :=
  if refused ∧ ¬ (p0 ≤ 0 ∧ p1 < 0) then (mem, false)
  else
    (mem.modify id fun s => { full := rmCells p0 p1 s.full, swa := rmCells p0 p1 s.swa }, true)

def seqAdd (mem : Memory) (id : Nat) (p0 p1 shift : Int) : Memory :=
  mem.modify id fun s =>
    { full := addCells p0 p1 shift s.full, swa := addCells p0 p1 shift s.swa }

/-- `seq_cp` into another stream of `size` cells copies all of it, and asserts
that this is what is asked for; `none` is the failed assertion. -/
def seqCp (size : Nat) (mem : Memory) (src dst : Nat) (p0 p1 : Int) : Option Memory :=
  if src = dst then some mem
  else if (0 < p0 ∧ p0 + 1 < size) ∨ (0 < p1 ∧ p1 + 1 < size) then none
  else some (mem.set dst (streamOf mem src))

/-! ## §4  `Decode` -/

/-- One entry of a `llama_batch`. `before` are the inputs that the runner takes
to be stored before it; nothing reads them. -/
structure Entry where
  input : Input
  pos : Int
  logits : Bool
  seqId : Nat
  before : List Input
deriving DecidableEq, Repr

/-- What a token is decoded with: its entry, and what the two caches hold of
its sequence then. -/
structure Decoded where
  entry : Entry
  stream : Stream
deriving DecidableEq, Repr

structure Window where
  windowed : Bool
  nSwa : Nat
  swaType : SwaType
deriving DecidableEq, Repr

def Window.masked (w : Window) (p0 p1 : Int) : Bool := isMaskedSwa w.nSwa w.swaType p0 p1

/-- `llama_decode` stores each entry at its position. `evict` says up to where
the window cache purges before each entry. -/
def decode (w : Window) (evict : Nat → Int) : Nat → Memory → List Entry → Memory × List Decoded
  | _, mem, [] => (mem, [])
  | k, mem, e :: es =>
      let stream := (streamOf mem e.seqId).purge w.masked (evict k)
      let r := decode w evict (k + 1)
        (mem.set e.seqId (stream.store w.windowed (e.pos, e.input))) es
      (r.1, { entry := e, stream } :: r.2)

/-! ## §5  Inputs stored in order -/

/-- The inputs at the positions from `k` on. -/
def storedFrom : Nat → List Input → List Cell
  | _, [] => []
  | k, x :: xs => ((k : Int), x) :: storedFrom (k + 1) xs

def stored (xs : List Input) : List Cell := storedFrom 0 xs

theorem storedFrom_append (k : Nat) (xs ys : List Input) :
    storedFrom k (xs ++ ys) = storedFrom k xs ++ storedFrom (k + xs.length) ys := by
  induction xs generalizing k with
  | nil => rfl
  | cons x xs ih =>
    show _ :: storedFrom (k + 1) (xs ++ ys) = _ :: (storedFrom (k + 1) xs ++ _)
    rw [ih, length_cons, Nat.add_right_comm, Nat.add_assoc k]

@[simp] theorem storedFrom_length (k : Nat) (xs : List Input) :
    (storedFrom k xs).length = xs.length := by
  induction xs generalizing k with
  | nil => rfl
  | cons x xs ih => exact congrArg (· + 1) (ih (k + 1))

@[simp] theorem stored_length (xs : List Input) : (stored xs).length = xs.length :=
  storedFrom_length 0 xs

theorem stored_snoc (xs : List Input) (x : Input) :
    stored (xs ++ [x]) = stored xs ++ [((xs.length : Int), x)] := by
  unfold stored
  rw [storedFrom_append, Nat.zero_add]
  rfl

theorem mem_storedFrom {k : Nat} {xs : List Input} {c : Cell} :
    c ∈ storedFrom k xs ↔ ∃ i : Nat, c.1 = (k : Int) + i ∧ xs[i]? = some c.2 := by
  induction xs generalizing k with
  | nil => simp [storedFrom]
  | cons x xs ih =>
    rw [storedFrom, mem_cons, ih]
    constructor
    · rintro (rfl | ⟨i, hpos, hget⟩)
      · exact ⟨0, by simp, rfl⟩
      · exact ⟨i + 1, by push_cast at hpos ⊢; omega, hget⟩
    rintro ⟨i, hpos, hget⟩
    cases i with
    | zero =>
      left
      injection hget with hget
      exact Prod.ext (by simpa using hpos) hget.symm
    | succ i => exact Or.inr ⟨i, by push_cast at hpos ⊢; omega, hget⟩

theorem mem_stored {xs : List Input} {c : Cell} :
    c ∈ stored xs ↔ ∃ i : Nat, c.1 = i ∧ xs[i]? = some c.2 := by
  unfold stored
  rw [mem_storedFrom]
  simp

theorem pos_of_mem_stored {xs : List Input} {c : Cell} (h : c ∈ stored xs) :
    0 ≤ c.1 ∧ c.1 < xs.length := by
  obtain ⟨i, hpos, hget⟩ := mem_stored.mp h
  have hi : i < xs.length := (List.getElem?_eq_some_iff.mp hget).1
  omega

/-- Removing from `n` on leaves the first `n` inputs. -/
theorem rmCells_tail (xs : List Input) (n : Nat) :
    rmCells n (-1) (stored xs) = stored (xs.take n) := by
  have hcut : stored xs = stored (xs.take n) ++ storedFrom (xs.take n).length (xs.drop n) := by
    conv_lhs => rw [← take_append_drop n xs]
    unfold stored
    rw [storedFrom_append, Nat.zero_add]
  rw [hcut]
  unfold rmCells
  rw [filter_append, filter_eq_self.mpr, filter_eq_nil_iff.mpr, append_nil]
  · intro c hc
    obtain ⟨i, hpos, hget⟩ := mem_storedFrom.mp hc
    have hi : i < (xs.drop n).length := (List.getElem?_eq_some_iff.mp hget).1
    rw [length_drop] at hi
    rw [length_take, Nat.min_eq_left (by omega)] at hpos
    simp
    omega
  · intro c hc
    have hpos := pos_of_mem_stored hc
    have hle : (xs.take n).length ≤ n := length_take_le n xs
    simp
    omega

theorem rmCells_all (cells : List Cell) (h : ∀ c ∈ cells, 0 ≤ c.1) : rmCells 0 (-1) cells = [] := by
  apply filter_eq_nil_iff.mpr
  intro c hc
  have := h c hc
  simp
  omega

/-- Removing the inputs from `keep` up to `keep + discard` and shifting those
behind them down leaves the others in order. -/
theorem addCells_rmCells (xs : List Input) {keep discard : Nat} (hd : 0 < discard)
    (hlen : keep + discard ≤ xs.length) :
    addCells (keep + discard : Nat) xs.length (-(discard : Int))
        (rmCells keep (keep + discard : Nat) (stored xs)) =
      stored (xs.take keep ++ xs.drop (keep + discard)) := by
  have hkeep : (xs.take keep).length = keep := by rw [length_take]; omega
  have hmid : ((xs.drop keep).take discard).length = discard := by
    rw [length_take, length_drop]; omega
  have hsplit : xs = xs.take keep ++ ((xs.drop keep).take discard ++ xs.drop (keep + discard)) := by
    rw [← drop_drop, take_append_drop, take_append_drop]
  have hstored : stored xs = stored (xs.take keep) ++
      (storedFrom keep ((xs.drop keep).take discard) ++
        storedFrom (keep + discard) (xs.drop (keep + discard))) := by
    conv_lhs => rw [hsplit]
    unfold stored
    rw [storedFrom_append, storedFrom_append, hkeep, Nat.zero_add, hmid]
  have hrm : rmCells keep (keep + discard : Nat) (stored xs) = stored (xs.take keep) ++
      storedFrom (keep + discard) (xs.drop (keep + discard)) := by
    rw [hstored]
    unfold rmCells
    rw [filter_append, filter_append, filter_eq_self.mpr,
      filter_eq_nil_iff.mpr, filter_eq_self.mpr, nil_append]
    · intro c hc
      obtain ⟨i, hpos, -⟩ := mem_storedFrom.mp hc
      push_cast at hpos
      simp
      omega
    · intro c hc
      obtain ⟨i, hpos, hget⟩ := mem_storedFrom.mp hc
      have hi := (List.getElem?_eq_some_iff.mp hget).1
      simp
      omega
    · intro c hc
      have hpos := pos_of_mem_stored hc
      simp
      omega
  rw [hrm]
  unfold addCells
  by_cases hend : keep + discard = xs.length
  · rw [if_pos (Or.inr (by rw [hend]; omega)), hend, drop_length, append_nil]
    exact append_nil _
  rw [if_neg (by omega), map_append]
  unfold stored
  rw [storedFrom_append, hkeep, Nat.zero_add]
  congr 1
  · apply map_congr_left _ |>.trans (map_id _)
    intro c hc
    have hpos := pos_of_mem_stored hc
    rw [if_neg (by omega)]
    rfl
  · have hshift : ∀ (ys : List Input) (k : Nat), keep + discard ≤ k → k + ys.length ≤ xs.length →
        (storedFrom k ys).map (fun c : Cell =>
          if max ((keep + discard : Nat) : Int) 0 ≤ c.1 ∧
              (((xs.length : Nat) : Int) < 0 ∨ c.1 < (xs.length : Int)) then
            (c.1 + -(discard : Int), c.2) else c) = storedFrom (k - discard) ys := by
      intro ys
      induction ys with
      | nil => intro k _ _; rfl
      | cons y ys ih =>
        intro k hk hle
        rw [length_cons] at hle
        rw [storedFrom, storedFrom, map_cons, ih (k + 1) (by omega) (by omega),
          if_pos (by constructor <;> omega)]
        rw [show k + 1 - discard = k - discard + 1 by omega]
        congr 2
        omega
    have := hshift (xs.drop (keep + discard)) (keep + discard) (Nat.le_refl _)
      (by rw [length_drop]; omega)
    rw [this, Nat.add_sub_cancel]

theorem seqPosMax_le {cells : List Cell} {b : Int} (hb : -1 ≤ b) (h : ∀ c ∈ cells, c.1 ≤ b) :
    seqPosMax cells ≤ b := by
  have hfold : ∀ (cells : List Cell) (m : Int), m ≤ b → (∀ c ∈ cells, c.1 ≤ b) →
      cells.foldl (fun m c => max m c.1) m ≤ b := by
    intro cells
    induction cells with
    | nil => exact fun _ hm _ => hm
    | cons c cells ih =>
      intro m hm h
      apply ih
      · exact Int.max_le.mpr ⟨hm, h c mem_cons_self⟩
      · exact fun c' hc' => h c' (mem_cons_of_mem _ hc')
  exact hfold cells (-1) hb h

end Ollama.LlamaRunner
