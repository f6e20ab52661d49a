import Mathlib.Algebra.Order.Field.Basic
import Mathlib.Algebra.BigOperators.Ring.List
import Mathlib.Algebra.Order.BigOperators.Group.List
import Mathlib.Data.Int.SuccPred
import Mathlib.Data.List.TakeWhile
import Ollama.Lib.BinaryHeap

/-!
# Sampling, the transforms: model of `sample/transforms.go`

Values are exact: a logit is of an ordered field or minus infinity, the exponential is a positive
increasing function that is zero at minus infinity.
-/

namespace Ollama.Sampling

open Lib.BinaryHeap List
open scoped List

/-! ## §1  Tokens -/

/-- `token` -/
@[ext] structure Token (V : Type) where
  id : Int32
  value : V
deriving DecidableEq

instance {V : Type} [Inhabited V] : Inhabited (Token V) := ⟨⟨0, default⟩⟩

inductive Err where
  | noLogits
  | nan
  | index
deriving DecidableEq

/-- An index into a slice, which panics out of range. -/
def index {α : Type} (l : List α) (i : ℕ) : Except Err α :=
  match l[i]? with
  | some x => .ok x
  | none => .error .index

theorem index_ok {α : Type} {l : List α} {i : ℕ} {x : α} (h : l[i]? = some x) :
    index l i = .ok x := by
  rw [index, h]

/-- What a panic of the heap is. -/
def orIndex {α : Type} : Option α → Except Err α
  | some x => .ok x
  | none => .error .index

variable {K : Type} [Field K] [LinearOrder K]

/-- `math.Exp` on the finite values. -/
structure Exp (K : Type) [Field K] [LinearOrder K] where
  toFun : K → K
  pos : ∀ x, 0 < toFun x
  mono : StrictMono toFun

/-- `math.Exp` -/
def Exp.at (e : Exp K) : WithBot K → K
  | ⊥ => 0
  | (x : K) => e.toFun x

/-- `slices.SortFunc` by descending values: which of equal ones comes first is left open. -/
structure Sorter (V : Type) [LinearOrder V] where
  sort : List (Token V) → List (Token V)
  perm : ∀ ts, (sort ts).Perm ts
  sorted : ∀ ts, (sort ts).Pairwise fun a b => b.value ≤ a.value

/-! ## §2  The transforms -/

/-- `temperature` -/
def temperature (temp : K) (ts : List (Token (WithBot K))) : List (Token (WithBot K)) :=
  ts.map fun t => { t with value := t.value.map (· / max temp (1 / 10 ^ 7)) }

/-- The first loop of `softmax`. -/
def maxLogit (ts : List (Token (WithBot K))) : WithBot K :=
  ts.foldl (fun m t => if m < t.value then t.value else m) ⊥

/-- `exp(x - max) / sum(exp(x - max))` -/
def normalize (e : Exp K) (m : K) (ts : List (Token (WithBot K))) : List (Token K) :=
  let exps := ts.map fun t => { id := t.id, value := e.at (t.value.map (· - m)) : Token K }
  exps.map fun t => { t with value := t.value / (exps.map Token.value).sum }

/-- `softmax`. Without a finite value every result is not a number. -/
def softmax (e : Exp K) (ts : List (Token (WithBot K))) : Option (List (Token K)) :=
  match maxLogit ts with
  | ⊥ => none
  | (m : K) => some (normalize e m ts)

section TopK

variable {V : Type} [LinearOrder V]

/-- The loop over the remaining elements. -/
def topKLoop (h : MinHeap (Token.value (V := V))) :
    List (Token V) → Option (MinHeap (Token.value (V := V)))
  | [] => some h
  | t :: ts => do
      let least ← h.root
      if least.value < t.value then
        let (_, h) ← h.pop
        topKLoop (h.push t) ts
      else topKLoop h ts

/-- The loop that fills `result` from its end with `k` elements. -/
def popAll : ℕ → MinHeap (Token.value (V := V)) → Option (List (Token V))
  | 0, _ => some []
  | k + 1, h => do
      let (t, h) ← h.pop
      let result ← popAll k h
      pure (result ++ [t])

/-- `topK` -/
def topK [Inhabited V] (sorter : Sorter V) (ts : List (Token V)) (k : ℤ) :
    Except Err (List (Token V)) :=
  if k ≥ ts.length ∨ k ≤ 0 then .ok (sorter.sort ts)
  else do
    let h ← orIndex (topKLoop (MinHeap.ofList (ts.take k.toNat)) (ts.drop k.toNat))
    orIndex (popAll h.size h)

end TopK

/-- The loop of `topP` with the sum so far. -/
def topPLoop (p : K) : K → List (Token K) → List (Token K)
  | _, [] => []
  | sum, t :: ts => if p < sum + t.value then [t] else t :: topPLoop p (sum + t.value) ts

/-- `topP` -/
def topP (ts : List (Token K)) (p : K) : List (Token K) := if p = 1 then ts else topPLoop p 0 ts

/-- `minP` -/
def minP (ts : List (Token K)) (p : K) : Except Err (List (Token K)) := do
  let first ← index ts 0
  pure (ts.takeWhile fun t => !decide (t.value < first.value * p))

/-! ## §3  The largest tokens -/

section TopK

variable {V : Type} [LinearOrder V]

/-- The `k` largest tokens in descending order, or all when `k` is not positive. Which of equal
ones they are is left open. -/
structure Ranking (k : ℤ) (ts ranked rest : List (Token V)) : Prop where
  perm : (ranked ++ rest).Perm ts
  sorted : ranked.Pairwise fun a b => b.value ≤ a.value
  largest : ∀ a ∈ ranked, ∀ b ∈ rest, b.value ≤ a.value
  length : ranked.length = if k ≤ 0 then ts.length else min k.toNat ts.length

/-- No token that was dropped is greater than one in the heap. -/
theorem topKLoop_spec {h : MinHeap (Token.value (V := V))} (hpos : 0 < h.size)
    (ts : List (Token V)) {dropped : List (Token V)}
    (hle : ∀ a ∈ h.toList, ∀ b ∈ dropped, b.value ≤ a.value) :
    ∃ h' dropped', topKLoop h ts = some h' ∧ h'.size = h.size ∧
      (h'.toList ++ dropped').Perm (h.toList ++ (dropped ++ ts)) ∧
      ∀ a ∈ h'.toList, ∀ b ∈ dropped', b.value ≤ a.value := by
  induction ts generalizing h dropped with
  | nil => exact ⟨h, dropped, rfl, rfl, by rw [append_nil], hle⟩
  | cons t ts ih =>
    obtain ⟨least, h₁, hpop, hroot, hperm, hsize⟩ := h.pop_spec hpos
    have hmem : least ∈ h.toList := hperm.mem_iff.mpr mem_cons_self
    have hleast : ∀ a ∈ h.toList, least.value ≤ a.value := by
      obtain ⟨x, hx, hmin⟩ := h.root_spec hpos
      rw [hroot] at hx
      cases hx
      exact hmin
    by_cases hlt : least.value < t.value
    · have hnew : ∀ a ∈ (h₁.push t).toList, ∀ b ∈ least :: dropped, b.value ≤ a.value := by
        intro a ha b hb
        have hla : least.value ≤ a.value := by
          rcases mem_cons.mp ((h₁.push_perm t).mem_iff.mp ha) with rfl | ha
          · exact hlt.le
          · exact hleast a (hperm.mem_iff.mpr (mem_cons_of_mem _ ha))
        rcases mem_cons.mp hb with rfl | hb
        · exact hla
        · exact (hle least hmem b hb).trans hla
      obtain ⟨h', dropped', hrun, hsize', hperm', hle'⟩ := ih (Nat.succ_pos h₁.size) hnew
      refine ⟨h', dropped', ?_, hsize'.trans hsize, hperm'.trans ?_, hle'⟩
      · rw [topKLoop, hroot]
        simp only [Option.bind_eq_bind, Option.bind_some, if_pos hlt, hpop]
        exact hrun
      · calc (h₁.push t).toList ++ (least :: dropped ++ ts)
            _ ~ t :: (h₁.toList ++ least :: (dropped ++ ts)) :=
              (h₁.push_perm t).append_right _
            _ ~ t :: (least :: h₁.toList ++ (dropped ++ ts)) := perm_middle.cons t
            _ ~ t :: (h.toList ++ (dropped ++ ts)) := (hperm.symm.append_right _).cons t
            _ ~ h.toList ++ t :: (dropped ++ ts) := perm_middle.symm
            _ ~ h.toList ++ (dropped ++ t :: ts) := perm_middle.symm.append_left _
    · have hnew : ∀ a ∈ h.toList, ∀ b ∈ t :: dropped, b.value ≤ a.value := by
        intro a ha b hb
        rcases mem_cons.mp hb with rfl | hb
        · exact (not_lt.mp hlt).trans (hleast a ha)
        · exact hle a ha b hb
      obtain ⟨h', dropped', hrun, hsize', hperm', hle'⟩ := ih hpos hnew
      refine ⟨h', dropped', ?_, hsize', hperm'.trans ?_, hle'⟩
      · rw [topKLoop, hroot]
        simp only [Option.bind_eq_bind, Option.bind_some, if_neg hlt]
        exact hrun
      · exact perm_middle.symm.append_left _

/-- What is popped comes out in descending order from the end. -/
theorem popAll_spec {k : ℕ} {h : MinHeap (Token.value (V := V))} (hk : h.size = k) :
    ∃ ts, popAll k h = some ts ∧ ts.Perm h.toList ∧ ts.Pairwise fun a b => b.value ≤ a.value := by
  induction k generalizing h with
  | zero =>
    refine ⟨[], rfl, ?_, List.Pairwise.nil⟩
    rw [MinHeap.toList, hk]
    exact List.Perm.nil
  | succ k ih =>
    have hpos : 0 < h.size := hk ▸ Nat.succ_pos k
    obtain ⟨x, h', hpop, hroot, hperm, hsize⟩ := h.pop_spec hpos
    obtain ⟨ts, hrun, hts, hsorted⟩ := @ih h' (by omega)
    refine ⟨ts ++ [x], ?_, ?_, ?_⟩
    · rw [popAll, hpop]
      simp only [Option.bind_eq_bind, Option.bind_some, hrun]
      rfl
    · exact perm_append_comm.trans ((hts.cons x).trans hperm.symm)
    refine pairwise_append.mpr ⟨hsorted, pairwise_singleton _ _, ?_⟩
    intro a ha b hb
    obtain ⟨y, hy, hmin⟩ := h.root_spec hpos
    rw [hroot] at hy
    cases hy
    rw [mem_singleton.mp hb]
    exact hmin a (hperm.mem_iff.mpr (mem_cons_of_mem _ (hts.mem_iff.mp ha)))

/-- **The largest tokens** are what `topK` returns. -/
theorem topK_spec [Inhabited V] (sorter : Sorter V) (ts : List (Token V)) (k : ℤ) :
    ∃ ranked rest, topK sorter ts k = .ok ranked ∧ Ranking k ts ranked rest := by
  by_cases hall : k ≥ ts.length ∨ k ≤ 0
  · refine ⟨sorter.sort ts, [], if_pos hall, ?_, sorter.sorted ts, ?_, ?_⟩
    · rw [append_nil]
      exact sorter.perm ts
    · exact fun _ _ _ hb => absurd hb not_mem_nil
    · rw [(sorter.perm ts).length_eq]
      split <;> omega
  · have hk : 0 < k.toNat ∧ k.toNat < ts.length := by omega
    have hheap := @MinHeap.ofList_perm _ _ _ (Token.value (V := V)) _ (ts.take k.toNat)
    have hsize : (@MinHeap.ofList _ _ _ (Token.value (V := V)) _ (ts.take k.toNat)).size =
        k.toNat := by
      rw [MinHeap.size_ofList, length_take]
      exact min_eq_left hk.2.le
    obtain ⟨h, dropped, hrun, hsize', hperm, hle⟩ := @topKLoop_spec V _
      (MinHeap.ofList (ts.take k.toNat)) (hsize.symm ▸ hk.1) (ts.drop k.toNat) []
      fun _ _ _ hb => absurd hb not_mem_nil
    obtain ⟨ranked, hpop, hranked, hsorted⟩ := @popAll_spec V _ h.size h rfl
    refine ⟨ranked, dropped, ?_, ?_, hsorted, ?_, ?_⟩
    · rw [topK, if_neg hall, hrun]
      simp only [orIndex, Bind.bind, Except.bind, hpop]
    · refine (hranked.append_right _).trans (hperm.trans ?_)
      exact (hheap.append_right _).trans (List.Perm.of_eq (take_append_drop _ ts))
    · exact fun a ha b hb => hle a (hranked.mem_iff.mp ha) b hb
    · rw [hranked.length_eq, MinHeap.length_toList, hsize', hsize, if_neg (by omega),
        min_eq_left hk.2.le]

end TopK

/-! ## §4  Probabilities -/

theorem Exp.at_nonneg (e : Exp K) (v : WithBot K) : 0 ≤ e.at v := by
  cases v with
  | bot => exact le_rfl
  | coe x => exact (e.pos x).le

theorem Exp.at_pos_iff (e : Exp K) {v : WithBot K} : 0 < e.at v ↔ v ≠ ⊥ := by
  cases v with
  | bot => exact iff_of_false (lt_irrefl 0) fun h => h rfl
  | coe x => exact iff_of_true (e.pos x) (WithBot.coe_ne_bot)

theorem Exp.at_mono (e : Exp K) : Monotone e.at := by
  intro v w hvw
  cases v with
  | bot => exact e.at_nonneg w
  | coe x =>
    cases w with
    | bot => exact absurd (le_bot_iff.mp hvw) WithBot.coe_ne_bot
    | coe y => exact e.mono.monotone (WithBot.coe_le_coe.mp hvw)

omit [Field K] in
theorem le_maxLogit {ts : List (Token (WithBot K))} {t : Token (WithBot K)} (ht : t ∈ ts) :
    t.value ≤ maxLogit ts := by
  have hfold : ∀ (ts : List (Token (WithBot K))) (m : WithBot K),
      m ≤ ts.foldl (fun m t => if m < t.value then t.value else m) m ∧
        ∀ t ∈ ts, t.value ≤ ts.foldl (fun m t => if m < t.value then t.value else m) m := by
    intro ts
    induction ts with
    | nil => exact fun m => ⟨le_rfl, fun t ht => absurd ht not_mem_nil⟩
    | cons u ts ih =>
      intro m
      obtain ⟨hstart, hrest⟩ := ih (if m < u.value then u.value else m)
      have hboth : m ≤ (if m < u.value then u.value else m) ∧
          u.value ≤ (if m < u.value then u.value else m) := by
        split
        · rename_i hlt
          exact ⟨hlt.le, le_rfl⟩
        · rename_i hge
          exact ⟨le_rfl, not_lt.mp hge⟩
      refine ⟨hboth.1.trans hstart, fun t ht => ?_⟩
      rcases mem_cons.mp ht with rfl | ht
      · exact hboth.2.trans hstart
      · exact hrest t ht
  exact (hfold ts ⊥).2 t ht

variable [IsStrictOrderedRing K]

/-- **Probabilities** are given by the logits: one function of these, increasing and positive
where they are finite, with total one. -/
theorem softmax_temperature (e : Exp K) (temp : K) {ts : List (Token (WithBot K))}
    (hfinite : ∃ t ∈ ts, t.value ≠ ⊥) :
    ∃ f : WithBot K → K, Monotone f ∧ (∀ v, 0 ≤ f v) ∧ (∀ v, 0 < f v ↔ v ≠ ⊥) ∧
      softmax e (temperature temp ts) = some (ts.map fun t => ⟨t.id, f t.value⟩) ∧
      (ts.map fun t => f t.value).sum = 1 := by
  have htemp : (0 : K) < max temp (1 / 10 ^ 7) :=
    lt_max_of_lt_right (one_div_pos.mpr (pow_pos (by norm_num) 7))
  obtain ⟨m, hm⟩ : ∃ m : K, maxLogit (temperature temp ts) = m := by
    obtain ⟨t, ht, hne⟩ := hfinite
    refine WithBot.ne_bot_iff_exists.mp (fun hbot => hne ?_) |>.imp fun _ h => h.symm
    let scaled : Token (WithBot K) := { t with value := t.value.map (· / max temp (1 / 10 ^ 7)) }
    have hmem : scaled ∈ temperature temp ts := mem_map.mpr ⟨t, ht, rfl⟩
    have hle := le_maxLogit hmem
    rw [hbot, le_bot_iff] at hle
    exact WithBot.map_eq_bot_iff.mp hle
  -- the exponential of a logit, before the division
  let g : WithBot K → K := fun v =>
    e.at ((v.map (· / max temp (1 / 10 ^ 7))).map (· - m))
  have hg_mono : Monotone g := by
    refine e.at_mono.comp (Monotone.comp ?_ ?_)
    · exact Monotone.withBot_map fun x y hxy => sub_le_sub_right hxy m
    · exact Monotone.withBot_map fun x y hxy => div_le_div_of_nonneg_right hxy htemp.le
  have hg_nonneg : ∀ v, 0 ≤ g v := fun v => e.at_nonneg _
  have hg_pos : ∀ v, 0 < g v ↔ v ≠ ⊥ := by
    intro v
    rw [e.at_pos_iff, ne_eq, WithBot.map_eq_bot_iff, WithBot.map_eq_bot_iff]
  have hsum : 0 < (ts.map fun t => g t.value).sum := by
    obtain ⟨t, ht, hne⟩ := hfinite
    refine ((hg_pos _).mpr hne).trans_le (single_le_sum ?_ _ (mem_map.mpr ⟨t, ht, rfl⟩))
    exact forall_mem_map.mpr fun u _ => hg_nonneg u.value
  refine ⟨fun v => g v / (ts.map fun t => g t.value).sum, ?_, ?_, ?_, ?_, ?_⟩
  · exact fun v w hvw => div_le_div_of_nonneg_right (hg_mono hvw) hsum.le
  · exact fun v => div_nonneg (hg_nonneg v) hsum.le
  · exact fun v => (div_pos_iff_of_pos_right hsum).trans (hg_pos v)
  · rw [softmax, hm]
    simp only [normalize, temperature, map_map]
    rfl
  · simp only [div_eq_mul_inv]
    rw [sum_map_mul_right, mul_inv_cancel₀ hsum.ne']

/-! ## §5  What is cut -/

/-- `m` is the length of the shortest start of the list whose total exceeds `p`, or of all. -/
structure Shortest (values : List K) (p : K) (m : ℕ) : Prop where
  le : m ≤ values.length
  enough : m = values.length ∨ p < (values.take m).sum
  least : ∀ m' < m, (values.take m').sum ≤ p

omit [IsStrictOrderedRing K] in
theorem topPLoop_spec {p : K} {sum : K} (ts : List (Token K)) (hsum : sum ≤ p) :
    ∃ m, topPLoop p sum ts = ts.take m ∧ m ≤ ts.length ∧
      (m = ts.length ∨ p < sum + ((ts.map Token.value).take m).sum) ∧
      ∀ m' < m, sum + ((ts.map Token.value).take m').sum ≤ p := by
  induction ts generalizing sum with
  | nil => exact ⟨0, rfl, le_rfl, Or.inl rfl, fun _ h => absurd h (Nat.not_lt_zero _)⟩
  | cons t ts ih =>
    by_cases hover : p < sum + t.value
    · refine ⟨1, if_pos hover, Nat.succ_le_succ (Nat.zero_le _), Or.inr ?_, ?_⟩
      · rw [map_cons, take_succ_cons, take_zero, sum_singleton]
        exact hover
      · intro m' hm'
        rw [Nat.lt_one_iff.mp hm', take_zero, sum_nil, add_zero]
        exact hsum
    · obtain ⟨m, hm, hle, henough, hleast⟩ := ih (not_lt.mp hover)
      refine ⟨m + 1, ?_, Nat.succ_le_succ hle, ?_, ?_⟩
      · rw [topPLoop, if_neg hover, hm, take_succ_cons]
      · rw [map_cons, take_succ_cons, sum_cons, ← add_assoc]
        exact henough.imp_left (congrArg Nat.succ)
      intro m' hm'
      cases m' with
      | zero =>
        rw [take_zero, sum_nil, add_zero]
        exact hsum
      | succ m' =>
        rw [map_cons, take_succ_cons, sum_cons, ← add_assoc]
        exact hleast m' (Nat.lt_of_succ_lt_succ hm')

/-- **The shortest start** is what `topP` returns. -/
theorem topP_spec {p : K} (hp : 0 ≤ p) {ts : List (Token K)} (hnonneg : ∀ t ∈ ts, 0 ≤ t.value)
    (htotal : (ts.map Token.value).sum = 1) :
    ∃ m, topP ts p = ts.take m ∧ Shortest (ts.map Token.value) p m := by
  by_cases hone : p = 1
  · refine ⟨ts.length, ?_, (length_map _).ge, Or.inl (length_map _).symm, ?_⟩
    · rw [topP, if_pos hone, take_length]
    · intro m' _
      rw [hone, ← htotal]
      refine List.Sublist.sum_le_sum (take_sublist m' _) ?_
      exact forall_mem_map.mpr hnonneg
  · obtain ⟨m, hm, hle, henough, hleast⟩ := topPLoop_spec ts hp
    simp only [zero_add] at henough hleast
    refine ⟨m, (if_neg hone).trans hm, ?_, ?_, hleast⟩
    · rw [length_map]
      exact hle
    · rw [length_map]
      exact henough

/-- **The probable ones** are what `minP` returns, the first among them. -/
theorem minP_spec {p : K} (hp : p ≤ 1) {t : Token K} {ts : List (Token K)} (ht : 0 ≤ t.value) :
    ∃ m, minP (t :: ts) p = .ok ((t :: ts).take m) ∧ 0 < m ∧
      ∀ u ∈ (t :: ts).take m, t.value * p ≤ u.value := by
  let kept := (t :: ts).takeWhile fun u => !decide (u.value < t.value * p)
  have hpre : kept <+: t :: ts := takeWhile_prefix _
  have hfirst : kept = t :: ts.takeWhile fun u => !decide (u.value < t.value * p) := by
    refine takeWhile_cons_of_pos ?_
    rw [Bool.not_eq_true', decide_eq_false_iff_not]
    exact not_lt.mpr (mul_le_of_le_one_right ht hp)
  refine ⟨kept.length, ?_, ?_, ?_⟩
  · rw [← prefix_iff_eq_take.mp hpre]
    rfl
  · rw [hfirst]
    exact Nat.succ_pos _
  · intro u hu
    rw [← prefix_iff_eq_take.mp hpre] at hu
    have hkeep := mem_takeWhile_imp hu
    rw [Bool.not_eq_true', decide_eq_false_iff_not] at hkeep
    exact not_lt.mp hkeep

end Ollama.Sampling
