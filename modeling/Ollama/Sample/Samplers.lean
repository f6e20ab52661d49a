import Mathlib.Data.List.Sort
import Mathlib.Tactic.Linarith
import Ollama.Sample.Transforms

/-!
# Sampling: model of `sample/samplers.go`
-/

namespace Ollama.Sampling

open List

/-! ## §1  Binary search -/

/-- The loop of `slices.BinarySearchFunc`, for a comparison that never says equal. -/
def binarySearchFrom {α : Type} (l : List α) (less : α → Bool) (i j : ℕ) : Except Err ℕ :=
  if i < j then do
    let x ← index l ((i + j) / 2)
    if less x then binarySearchFrom l less ((i + j) / 2 + 1) j
    else binarySearchFrom l less i ((i + j) / 2)
  else .ok i
termination_by j - i

def binarySearchFunc {α : Type} (l : List α) (less : α → Bool) : Except Err ℕ :=
  binarySearchFrom l less 0 l.length

def Split {α : Type} (l : List α) (less : α → Bool) : Prop :=
  ∀ (i j : ℕ) (x y : α), i ≤ j → l[i]? = some x → l[j]? = some y → less y = true → less x = true

theorem binarySearchFrom_spec {α : Type} {l : List α} {less : α → Bool} (hsplit : Split l less)
    (i j : ℕ) (hij : i ≤ j) (hj : j ≤ l.length)
    (hbelow : ∀ k < i, ∀ x, l[k]? = some x → less x = true)
    (habove : ∀ k, j ≤ k → ∀ x, l[k]? = some x → less x = false) :
    ∃ n, binarySearchFrom l less i j = .ok n ∧ n ≤ l.length ∧
      (∀ k < n, ∀ x, l[k]? = some x → less x = true) ∧
      ∀ k, n ≤ k → ∀ x, l[k]? = some x → less x = false := by
  induction i, j using binarySearchFrom.induct with
  | case1 i j hlt ihlow ihhigh =>
    have hmid : (i + j) / 2 < l.length := by omega
    have hget : l[(i + j) / 2]? = some l[(i + j) / 2] := getElem?_eq_getElem hmid
    rw [binarySearchFrom, if_pos hlt, index_ok hget]
    simp only [Bind.bind, Except.bind]
    cases hless : less l[(i + j) / 2] with
    | true =>
      refine ihlow (by omega) hj (fun k hk x hx => ?_) habove
      exact hsplit k _ x _ (Nat.le_of_lt_succ hk) hx hget hless
    | false =>
      refine ihhigh (by omega) (by omega) hbelow fun k hk x hx => ?_
      cases hx' : less x with
      | false => rfl
      | true =>
        rw [hsplit _ k _ x hk hget hx hx'] at hless
        cases hless
  | case2 i j hge =>
    rw [binarySearchFrom, if_neg hge]
    exact ⟨i, rfl, hij.trans hj, hbelow, fun k hk => habove k (by omega)⟩

/-! ## §2  Sampling -/

variable {K : Type} [Field K] [LinearOrder K]

/-- `Sampler`. A grammar is known by the tokens that it accepts next. -/
structure Sampler (K : Type) where
  topK : ℤ
  topP : K
  minP : K
  temperature : K
  grammar : Option (Int32 → Bool)

/-- `NewSampler` -/
def NewSampler (temperature : K) (topK : ℤ) (topP minP : K) (grammar : Option (Int32 → Bool)) :
    Sampler K where
  topK := topK
  topP := if topP < 0 then 0 else if 1 ≤ topP then 1 else topP
  minP := if minP < 0 then 0 else if 1 ≤ minP then 1 else minP
  temperature := if temperature < 0 then 0 else temperature
  grammar := grammar

/-- The tokens of the logits, with their places as identifiers. -/
def tokensOf (logits : List (WithBot K)) : List (Token (WithBot K)) :=
  logits.mapIdx fun i v => ⟨Int32.ofNat i, v⟩

/-- `(*GrammarSampler).Apply` -/
def Apply (g : Int32 → Bool) (ts : List (Token (WithBot K))) : List (Token (WithBot K)) :=
  ts.map fun t => if g t.id then t else { t with value := ⊥ }

/-- `greedy` -/
def greedy (tokens : List (Token (WithBot K))) : Except Err (Token (WithBot K)) := do
  let first ← index tokens 0
  pure (tokens.tail.foldl (fun m t => if m.value < t.value then t else m) first)

/-- The loop of `sample` that adds up, with the sum so far. -/
def cumulative : K → List (Token K) → List (Token K)
  | _, [] => []
  | sum, t :: ts => { t with value := sum + t.value } :: cumulative (sum + t.value) ts

/-- The token that `sample` draws by `r` among those left. -/
def draw (r : K) (tokens : List (Token K)) : Except Err (Token K) := do
  let sums := cumulative 0 tokens
  let last ← index sums (sums.length - 1)
  let idx ← binarySearchFunc sums fun t => decide (t.value < r * last.value)
  index sums idx

variable (e : Exp K) (sorter : Sorter (WithBot K))

/-- `(*Sampler).sample` with the random number `r`. -/
def Sampler.sample (s : Sampler K) (r : K) (tokens : List (Token (WithBot K))) :
    Except Err (Token (WithBot K)) :=
  if s.temperature = 0 then greedy tokens
  else do
    let tokens ← Sampling.topK sorter tokens s.topK
    match softmax e (Sampling.temperature s.temperature tokens) with
    | none => .error .nan
    | some probs => do
        let probs ← Sampling.minP (Sampling.topP probs s.topP) s.minP
        let t ← draw r probs
        pure ⟨t.id, t.value⟩

/-- `(*Sampler).Sample` with the random numbers of its one or two draws. -/
def Sampler.Sample (s : Sampler K) (r₁ r₂ : K) (logits : List (WithBot K)) : Except Err Int32 :=
  if logits = [] then .error .noLogits
  else do
    let t ← s.sample e sorter r₁ (tokensOf logits)
    match s.grammar with
    | none => pure t.id
    | some g => do
        let top ← index (Apply g [t]) 0
        if top.value ≠ ⊥ then pure top.id
        else do
          let t ← s.sample e sorter r₂ (Apply g (tokensOf logits))
          pure t.id

/-! ## §3  The token that is drawn -/

omit [LinearOrder K] in
@[simp] theorem length_cumulative (sum : K) (ts : List (Token K)) :
    (cumulative sum ts).length = ts.length := by
  induction ts generalizing sum with
  | nil => rfl
  | cons t ts ih => exact congrArg Nat.succ (ih _)

omit [LinearOrder K] in
theorem cumulative_getElem? (sum : K) (ts : List (Token K)) (i : ℕ) : (cumulative sum ts)[i]? =
      ts[i]?.map fun t => ⟨t.id, sum + ((ts.take (i + 1)).map Token.value).sum⟩ := by
  induction ts generalizing sum i with
  | nil => rfl
  | cons t ts ih =>
    rw [cumulative, take_succ_cons, map_cons, sum_cons, ← add_assoc]
    cases i with
    | zero =>
      rw [getElem?_cons_zero, getElem?_cons_zero, take_zero, map_nil, sum_nil, add_zero]
      rfl
    | succ i => exact ih _ _

variable [IsStrictOrderedRing K]

/-- **A draw** is of a token with a probability, and every index is in range. -/
theorem draw_spec {r : K} (hr : 0 ≤ r ∧ r < 1) {t : Token K} {ts : List (Token K)}
    (ht : 0 < t.value) (hts : ∀ u ∈ t :: ts, 0 ≤ u.value) :
    ∃ (n : ℕ) (u : Token K) (p : K), draw r (t :: ts) = .ok ⟨u.id, p⟩ ∧ (t :: ts)[n]? = some u ∧ 0 < u.value := by
  let total := ((t :: ts).map Token.value).sum
  have hnonneg : ∀ v ∈ (t :: ts).map Token.value, 0 ≤ v := forall_mem_map.mpr hts
  have htotal : 0 < total := ht.trans_le (single_le_sum hnonneg _ mem_cons_self)
  have hget := cumulative_getElem? 0 (t :: ts)
  simp only [zero_add] at hget
  have hlast : (cumulative 0 (t :: ts))[(cumulative 0 (t :: ts)).length - 1]? =
      some ⟨(t :: ts).getLast (cons_ne_nil t ts) |>.id, total⟩ := by
    rw [length_cumulative, hget, ← getLast?_eq_getElem?,
      getLast?_eq_some_getLast (cons_ne_nil t ts), Option.map_some]
    rw [length_cons, Nat.add_sub_cancel, ← length_cons, take_length]
  -- what is less than the target comes first, for the sums increase
  have hsplit : Split (cumulative 0 (t :: ts)) fun u => decide (u.value < r * total) := by
    intro i j x y hij hx hy hless
    rw [hget] at hx hy
    obtain ⟨x', -, rfl⟩ := Option.map_eq_some_iff.mp hx
    obtain ⟨y', -, rfl⟩ := Option.map_eq_some_iff.mp hy
    rw [decide_eq_true_iff] at hless ⊢
    refine lt_of_le_of_lt ?_ hless
    have hsub : ((t :: ts).take (i + 1)).Sublist ((t :: ts).take (j + 1)) :=
      (take_prefix_take_left (Nat.succ_le_succ hij)).sublist
    refine (hsub.map Token.value).sum_le_sum fun v hv => hnonneg v ?_
    exact ((take_sublist _ _).map Token.value).mem hv
  obtain ⟨n, hn, hle, hbelow, habove⟩ := binarySearchFrom_spec hsplit 0 _ (Nat.zero_le _) le_rfl
    (fun k hk => absurd hk (Nat.not_lt_zero k)) fun k hk x hx => by
      rw [getElem?_eq_none hk] at hx
      cases hx
  have hlt : n < (t :: ts).length := by
    rw [length_cumulative] at hle
    refine lt_of_le_of_ne hle fun heq => ?_
    have hpred : (cumulative 0 (t :: ts)).length - 1 < n := by
      rw [length_cumulative, heq, length_cons]
      exact Nat.lt_succ_self _
    have hless := hbelow _ hpred _ hlast
    rw [decide_eq_true_iff] at hless
    exact absurd hless (not_lt.mpr (mul_le_of_le_one_left htotal.le hr.2.le))
  have hu : (t :: ts)[n]? = some (t :: ts)[n] := getElem?_eq_getElem hlt
  have hsum := hget n
  rw [hu, Option.map_some] at hsum
  refine ⟨n, (t :: ts)[n], (((t :: ts).take (n + 1)).map Token.value).sum, ?_, hu, ?_⟩
  · rw [draw]
    simp only [index_ok hlast, binarySearchFunc, Bind.bind, Except.bind, hn, index_ok hsum]
  have hge := habove n le_rfl _ hsum
  rw [decide_eq_false_iff_not, not_lt] at hge
  cases n with
  | zero => exact ht
  | succ n =>
    have hn' : (t :: ts)[n]? = some (t :: ts)[n] :=
      getElem?_eq_getElem (Nat.lt_of_succ_lt hlt)
    have hprev := hget n
    rw [hn', Option.map_some] at hprev
    have hless := hbelow n (Nat.lt_succ_self n) _ hprev
    rw [decide_eq_true_iff] at hless
    rw [take_succ_eq_append_getElem hlt, map_append, sum_append, map_singleton,
      sum_singleton] at hge
    exact lt_of_add_lt_add_left ((add_zero _).trans_lt (hless.trans_le hge))

/-! ## §4  A draw of `sample` -/

/-- Place `j` of the ranking is left by every filter: it is among the `topK` largest, in the
shortest start whose probabilities exceed `topP` in total, and its probability is at least
`minP` times every other. -/
structure Kept (e : Exp K) (s : Sampler K) (tokens ranked rest : List (Token (WithBot K)))
    (probs : List (Token K)) (j : ℕ) : Prop where
  ranking : Ranking s.topK tokens ranked rest
  probability : softmax e (temperature s.temperature ranked) = some probs
  topP : ∃ m, Shortest (probs.map Token.value) s.topP m ∧ j < m
  minP : ∃ q, probs[j]? = some q ∧ ∀ u ∈ probs, u.value * s.minP ≤ q.value

/-- The token has a finite logit and a place that every filter leaves. -/
def Respects (e : Exp K) (s : Sampler K) (tokens : List (Token (WithBot K)))
    (t : Token (WithBot K)) : Prop :=
  t.value ≠ ⊥ ∧ ∃ ranked rest probs j, ranked[j]? = some t ∧ Kept e s tokens ranked rest probs j

/-- The ranges that `NewSampler` clamps to. -/
structure Sampler.InRange (s : Sampler K) : Prop where
  topP : 0 ≤ s.topP ∧ s.topP ≤ 1
  minP : 0 ≤ s.minP ∧ s.minP ≤ 1

theorem NewSampler_inRange (temperature : K) (topK : ℤ) (topP minP : K)
    (grammar : Option (Int32 → Bool)) :
    (NewSampler temperature topK topP minP grammar).InRange := by
  have hclamp : ∀ x : K, 0 ≤ (if x < 0 then 0 else if 1 ≤ x then 1 else x) ∧
      (if x < 0 then 0 else if 1 ≤ x then 1 else x) ≤ 1 := by
    intro x
    split
    · exact ⟨le_rfl, zero_le_one⟩
    · rename_i hneg
      split
      · exact ⟨zero_le_one, le_rfl⟩
      · rename_i hone
        exact ⟨not_lt.mp hneg, (not_le.mp hone).le⟩
  exact ⟨hclamp topP, hclamp minP⟩

omit [Field K] [IsStrictOrderedRing K] in
/-- The best of a ranking is finite, if any token is. -/
theorem Ranking.head_finite {k : ℤ} {tokens ranked rest : List (Token (WithBot K))}
    (hrank : Ranking k tokens ranked rest) (hfinite : ∃ t ∈ tokens, t.value ≠ ⊥) :
    ∃ a as, ranked = a :: as ∧ a.value ≠ ⊥ := by
  obtain ⟨t, ht, hne⟩ := hfinite
  have hpos : 0 < tokens.length := length_pos_of_mem ht
  have hlen : 0 < ranked.length := by
    rw [hrank.length]
    split
    · exact hpos
    · exact lt_min (by omega) hpos
  obtain ⟨a, as, rfl⟩ := exists_cons_of_length_pos hlen
  refine ⟨a, as, rfl, fun hbot => hne ?_⟩
  rw [← le_bot_iff, ← hbot]
  rcases mem_append.mp (hrank.perm.mem_iff.mpr ht) with ht | ht
  · rcases mem_cons.mp ht with rfl | ht
    · exact le_rfl
    · exact rel_of_pairwise_cons hrank.sorted ht
  · exact hrank.largest a mem_cons_self t ht

/-- **One draw respects every filter**, and no index is out of range. -/
theorem sample_spec {s : Sampler K} (htemp : 0 < s.temperature) (hs : s.InRange) {r : K}
    (hr : 0 ≤ r ∧ r < 1) {tokens : List (Token (WithBot K))}
    (hfinite : ∃ t ∈ tokens, t.value ≠ ⊥) :
    ∃ (t : Token (WithBot K)) (p : K), s.sample e sorter r tokens = .ok ⟨t.id, p⟩ ∧
      Respects e s tokens t := by
  obtain ⟨ranked, rest, htopK, hrank⟩ := topK_spec sorter tokens s.topK
  obtain ⟨a, as, hranked, ha⟩ := hrank.head_finite hfinite
  obtain ⟨f, hmono, hnonneg, hpos, hsoftmax, htotal⟩ := softmax_temperature e s.temperature
    (⟨a, hranked ▸ mem_cons_self, ha⟩ : ∃ t ∈ ranked, t.value ≠ ⊥)
  let prob : Token (WithBot K) → Token K := fun t => ⟨t.id, f t.value⟩
  have hvalues : (ranked.map prob).map Token.value = ranked.map fun t => f t.value :=
    map_map
  have hprobs : ∀ u ∈ ranked.map prob, 0 ≤ u.value :=
    forall_mem_map.mpr fun t _ => hnonneg t.value
  obtain ⟨m, htopP, hshortest⟩ := topP_spec hs.topP.1 hprobs (hvalues ▸ htotal)
  -- the shortest start is not empty
  have hm : 0 < m := by
    rcases hshortest.enough with heq | hlt
    · rw [heq, length_map, length_map, hranked]
      exact Nat.succ_pos _
    · refine Nat.pos_of_ne_zero fun hzero => ?_
      rw [hzero, take_zero, sum_nil] at hlt
      exact absurd hlt (not_lt.mpr hs.topP.1)
  obtain ⟨m, rfl⟩ := Nat.exists_eq_succ_of_ne_zero hm.ne'
  have hcut : (ranked.map prob).take (m + 1) = prob a :: (as.map prob).take m := by
    rw [hranked, map_cons, take_succ_cons]
  obtain ⟨n, hminP, hn, hleast⟩ := @minP_spec K _ _ _ s.minP hs.minP.2 (prob a)
    ((as.map prob).take m) (hnonneg a.value)
  obtain ⟨n, rfl⟩ := Nat.exists_eq_succ_of_ne_zero hn.ne'
  rw [take_succ_cons] at hminP hleast
  have hkept : prob a :: ((as.map prob).take m).take n =
      ((ranked.map prob).take (m + 1)).take (n + 1) := by
    rw [hcut, take_succ_cons]
  obtain ⟨j, u, p, hdraw, hj, hu⟩ := draw_spec hr ((hpos a.value).mpr ha)
    fun v hv => hprobs v ((take_sublist _ _).mem ((take_sublist _ _).mem (hkept ▸ hv)))
  -- the place that is drawn is one of the ranking
  have hplace : (ranked.map prob)[j]? = some u ∧ j < m + 1 := by
    rw [hkept, take_take] at hj
    have hlt := List.getElem?_eq_some_iff.mp hj |>.1
    rw [length_take, length_map] at hlt
    have hjn : j < min (n + 1) (m + 1) := hlt.trans_le (min_le_left _ _)
    rw [getElem?_take_of_lt hjn] at hj
    exact ⟨hj, hjn.trans_le (min_le_right _ _)⟩
  obtain ⟨t, ht, rfl⟩ := Option.map_eq_some_iff.mp (getElem?_map ▸ hplace.1)
  refine ⟨t, p, ?_, (hpos t.value).mp hu, ranked, rest, ranked.map prob, j, ht, hrank, hsoftmax,
    ⟨m + 1, hshortest, hplace.2⟩, prob t, hplace.1, ?_⟩
  · rw [Sampler.sample, if_neg htemp.ne', htopK]
    simp only [Bind.bind, Except.bind, hsoftmax]
    rw [show ranked.map (fun t => (⟨t.id, f t.value⟩ : Token K)) = ranked.map prob from rfl,
      htopP, hcut, hminP]
    simp only [hdraw]
    rfl
  · -- the best token has the greatest probability
    intro v hv
    have hbest : v.value ≤ f a.value := by
      obtain ⟨b, hb, rfl⟩ := mem_map.mp hv
      rw [hranked] at hb
      rcases mem_cons.mp hb with rfl | hb
      · exact le_rfl
      · have hsorted := hrank.sorted
        rw [hranked] at hsorted
        exact hmono (rel_of_pairwise_cons hsorted hb)
    exact (mul_le_mul_of_nonneg_right hbest hs.minP.1).trans (hleast _ (mem_of_getElem? hj))

/-! ## §5  `Sample` -/

/-- The grammar accepts the token, or there is none. -/
def Sampler.accepts (s : Sampler K) (id : Int32) : Bool :=
  match s.grammar with
  | none => true
  | some g => g id

/-- The tokens under the mask of the grammar. -/
def Sampler.masked (s : Sampler K) (logits : List (WithBot K)) : List (Token (WithBot K)) :=
  match s.grammar with
  | none => tokensOf logits
  | some g => Apply g (tokensOf logits)

omit [IsStrictOrderedRing K] in
theorem Respects.mem {s : Sampler K} {tokens : List (Token (WithBot K))} {t : Token (WithBot K)}
    (h : Respects e s tokens t) : t ∈ tokens := by
  obtain ⟨-, ranked, rest, probs, j, hj, hkept⟩ := h
  exact hkept.ranking.perm.mem_iff.mp (mem_append_left rest (mem_of_getElem? hj))

omit [Field K] [LinearOrder K] [IsStrictOrderedRing K] in
theorem mem_of_mem_Apply {g : Int32 → Bool} {ts : List (Token (WithBot K))}
    {t : Token (WithBot K)} (h : t ∈ Apply g ts) (hfinite : t.value ≠ ⊥) : t ∈ ts := by
  obtain ⟨u, hu, rfl⟩ := mem_map.mp h
  cases hg : g u.id with
  | true => rwa [if_pos rfl]
  | false =>
    rw [hg] at hfinite
    exact absurd rfl hfinite

omit [Field K] [LinearOrder K] [IsStrictOrderedRing K] in
theorem mem_Apply {g : Int32 → Bool} {ts : List (Token (WithBot K))} {t : Token (WithBot K)}
    (h : t ∈ ts) (hg : g t.id = true) : t ∈ Apply g ts :=
  mem_map.mpr ⟨t, h, if_pos hg⟩

omit [Field K] [LinearOrder K] [IsStrictOrderedRing K] in
theorem finite_of_masked {s : Sampler K} {logits : List (WithBot K)}
    (hfinite : ∃ t ∈ s.masked logits, t.value ≠ ⊥) : ∃ t ∈ tokensOf logits, t.value ≠ ⊥ := by
  obtain ⟨t, ht, hne⟩ := hfinite
  rw [Sampler.masked] at ht
  split at ht
  · exact ⟨t, ht, hne⟩
  · exact ⟨t, mem_of_mem_Apply ht hne, hne⟩

/-- **Sampling respects every filter**: `Sample` returns a token that is finite under the mask
and respects the filters, on the logits as they are when the grammar accepts the first draw and
on the masked ones otherwise. -/
theorem Sample_respects {s : Sampler K} (htemp : 0 < s.temperature) (hs : s.InRange) {r₁ r₂ : K}
    (hr₁ : 0 ≤ r₁ ∧ r₁ < 1) (hr₂ : 0 ≤ r₂ ∧ r₂ < 1) {logits : List (WithBot K)}
    (hfinite : ∃ t ∈ s.masked logits, t.value ≠ ⊥) :
    ∃ first, s.sample e sorter r₁ (tokensOf logits) = .ok first ∧
      ∃ t ∈ s.masked logits, t.value ≠ ⊥ ∧ s.Sample e sorter r₁ r₂ logits = .ok t.id ∧
        Respects e s (if s.accepts first.id then tokensOf logits else s.masked logits) t := by
  have hlogits : logits ≠ [] := by
    rintro rfl
    obtain ⟨t, ht, -⟩ := finite_of_masked hfinite
    exact absurd ht not_mem_nil
  obtain ⟨t, p, hsample, hrespects⟩ :=
    sample_spec e sorter htemp hs hr₁ (finite_of_masked hfinite)
  refine ⟨⟨t.id, p⟩, hsample, ?_⟩
  cases hgrammar : s.grammar with
  | none =>
    have hmasked : s.masked logits = tokensOf logits := by rw [Sampler.masked, hgrammar]
    have haccepts : s.accepts t.id = true := by rw [Sampler.accepts, hgrammar]
    refine ⟨t, hmasked ▸ hrespects.mem, hrespects.1, ?_, ?_⟩
    · rw [Sampler.Sample, if_neg hlogits, hsample]
      simp only [hgrammar, Bind.bind, Except.bind]
      rfl
    · rw [if_pos haccepts]
      exact hrespects
  | some g =>
    have hmasked : s.masked logits = Apply g (tokensOf logits) := by
      rw [Sampler.masked, hgrammar]
    have haccepts : s.accepts t.id = g t.id := by rw [Sampler.accepts, hgrammar]
    cases hg : g t.id with
    | true =>
      refine ⟨t, hmasked ▸ mem_Apply hrespects.mem hg, hrespects.1, ?_, ?_⟩
      · rw [Sampler.Sample, if_neg hlogits, hsample]
        simp only [hgrammar, Bind.bind, Except.bind, Apply, map_singleton, hg, if_true]
        rfl
      · rw [if_pos (haccepts.trans hg)]
        exact hrespects
    | false =>
      -- the second draw is among what the mask leaves
      obtain ⟨t₂, p₂, hsample₂, hrespects₂⟩ := sample_spec e sorter htemp hs hr₂ hfinite
      refine ⟨t₂, hrespects₂.mem, hrespects₂.1, ?_, ?_⟩
      · rw [hmasked] at hsample₂
        rw [Sampler.Sample, if_neg hlogits, hsample]
        simp only [hgrammar, Bind.bind, Except.bind, hsample₂]
        simp only [Apply, map_singleton, hg]
        rfl
      · rw [if_neg (by rw [haccepts, hg]; exact Bool.false_ne_true)]
        exact hrespects₂

/-- A positive increasing function that is one at zero. -/
def Exp.rational : Exp ℚ where
  toFun x := if x ≤ 0 then 1 / (1 - x) else 1 + x
  pos x := by
    split
    · exact one_div_pos.mpr (by linarith)
    · linarith
  mono x y hxy := by
    dsimp only
    split_ifs with hx hy hy
    · exact one_div_lt_one_div_of_lt (by linarith) (by linarith)
    · rw [div_lt_iff₀ (by linarith)]
      nlinarith
    · exact absurd (hxy.le.trans hy) hx
    · linarith

def Sorter.insertion (V : Type) [LinearOrder V] : Sorter V where
  sort ts := ts.insertionSort fun a b => b.value ≤ a.value
  perm ts := perm_insertionSort _ ts
  sorted ts :=
    haveI : Std.Total fun a b : Token V => b.value ≤ a.value := ⟨fun a b => le_total b.value a.value⟩
    haveI : IsTrans (Token V) fun a b => b.value ≤ a.value := ⟨fun _ _ _ h₁ h₂ => h₂.trans h₁⟩
    pairwise_insertionSort _ ts

/-- Of two equal logits, the grammar accepts the second. -/
theorem Sample_respects_masked :
    let s : Sampler ℚ := NewSampler 1 40 (9 / 10) (1 / 20) (some fun id => id == 1)
    let logits : List (WithBot ℚ) := [((0 : ℚ) : WithBot ℚ), ((0 : ℚ) : WithBot ℚ)]
    ∃ first, s.sample Exp.rational (Sorter.insertion _) (1 / 4) (tokensOf logits) = .ok first ∧
      ∃ t ∈ s.masked logits, t.value ≠ ⊥ ∧
        s.Sample Exp.rational (Sorter.insertion _) (1 / 4) (1 / 2) logits = .ok t.id ∧
        Respects Exp.rational s
          (if s.accepts first.id then tokensOf logits else s.masked logits) t :=
  have hsecond : (⟨1, ((0 : ℚ) : WithBot ℚ)⟩ : Token (WithBot ℚ)) ∈
      tokensOf [((0 : ℚ) : WithBot ℚ), ((0 : ℚ) : WithBot ℚ)] :=
    mem_cons_of_mem _ (mem_singleton_self _)
  Sample_respects Exp.rational (Sorter.insertion _) (by norm_num [NewSampler])
    (NewSampler_inRange _ _ _ _ _) (by norm_num) (by norm_num)
    ⟨_, @mem_Apply ℚ (fun id => id == 1) _ _ hsecond rfl, WithBot.coe_ne_bot⟩

end Ollama.Sampling
