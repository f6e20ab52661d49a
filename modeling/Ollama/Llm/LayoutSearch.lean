import Ollama.Llm.FiniteLayouts
import Ollama.Llm.Load

/-!
# The layout search
-/

namespace Ollama.Llm

open Lib List OllamaServer LoadOperation

/-! ## §1  The search ends -/

namespace OllamaServer

variable {n : ℕ} (srv : OllamaServer n)

def bound : ℕ := srv.gpus.length * n

noncomputable def hashes : Finset ℕ :=
  ((finite_fits srv.ids n srv.gpus.length).toFinset).image fun l => srv.hash l.digest

theorem mem_hashes {l : Layout} (h : Fits srv.ids n srv.gpus.length l) :
    srv.hash l.digest ∈ srv.hashes :=
  Finset.mem_image.mpr ⟨l, (finite_fits _ _ _).mem_toFinset.mpr h, rfl⟩

/-- What holds wherever `Load` is. -/
structure Running (st : LoadState n) : Prop where
  backoff : st.backoff ≤ 10
  fits : Fits srv.ids n srv.gpus.length st.gpuLayers
  not_close : st.operation ≠ .close
  commit : st.operation = .commit → st.point = .request
  trial : ∀ resp i, st.point = .trial resp i → i ≤ srv.bound
  verify : ∀ resp new i, st.point = .verify resp new i →
    (st.gpuLayers.sum : ℤ) ≤ i ∧ i ≤ srv.bound ∧ Fits srv.ids n srv.gpus.length new

/-- Turns that are left within one backoff. -/
def weight (st : LoadState n) : ℕ :=
  match st.point with
  | .start => 2 * srv.bound + 9
  | .request => 2 * srv.bound + 8
  | .adjust _ => 2 * srv.bound + 7
  | .trial _ i => 2 * (i - st.gpuLayers.sum + 1).toNat + 2
  | .verify _ _ i => 2 * (i - st.gpuLayers.sum + 1).toNat + 1
  | .settle _ => 1

/-- The hashes that are in `pastAllocations`, or are about to be. -/
def seen (st : LoadState n) : Finset ℕ :=
  match st.point with
  | .request => insert (srv.hash st.gpuLayers.digest) st.pastAllocations.toFinset
  | _ => st.pastAllocations.toFinset

def LoadOperation.left : LoadOperation → ℕ
  | .fit => 2
  | .alloc => 1
  | .commit => 0
  | .close => 0

noncomputable def phase (st : LoadState n) : ℕ :=
  LoadOperation.left st.operation * (srv.hashes.card + 1) + (srv.hashes \ srv.seen st).card +
    (10 - st.backoff)

noncomputable def variant (st : LoadState n) : ℕ :=
  srv.phase st * (2 * srv.bound + 10) + srv.weight st

variable {srv} {st st' : LoadState n}

theorem Running.weight_lt (h : srv.Running st) : srv.weight st < 2 * srv.bound + 10 := by
  unfold weight
  cases hp : st.point with
  | start => simp only; omega
  | request => simp only; omega
  | adjust resp => simp only; omega
  | trial resp i =>
    have := h.trial resp i hp
    simp only
    omega
  | verify resp new i =>
    obtain ⟨-, hi, -⟩ := h.verify resp new i hp
    simp only
    omega
  | settle resp => simp only; omega

theorem variant_lt_of_phase (h : srv.phase st' < srv.phase st) (h' : srv.Running st') :
    srv.variant st' < srv.variant st := by
  have hw := h'.weight_lt
  unfold variant
  calc _ < srv.phase st' * (2 * srv.bound + 10) + (2 * srv.bound + 10) := by omega
    _ = (srv.phase st' + 1) * (2 * srv.bound + 10) := (Nat.succ_mul _ _).symm
    _ ≤ srv.phase st * (2 * srv.bound + 10) := Nat.mul_le_mul_right _ h
    _ ≤ _ := Nat.le_add_right _ _

theorem variant_lt_of_weight (h : srv.phase st' ≤ srv.phase st)
    (hw : srv.weight st' < srv.weight st) : srv.variant st' < srv.variant st :=
  Nat.add_lt_add_of_le_of_lt (Nat.mul_le_mul_right _ h) hw

theorem phase_next (hop : st.operation = .fit ∨ st.operation = .alloc)
    (hnext : st'.operation = st.operation.next) (hback : st'.backoff = st.backoff) :
    srv.phase st' < srv.phase st := by
  unfold phase
  rw [hnext, hback]
  have hcard : (srv.hashes \ srv.seen st').card ≤ srv.hashes.card :=
    Finset.card_le_card Finset.sdiff_subset
  rcases hop with h | h <;> rw [h] <;> simp only [LoadOperation.next, LoadOperation.left] <;> omega

theorem phase_eq (hop : st'.operation = st.operation) (hback : st'.backoff = st.backoff)
    (hseen : srv.seen st' = srv.seen st) : srv.phase st' = srv.phase st := by
  unfold phase
  rw [hop, hback, hseen]

theorem Running.early (h : srv.Running st) (hp : st.point ≠ .request) :
    st.operation = .fit ∨ st.operation = .alloc := by
  cases hop : st.operation with
  | fit => exact Or.inl rfl
  | alloc => exact Or.inr rfl
  | commit => exact absurd (h.commit hop) hp
  | close => exact absurd hop h.not_close

theorem next_ne_close {op : LoadOperation} (h : op = .fit ∨ op = .alloc) : op.next ≠ .close := by
  rcases h with rfl | rfl <;> decide

/-- The layout that is made in a turn, when `createLayout` returns. -/
theorem turn_cases (hconv : ∀ a, srv.layoutFor st = some a → srv.LayoutConverges a.1 a.2.1 a.2.2) :
    (srv.layoutFor st = none ∧ srv.turn st = some (srv.without st)) ∨
      (srv.layoutFor st ≠ none ∧ ∃ e, srv.turn st = some (srv.fail st e)) ∨
      (srv.layoutFor st ≠ none ∧ ∃ new numGPU, Fits srv.ids n srv.gpus.length new ∧
        srv.turn st = some (srv.withLayout st new numGPU)) := by
  unfold turn
  cases ha : srv.layoutFor st with
  | none => exact Or.inl ⟨rfl, rfl⟩
  | some a =>
    obtain ⟨⟨result, numGPU'⟩, hr⟩ := (srv.createLayout_isSome_iff _ _ _).mpr (hconv _ ha)
    refine Or.inr ?_
    simp only [hr, Option.map_some]
    cases result with
    | error e => exact Or.inl ⟨Option.some_ne_none _, e, rfl⟩
    | ok new =>
      exact Or.inr ⟨Option.some_ne_none _, new, numGPU', srv.createLayout_fits hr, rfl⟩

/-- A request that is answered is for a layout that counts as seen. -/
theorem Running.requested (h : srv.Running st) (hp : st.point = .request) :
    (∃ r, srv.request st = .inr r) ∨
      ∃ st', srv.request st = .inl st' ∧ srv.Running st' ∧ srv.variant st' < srv.variant st := by
  unfold request
  cases srv.initModel st.calls st.operation st.gpuLayers with
  | none => exact Or.inl ⟨_, rfl⟩
  | some resp =>
    simp only
    split
    · split <;> exact Or.inl ⟨_, rfl⟩
    rename_i hop
    refine Or.inr ⟨_, rfl, ⟨h.backoff, h.fits, h.not_close, fun hc => absurd hc hop, ?_, ?_⟩, ?_⟩
    · exact nofun
    · exact nofun
    · refine variant_lt_of_weight (le_of_eq (phase_eq rfl rfl ?_)) ?_
      · simp only [seen, hp, toFinset_cons]
      · simp only [weight, hp]
        omega

variable {resp : LoadResponse n}

/-- A new layout has not been seen, or ends the loop. -/
theorem Running.adjusted (h : srv.Running st) (hp : st.point = .adjust resp)
    {new : Layout} (hnew : Fits srv.ids n srv.gpus.length new) (numGPU : ℤ) :
    srv.Running (srv.adjust st resp new numGPU) ∧
      srv.variant (srv.adjust st resp new numGPU) < srv.variant st := by
  have hop := h.early (by rw [hp]; exact fun h => by cases h)
  have hcommit : st.operation ≠ .commit := by rcases hop with h | h <;> rw [h] <;> decide
  have hsum : new.sum ≤ srv.bound := hnew.sum_le
  unfold adjust
  simp only
  split
  · rename_i hunseen
    have hrun : srv.Running { st with numGPU := numGPU, gpuLayers := new, point := .request } :=
      ⟨h.backoff, hnew, h.not_close, fun hc => absurd hc hcommit, nofun, nofun⟩
    refine ⟨hrun, variant_lt_of_phase ?_ hrun⟩
    unfold phase
    simp only [seen, hp]
    have hlt : (srv.hashes \ insert (srv.hash new.digest) st.pastAllocations.toFinset).card <
        (srv.hashes \ st.pastAllocations.toFinset).card := by
      refine Finset.card_lt_card (Finset.ssubset_iff_subset_ne.mpr ⟨?_, fun heq => ?_⟩)
      · exact Finset.sdiff_subset_sdiff (Finset.Subset.refl _) (Finset.subset_insert _ _)
      · have hmem : srv.hash new.digest ∈ srv.hashes \ st.pastAllocations.toFinset :=
          Finset.mem_sdiff.mpr ⟨srv.mem_hashes hnew, fun hm =>
            hunseen.1 (mem_toFinset.mp hm)⟩
        rw [← heq] at hmem
        exact (Finset.mem_sdiff.mp hmem).2 (Finset.mem_insert_self _ _)
    omega
  · split
    · have hrun : srv.Running
          { st with numGPU := numGPU, point := .trial resp ((new.sum : ℤ) - 1) } :=
        ⟨h.backoff, h.fits, h.not_close, fun hc => absurd hc hcommit, fun _ _ h => by
          cases h
          omega, nofun⟩
      refine ⟨hrun, variant_lt_of_weight (le_of_eq (phase_eq rfl rfl ?_)) ?_⟩
      · simp only [seen, hp]
      · simp only [weight, hp]
        omega
    · have hrun : srv.Running { st with numGPU := numGPU, point := .settle resp } :=
        ⟨h.backoff, h.fits, h.not_close, fun hc => absurd hc hcommit, nofun, nofun⟩
      refine ⟨hrun, variant_lt_of_weight (le_of_eq (phase_eq rfl rfl ?_)) ?_⟩
      · simp only [seen, hp]
      · simp only [weight, hp]
        omega

theorem Running.tried (h : srv.Running st) {i : ℤ}
    (hp : st.point = .trial resp i) (hi : (st.gpuLayers.sum : ℤ) ≤ i) {new : Layout}
    (hnew : Fits srv.ids n srv.gpus.length new) :
    (∃ r, srv.trial st i new = .inr r) ∨ ∃ st', srv.trial st i new = .inl st' ∧ srv.Running st' ∧
        srv.variant st' < srv.variant st := by
  have hop := h.early (by rw [hp]; exact fun h => by cases h)
  have hcommit : st.operation ≠ .commit := by rcases hop with h | h <;> rw [h] <;> decide
  have hbound := h.trial resp i hp
  unfold OllamaServer.trial
  cases srv.initModel st.calls st.operation new with
  | none => exact Or.inl ⟨_, rfl⟩
  | some answer =>
    simp only
    split
    · refine Or.inr ⟨_, rfl, ⟨h.backoff, h.fits, h.not_close, fun hc => absurd hc hcommit,
        nofun, fun _ _ _ h => ?_⟩, ?_⟩
      · cases h
        exact ⟨hi, hbound, hnew⟩
      · refine variant_lt_of_weight (le_of_eq (phase_eq rfl rfl ?_)) ?_
        · simp only [seen, hp]
        · simp only [weight, hp]
          omega
    · refine Or.inr ⟨_, rfl, ⟨h.backoff, h.fits, h.not_close, fun hc => absurd hc hcommit,
        fun _ _ h => ?_, nofun⟩, ?_⟩
      · cases h
        omega
      · refine variant_lt_of_weight (le_of_eq (phase_eq rfl rfl ?_)) ?_
        · simp only [seen, hp]
        · simp only [weight, hp]
          omega

theorem Running.verified (h : srv.Running st) {resp : LoadResponse n} {new : Layout} {i : ℤ}
    (hp : st.point = .verify resp new i) (verified : Layout) (numGPU : ℤ) :
    srv.Running (OllamaServer.verify st resp new i verified numGPU) ∧
      srv.variant (OllamaServer.verify st resp new i verified numGPU) < srv.variant st := by
  have hop := h.early (by rw [hp]; exact fun h => by cases h)
  have hcommit : st.operation ≠ .commit := by rcases hop with h | h <;> rw [h] <;> decide
  obtain ⟨hi, hbound, hnew⟩ := h.verify resp new i hp
  unfold OllamaServer.verify
  split
  · have hrun : srv.Running { st with
          numGPU := numGPU
          gpuLayers := new
          pastAllocations := []
          operation := st.operation.next
          point := .request } :=
      ⟨h.backoff, hnew, next_ne_close hop, fun _ => rfl, nofun, nofun⟩
    exact ⟨hrun, variant_lt_of_phase (phase_next hop rfl rfl) hrun⟩
  · refine ⟨⟨h.backoff, h.fits, h.not_close, fun hc => absurd hc hcommit,
      fun _ _ h => ?_, nofun⟩, ?_⟩
    · cases h
      omega
    · refine variant_lt_of_weight (le_of_eq (phase_eq rfl rfl ?_)) ?_
      · simp only [seen, hp]
      · simp only [weight, hp]
        omega

theorem one_lt_backoffValue : Single.one < backoffValue 10 := by decide +kernel

theorem Running.settled (h : srv.Running st) (hp : st.point = .settle resp) :
    (∃ r, srv.settle st resp = .inr r) ∨ ∃ st', srv.settle st resp = .inl st' ∧ srv.Running st' ∧
        srv.variant st' < srv.variant st := by
  have hop := h.early (by rw [hp]; exact fun h => by cases h)
  have hcommit : st.operation ≠ .commit := by rcases hop with h | h <;> rw [h] <;> decide
  unfold settle
  split
  · have hrun : srv.Running { st with operation := st.operation.next, point := .request } :=
      ⟨h.backoff, h.fits, next_ne_close hop, fun _ => rfl, nofun, nofun⟩
    exact Or.inr ⟨_, rfl, hrun, variant_lt_of_phase (phase_next hop rfl rfl) hrun⟩
  split
  · exact Or.inl ⟨_, rfl⟩
  split
  · exact Or.inl ⟨_, rfl⟩
  rename_i hback
  have hne : st.backoff ≠ 10 := fun h10 => hback (by rw [h10]; exact one_lt_backoffValue)
  have hle := h.backoff
  have hrun : srv.Running { st with backoff := st.backoff + 1, point := .adjust resp } :=
    ⟨by simp only; omega, h.fits, h.not_close, fun hc => absurd hc hcommit, nofun, nofun⟩
  refine Or.inr ⟨_, rfl, hrun, variant_lt_of_phase ?_ hrun⟩
  unfold phase
  simp only [seen, hp]
  omega

/-- **A turn brings the search closer to its end**, when its layout is made. -/
theorem Running.turn (h : srv.Running st)
    (hconv : ∀ a, srv.layoutFor st = some a → srv.LayoutConverges a.1 a.2.1 a.2.2) :
    (∃ r, srv.turn st = some (.inr r)) ∨ ∃ st', srv.turn st = some (.inl st') ∧ srv.Running st' ∧
        srv.variant st' < srv.variant st := by
  rcases turn_cases hconv with ⟨hnone, hturn⟩ | ⟨-, e, hturn⟩ | ⟨hsome, new, numGPU, hnew, hturn⟩
  · rw [hturn]
    unfold without
    unfold layoutFor at hnone
    cases hp : st.point with
    | start => rw [hp] at hnone; cases hnone
    | adjust resp => rw [hp] at hnone; cases hnone
    | verify resp new i => rw [hp] at hnone; cases hnone
    | request =>
      rcases h.requested hp with ⟨r, hr⟩ | ⟨st', hst', hrun⟩
      · exact Or.inl ⟨r, congrArg some hr⟩
      · exact Or.inr ⟨st', congrArg some hst', hrun⟩
    | trial resp i =>
      have hop := h.early (by rw [hp]; exact fun h => by cases h)
      have hcommit : st.operation ≠ .commit := by rcases hop with h | h <;> rw [h] <;> decide
      refine Or.inr ⟨_, rfl, ⟨h.backoff, h.fits, h.not_close, fun hc => absurd hc hcommit,
        nofun, nofun⟩, ?_⟩
      refine variant_lt_of_weight (le_of_eq (phase_eq rfl rfl ?_)) ?_
      · simp only [seen, hp]
      · simp only [weight, hp]
        omega
    | settle resp =>
      rcases h.settled hp with ⟨r, hr⟩ | ⟨st', hst', hrun⟩
      · exact Or.inl ⟨r, congrArg some hr⟩
      · exact Or.inr ⟨st', congrArg some hst', hrun⟩
  · exact Or.inl ⟨_, hturn⟩
  rw [hturn]
  unfold withLayout
  unfold layoutFor at hsome
  cases hp : st.point with
  | start =>
    have hop := h.early (by rw [hp]; exact fun h => by cases h)
    have hcommit : st.operation ≠ .commit := by rcases hop with h | h <;> rw [h] <;> decide
    simp only
    split
    · refine Or.inr ⟨_, rfl, ⟨h.backoff, hnew, h.not_close, fun hc => absurd hc hcommit,
        nofun, nofun⟩, ?_⟩
      refine variant_lt_of_weight ?_ ?_
      · unfold phase
        simp only [seen, hp]
        have : (srv.hashes \ insert (srv.hash new.digest) st.pastAllocations.toFinset).card ≤
            (srv.hashes \ st.pastAllocations.toFinset).card :=
          Finset.card_le_card
            (Finset.sdiff_subset_sdiff (Finset.Subset.refl _) (Finset.subset_insert _ _))
        omega
      · simp only [weight, hp]
        omega
    · exact Or.inl ⟨_, rfl⟩
  | request => rw [hp] at hsome; exact absurd rfl hsome
  | settle resp => rw [hp] at hsome; exact absurd rfl hsome
  | adjust resp => exact Or.inr ⟨_, rfl, h.adjusted hp hnew numGPU⟩
  | trial resp i =>
    have hi : (st.gpuLayers.sum : ℤ) ≤ i := by
      by_contra hlt
      rw [hp] at hsome
      simp only [if_neg hlt] at hsome
      exact hsome rfl
    rcases h.tried hp hi hnew with ⟨r, hr⟩ | ⟨st', hst', hrun⟩
    · exact Or.inl ⟨r, congrArg some hr⟩
    · exact Or.inr ⟨st', congrArg some hst', hrun⟩
  | verify resp l i => exact Or.inr ⟨_, rfl, h.verified hp new numGPU⟩

theorem start_running : srv.Running srv.start :=
  ⟨Nat.zero_le _, Fits.nil _ _ _, noConfusion, nofun, nofun, nofun⟩

/-! ## §2  What is committed has been allocated -/

def lastAlloc (calls : List (Call n)) : Option (Call n) := calls.find? (·.operation = .alloc)

def Allocated (calls : List (Call n)) (l : Layout) : Prop :=
  ∃ c, lastAlloc calls = some c ∧ c.layout = l ∧ ∃ resp, c.answer = some resp ∧ resp.success = true

instance (calls : List (Call n)) (l : Layout) : Decidable (Allocated calls l) :=
  decidable_of_iff ((lastAlloc calls).any fun c =>
      decide (c.layout = l) && (c.answer.any (·.success))) <| by
    unfold Allocated
    cases lastAlloc calls with
    | none => simp
    | some c => cases h : c.answer <;> simp [h]

/-- Every commit, the calls being listed from the last one, is of what was
allocated. -/
def CommitsAllocated : List (Call n) → Prop
  | [] => True
  | c :: calls => (c.operation = .commit → Allocated calls c.layout) ∧ CommitsAllocated calls

instance decidableCommitsAllocated :
    ∀ calls : List (Call n), Decidable (CommitsAllocated calls)
  | [] => isTrue trivial
  | _ :: calls =>
      have := decidableCommitsAllocated calls
      inferInstanceAs (Decidable (_ ∧ _))

variable (srv) in
/-- Where the search does not go wrong: the capacity searches for the layout of
this turn end; and where the exploration of intermediate layer counts has ended
with an allocation that succeeded, that was for the layout at hand. -/
structure Good (st : LoadState n) : Prop where
  converges : ∀ a, srv.layoutFor st = some a → srv.LayoutConverges a.1 a.2.1 a.2.2
  settles : ∀ resp, st.point = .settle resp → st.operation = .alloc → resp.success = true →
    ∃ c, lastAlloc st.calls = some c ∧ c.layout = st.gpuLayers

def Point.pending : Point n → Option (LoadResponse n)
  | .adjust resp => some resp
  | .trial resp _ => some resp
  | .settle resp => some resp
  | _ => none

def Point.verifying : Point n → Option (LoadResponse n × Layout)
  | .verify resp new _ => some (resp, new)
  | _ => none

structure Asked (st : LoadState n) : Prop where
  no_commit : ∀ c ∈ st.calls, c.operation ≠ .commit
  commit : st.operation = .commit → Allocated st.calls st.gpuLayers
  last : st.operation = .alloc → ∀ resp, Point.pending st.point = some resp →
    ∃ l, lastAlloc st.calls = some ⟨.alloc, l, some resp⟩
  verify : st.operation = .alloc → ∀ trial, Point.verifying st.point = some trial →
    lastAlloc st.calls = some ⟨.alloc, trial.2, some trial.1⟩
  success : ∀ trial, Point.verifying st.point = some trial → trial.1.success = true

theorem lastAlloc_cons {op : LoadOperation} (hop : op = .alloc) (l : Layout)
    (answer : Option (LoadResponse n)) (calls : List (Call n)) :
    lastAlloc (⟨op, l, answer⟩ :: calls) = some ⟨.alloc, l, answer⟩ := by
  subst hop
  exact find?_cons_of_pos rfl

theorem commitsAllocated_of_no_commit {calls : List (Call n)}
    (h : ∀ c ∈ calls, c.operation ≠ .commit) : CommitsAllocated calls := by
  induction calls with
  | nil => trivial
  | cons c calls ih =>
    exact ⟨fun hc => absurd hc (h c mem_cons_self), ih fun c' hc' => h c' (mem_cons_of_mem _ hc')⟩

theorem start_asked : Asked srv.start :=
  ⟨fun _ h => absurd h not_mem_nil, nofun, nofun, nofun, nofun⟩

/-- What a turn must keep. -/
def Kept : LoadState n ⊕ LoadResult n → Prop
  | .inl st => Asked st
  | .inr r => CommitsAllocated r.calls

section

variable (h : Asked st)
include h

theorem Asked.fail (e : LoadError) : Kept (srv.fail st e) :=
  ⟨noConfusion, commitsAllocated_of_no_commit h.no_commit⟩

/-- A request is answered. -/
theorem Asked.requested : Kept (srv.request st) := by
  unfold request
  have hcalls : ∀ answer : Option (LoadResponse n),
      CommitsAllocated (⟨st.operation, st.gpuLayers, answer⟩ :: st.calls) := fun answer =>
    ⟨h.commit, commitsAllocated_of_no_commit h.no_commit⟩
  cases srv.initModel st.calls st.operation st.gpuLayers with
  | none => exact ⟨noConfusion, hcalls none⟩
  | some resp =>
    simp only
    split
    · split
      · exact hcalls (some resp)
      · exact ⟨noConfusion, hcalls (some resp)⟩
    · rename_i hop
      refine ⟨forall_mem_cons.mpr ⟨hop, h.no_commit⟩, fun hc => absurd hc hop,
        fun halloc resp' hp' => ?_, nofun, nofun⟩
      cases hp'
      exact ⟨_, lastAlloc_cons halloc _ _ _⟩

theorem Asked.tried (hcommit : st.operation ≠ .commit) (i : ℤ) (new : Layout) :
    Kept (srv.trial st i new) := by
  unfold trial
  cases srv.initModel st.calls st.operation new with
  | none =>
    exact ⟨noConfusion, fun hc => absurd hc hcommit, commitsAllocated_of_no_commit h.no_commit⟩
  | some resp =>
    simp only
    split
    · rename_i hsuccess
      refine ⟨forall_mem_cons.mpr ⟨hcommit, h.no_commit⟩, fun hc => absurd hc hcommit,
        nofun, fun halloc _ hp' => ?_, fun _ hp' => ?_⟩
      · cases hp'
        exact lastAlloc_cons halloc _ _ _
      · cases hp'
        exact hsuccess
    · refine ⟨forall_mem_cons.mpr ⟨hcommit, h.no_commit⟩, fun hc => absurd hc hcommit,
        fun halloc _ hp' => ?_, nofun, nofun⟩
      cases hp'
      exact ⟨new, lastAlloc_cons halloc _ _ _⟩

theorem Asked.moved (hcommit : st.operation ≠ .commit) {point : Point n}
    (hlast : ∀ resp, Point.pending point = some resp → st.operation = .alloc →
      ∃ l, lastAlloc st.calls = some ⟨.alloc, l, some resp⟩)
    (hverify : Point.verifying point = none) (l : Layout) (numGPU : ℤ) (backoff : ℕ) :
    Asked { st with point := point, gpuLayers := l, numGPU := numGPU, backoff := backoff } :=
  ⟨h.no_commit, fun hc => absurd hc hcommit, fun halloc resp hp => hlast resp hp halloc,
    fun _ trial hp => absurd (hverify.symm.trans hp) (by simp),
    fun trial hp => absurd (hverify.symm.trans hp) (by simp)⟩

theorem Asked.moved_pending (hcommit : st.operation ≠ .commit) {point : Point n}
    (hp : Point.pending point = Point.pending st.point)
    (hverify : Point.verifying point = none) (l : Layout) (numGPU : ℤ) (backoff : ℕ) :
    Asked { st with point := point, gpuLayers := l, numGPU := numGPU, backoff := backoff } :=
  h.moved hcommit (fun resp hp' halloc => h.last halloc resp (hp.symm.trans hp')) hverify l numGPU
    backoff

/-- Going on to the next operation with a layout that was allocated, if there is
one. -/
theorem Asked.next (hop : st.operation = .fit ∨ st.operation = .alloc)
    {l : Layout} (hl : st.operation = .alloc → Allocated st.calls l) (numGPU : ℤ)
    (past : List ℕ) :
    Asked { st with
        point := .request
        gpuLayers := l
        numGPU := numGPU
        pastAllocations := past
        operation := st.operation.next } := by
  refine ⟨h.no_commit, fun hc => ?_, nofun, nofun, nofun⟩
  rcases hop with hop | hop
  · rw [hop] at hc
    cases hc
  · exact hl hop

theorem Asked.settled (hrun : srv.Running st) (hgood : srv.Good st)
    (hp : st.point = .settle resp) : Kept (srv.settle st resp) := by
  have hop := hrun.early (by rw [hp]; exact nofun)
  have hcommit : st.operation ≠ .commit := by rcases hop with h | h <;> rw [h] <;> decide
  unfold settle
  split
  · rename_i hsuccess
    refine h.next hop (fun halloc => ?_) st.numGPU st.pastAllocations
    obtain ⟨l, hlast⟩ := h.last halloc resp (by rw [hp]; rfl)
    obtain ⟨c, hc, hlayout⟩ := hgood.settles resp hp halloc hsuccess
    rw [hlast] at hc
    cases hc
    exact ⟨_, hlast, hlayout, resp, rfl, hsuccess⟩
  · split
    · exact h.fail _
    · split
      · exact h.fail _
      · exact h.moved_pending hcommit (by rw [hp]; rfl) rfl _ _ _

/-- A layout that has been made is used. -/
theorem Asked.withLayout (hrun : srv.Running st) (hlayout : srv.layoutFor st ≠ none)
    (new : Layout) (numGPU : ℤ) : Kept (srv.withLayout st new numGPU) := by
  have hearly : st.point ≠ .request →
      st.operation ≠ .commit ∧ (st.operation = .fit ∨ st.operation = .alloc) := by
    intro hp
    have hop := hrun.early hp
    exact ⟨by rcases hop with h | h <;> rw [h] <;> decide, hop⟩
  unfold OllamaServer.withLayout
  unfold layoutFor at hlayout
  cases hp : st.point with
  | request => rw [hp] at hlayout; exact absurd rfl hlayout
  | settle resp => rw [hp] at hlayout; exact absurd rfl hlayout
  | start =>
    obtain ⟨hcommit, -⟩ := hearly (by rw [hp]; exact nofun)
    simp only
    split
    · exact h.moved hcommit (fun _ hp' _ => by cases hp') rfl _ _ _
    · exact h.fail _
  | adjust resp =>
    obtain ⟨hcommit, -⟩ := hearly (by rw [hp]; exact nofun)
    simp only [OllamaServer.adjust]
    split
    · exact h.moved hcommit (fun _ hp' _ => by cases hp') rfl _ _ _
    · split
      · exact h.moved_pending hcommit (by rw [hp]; rfl) rfl _ _ _
      · exact h.moved_pending hcommit (by rw [hp]; rfl) rfl _ _ _
  | trial resp i =>
    obtain ⟨hcommit, -⟩ := hearly (by rw [hp]; exact nofun)
    exact h.tried hcommit i new
  | verify resp l i =>
    obtain ⟨hcommit, hop⟩ := hearly (by rw [hp]; exact nofun)
    have hlast : st.operation = .alloc → lastAlloc st.calls = some ⟨.alloc, l, some resp⟩ :=
      fun halloc => h.verify halloc (resp, l) (by rw [hp]; rfl)
    simp only [OllamaServer.verify]
    split
    · exact h.next hop (fun halloc => ⟨_, hlast halloc, rfl, resp, rfl,
        h.success (resp, l) (by rw [hp]; rfl)⟩) numGPU []
    · refine h.moved hcommit (fun resp' hp' halloc => ?_) rfl _ _ _
      cases hp'
      exact ⟨l, hlast halloc⟩

/-- **A turn keeps track of what was allocated**, where it does not go wrong. -/
theorem Asked.turn (hrun : srv.Running st) (hgood : srv.Good st)
    {x : LoadState n ⊕ LoadResult n} (hx : srv.turn st = some x) : Kept x := by
  rcases turn_cases hgood.converges with ⟨hnone, hturn⟩ | ⟨-, e, hturn⟩ |
    ⟨hlayout, new, numGPU, -, hturn⟩
  · rw [hturn] at hx
    rw [← Option.some.inj hx]
    unfold without
    unfold layoutFor at hnone
    cases hp : st.point with
    | start => rw [hp] at hnone; cases hnone
    | adjust resp => rw [hp] at hnone; cases hnone
    | verify resp new i => rw [hp] at hnone; cases hnone
    | request => exact h.requested
    | settle resp => exact h.settled hrun hgood hp
    | trial resp i =>
      have hop := hrun.early (by rw [hp]; exact nofun)
      have hcommit : st.operation ≠ .commit := by rcases hop with h | h <;> rw [h] <;> decide
      exact h.moved_pending hcommit (by rw [hp]; rfl) rfl _ _ _
  · rw [hturn] at hx
    rw [← Option.some.inj hx]
    exact h.fail e
  · rw [hturn] at hx
    rw [← Option.some.inj hx]
    exact h.withLayout hrun hlayout new numGPU

end

/-- The commit ends the search. -/
theorem turn_commit (hop : st.operation = .commit) (hp : st.point = .request) :
    ∃ r, srv.turn st = some (.inr r) ∧
      (CommitsAllocated r.calls → Allocated st.calls st.gpuLayers) := by
  have hturn : srv.turn st = some (srv.request st) := by
    unfold turn layoutFor without
    rw [hp]
  rw [hturn]
  unfold request
  simp only [hop]
  cases srv.initModel st.calls .commit st.gpuLayers with
  | none => exact ⟨_, rfl, fun h => h.2.1 rfl⟩
  | some resp =>
    simp only [if_true]
    split
    · exact ⟨_, rfl, fun h => h.1 rfl⟩
    · exact ⟨_, rfl, fun h => h.2.1 rfl⟩

/-- A search that comes to a wrong place does not return, or commits what was not
allocated. -/
theorem good_of_returns {turns : ℕ} {r : LoadResult n} (hr : Loop.run srv.turn turns st = some r)
    (hcommits : CommitsAllocated r.calls) : srv.Good st := by
  refine ⟨fun a ha => ?_, fun resp hp halloc hsuccess => ?_⟩
  · refine (srv.createLayout_isSome_iff _ _ _).mp (Option.ne_none_iff_exists'.mp fun hnone => ?_)
    have hturn : srv.turn st = none := by
      unfold turn
      rw [ha]
      simp only [hnone, Option.map_none]
    cases turns with
    | zero => cases hr
    | succ turns =>
      rw [Loop.run, hturn] at hr
      cases hr
  · -- the next two turns go on to the commit and send it
    have hfirst : srv.turn st =
        some (.inl { st with operation := .commit, point := .request }) := by
      unfold turn layoutFor without settle
      rw [hp]
      simp only [if_pos hsuccess, halloc, LoadOperation.next]
    obtain ⟨r', hsecond, hallocated⟩ := @turn_commit _ srv
      { st with operation := .commit, point := .request } rfl rfl
    have hrun := Loop.run_inl (n := 1) hfirst
    rw [Loop.run_inr hsecond] at hrun
    rw [Loop.run_unique hr hrun] at hcommits
    obtain ⟨c, hc, hl, -⟩ := hallocated hcommits
    exact ⟨c, hc, hl⟩

/-- **The layout search returns, and commits only what it allocated, exactly when
it never comes to a place where it goes wrong.** -/
theorem load_returns_allocated_iff (srv : OllamaServer n) :
    (∃ turns r, srv.load turns = some r ∧ CommitsAllocated r.calls) ↔
      ∀ st, Loop.Reaches srv.turn srv.start st → srv.Good st := by
  constructor
  · rintro ⟨turns, r, hr, hcommits⟩ st hst
    obtain ⟨m, hm⟩ := Loop.run_of_reaches hst hr
    exact good_of_returns hm hcommits
  intro hgood
  have hkept : ∀ st, Loop.Reaches srv.turn srv.start st → srv.Running st ∧ Asked st := by
    intro st hst
    induction hst with
    | refl => exact ⟨start_running, start_asked⟩
    | step hst hturn ih =>
      obtain ⟨hrun, hasked⟩ := ih
      refine ⟨?_, hasked.turn hrun (hgood _ hst) hturn⟩
      rcases hrun.turn (hgood _ hst).converges with ⟨r, hr⟩ | ⟨st', hst', hrun', -⟩
      · rw [hturn] at hr
        cases hr
      · rw [hturn] at hst'
        cases hst'
        exact hrun'
  obtain ⟨r, hr⟩ := @Loop.run_of_variant _ _ srv.turn srv.start
    (fun st => Loop.Reaches srv.turn srv.start st) srv.variant (by
      intro st hst
      rcases (hkept st hst).1.turn (hgood st hst).converges with hr | ⟨st', hst', -, hlt⟩
      · exact Or.inl hr
      · exact Or.inr ⟨st', hst', hst.step hst', hlt⟩) .refl
  obtain ⟨st, hst, hlast⟩ := Loop.exists_last hr
  obtain ⟨hrun, hasked⟩ := hkept st hst
  exact ⟨_, r, hr, hasked.turn hrun (hgood st hst) hlast⟩

/-! ## §3  Where it goes wrong -/

/-- A report on three layers of a size that are all in system memory, with a
graph on the first of two GPUs. -/
def report (size graph : ℕ) : BackendMemory 3 where
  inputWeights := 0
  cpu := ⟨⟨"", ""⟩, List.replicate 3 size, List.replicate 3 0, 0, rfl, rfl⟩
  gpus := [⟨⟨"0", "CUDA"⟩, List.replicate 3 0, List.replicate 3 0, graph, rfl, rfl⟩,
    ⟨⟨"1", "CUDA"⟩, List.replicate 3 0, List.replicate 3 0, 0, rfl, rfl⟩]

/-- Fitting leads to a layer on the second GPU; the first allocation is followed
by a report of little memory and the trials by reports of much. -/
def answers (calls : List (Call 3)) (op : LoadOperation) (_ : Layout) : Option (LoadResponse 3) :=
  if op = .fit then some ⟨true, report (10 * 2 ^ 30) (11 * 2 ^ 30)⟩
  else if calls.any (·.operation = .alloc) then some ⟨true, report (100 * 2 ^ 30) 0⟩
  else some ⟨true, report (2 ^ 30) 0⟩

def sampleServer (mem : Option (BackendMemory 3)) (numGPU : ℤ) : OllamaServer 3 where
  systemInfo := ⟨2 ^ 40, 2 ^ 40, 0⟩
  gpus := [⟨⟨"0", "CUDA"⟩, false, 12 * 2 ^ 30 + 1⟩, ⟨⟨"1", "CUDA"⟩, false, 12 * 2 ^ 30⟩]
  requireFull := false
  gpuOverhead := 0
  schedSpread := false
  darwin := false
  sorter := GpuSort.insertion
  hash := fun digest => digest.foldl (fun h p =>
    p.2.foldl (fun h i => 31 * h + i) (31 * h + if p.1 = "1CUDA" then 1 else 0)) 7
  initModel := answers
  launched := true
  mem := mem
  numGPU := numGPU

/-- A layout that was not the last one to be allocated is committed; and a request
for two large layers is not answered at all. -/
theorem load_goes_wrong :
    (¬∃ turns r, (sampleServer none (-1)).load turns = some r ∧ CommitsAllocated r.calls) ∧
      ∀ turns, (sampleServer (some (report (300 * 2 ^ 30) 0)) 2).load turns = none := by
  constructor
  · rintro ⟨turns, r, hr, hcommits⟩
    have hrun : ((sampleServer none (-1)).load 30).any
        (fun r => !decide (CommitsAllocated r.calls)) = true := by decide +kernel
    cases hload : (sampleServer none (-1)).load 30 with
    | none =>
      rw [hload] at hrun
      cases hrun
    | some r' =>
      rw [hload, Option.any_some, ← Loop.run_unique hr hload] at hrun
      rw [decide_eq_true hcommits] at hrun
      cases hrun
  · have hstart : (sampleServer (some (report (300 * 2 ^ 30) 0)) 2).turn
        (sampleServer (some (report (300 * 2 ^ 30) 0)) 2).start = none := by
      by_contra hne
      refine absurd ?_ (show ¬(sampleServer (some (report (300 * 2 ^ 30) 0)) 2).LayoutConverges
        (some (report (300 * 2 ^ 30) 0)) 2 0 by decide +kernel)
      refine (Machine.createLayout_isSome_iff _ _ _ _).mp
        (Option.ne_none_iff_exists'.mp fun hnone => hne ?_)
      unfold turn layoutFor
      exact congrArg (Option.map _) hnone
    intro turns
    cases turns with
    | zero => rfl
    | succ turns =>
      unfold load
      rw [Loop.run, hstart]

end OllamaServer

end Ollama.Llm
