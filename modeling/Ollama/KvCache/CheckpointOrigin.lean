import Ollama.KvCache.RecurrentView

/-!
# Where a checkpoint comes from

A run of the recurrent cache is traced by the tokens each sequence holds with
their positions: those it has processed and those it was given by `CopyPrefix`.
When tokens are distinct, a checkpoint whose last token is the token a sequence
holds at the position of the checkpoint was captured when that very token was
processed, for the sequence or for one it shares the position with.
-/

namespace Ollama.KvCache

open Recurrent List SlotCheckpointStore Function

variable {τ : Type}

/-! ## §1  Traces -/

/-- A cache with the tokens each sequence holds. -/
structure Traced (τ : Type) where
  cache : Recurrent τ
  hist : Int → List (Int × τ)

/-- Some token is held at the position or after it. -/
def Reaches (h : List (Int × τ)) (pos : Int) : Prop := ∃ e ∈ h, pos ≤ e.1

instance (h : List (Int × τ)) (pos : Int) : Decidable (Reaches h pos) :=
  inferInstanceAs (Decidable (∃ e ∈ h, pos ≤ e.1))

def ownTokens (batch : Batch) (tokens : List τ) (q : Int) : List (Int × τ) :=
  ((batch.zip tokens).filter fun p => decide (p.1.seq = q)).map fun p => (p.1.pos, p.2)

/-- What is left of the tokens of a sequence after `Remove`. -/
def removeTokens (b e : Int) (h : List (Int × τ)) : List (Int × τ) :=
  if e = maxInt32 then h.filter fun x => decide (x.1 < b)
  else (h.map fun x => (shiftPos b e x.1, x.2)).filter fun x => decide (0 ≤ x.1)

/-! ## §2  The runs -/

inductive Act (τ : Type) where
  | forward (batch : Batch) (tokens : List τ) (maxMoves : Int)
  | reserve (batch : Batch) (maxMoves : Int)
  | ensureWritableAll
  | ensureWritable
  | copyPrefix (srcSeq dstSeq len : Int)
  | prepareRestore (seq targetPos : Int)
  | remove (seq beginIndex endIndex : Int) (shiftFails : Bool)

/-- A call on the cache, and what it does to the tokens: a call that fails
leaves them as they are. -/
def Traced.apply (s : Traced τ) : Act τ → Traced τ
  | .forward batch tokens maxMoves =>
      match s.cache.forwardPass batch tokens maxMoves with
      | (c, none) => ⟨c, fun q => s.hist q ++ ownTokens batch tokens q⟩
      | (c, some _) => ⟨c, s.hist⟩
  | .reserve batch maxMoves => ⟨(s.cache.startForward batch true maxMoves).1, s.hist⟩
  | .ensureWritableAll => ⟨s.cache.ensureWritableAll.1, s.hist⟩
  | .ensureWritable => ⟨s.cache.ensureWritable.1, s.hist⟩
  | .copyPrefix srcSeq dstSeq len =>
      ⟨s.cache.copyPrefix srcSeq dstSeq len,
        update s.hist dstSeq ((s.hist srcSeq).filter fun e => decide (e.1 < len))⟩
  | .prepareRestore seq targetPos => ⟨(s.cache.prepareRestore seq targetPos).1, s.hist⟩
  | .remove seq b e shiftFails =>
      match s.cache.remove seq b e shiftFails with
      | (c, none) => ⟨c, update s.hist seq (removeTokens b e (s.hist seq))⟩
      | (c, some _) => ⟨c, s.hist⟩

/-- A batch as the runner builds it: a token for each entry, and the positions
of a sequence increase from where it stands. -/
structure Continues (batch : Batch) (tokens : List τ) (hist : Int → List (Int × τ)) : Prop where
  length : batch.length = tokens.length
  increasing : ∀ q, ((ownTokens batch tokens q).map Prod.fst).Pairwise (· < ·)
  above : ∀ q, ∀ e ∈ ownTokens batch tokens q, ¬Reaches (hist q) e.1

/-- The sequences are among `ids`, and batches are well formed. -/
def Act.Proper (ids : Finset Int) (s : Traced τ) : Act τ → Prop
  | .forward batch tokens _ => (∀ e ∈ batch, e.seq ∈ ids) ∧ Continues batch tokens s.hist
  | .reserve batch _ => ∀ e ∈ batch, e.seq ∈ ids
  | .copyPrefix srcSeq dstSeq _ => srcSeq ≠ dstSeq ∧ dstSeq ∈ ids
  | _ => True

/-- The runs of a recurrent cache with `n` slots and sequences in `ids`. -/
def originSystem (ids : Finset Int) (n : ℕ) : Lib.System (Traced τ) (Act τ) where
  init s := ∃ kv count minPos interval, s = ⟨Recurrent.init kv n count minPos interval, fun _ => []⟩
  step s act s' := act.Proper ids s ∧ s' = s.apply act

/-- **The condition on the calls**: a `CopyPrefix` frees no slot that holds
checkpoints, a pass carries no sequence to a checkpoint in its slot that lies
beyond what the sequence holds, and no restore is asked for beyond it either. -/
def Careful (s : Traced τ) : Act τ → Prop
  | .forward batch tokens _ => ∀ q x, s.cache.view q = some x → ∀ m ∈ x.marks,
      Reaches (s.hist q ++ ownTokens batch tokens q) m.1 → Reaches (s.hist q) m.1
  | .copyPrefix _ dstSeq _ => ¬s.cache.FreesMarks dstSeq
  | .prepareRestore seq targetPos => Reaches (s.hist seq) (targetPos - 1)
  | _ => True

/-! ## §3  The invariant -/

def Labelled (h : List (Int × τ)) (m : Int × List τ) : Prop :=
  ∃ t, (m.1, t) ∈ h ∧ m.2.getLast? = some t

/-- Every checkpoint a sequence sees, as far as the sequence reaches, is its
own. -/
structure Traced.Owned (ids : Finset Int) (n : ℕ) (s : Traced τ) : Prop where
  clean : Clean ids n s.cache
  labelled : ∀ q x, s.cache.view q = some x → ∀ m ∈ x.marks, Reaches (s.hist q) m.1 →
    Labelled (s.hist q) m

variable {ids : Finset Int} {n : ℕ} {s : Traced τ}

theorem Traced.Owned.fewer (h : s.Owned ids n)
    {c : Recurrent τ} (hc : Clean ids n c) (hf : FewerMarks s.cache c) :
    (⟨c, s.hist⟩ : Traced τ).Owned ids n := by
  refine ⟨hc, fun q y hy m hm hr => ?_⟩
  obtain ⟨x, hx, hsub⟩ := hf q y hy
  exact h.labelled q x hx m (hsub hm) hr

theorem posMax_snoc (batch : Batch) (e : BatchEntry) (q : Int) : posMax (batch ++ [e]) q =
      if e.seq = q then
        match posMax batch q with
        | none => some e.pos
        | some pos => some (max pos e.pos)
      else posMax batch q := by
  exact foldl_append

/-- `posMax` is the greatest position of the sequence in the batch. -/
theorem posMax_spec (batch : Batch) (q : Int) : (posMax batch q = none → ∀ e ∈ batch, e.seq ≠ q) ∧
    ∀ p, posMax batch q = some p →
      (∃ e ∈ batch, e.seq = q ∧ e.pos = p) ∧ ∀ e ∈ batch, e.seq = q → e.pos ≤ p := by
  induction batch using List.reverseRecOn with
  | nil => exact ⟨fun _ e he => absurd he not_mem_nil, fun p hp => by cases hp⟩
  | append_singleton batch e ih =>
    obtain ⟨ihnone, ihsome⟩ := ih
    rw [posMax_snoc]
    by_cases hseq : e.seq = q
    · rw [if_pos hseq]
      refine ⟨fun hn => ?_, fun p hp => ?_⟩
      · split at hn
        · cases hn
        · cases hn
      cases hmax : posMax batch q with
      | none =>
        rw [hmax] at hp
        cases hp
        refine ⟨⟨e, by simp, hseq, rfl⟩, fun e' he' hq => ?_⟩
        rcases mem_append.mp he' with hmem | hmem
        · exact absurd hq (ihnone hmax e' hmem)
        · rw [mem_singleton.mp hmem]
      | some pos =>
        rw [hmax] at hp
        have hp' : max pos e.pos = p := Option.some.inj hp
        obtain ⟨⟨e₀, he₀, hq₀, hpos₀⟩, hle⟩ := ihsome pos hmax
        refine ⟨?_, fun e' he' hq => ?_⟩
        · rcases le_total pos e.pos with hlt | hlt
          · exact ⟨e, by simp, hseq, by omega⟩
          · exact ⟨e₀, mem_append_left _ he₀, hq₀, by omega⟩
        rcases mem_append.mp he' with hmem | hmem
        · have := hle e' hmem hq
          omega
        · rw [mem_singleton.mp hmem]
          omega
    · rw [if_neg hseq]
      have hsplit : ∀ e' ∈ batch ++ [e], e'.seq = q → e' ∈ batch := by
        intro e' he' hq
        rcases mem_append.mp he' with hmem | hmem
        · exact hmem
        · rw [mem_singleton.mp hmem] at hq
          exact absurd hq hseq
      refine ⟨fun hn e' he' hq => ihnone hn e' (hsplit e' he' hq) hq, fun p hp => ?_⟩
      obtain ⟨⟨e₀, he₀, h₀⟩, hle⟩ := ihsome p hp
      exact ⟨⟨e₀, mem_append_left _ he₀, h₀⟩, fun e' he' hq => hle e' (hsplit e' he' hq) hq⟩

theorem seqTokens_eq (batch : Batch) (tokens : List τ) (q : Int) :
    seqTokens batch tokens q = (ownTokens batch tokens q).map Prod.snd := by
  unfold seqTokens ownTokens
  rw [map_map]
  rfl

variable {batch : Batch} {tokens : List τ}

theorem mem_ownTokens {q : Int} {x : Int × τ}
    (h : x ∈ ownTokens batch tokens q) : ∃ e ∈ batch, e.seq = q ∧ e.pos = x.1 := by
  obtain ⟨⟨e, t⟩, he, rfl⟩ := mem_map.mp h
  obtain ⟨hmem, hseq⟩ := mem_filter.mp he
  exact ⟨e, (of_mem_zip hmem).1, of_decide_eq_true hseq, rfl⟩

theorem exists_ownToken (hlen : batch.length = tokens.length)
    {e : BatchEntry} (he : e ∈ batch) : ∃ t, (e.pos, t) ∈ ownTokens batch tokens e.seq := by
  obtain ⟨i, hi⟩ := mem_iff_getElem?.mp he
  have hlt : i < tokens.length := hlen ▸ (List.getElem?_eq_some_iff.mp hi).1
  refine ⟨tokens[i], mem_map.mpr ⟨(e, tokens[i]), ?_, rfl⟩⟩
  refine mem_filter.mpr ⟨mem_of_getElem? (getElem?_zip_eq_some.mpr
    ⟨hi, getElem?_eq_getElem _⟩), decide_eq_true rfl⟩

/-- **The label of a new checkpoint**: the last token of the sequence in the
batch is the one at its greatest position. -/
theorem Continues.last {hist : Int → List (Int × τ)}
    (h : Continues batch tokens hist) {q p : Int} (hp : posMax batch q = some p) :
    ∃ t, (p, t) ∈ ownTokens batch tokens q ∧ (seqTokens batch tokens q).getLast? = some t := by
  obtain ⟨⟨e, he, rfl, rfl⟩, hmax⟩ := (posMax_spec batch q).2 p hp
  obtain ⟨t, ht⟩ := exists_ownToken h.length he
  have hincr := h.increasing e.seq
  rw [seqTokens_eq]
  generalize hown : ownTokens batch tokens e.seq = own at ht hincr ⊢
  have hle : ∀ x ∈ own, x.1 ≤ e.pos := by
    intro x hx
    rw [← hown] at hx
    obtain ⟨e', he', hseq, hpos⟩ := mem_ownTokens hx
    rw [← hpos]
    exact hmax e' he' hseq
  -- the entry at the greatest position is the last of an increasing list
  induction own using List.reverseRecOn with
  | nil => cases ht
  | append_singleton own x _ =>
    rw [map_append, map_cons, map_nil, getLast?_concat]
    have hx : x.1 = e.pos := by
      rcases mem_append.mp ht with hmem | hmem
      · rw [map_append, map_cons, map_nil, pairwise_append] at hincr
        have hlt := hincr.2.2 e.pos (mem_map.mpr ⟨_, hmem, rfl⟩) x.1 mem_cons_self
        have := hle x (by simp)
        omega
      · rw [← mem_singleton.mp hmem]
    refine ⟨x.2, ?_, rfl⟩
    rw [← hx]
    exact mem_append_right _ mem_cons_self

/-! ## §4  The steps -/

/-- **A forward pass** keeps the checkpoints labelled. -/
theorem Traced.Owned.forward (hcard : ids.card ≤ n) (h : s.Owned ids n) {maxMoves : Int}
    (hproper : (Act.forward batch tokens maxMoves).Proper ids s)
    (hcareful : Careful s (.forward batch tokens maxMoves)) :
    (s.apply (.forward batch tokens maxMoves)).Owned ids n := by
  obtain ⟨hids, hcont⟩ := hproper
  have hpass (hnil : (s.cache.forwardPass batch tokens maxMoves).2 = none) :=
    Clean.forwardPass hcard h.clean hids hnil
  have hfail (hne : (s.cache.forwardPass batch tokens maxMoves).2 ≠ none) :=
    Clean.forwardPass_unseen hcard h.clean hids hne
  rw [Traced.apply]
  generalize s.cache.forwardPass batch tokens maxMoves = r at hpass hfail
  obtain ⟨c, err⟩ := r
  cases err with
  | some e =>
    obtain ⟨hc, hv⟩ := hfail (by simp)
    exact h.fewer hc (FewerMarks.of_view hv)
  | none =>
    have hp := hpass rfl
    refine ⟨hp.clean, fun q y hy m hm hr => ?_⟩
    have hr' : Reaches (s.hist q ++ ownTokens batch tokens q) m.1 := hr
    -- a checkpoint the sequence saw before is labelled already
    have hold : ∀ x, s.cache.view q = some x → m ∈ x.marks →
        Labelled (s.hist q ++ ownTokens batch tokens q) m := by
      intro x hx hmx
      obtain ⟨t, ht, hlast⟩ := h.labelled q x hx m hmx (hcareful q x hx m hmx hr')
      exact ⟨t, mem_append_left _ ht, hlast⟩
    by_cases hq : q ∈ batchSeqs batch
    · obtain ⟨y', hy', hstate, hmarks⟩ := (hp.views q).inside hq
      have hyy : y' = y := Option.some.inj (hy'.symm.trans hy)
      subst hyy
      rcases hmarks m hm with hmold | ⟨hpos, hst⟩
      · cases hview : s.cache.view q with
        | none =>
          rw [hview] at hmold
          exact hmold.elim
        | some x =>
          rw [hview] at hmold
          exact hold x hview hmold
      · obtain ⟨t, ht, hlast⟩ := hcont.last hpos
        refine ⟨t, mem_append_right _ ht, ?_⟩
        rw [hst, hstate, getLast?_append, hlast]
        rfl
    · have hout := (hp.views q).outside hq
      rw [show Recurrent.view c q = s.cache.view q from hout] at hy
      exact hold y hy hm

/-- **A fork** gives the destination the tokens and the checkpoints of the
source. -/
theorem Traced.Owned.copyPrefix (h : s.Owned ids n)
    {srcSeq dstSeq len : Int} (hproper : (Act.copyPrefix srcSeq dstSeq len).Proper ids s)
    (hcareful : Careful s (.copyPrefix srcSeq dstSeq len)) :
    (s.apply (.copyPrefix srcSeq dstSeq len)).Owned ids n := by
  obtain ⟨hc, hview, _, _⟩ := h.clean.copyPrefix hproper.1 hproper.2 len hcareful
  refine ⟨hc, fun q y hy m hm hr => ?_⟩
  have hy' : update s.cache.view dstSeq (s.cache.view srcSeq) q = some y := by
    rw [← hview]
    exact hy
  show Labelled (update s.hist dstSeq _ q) m
  have hr' : Reaches (update s.hist dstSeq
    ((s.hist srcSeq).filter fun e => decide (e.1 < len)) q) m.1 := hr
  by_cases hq : q = dstSeq
  · rw [hq, update_self] at hy' hr' ⊢
    obtain ⟨e, he, hle⟩ := hr'
    obtain ⟨hmem, hlt⟩ := mem_filter.mp he
    obtain ⟨t, ht, hlast⟩ := h.labelled srcSeq y hy' m hm ⟨e, hmem, hle⟩
    have hlt' := of_decide_eq_true hlt
    exact ⟨t, mem_filter.mpr ⟨ht, decide_eq_true (Int.lt_of_le_of_lt hle hlt')⟩, hlast⟩
  · rw [update_of_ne hq] at hy' hr' ⊢
    exact h.labelled q y hy' m hm hr'

theorem shiftPos_lt {b e p q : Int} (hpq : p < q)
    (hp : 0 ≤ shiftPos b e p) (hq : 0 ≤ shiftPos b e q) :
    shiftPos b e p < shiftPos b e q := by
  unfold shiftPos at hp hq ⊢
  grind

/-- Checkpoints and tokens shift together. -/
theorem shiftMarks_labelled {b e : Int} {h : List (Int × τ)} {marks : Set (Int × List τ)}
    (he : e ≠ maxInt32) (hlab : ∀ m ∈ marks, Reaches h m.1 → Labelled h m)
    {m : Int × List τ} (hm : m ∈ shiftMarks b e marks) (hr : Reaches (removeTokens b e h) m.1) :
    Labelled (removeTokens b e h) m := by
  have hmem : ∀ x : Int × τ, x ∈ h → 0 ≤ shiftPos b e x.1 →
      (shiftPos b e x.1, x.2) ∈ removeTokens b e h := by
    intro x hx hpos
    rw [removeTokens, if_neg he]
    exact mem_filter.mpr ⟨mem_map.mpr ⟨x, hx, rfl⟩, decide_eq_true hpos⟩
  obtain ⟨p, hp, hshift, hpos⟩ := hm
  obtain ⟨y, hy, hle⟩ := hr
  rw [removeTokens, if_neg he] at hy
  obtain ⟨hy', hypos⟩ := mem_filter.mp hy
  obtain ⟨x, hx, rfl⟩ := mem_map.mp hy'
  have hypos' : 0 ≤ shiftPos b e x.1 := of_decide_eq_true hypos
  have hreach : Reaches h p := by
    refine ⟨x, hx, ?_⟩
    by_contra hlt
    have := shiftPos_lt (Int.not_le.mp hlt) hypos' (by rw [hshift]; exact hpos)
    omega
  obtain ⟨t, ht, hlast⟩ := hlab (p, m.2) hp hreach
  refine ⟨t, ?_, hlast⟩
  rw [← hshift]
  exact hmem (p, t) ht (by rw [hshift]; exact hpos)

theorem Traced.Owned.remove (hcard : ids.card ≤ n)
    (h : s.Owned ids n) (seq b e : Int) (shiftFails : Bool) :
    (s.apply (.remove seq b e shiftFails)).Owned ids n := by
  obtain ⟨hc, hfail, hnil⟩ := h.clean.remove hcard seq b e shiftFails
  rw [Traced.apply]
  generalize s.cache.remove seq b e shiftFails = r at hc hfail hnil
  obtain ⟨c, err⟩ := r
  cases err with
  | some err => exact h.fewer hc (hfail (by simp))
  | none =>
    obtain ⟨hmiddle, hsuffix, hall⟩ := hnil rfl
    -- the other sequences see and hold the same
    have hlab : ∀ (view : Int → Option (Content τ)), (∀ q, q ≠ seq → view q = s.cache.view q) →
        (∀ y, view seq = some y → ∀ m ∈ y.marks, Reaches (removeTokens b e (s.hist seq)) m.1 →
          Labelled (removeTokens b e (s.hist seq)) m) →
        ∀ q y, view q = some y → ∀ m ∈ y.marks,
          Reaches (update s.hist seq (removeTokens b e (s.hist seq)) q) m.1 →
          Labelled (update s.hist seq (removeTokens b e (s.hist seq)) q) m := by
      intro view hother hmine q y hy m hm hr
      by_cases hq : q = seq
      · rw [hq, update_self] at hr ⊢
        rw [hq] at hy
        exact hmine y hy m hm hr
      · rw [update_of_ne hq] at hr ⊢
        rw [hother q hq] at hy
        exact h.labelled q y hy m hm hr
    refine ⟨hc, ?_⟩
    by_cases hb : 0 < b
    · by_cases he : e = maxInt32
      · have hf : FewerMarks s.cache c := hsuffix hb he
        intro q y hy m hm hr
        obtain ⟨x, hx, hsub⟩ := hf q y hy
        have hr' : Reaches (update s.hist seq (removeTokens b e (s.hist seq)) q) m.1 := hr
        show Labelled (update s.hist seq (removeTokens b e (s.hist seq)) q) m
        by_cases hq : q = seq
        · rw [hq, update_self, removeTokens, if_pos he] at hr' ⊢
          rw [hq] at hx
          obtain ⟨w, hw, hle⟩ := hr'
          obtain ⟨hmem, hlt⟩ := mem_filter.mp hw
          obtain ⟨t, ht, hlast⟩ := h.labelled seq x hx m (hsub hm) ⟨w, hmem, hle⟩
          have hlt' := of_decide_eq_true hlt
          exact ⟨t, mem_filter.mpr ⟨ht, decide_eq_true (Int.lt_of_le_of_lt hle hlt')⟩, hlast⟩
        · rw [update_of_ne hq] at hr' ⊢
          exact h.labelled q x hx m (hsub hm) hr'
      · have hview : c.view = _ := hmiddle hb he
        rw [show (⟨c, _⟩ : Traced τ).cache.view = _ from hview]
        refine hlab _ (fun q hq => update_of_ne hq _ _) fun y hy m hm hr => ?_
        rw [update_self] at hy
        obtain ⟨x, hx, rfl⟩ := Option.map_eq_some_iff.mp hy
        exact shiftMarks_labelled he (h.labelled seq x hx) hm hr
    · have hview : c.view = _ := hall (Int.not_lt.mp hb)
      rw [show (⟨c, _⟩ : Traced τ).cache.view = _ from hview]
      refine hlab _ (fun q hq => update_of_ne hq _ _) fun y hy => ?_
      rw [update_self] at hy
      cases hy

theorem init_owned (kv : Causal) (count : ℕ) (minPos interval : Int) :
    (⟨Recurrent.init kv n count minPos interval, fun _ => []⟩ : Traced τ).Owned ids n := by
  refine ⟨⟨⟨Lib.RefCount.Counted.init ids n, rfl, rfl⟩, fun _ _ hs => (by cases hs),
    fun _ _ => rfl⟩, fun q x hx => ?_⟩
  cases hx

/-- **Step lemma.** Every careful call keeps the checkpoints labelled. -/
theorem Traced.Owned.apply (hcard : ids.card ≤ n)
    (h : s.Owned ids n) {act : Act τ} (hproper : act.Proper ids s) (hcareful : Careful s act) :
    (s.apply act).Owned ids n := by
  cases act with
  | forward batch tokens maxMoves => exact h.forward hcard hproper hcareful
  | reserve batch maxMoves =>
    obtain ⟨hc, hv⟩ := h.clean.startForward_unseen hcard hproper true maxMoves (Or.inl rfl)
    exact h.fewer hc (FewerMarks.of_view hv)
  | ensureWritableAll =>
    obtain ⟨hc, hv, _⟩ := h.clean.ensureLoop hcard s.cache.curSeqs 0
    exact h.fewer hc (FewerMarks.of_view hv)
  | ensureWritable =>
    obtain ⟨hc, hv, _⟩ := h.clean.ensureWritableOnce hcard
    exact h.fewer hc (FewerMarks.of_view hv)
  | copyPrefix srcSeq dstSeq len => exact h.copyPrefix hproper hcareful
  | prepareRestore seq targetPos =>
    obtain ⟨pending, hf⟩ := prepareRestore_frame s.cache seq targetPos
    show (⟨(s.cache.prepareRestore seq targetPos).1, s.hist⟩ : Traced τ).Owned ids n
    rw [hf]
    exact h.fewer (h.clean.withKv s.cache.kv pending) (FewerMarks.of_view rfl)
  | remove seq b e shiftFails => exact h.remove hcard seq b e shiftFails

/-! ## §5  The result -/

/-- The checkpoint `PrepareRestore` selects was captured when the token that
`seq` holds at its position was processed. -/
def Traced.RestoresOwn (s : Traced τ) (seq targetPos : Int) : Prop :=
  ∀ p, (s.cache.prepareRestore seq targetPos).2 = some p → ∃ restore st t,
      (s.cache.prepareRestore seq targetPos).1.pendingRestore seq = some restore ∧
      s.cache.slotForSeq seq = some restore.slot ∧ Refers s.cache restore st ∧
      p = restore.pos + 1 ∧ (restore.pos, t) ∈ s.hist seq ∧ st.getLast? = some t

/-- A free slot has no live checkpoint. -/
def Recurrent.FreeSlotsEmpty (c : Recurrent τ) : Prop :=
  ∀ slot ∈ c.freeSlots, ∀ store, c.checkpoints slot = some store → ∀ e ∈ store.entries, e.pos < 0

theorem Traced.Owned.restoresOwn (h : s.Owned ids n)
    {seq targetPos : Int} (hreach : Reaches (s.hist seq) (targetPos - 1)) :
    s.RestoresOwn seq targetPos := by
  intro p hp
  obtain ⟨restore, st, hslot, hrefers, hlt, hpos, hres⟩ := h.clean.prepareRestore hp
  obtain ⟨w, hw, hle⟩ := hreach
  have hreach' : Reaches (s.hist seq) restore.pos := ⟨w, hw, by omega⟩
  obtain ⟨t, ht, hlast⟩ := h.labelled seq _ (view_of_slot hslot) _ hrefers.mark hreach'
  refine ⟨restore, st, t, ?_, hslot, hrefers, hpos, ht, hlast⟩
  rw [hres]
  exact update_self _ _ _

theorem Recurrent.Clean.freeSlotsEmpty {c : Recurrent τ} (h : Clean ids n c) :
    c.FreeSlotsEmpty := by
  intro slot hslot store hs e he
  by_contra hlive
  obtain ⟨st, _, hmark⟩ := (h.rings slot store hs).exists_mark he (Int.not_lt.mp hlive)
  have hempty := h.fresh slot hslot
  rw [slotMarks, hs] at hempty
  exact (Set.eq_empty_iff_forall_notMem.mp hempty _) hmark

/-- **Checkpoints do not cross conversations** in a run whose calls are
careful. -/
theorem checkpoints_own {ids : Finset Int} {n : ℕ} (hcard : ids.card ≤ n) {s : Traced τ}
    (h : ((originSystem ids n).guard Careful).Reachable s) :
    (∀ seq targetPos, Careful s (.prepareRestore seq targetPos) → s.RestoresOwn seq targetPos) ∧
    s.cache.FreeSlotsEmpty := by
  have howned : s.Owned ids n := by
    refine h.invariant ?_ ?_
    · rintro s ⟨kv, count, minPos, interval, rfl⟩
      exact init_owned kv count minPos interval
    · rintro s act s' hs ⟨hcareful, hproper, rfl⟩
      exact hs.apply hcard hproper hcareful
  exact ⟨fun seq targetPos hreach => howned.restoresOwn hreach, howned.clean.freeSlotsEmpty⟩

/-! ## §6  A slot freed with its checkpoints -/

/-- A cache of three slots over 60 cells, with the default checkpoint
configuration. -/
def threeSlots : Traced ℕ where
  cache := Recurrent.init ((Causal.init 0 0 0 ⟨1, 1⟩ 3 20 17).get rfl) 3 24 16 1664
  hist _ := []

theorem threeSlots_reachable (G : Traced ℕ → Act ℕ → Prop) :
    ((originSystem {0, 1, 2} 3).guard G).Reachable threeSlots :=
  .init ⟨_, _, _, _, rfl⟩

def seventeen (seq : Int) : Batch := (List.range 17).map fun i => ⟨i, seq⟩

def numbered (base : ℕ) : List ℕ := (List.range 17).map (base + ·)

theorem ownTokens_eq_nil {q : Int}
    (h : ∀ e ∈ batch, e.seq ≠ q) : ownTokens batch tokens q = [] := by
  refine eq_nil_iff_forall_not_mem.mpr fun x hx => ?_
  obtain ⟨e, he, hseq, _⟩ := mem_ownTokens hx
  exact h e he hseq

/-- A batch of one sequence that holds nothing yet. -/
theorem continues_of_single {hist : Int → List (Int × τ)}
    (seq : Int) (hlen : batch.length = tokens.length) (hseq : ∀ e ∈ batch, e.seq = seq)
    (hincr : ((ownTokens batch tokens seq).map Prod.fst).Pairwise (· < ·))
    (hempty : hist seq = []) : Continues batch tokens hist := by
  have hother : ∀ q, q ≠ seq → ownTokens batch tokens q = [] := by
    intro q hq
    refine ownTokens_eq_nil fun e he heq => hq ?_
    rw [← heq, hseq e he]
  refine ⟨hlen, fun q => ?_, fun q x hx => ?_⟩
  · by_cases hq : q = seq
    · rw [hq]
      exact hincr
    · rw [hother q hq]
      exact List.Pairwise.nil
  by_cases hq : q = seq
  · rw [hq, hempty]
    rintro ⟨y, hy, _⟩
    cases hy
  · rw [hother q hq] at hx
    cases hx

/-- Seventeen tokens of sequence 1, whose last one is checkpointed. -/
def captured : Traced ℕ := threeSlots.apply (.forward (seventeen 1) (numbered 100) 1)

theorem captured_proper : (Act.forward (seventeen 1) (numbered 100) 1).Proper {0, 1, 2} threeSlots :=
  ⟨by decide, continues_of_single 1 (by decide) (by decide) (by decide) rfl⟩

/-- The checkpoint of sequence 1 is its own. -/
theorem checkpoints_own_captured : ({0, 1, 2} : Finset Int).card ≤ 3 ∧ captured.RestoresOwn 1 17 ∧
      (captured.cache.prepareRestore 1 17).2 = some 17 := by
  have hcareful : Careful threeSlots (.forward (seventeen 1) (numbered 100) 1) := by
    intro q x hx
    cases hx
  refine ⟨by decide, (checkpoints_own (by decide) (.step (threeSlots_reachable Careful)
    ⟨hcareful, captured_proper, rfl⟩)).1 1 17 ?_, by decide +kernel⟩
  show Reaches (captured.hist 1) 16
  decide +kernel

/-- A short sequence 0 is copied to sequence 1, whose slot is freed with the
checkpoint in it. -/
def freed : Traced ℕ :=
  (captured.apply (.forward [⟨0, 0⟩] [0] 1)).apply (.copyPrefix 0 1 1)

def reused : Traced ℕ := freed.apply (.forward (seventeen 2) (numbered 200) 1)

theorem freed_reachable : (originSystem {0, 1, 2} 3).Reachable freed := by
  have hcaptured : (originSystem {0, 1, 2} 3).Reachable captured :=
    .step (threeSlots_reachable Careful).of_guard ⟨captured_proper, rfl⟩
  have hforward : (Act.forward [⟨0, 0⟩] [0] 1).Proper {0, 1, 2} captured :=
    ⟨by decide, continues_of_single 0 (by decide) (by decide) (by decide) (by decide +kernel)⟩
  have hcopy : (Act.copyPrefix 0 1 1).Proper {0, 1, 2}
      (captured.apply (.forward [⟨0, 0⟩] [0] 1)) := ⟨by decide, by decide⟩
  exact .step (.step hcaptured ⟨hforward, rfl⟩) ⟨hcopy, rfl⟩

theorem reused_reachable : (originSystem {0, 1, 2} 3).Reachable reused := by
  have hforward : (Act.forward (seventeen 2) (numbered 200) 1).Proper {0, 1, 2} freed :=
    ⟨by decide, continues_of_single 2 (by decide) (by decide) (by decide) (by decide +kernel)⟩
  exact .step freed_reachable ⟨hforward, rfl⟩

/-- **A checkpoint crosses conversations.** After `CopyPrefix` has freed the slot
of sequence 1, the free list holds a slot with a live checkpoint; sequence 2
takes it, and `PrepareRestore` selects the checkpoint of sequence 1. -/
theorem checkpoint_crosses : ({0, 1, 2} : Finset Int).card ≤ 3 ∧
    (∃ s : Traced ℕ, (originSystem {0, 1, 2} 3).Reachable s ∧ ¬s.cache.FreeSlotsEmpty) ∧
    ∃ s : Traced ℕ, (originSystem {0, 1, 2} 3).Reachable s ∧
      Careful s (.prepareRestore 2 17) ∧ ¬s.RestoresOwn 2 17 := by
  refine ⟨by decide, ⟨freed, freed_reachable, fun hempty => ?_⟩,
    ⟨reused, reused_reachable, ?_, fun hown => ?_⟩⟩
  · have hstore : (freed.cache.checkpoints 0).map (fun store => store.entries[0]?) =
        some (some ⟨16, some (numbered 100)⟩) := by decide +kernel
    obtain ⟨store, hs, he⟩ := Option.map_eq_some_iff.mp hstore
    have := hempty 0 (by decide +kernel) store hs _ (mem_of_getElem? he)
    exact absurd this (by decide)
  · show Reaches (reused.hist 2) 16
    decide +kernel
  obtain ⟨restore, st, t, hpending, _, ⟨⟨store, hs, he⟩, _⟩, _, ht, hlast⟩ :=
    hown 17 (by decide +kernel)
  have hentry : (reused.cache.checkpoints 0).map (fun store => store.entries[0]?) =
      some (some ⟨16, some (numbered 100)⟩) := by decide +kernel
  cases hpending
  rw [hs] at hentry
  have hst : st = numbered 100 := by
    have := he.symm.trans (Option.some.inj hentry)
    cases this
    rfl
  have hhist : ∀ x ∈ reused.hist 2, x.1 = 16 → x.2 = 216 := by decide +kernel
  have ht' : t = 216 := hhist _ ht rfl
  rw [hst, ht'] at hlast
  exact absurd hlast (by decide)

end Ollama.KvCache
