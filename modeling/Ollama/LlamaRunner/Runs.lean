import Ollama.LlamaRunner.Bookkeeping

/-!
# Runs of the llama.cpp runner

The invariant of the bookkeeping holds in every run; the assertion of `seq_cp`
fails in the runs that fork a part of a slot.
-/

namespace Ollama.LlamaRunner

open List

open Lib (System)

/-! ## §1  Sampling -/

variable {P : Params} {j : Nat} {q : Sequence}

/-- A sequence is removed; its slot may have been cut. -/
theorem Inv.remove {s : State} (h : Inv P s) (hq : s.seqs[j]? = some (some q)) (n : Nat) :
    Inv P ({ s with
      slots := s.slots.modify q.cache fun slot => { slot with inputs := slot.inputs.take n } }.remove
        j q.cache) := by
  have hothers : ∀ {k : Nat} {r : Sequence}, (s.seqs.set j none)[k]? = some (some r) →
      k ≠ j ∧ s.seqs[k]? = some (some r) := by
    intro k r hr
    rcases getElem?_set_cases hr with ⟨-, hr⟩ | hr
    · cases hr
    · exact hr
  have hcut : SlotsHold (s.slots.modify q.cache fun slot =>
      { slot with inputs := slot.inputs.take n }) s.mem := by
    refine ⟨by rw [h.slots.length, length_modify], ?_⟩
    intro i slot hslot
    rcases getElem?_modify_cases hslot with ⟨hi, old, hold, rfl⟩ | ⟨-, hslot⟩
    · obtain ⟨kept, hkept, hprefix⟩ := h.slots.holds i old (hi ▸ hold)
      exact ⟨kept, hkept, (List.take_prefix n old.inputs).trans hprefix⟩
    · exact h.slots.holds i slot hslot
  refine ⟨hcut.free q.cache, ?_, ?_, ?_⟩
  · intro k r hr
    obtain ⟨hkj, hr⟩ := hothers hr
    obtain ⟨hpend, slot, hslot, hinv⟩ := h.seqs k r hr
    have hne : r.cache ≠ q.cache := fun heq => hkj (h.distinct k j r q hr hq heq)
    refine ⟨hpend, slot, ?_, hinv⟩
    show ((s.slots.modify q.cache _).modify q.cache _)[r.cache]? = _
    rw [modify_others hne, modify_others hne, hslot]
  · intro k l r r' hr hr' heq
    exact h.distinct k l r r' (hothers hr).2 (hothers hr').2 heq
  · intro b hb
    show BatchOk P (s.seqs.set j none).length b
    rw [length_set]
    exact h.batch b hb

theorem Inv.removeWhole {s : State} (h : Inv P s)
    (hq : s.seqs[j]? = some (some q)) : Inv P (s.remove j q.cache) := by
  obtain ⟨-, slot, hslot, -⟩ := h.seqs j q hq
  have hsame : (s.slots.modify q.cache fun slot' =>
      { slot' with inputs := slot'.inputs.take slot.inputs.length }) = s.slots := by
    apply ext_getElem?
    intro i
    by_cases hi : i = q.cache
    · subst hi
      rw [getElem?_modify_eq, hslot]
      show some { slot with inputs := slot.inputs.take slot.inputs.length } = some slot
      rw [take_length]
    · exact modify_others hi _
  have := h.remove hq slot.inputs.length
  rw [hsame] at this
  exact this

/-- A sampled token is the next input. -/
theorem SeqInv.sampled {slot : InputCacheSlot} {stream : Stream}
    (h : SeqInv P slot stream q []) (hpend : q.pendingInputs = []) (hempty : q.inputs = [])
    (x : Input) (n : Nat) :
    SeqInv P slot stream
      { q with inputs := [x], numPredicted := n, handed := q.handed ++ [x],
               whole := q.whole ++ [x] } [] := by
  have hwhole := h.whole
  have hhanded := h.handed
  have hroom := h.room
  rw [hpend, hempty, nil_append, append_nil] at hwhole hhanded
  rw [hpend, hempty, length_nil] at hroom
  refine { h with whole := ?_, handed := ?_, room := ?_ }
  · rw [hpend, ← hwhole]
    rfl
  · rw [hpend, ← hhanded]
    rfl
  right
  rw [hpend, length_nil]
  rcases hroom with hroom | ⟨hone, -⟩
  · exact ⟨rfl, by omega⟩
  · exact absurd hone (by omega)

def Sequence.goOn (token : Int) (q : Sequence) : Sequence :=
  { q with
    inputs := [.token token]
    numPredicted := q.numPredicted + 1
    handed := q.handed ++ [.token token]
    whole := q.whole ++ [.token token] }

variable {o : Sampled} {s s' : State}

/-- What the results of one sequence come to. -/
theorem sampleSeq_cases (h : sampleSeq o s j = some s') :
    s' = s ∨ ∃ q, s.seqs[j]? = some (some q) ∧ q.inputs = [] ∧ (s' = s.remove j q.cache ∨ (∃ n, s' = { s with
          slots := s.slots.modify q.cache fun slot =>
            { slot with inputs := slot.inputs.take n } }.remove j q.cache) ∨
        s' = { s with seqs := s.seqs.set j (some (q.goOn o.token)) }) := by
  unfold sampleSeq at h
  split at h
  · next q hq =>
    split at h
    · injection h with h
      exact Or.inl h.symm
    rename_i hempty
    right
    refine ⟨q, hq, Decidable.not_not.mp hempty, ?_⟩
    split at h
    · injection h with h
      exact Or.inl h.symm
    split at h
    · injection h with h
      exact Or.inl h.symm
    split at h
    · next origLen newLen tokenTruncated _ =>
      dsimp only at h
      generalize (if tokenTruncated = true ∨ origLen = newLen then _ else _ : Int) = tokenLen at h
      split at h
      · cases h
      · injection h with h
        exact Or.inr (Or.inl ⟨_, h.symm⟩)
    · split at h
      · injection h with h
        exact Or.inl h.symm
      · injection h with h
        exact Or.inr (Or.inr h.symm)
  · injection h with h
    exact Or.inl h.symm

/-- What the results of each sequence keep, the loop over them keeps. -/
theorem sampleAll_keeps {o : Nat → Sampled} {Q : State → Prop}
    (hkeeps : ∀ {s s' : State} {j : Nat}, sampleSeq (o j) s j = some s' → Q s → Q s')
    (h : sampleAll o s = some s') (hs : Q s) : Q s' := by
  have hfold : ∀ (js : List Nat) {s : State}, Q s →
      js.foldlM (fun s j => sampleSeq (o j) s j) s = some s' → Q s' := by
    intro js
    induction js with
    | nil =>
      intro s hs h
      injection h with h
      exact h ▸ hs
    | cons j js ih =>
      intro s hs h
      obtain ⟨s₁, hfirst, hrest⟩ := Option.bind_eq_some_iff.mp h
      exact ih (hkeeps hfirst hs) hrest
  exact hfold _ hs h

/-- **The results of one sequence keep the invariant.** -/
theorem Inv.sampleSeq (hrun : sampleSeq o s j = some s') (h : Inv P s) : Inv P s' := by
  rcases sampleSeq_cases hrun with rfl | ⟨q, hq, hempty, rfl | ⟨n, rfl⟩ | rfl⟩
  · exact h
  · exact h.removeWhole hq
  · exact h.remove hq n
  obtain ⟨hpend, slot, hslot, hinv⟩ := h.seqs j q hq
  have hcases : ∀ {k : Nat} {r : Sequence},
      (s.seqs.set j (some (q.goOn o.token)))[k]? = some (some r) →
      (k = j ∧ r = q.goOn o.token) ∨ (k ≠ j ∧ s.seqs[k]? = some (some r)) := by
    intro k r hr
    rcases getElem?_set_cases hr with ⟨hk, hr⟩ | hr
    · exact Or.inl ⟨hk, Option.some.inj hr⟩
    · exact Or.inr hr
  refine ⟨h.slots, ?_, ?_, ?_⟩
  · intro k r hr
    rcases hcases hr with ⟨-, rfl⟩ | ⟨-, hr⟩
    · exact ⟨hpend, slot, hslot, hinv.sampled hpend hempty _ _⟩
    · exact h.seqs k r hr
  · intro k l r r' hr hr' heq
    rcases hcases hr with ⟨hkj, hrq⟩ | ⟨hkj, hold⟩
    · rcases hcases hr' with ⟨hlj, -⟩ | ⟨hlj, hold'⟩
      · rw [hkj, hlj]
      · rw [hrq] at heq
        exact absurd (h.distinct j l q r' hq hold' heq) (Ne.symm hlj)
    · rcases hcases hr' with ⟨hlj, hrq⟩ | ⟨hlj, hold'⟩
      · rw [hrq] at heq
        exact absurd (h.distinct k j r q hold hq heq) hkj
      · exact h.distinct k l r r' hold hold' heq
  · intro b hb
    show BatchOk P (s.seqs.set j _).length b
    rw [length_set]
    exact h.batch b hb

/-! ## §2  Requests -/

variable {r : Request}

/-- What `NewSequence` leaves of a prompt fits into the context. -/
theorem newSequence_spec {inputs : List Input} {numKeep : Nat}
    (h : newSequence P r = some (inputs, numKeep)) :
    inputs ≠ [] ∧ inputs.length ≤ P.numCtx ∧ numKeep < P.numCtx := by
  have hpos := P.numCtx_pos
  unfold newSequence at h
  split at h
  · cases h
  rename_i hne
  dsimp only at h
  generalize (if r.addBOSToken then
    (if r.numKeep < 0 then (r.inputs.length : Int) else r.numKeep) + 1
    else if r.numKeep < 0 then (r.inputs.length : Int) else r.numKeep) = keep at h
  have hkeep : (min keep ((P.numCtx : Int) - 1)).toNat < P.numCtx := by omega
  generalize (min keep ((P.numCtx : Int) - 1)).toNat = numKeep' at h hkeep
  split at h
  · next hlong =>
    split at h
    · cases h
    injection h with h
    injection h with h₁ h₂
    subst h₁ h₂
    have hlen : (r.inputs.take numKeep' ++
        r.inputs.drop (numKeep' + (r.inputs.length - P.numCtx))).length = P.numCtx := by
      rw [length_append, length_take, length_drop]
      omega
    refine ⟨?_, Nat.le_of_eq hlen, hkeep⟩
    intro hnil
    rw [hnil, length_nil] at hlen
    omega
  · injection h with h
    injection h with h₁ h₂
    subst h₁ h₂
    exact ⟨fun hnil => hne (by rw [hnil]; rfl), by omega, hkeep⟩

/-- The sequence that a request starts. -/
def Request.start (r : Request) (inputs rest : List Input) (numKeep i : Nat) : Sequence :=
  { inputs := rest, cache := i, numPredict := r.numPredict, numKeep, embeddingOnly := r.embedding,
    shift := r.shift, handed := rest, whole := inputs }

variable {refused : Bool} {nowSearch now : Int}

/-- What a request comes to: nothing, the end of the process, or a sequence. -/
theorem request_cases (h : request P r refused nowSearch now s = some s') :
    s' = s ∨ ∃ inputs numKeep, newSequence P r = some (inputs, numKeep) ∧
      ((loadCacheSlot P s.slots s.mem inputs r.cachePrompt refused nowSearch now = .abort ∧
          s' = { s with aborted := true }) ∨
        ∃ j slots mem i rest,
          loadCacheSlot P s.slots s.mem inputs r.cachePrompt refused nowSearch now =
            .ok (slots, mem, i, rest) ∧
          s' = { s with
            slots, mem, seqs := s.seqs.set j (some (r.start inputs rest numKeep i)) }) := by
  unfold request at h
  split at h
  · injection h with h
    exact Or.inl h.symm
  rename_i inputs numKeep hnew
  split at h
  · injection h with h
    exact Or.inl h.symm
  rename_i j _
  split at h
  · injection h with h
    exact Or.inl h.symm
  · cases h
  · next habort =>
    injection h with h
    exact Or.inr ⟨inputs, numKeep, hnew, Or.inl ⟨habort, h.symm⟩⟩
  · next slots mem i rest hload =>
    injection h with h
    exact Or.inr ⟨inputs, numKeep, hnew, Or.inr ⟨j, slots, mem, i, rest, hload, h.symm⟩⟩

theorem Inv.cache_ne {s : State} {k i : Nat} {free : InputCacheSlot}
    (h : Inv P s) (hq : s.seqs[k]? = some (some q)) (hfree : s.slots[i]? = some free)
    (huse : free.inUse = false) : q.cache ≠ i := by
  rintro rfl
  obtain ⟨-, slot, hslot, hinv⟩ := h.seqs k q hq
  rw [hfree] at hslot
  injection hslot with hslot
  have hinUse := hinv.inUse
  rw [← hslot, huse] at hinUse
  cases hinUse

/-- **A request keeps the invariant**, unless the assertion of `seq_cp` ends
the process. -/
theorem Inv.request (h : Inv P s) (hrun : request P r refused nowSearch now s = some s') :
    Inv P s' := by
  rcases request_cases hrun with
    rfl | ⟨inputs, numKeep, hnew, ⟨-, rfl⟩ | ⟨j, slots, mem, i, rest, hload, rfl⟩⟩
  · exact h
  · exact ⟨h.slots, h.seqs, h.distinct, h.batch⟩
  obtain ⟨hne, hfits, hkeep⟩ := newSequence_spec hnew
  obtain ⟨c, n, -, -, rfl, hloads⟩ := loadCacheSlot_spec h.slots hne hload
  obtain ⟨free, hfree, huse⟩ := hloads.free
  obtain ⟨slot, hslot, hslotInputs, hslotUse⟩ := hloads.slot
  have hother : ∀ {k : Nat} {q : Sequence}, s.seqs[k]? = some (some q) → q.cache ≠ i :=
    fun hq => h.cache_ne hq hfree huse
  have hcases : ∀ {k : Nat} {q q' : Sequence}, (s.seqs.set j (some q'))[k]? = some (some q) →
      (k = j ∧ q = q') ∨ (k ≠ j ∧ s.seqs[k]? = some (some q)) := by
    intro k q q' hq
    rcases getElem?_set_cases hq with ⟨hk, hq⟩ | hq
    · exact Or.inl ⟨hk, Option.some.inj hq⟩
    · exact Or.inr hq
  refine ⟨⟨?_, ?_⟩, ?_, ?_, ?_⟩
  · show mem.length = slots.length
    rw [hloads.length.1, hloads.length.2, h.slots.length]
  · intro k slot' hslot'
    show ∃ kept, Holds (streamOf mem k) kept ∧ _
    by_cases hk : k = i
    · subst hk
      rw [hslot] at hslot'
      injection hslot' with hslot'
      subst hslot'
      exact ⟨_, hloads.holds, hslotInputs ▸ prefix_rfl⟩
    · rw [(hloads.others k hk).2]
      exact h.slots.holds k slot' ((hloads.others k hk).1 ▸ hslot')
  · intro k q hq
    rcases hcases hq with ⟨-, rfl⟩ | ⟨-, hq⟩
    · refine ⟨rfl, slot, hslot, ?_⟩
      exact {
        inUse := hslotUse
        holds := hslotInputs ▸ hloads.holds
        whole := by
          show slot.inputs ++ ([] ++ inputs.drop n) = inputs
          rw [hslotInputs, nil_append, take_append_drop]
        handed := rfl
        decoded := fun d hd => by cases hd
        placed := .nil _
        pending := Nat.zero_le _
        room := by
          left
          show slot.inputs.length + (0 + (inputs.drop n).length) ≤ _
          rw [hslotInputs, length_take, length_drop]
          omega
        numKeep := hkeep }
    · obtain ⟨hpend, slot', hslot', hinv⟩ := h.seqs k q hq
      have hne' := hother hq
      refine ⟨hpend, slot', ?_, ?_⟩
      · show slots[q.cache]? = _
        rw [(hloads.others _ hne').1, hslot']
      · show SeqInv P slot' (streamOf mem _) q []
        rw [(hloads.others _ hne').2]
        exact hinv
  · intro k l q q' hq hq' heq
    rcases hcases hq with ⟨hkj, hrq⟩ | ⟨-, hold⟩
    · rcases hcases hq' with ⟨hlj, -⟩ | ⟨-, hold'⟩
      · rw [hkj, hlj]
      · rw [hrq] at heq
        exact absurd heq.symm (hother hold')
    · rcases hcases hq' with ⟨-, hrq⟩ | ⟨-, hold'⟩
      · rw [hrq] at heq
        exact absurd heq (hother hold)
      · exact h.distinct k l q q' hold hold' heq
  · intro b hb
    show BatchOk P (s.seqs.set j _).length b
    rw [length_set]
    exact h.batch b hb

/-! ## §3  The invariant of a run -/

theorem Inv.step {a : Action} (h : Inv P s) (hrun : step P s a = some s') : Inv P s' := by
  unfold LlamaRunner.step at hrun
  split at hrun
  · cases hrun
  cases a with
  | request r refused nowSearch now =>
    dsimp only at hrun
    split at hrun
    · cases hrun
    · exact h.request hrun
  | decode refused evict =>
    dsimp only at hrun
    split at hrun
    · cases hrun
    · exact h.decodeBatch hrun
  | sample o =>
    dsimp only at hrun
    split at hrun
    · obtain ⟨s₁, hsample, rfl⟩ := Option.map_eq_some_iff.mp hrun
      have h₁ := sampleAll_keeps Inv.sampleSeq hsample h
      exact ⟨h₁.slots, h₁.seqs, h₁.distinct, h₁.batch⟩
    · cases hrun

theorem initial_idle (n j : Nat) (q : Sequence) : (initial n).seqs[j]? ≠ some (some q) := by
  intro hq
  change (List.replicate n (none : Option Sequence))[j]? = some (some q) at hq
  rw [getElem?_replicate] at hq
  split at hq
  · injection hq with hq
    cases hq
  · cases hq

theorem initial_inv (P : Params) (n : Nat) : Inv P (initial n) := by
  refine ⟨⟨?_, ?_⟩, ?_, ?_, fun b hb => by cases hb⟩
  · show (List.replicate n _).length = (List.replicate n _).length
    rw [length_replicate, length_replicate]
  · intro i slot hslot
    have hslot' : slot = {} := by
      have hmem := mem_of_getElem? hslot
      exact eq_of_mem_replicate hmem
    refine ⟨[], ?_, hslot' ▸ prefix_rfl⟩
    have hstream : streamOf (initial n).mem i = {} := by
      show ((List.replicate n ({} : Stream))[i]?).getD {} = {}
      rw [getElem?_replicate]
      split <;> rfl
    rw [hstream]
    exact Holds.nil
  · exact fun j q hq => absurd hq (initial_idle n j q)
  · exact fun j k q r hq => absurd hq (initial_idle n j q)

theorem reachable_inv {s : State} (h : (system P).Reachable s) : Inv P s := by
  apply h.invariant
  · rintro s ⟨n, rfl⟩
    exact initial_inv P n
  · exact fun s a s' hs hstep => hs.step hstep

/-! ## §4  The bookkeeping and the memory -/

/-- What is decoded stands at the position equal to the number of inputs before
it, all of which are stored then, and inside the context. -/
structure InPlace (P : Params) (d : Decoded) : Prop where
  stored : d.stream.full = stored d.entry.before
  pos : d.entry.pos = (d.stream.full.length : Int)
  lt : d.entry.pos < P.numCtx

/-- A running sequence. Its slot's inputs are exactly what is stored for it;
these and the queue are its inputs, once each and in order, less what shifts
have discarded; and what has been decoded, followed by the queue, is what it
was given to decode since it took the slot or a refused shift queued its
inputs again. -/
structure Running (P : Params) (s : State) (q : Sequence) : Prop where
  slot : ∃ slot, s.slots[q.cache]? = some slot ∧ slot.inUse = true ∧
    (streamOf s.mem q.cache).full = stored slot.inputs ∧ slot.inputs ++ q.inputs = q.whole
  once : q.decoded.map (·.entry.input) ++ q.inputs = q.handed
  inPlace : ∀ d ∈ q.decoded, InPlace P d

/-- **The bookkeeping matches the memory.** -/
structure Matches (P : Params) (s : State) : Prop where
  /-- No assertion of llama.cpp fails. -/
  alive : s.aborted = false
  /-- No two running sequences hold the same slot. -/
  distinct : ∀ (j k : Nat) q r, s.seqs[j]? = some (some q) → s.seqs[k]? = some (some r) →
    q.cache = r.cache → j = k
  /-- Every slot's inputs are the first of what is stored for it. -/
  slots : ∀ (i : Nat) slot, s.slots[i]? = some slot →
    ∃ kept, (streamOf s.mem i).full = stored kept ∧ slot.inputs <+: kept
  running : ∀ (j : Nat) q, s.seqs[j]? = some (some q) → Running P s q
  /-- The batch that was decoded holds one kind of input, and at most
  `batchSize` inputs of each sequence. -/
  batch : ∀ b, s.batch = some b → BatchOk P s.seqs.length b

/-- When a request does not end the process: a slot is forked only if nearly
all cells of a stream are copied. -/
def ForksWhole (P : Params) (s : State) : Action → Prop
  | .request r _ _ _ =>
      P.multiUserCache = true → ∀ inputs numKeep, newSequence P r = some (inputs, numKeep) →
        ∀ i k n, Forks s.slots inputs i k n → P.size ≤ n + 1
  | _ => True

theorem Inv.running {s : State} (h : Inv P s)
    (hq : s.seqs[j]? = some (some q)) : Running P s q := by
  obtain ⟨hpend, slot, hslot, hinv⟩ := h.seqs j q hq
  have hwhole := hinv.whole
  have honce := hinv.handed
  rw [hpend, nil_append] at hwhole honce
  refine ⟨⟨slot, hslot, hinv.inUse, hinv.holds.full, hwhole⟩, honce, ?_⟩
  intro d hd
  obtain ⟨hholds, hpos, hlt⟩ := hinv.decoded d hd
  refine ⟨hholds.full, ?_, by omega⟩
  rw [hpos, hholds.full, stored_length]

theorem Inv.matches {s : State} (h : Inv P s) (halive : s.aborted = false) : Matches P s where
  alive := halive
  distinct := h.distinct
  slots := by
    intro i slot hslot
    obtain ⟨kept, hkept, hprefix⟩ := h.slots.holds i slot hslot
    exact ⟨kept, hkept.full, hprefix⟩
  running := fun j q hq => h.running hq
  batch := h.batch

variable {slots : List InputCacheSlot} {prompt : List Input}

/-- A fork of nearly everything passes the assertion. -/
theorem fork_isSome {mem : Memory}
    {now : Int} {c : Choice} (hchoose : choose P slots prompt now = .ok c)
    (hwhole : P.multiUserCache = true → ∀ i k n, Forks slots prompt i k n → P.size ≤ n + 1) :
    fork P slots mem c ≠ none := by
  obtain ⟨-, hsame | ⟨hmulti, n, hn, hforks⟩⟩ := choose_sound hchoose
  · unfold fork
    rw [if_pos hsame]
    exact Option.some_ne_none _
  have hsize := hwhole hmulti _ _ n hforks
  have hne : c.src ≠ c.dst := hforks.ne
  unfold fork seqCp
  rw [if_neg hne]
  dsimp only
  rw [if_neg hne, if_neg (by omega)]
  exact Option.some_ne_none _

/-- Neither search aborts. -/
theorem choose_ne_abort {now : Int} : choose P slots prompt now ≠ .abort := by
  intro h
  unfold choose at h
  split at h
  · unfold findBestCacheSlot at h
    dsimp only at h
    split at h
    · cases h
    · split at h
      · cases h
      · split at h
        · cases h
        · split at h <;> cases h
  · unfold findLongestCacheSlot at h
    dsimp only at h
    split at h <;> cases h

/-- `LoadCacheSlot` ends the process only in a fork. -/
theorem loadCacheSlot_abort {mem : Memory} {cachePrompt refused : Bool}
    (h : loadCacheSlot P slots mem prompt cachePrompt refused nowSearch now = .abort) :
    ∃ c, choose P slots prompt nowSearch = .ok c ∧ fork P slots mem c = none := by
  unfold loadCacheSlot at h
  split at h
  · cases h
  · next hchoose => exact absurd hchoose choose_ne_abort
  · cases h
  rename_i c hchoose
  split at h
  · next hfork => exact ⟨c, hchoose, hfork⟩
  · dsimp only at h
    split at h
    · split at h <;> cases h
    · split at h <;> cases h

theorem decodeBatch_aborted {refused : Nat → Bool} {evict : Nat → Int}
    (h : decodeBatch P refused evict s = some s') : s'.aborted = s.aborted := by
  unfold decodeBatch at h
  split at h
  · cases h
  split at h
  · injection h with h
    rw [← h]
  · split at h
    · injection h with h
      rw [← h]
    · injection h with h
      rw [← h]

theorem sampleSeq_aborted
    (h : sampleSeq o s j = some s') (hs : s.aborted = false) : s'.aborted = false := by
  rcases sampleSeq_cases h with rfl | ⟨q, -, -, rfl | ⟨n, rfl⟩ | rfl⟩
  · exact hs
  · exact hs
  · exact hs
  · exact hs

theorem request_aborted (hforks : ForksWhole P s (.request r refused nowSearch now))
    (h : request P r refused nowSearch now s = some s') : s'.aborted = s.aborted := by
  rcases request_cases h with
    rfl | ⟨inputs, numKeep, hnew, ⟨habort, -⟩ | ⟨j, slots, mem, i, rest, -, rfl⟩⟩
  · rfl
  · obtain ⟨c, hchoose, hfork⟩ := loadCacheSlot_abort habort
    exact absurd hfork (fork_isSome hchoose fun hmulti => hforks hmulti inputs numKeep hnew)
  · rfl

/-- **No assertion fails in a step that forks only whole slots.** -/
theorem step_alive {a : Action} (hs : s.aborted = false)
    (hforks : ForksWhole P s a) (hrun : step P s a = some s') : s'.aborted = false := by
  unfold step at hrun
  rw [hs, if_neg Bool.false_ne_true] at hrun
  cases a with
  | request r refused nowSearch now =>
    dsimp only at hrun
    split at hrun
    · cases hrun
    · rw [request_aborted hforks hrun, hs]
  | decode refused evict =>
    dsimp only at hrun
    split at hrun
    · cases hrun
    · rw [decodeBatch_aborted hrun, hs]
  | sample o =>
    dsimp only at hrun
    split at hrun
    · obtain ⟨s₁, hsample, rfl⟩ := Option.map_eq_some_iff.mp hrun
      have halive : s₁.aborted = false := sampleAll_keeps sampleSeq_aborted hsample hs
      exact halive
    · cases hrun

/-! ## §5  Runs on fixed requests -/

def runAll (P : Params) : State → List Action → Option State
  | s, [] => some s
  | s, a :: as => (step P s a).bind (runAll P · as)

theorem reachable_of_runAll {as : List Action}
    (hs : (system P).Reachable s) (h : runAll P s as = some s') : (system P).Reachable s' := by
  induction as generalizing s with
  | nil =>
    injection h with h
    exact h ▸ hs
  | cons a as ih =>
    obtain ⟨t, hstep, hrest⟩ := Option.bind_eq_some_iff.mp h
    exact ih (.step hs hstep) hrest

theorem forksWhole_single (h : P.multiUserCache = false) (s : State) (a : Action) :
    ForksWhole P s a := by
  cases a with
  | request r refused nowSearch now =>
    intro hmulti
    rw [h] at hmulti
    cases hmulti
  | decode refused evict => exact trivial
  | sample o => exact trivial

/-- A context of four inputs and a memory of eight cells for each sequence. -/
def smallParams (multiUserCache : Bool) : Params :=
  { numCtx := 4, batchSize := 3, nEmbd := 1, size := 8, image := true, multiUserCache,
    canShift := true, window := ⟨false, 0, .none⟩, numCtx_pos := by decide,
    nEmbd_pos := by decide }

def ask (inputs : List Input) : Action :=
  .request
    { inputs, numKeep := 1, addBOSToken := false, truncate := true, shift := true,
      embedding := false, cachePrompt := true, numPredict := 0 } false 1 0

/-- Decode a batch, nothing being refused or evicted, and go on with `token`. -/
def generate (token : Int) : List Action :=
  [.decode (fun _ => false) (fun _ => 0), .sample fun _ => ⟨token, false, none, false⟩]

def stateAfter (P : Params) (as : List Action) : State :=
  (runAll P (initial 2) as).getD (initial 2)

/-- A prompt with an image is decoded in three batches; at the fifth input the
context is full and shifts. -/
def shiftRun : List Action :=
  ask [.token 1, .embed [5], .token 2] :: (generate 0 ++ generate 0 ++ generate 3 ++
    generate 4 ++ generate 5)

/-- **The bookkeeping matches the memory in every run that forks only whole
slots.** -/
theorem bookkeeping (P : Params) (s : State)
    (h : ((system P).guard (ForksWhole P)).Reachable s) : Matches P s := by
  have halive : s.aborted = false := by
    apply h.invariant
    · rintro s ⟨n, rfl⟩
      rfl
    · rintro s a s' hs ⟨hforks, hstep⟩
      exact step_alive hs hforks hstep
  exact (reachable_inv (System.Reachable.of_guard h)).matches halive

theorem bookkeeping_shift : (streamOf (stateAfter (smallParams false) shiftRun).mem 0).full =
        [(0, .token 1), (1, .token 2), (2, .token 3), (3, .token 4)] ∧
      Matches (smallParams false) (stateAfter (smallParams false) shiftRun) := by
  have hrun : runAll (smallParams false) (initial 2) shiftRun =
      some (stateAfter (smallParams false) shiftRun) := by rfl
  have hreach := reachable_of_runAll (System.Reachable.init ⟨2, rfl⟩) hrun
  refine ⟨by rfl, bookkeeping (smallParams false) _ ?_⟩
  exact hreach.guard_of_always fun s a _ _ _ => forksWhole_single rfl s a

def forkRun : List Action :=
  ask [.token 1, .token 2, .token 3] :: (generate 4 ++ [ask [.token 1, .token 5]])

theorem bookkeeping_fork :
    ∃ s, (system (smallParams true)).Reachable s ∧ ¬ Matches (smallParams true) s := by
  have hrun : runAll (smallParams true) (initial 2) forkRun =
      some (stateAfter (smallParams true) forkRun) := by rfl
  refine ⟨_, reachable_of_runAll (System.Reachable.init ⟨2, rfl⟩) hrun, ?_⟩
  intro hmatches
  have halive := hmatches.alive
  cases halive

end Ollama.LlamaRunner
