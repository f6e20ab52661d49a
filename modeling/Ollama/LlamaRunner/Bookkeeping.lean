import Mathlib.Data.Nat.ModEq
import Mathlib.Data.List.Nodup
import Ollama.LlamaRunner.Batch

/-!
# The bookkeeping matches the memory

Between the steps the inputs of every running sequence's slot are exactly what
the memory stores for it, and its queue is what is left to decode.
-/

namespace Ollama.LlamaRunner

open List

open Lib (System)

/-! ## §1  Entries in order -/

/-- The entries place the inputs `xs` of sequence `id` one after the other
behind the inputs `S`, below `numCtx`. -/
inductive Placed (numCtx id : Nat) : List Input → List Input → List Entry → Prop
  | nil (S : List Input) : Placed numCtx id S [] []
  | cons {S xs : List Input} {e : Entry} {es : List Entry} :
      e.seqId = id → e.before = S → e.pos = (S.length : Int) → S.length < numCtx →
      Placed numCtx id (S ++ [e.input]) xs es → Placed numCtx id S (e.input :: xs) (e :: es)

variable {S xs : List Input} {es : List Entry}

theorem Placed.snoc {numCtx id : Nat} {e : Entry}
    (h : Placed numCtx id S xs es) (hid : e.seqId = id) (hbefore : e.before = S ++ xs)
    (hpos : e.pos = ((S ++ xs).length : Int)) (hlt : (S ++ xs).length < numCtx) :
    Placed numCtx id S (xs ++ [e.input]) (es ++ [e]) := by
  induction h with
  | nil S =>
    rw [append_nil] at hbefore hpos hlt
    exact .cons hid hbefore hpos hlt (.nil _)
  | cons hid' hbefore' hpos' hlt' hrest ih =>
    apply Placed.cons hid' hbefore' hpos' hlt'
    apply ih
    · rw [hbefore, append_assoc]
      rfl
    · rw [hpos, append_assoc]
      rfl
    · rw [append_assoc]
      exact hlt

theorem Placed.length {numCtx id : Nat} (h : Placed numCtx id S xs es) : es.length = xs.length := by
  induction h with
  | nil S => rfl
  | cons _ _ _ _ _ ih => exact congrArg (· + 1) ih

theorem Placed.seqId {numCtx id : Nat} (h : Placed numCtx id S xs es) : ∀ e ∈ es, e.seqId = id := by
  induction h with
  | nil S => exact fun e he => by cases he
  | cons hid _ _ _ _ ih =>
    intro e he
    rcases mem_cons.mp he with rfl | he
    · exact hid
    · exact ih e he

/-! ## §2  One sequence -/

/-- A token was decoded at the position equal to the number of inputs before
it, which are what the memory held. -/
structure DecodedAt (P : Params) (d : Decoded) : Prop where
  holds : Holds d.stream d.entry.before
  pos : d.entry.pos = (d.entry.before.length : Int)
  lt : d.entry.before.length < P.numCtx

/-- A running sequence, whose slot has these inputs and whose pending inputs
are placed by these entries of the batch. -/
structure SeqInv (P : Params) (slot : InputCacheSlot) (stream : Stream) (q : Sequence)
    (entries : List Entry) : Prop where
  inUse : slot.inUse = true
  holds : Holds stream slot.inputs
  whole : slot.inputs ++ (q.pendingInputs ++ q.inputs) = q.whole
  handed : q.decoded.map (·.entry.input) ++ (q.pendingInputs ++ q.inputs) = q.handed
  decoded : ∀ d ∈ q.decoded, DecodedAt P d
  placed : Placed P.numCtx q.cache slot.inputs q.pendingInputs entries
  pending : q.pendingInputs.length ≤ P.batchSize
  room : slot.inputs.length + (q.pendingInputs.length + q.inputs.length) ≤ P.numCtx ∨
    (q.pendingInputs.length + q.inputs.length = 1 ∧
      slot.inputs.length + q.pendingInputs.length ≤ P.numCtx)
  numKeep : q.numKeep < P.numCtx

structure BatchInv (P : Params) (b : Batch) : Prop where
  size : b.size ≤ P.batchSize
  kind : ∀ e ∈ b.entries, e.input.isEmbed = b.isEmbedding

def entriesOf (b : Option Batch) : List Entry := (b.map Batch.entries).getD []

def entriesFor (b : Option Batch) (id : Nat) : List Entry :=
  (entriesOf b).filter fun e => e.seqId = id

/-! ## §3  Filling a batch -/

/-- The inner loop, which began with the batch `b₀` and the memory `mem₀`. -/
structure FillingInv (P : Params) (id : Nat) (b₀ : Option Batch) (mem₀ : Memory) (f : Filling) :
    Prop where
  cache : f.seq.cache = id
  length : f.mem.length = mem₀.length
  others : ∀ j, j ≠ id → streamOf f.mem j = streamOf mem₀ j
  holds : Holds (streamOf f.mem id) f.inputs
  whole : f.inputs ++ f.seq.inputs = f.seq.whole
  pend : f.seq.pendingInputs <+: f.seq.inputs
  handed : f.seq.decoded.map (·.entry.input) ++ f.seq.inputs = f.seq.handed
  decoded : ∀ d ∈ f.seq.decoded, DecodedAt P d
  room : f.inputs.length + f.seq.inputs.length ≤ P.numCtx ∨
    (f.seq.inputs.length = 1 ∧ f.inputs.length ≤ P.numCtx)
  fits : f.inputs.length + f.seq.pendingInputs.length ≤ P.numCtx
  numKeep : f.seq.numKeep < P.numCtx
  added : ∃ new, entriesOf f.batch = entriesOf b₀ ++ new ∧
    Placed P.numCtx id f.inputs f.seq.pendingInputs new
  batch : ∀ b, f.batch = some b → BatchInv P b
  pending : f.seq.pendingInputs.length ≤ P.batchSize
  removed : f.removed = true → f.seq.pendingInputs = []

theorem freshBatch_inv (P : Params) (input : Input) :
    BatchInv P (if input.isEmbed then embedBatch P else tokenBatch P) ∧
      (if input.isEmbed then embedBatch P else tokenBatch P).entries = [] := by
  unfold embedBatch tokenBatch
  split
  · split
    · exact ⟨⟨Nat.le_refl _, fun e he => by cases he⟩, rfl⟩
    · exact ⟨⟨Nat.zero_le _, fun e he => by cases he⟩, rfl⟩
  · exact ⟨⟨Nat.le_refl _, fun e he => by cases he⟩, rfl⟩

/-- The batch that is used for an input has its kind, when it has any room. -/
theorem freshBatch_kind (P : Params) (input : Input)
    (h : 0 < (if input.isEmbed then embedBatch P else tokenBatch P).size) :
    input.isEmbed = (if input.isEmbed then embedBatch P else tokenBatch P).isEmbedding := by
  have hpos := P.nEmbd_pos
  cases hk : input.isEmbed with
  | false => rfl
  | true =>
    rw [hk, if_pos rfl] at h
    unfold embedBatch at h ⊢
    split at h
    · next himg =>
      rw [if_pos himg]
      exact (decide_eq_true (by show P.nEmbd ≠ 0; omega)).symm
    · exact absurd h (Nat.lt_irrefl 0)

variable {P : Params} {id : Nat} {b₀ : Option Batch} {mem₀ : Memory}

/-- What the end of the body of the inner loop does. -/
theorem FillingInv.add {f f' : Filling}
    {seqIdx : Nat} {input : Input} {rest : List Input} {stop : Bool} (h : FillingInv P id b₀ mem₀ f)
    (hremoved : f.removed = false) (hsync : f.seq.inputs = f.seq.pendingInputs ++ input :: rest)
    (hlt : f.inputs.length + f.seq.pendingInputs.length + 1 ≤ P.numCtx)
    (hadd : f.add P seqIdx f.seq.pendingInputs.length input = (f', stop)) :
    FillingInv P id b₀ mem₀ f' ∧ f'.removed = false ∧
      (stop = false → f'.seq.inputs = f'.seq.pendingInputs ++ rest ∧
        f.seq.pendingInputs.length + 1 = f'.seq.pendingInputs.length) := by
  have hbatch : ∃ batch, f.batch.getD (if input.isEmbed then embedBatch P else tokenBatch P) =
      batch ∧ BatchInv P batch ∧ batch.entries = entriesOf f.batch ∧
      (f.batch = none → 0 < batch.size → input.isEmbed = batch.isEmbedding) := by
    cases hb : f.batch with
    | none =>
      obtain ⟨hinv, hentries⟩ := freshBatch_inv P input
      exact ⟨_, rfl, hinv, hentries, fun _ => freshBatch_kind P input⟩
    | some b => exact ⟨b, rfl, h.batch b hb, rfl, fun hnone => by cases hnone⟩
  obtain ⟨batch, hget, hinv, hentries, hfresh⟩ := hbatch
  obtain ⟨new, hnew, hplaced⟩ := h.added
  unfold Filling.add at hadd
  rw [hget] at hadd
  dsimp only at hadd
  split at hadd
  · injection hadd with hf hstop
    subst hf hstop
    exact ⟨{ h with }, hremoved, fun hstop => by cases hstop⟩
  rename_i hkind
  split at hadd
  · injection hadd with hf hstop
    subst hf hstop
    refine ⟨{ h with added := ⟨new, ?_, hplaced⟩, batch := ?_ }, hremoved,
      fun hstop => by cases hstop⟩
    · show batch.entries = _
      rw [hentries, hnew]
    · intro b hb
      injection hb with hb
      rw [← hb]
      exact hinv
  · next hsize =>
    injection hadd with hf hstop
    subst hf hstop
    refine ⟨?_, hremoved, fun _ => ⟨?_, ?_⟩⟩
    · refine { h with pend := ?_, fits := ?_, added := ?_, batch := ?_, pending := ?_, removed := ?_ }
      · rw [hsync]
        exact ⟨rest, by rw [append_assoc]; rfl⟩
      · rw [length_append, length_singleton]
        omega
      · have hsnoc := hplaced.snoc (e :=
            { input, pos := (f.inputs.length + f.seq.pendingInputs.length : Nat),
              logits := decide (f.seq.pendingInputs.length + 1 = f.seq.inputs.length),
              seqId := f.seq.cache, before := f.inputs ++ f.seq.pendingInputs })
          h.cache rfl (by rw [length_append]) (by rw [length_append]; omega)
        refine ⟨_, ?_, hsnoc⟩
        show batch.entries ++ _ = _
        rw [hentries, hnew, append_assoc]
      · intro b hb
        injection hb with hb
        subst hb
        refine ⟨hinv.size, ?_⟩
        intro e he
        rcases mem_append.mp he with he | he
        · exact hinv.kind e he
        rw [mem_singleton.mp he]
        -- the batch is either fresh, of the kind of this input, or was found to be of it
        by_contra hne
        cases hb : f.batch with
        | none => exact hne (hfresh hb (by omega))
        | some b =>
          rw [hb] at hkind
          exact hkind ⟨rfl, hne⟩
      · rw [length_append, length_singleton]
        have := hinv.size
        omega
      · intro hgone
        rw [show f.removed = true from hgone] at hremoved
        cases hremoved
    · rw [hsync, append_assoc]
      rfl
    · rw [length_append, length_singleton]

theorem discardFrom_append {keep discard : Nat} {xs ys : List Input}
    (h : keep + discard ≤ xs.length) :
    discardFrom keep discard (xs ++ ys) = xs.take keep ++ xs.drop (keep + discard) ++ ys := by
  unfold discardFrom
  rw [take_append_of_le_length (by omega), drop_append_of_le_length h, append_assoc]

theorem kept_length {keep discard : Nat} {xs : List Input} (h : keep + discard ≤ xs.length) :
    xs.length - (xs.take keep ++ xs.drop (keep + discard)).length = discard := by
  rw [length_append, length_take, length_drop]
  omega

theorem rmCells_mono {p0 p1 : Int} {cells cells' : List Cell} (h : ∀ c ∈ cells, c ∈ cells') :
    ∀ c ∈ rmCells p0 p1 cells, c ∈ rmCells p0 p1 cells' := by
  intro c hc
  have hmem := mem_filter.mp hc
  exact mem_filter.mpr ⟨h c hmem.1, hmem.2⟩

theorem addCells_mono {p0 p1 shift : Int} {cells cells' : List Cell} (h : ∀ c ∈ cells, c ∈ cells') :
    ∀ c ∈ addCells p0 p1 shift cells, c ∈ addCells p0 p1 shift cells' := by
  intro c hc
  unfold addCells at hc ⊢
  split at hc
  · next hnone =>
    rw [if_pos hnone]
    exact h c hc
  · next hsome =>
    rw [if_neg hsome]
    obtain ⟨c', hc', rfl⟩ := mem_map.mp hc
    exact mem_map_of_mem (h c' hc')

/-- A full slot with nothing pending: its one input waits for a shift. -/
theorem FillingInv.shift {f : Filling}
    (h : FillingInv P id b₀ mem₀ f) (refused : Bool) (hid : id < mem₀.length)
    (hfull : f.inputs.length = P.numCtx) (hpend : f.seq.pendingInputs = []) :
    (∃ mem inputs, shiftCacheSlot P f.mem f.seq.cache f.inputs f.seq.numKeep refused =
        .reprocess mem inputs ∧ inputs.length < f.inputs.length ∧
        FillingInv P id b₀ mem₀ (f.reprocess mem inputs)) ∨
    (∃ mem inputs, shiftCacheSlot P f.mem f.seq.cache f.inputs f.seq.numKeep refused =
        .shifted mem inputs ∧ inputs.length < f.inputs.length ∧
        FillingInv P id b₀ mem₀ (f.shifted mem inputs)) := by
  obtain ⟨new, hnew, hplaced⟩ := h.added
  rw [hpend] at hplaced
  cases hplaced
  have hlen : id < f.mem.length := by rw [h.length]; exact hid
  obtain ⟨discard, hpos, hle, hdef, hcases⟩ :=
    shiftCacheSlot_spec hlen h.holds h.numKeep hfull
  have hkept : (f.inputs.take f.seq.numKeep ++ f.inputs.drop (f.seq.numKeep + discard)).length =
      f.inputs.length - discard := by
    rw [length_append, length_take, length_drop]
    omega
  have hwhole : discardFrom f.seq.numKeep (f.inputs.length -
        (f.inputs.take f.seq.numKeep ++ f.inputs.drop (f.seq.numKeep + discard)).length)
      f.seq.whole =
      f.inputs.take f.seq.numKeep ++ f.inputs.drop (f.seq.numKeep + discard) ++ f.seq.inputs := by
    rw [kept_length hle, ← h.whole, discardFrom_append hle]
  rw [h.cache]
  rcases hcases with ⟨mem', hres, hmlen, hothers, -, hstream⟩ | ⟨mem', hres, hmlen, hothers, hstream⟩
  · right
    refine ⟨mem', _, hres, by omega, ?_⟩
    refine { h with
      length := by rw [← h.length]; exact hmlen
      others := fun j hj => (hothers j hj).trans (h.others j hj)
      holds := ⟨by
        show (streamOf mem' id).full = _
        rw [hstream]
        rfl, ?_⟩
      whole := hwhole.symm
      room := ?_
      fits := by
        show (f.inputs.take _ ++ f.inputs.drop _).length + f.seq.pendingInputs.length ≤ _
        rw [hpend, hkept]
        show _ + 0 ≤ _
        omega
      added := ⟨[], hnew, by
        show Placed _ _ _ f.seq.pendingInputs _
        rw [hpend]
        exact .nil _⟩ }
    · intro c hc
      show c ∈ stored (f.inputs.take _ ++ f.inputs.drop _)
      rw [← addCells_rmCells f.inputs hpos hle]
      rw [show (f.shifted mem' _).mem = mem' from rfl, hstream] at hc
      exact addCells_mono (fun c hc => rmCells_mono h.holds.swa c hc) c hc
    · show (f.inputs.take _ ++ f.inputs.drop _).length + f.seq.inputs.length ≤ _ ∨
        (_ ∧ (f.inputs.take _ ++ f.inputs.drop _).length ≤ _)
      rcases h.room with hroom | ⟨hone, hroom⟩
      · exact Or.inl (by omega)
      · exact Or.inr ⟨hone, by omega⟩
  · left
    refine ⟨mem', _, hres, by omega, ?_⟩
    refine { h with
      length := by rw [← h.length]; exact hmlen
      others := fun j hj => (hothers j hj).trans (h.others j hj)
      holds := by
        show Holds (streamOf mem' id) []
        rw [hstream]
        exact Holds.nil
      whole := hwhole.symm
      pend := by
        show f.seq.pendingInputs <+: _
        rw [hpend]
        exact List.nil_prefix
      handed := rfl
      decoded := fun d hd => by cases hd
      room := ?_
      fits := by
        show 0 + f.seq.pendingInputs.length ≤ _
        rw [hpend]
        exact Nat.zero_le _
      added := ⟨[], hnew, by
        show Placed _ _ _ f.seq.pendingInputs _
        rw [hpend]
        exact .nil _⟩ }
    show 0 + (f.inputs.take _ ++ f.inputs.drop _ ++ f.seq.inputs).length ≤ _ ∨ _
    rw [length_append, hkept]
    left
    rcases h.room with hroom | ⟨hone, hroom⟩ <;> omega

structure FillingKeeps (P : Params) (id : Nat) (b₀ : Option Batch) (mem₀ : Memory)
    (refused : Bool) (Q : Filling → Prop) : Prop where
  add : ∀ f f' seqIdx i input stop, f.add P seqIdx i input = (f', stop) → Q f → Q f'
  shifted : ∀ f mem inputs, FillingInv P id b₀ mem₀ f → f.inputs.length = P.numCtx →
    shiftCacheSlot P f.mem f.seq.cache f.inputs f.seq.numKeep refused = .shifted mem inputs →
    f.seq.shift = true → Q f → Q (f.shifted mem inputs)
  reprocess : ∀ f mem inputs, FillingInv P id b₀ mem₀ f → f.inputs.length = P.numCtx →
    shiftCacheSlot P f.mem f.seq.cache f.inputs f.seq.numKeep refused = .reprocess mem inputs →
    Q f → Q (f.reprocess mem inputs)
  removed : ∀ f, Q f → Q { f with removed := true }

/-- **The inner loop keeps the invariant**, and what its steps keep. A refused
shift replaces the queue while the loop goes on over the old one; that is only
reached when the old one has a single input, so that nothing of it is left. -/
theorem FillingInv.fillInputs_keeps {refused : Bool} {seqIdx : Nat} {Q : Filling → Prop}
    (hkeeps : FillingKeeps P id b₀ mem₀ refused Q) (hid : id < mem₀.length) (xs : List Input) :
    ∀ {f f' : Filling} {k : Nat}, FillingInv P id b₀ mem₀ f → Q f → f.removed = false →
      (xs = [] ∨ (f.seq.inputs = f.seq.pendingInputs ++ xs ∧ k = f.seq.pendingInputs.length)) →
      fillInputs P refused seqIdx (xs.zipIdx k) f = some f' →
      FillingInv P id b₀ mem₀ f' ∧ Q f' := by
  induction xs with
  | nil =>
    intro f f' k h hQ hremoved hsync hrun
    injection hrun with hrun
    exact hrun ▸ ⟨h, hQ⟩
  | cons input rest ih =>
    intro f f' k h hQ hremoved hsync hrun
    obtain ⟨hqueue, rfl⟩ := hsync.resolve_left (cons_ne_nil _ _)
    rw [zipIdx_cons] at hrun
    unfold LlamaRunner.fillInputs at hrun
    split at hrun
    · next hover =>
      split at hrun
      · next hpend =>
        split at hrun
        · injection hrun with hrun
          subst hrun
          exact ⟨{ h with removed := fun _ => hpend }, hkeeps.removed f hQ⟩
        rename_i hshift
        have hlen : f.seq.inputs.length = rest.length + 1 := by rw [hqueue, hpend]; rfl
        rw [hpend] at hover
        have hover' : P.numCtx < f.inputs.length + 0 + 1 := hover
        have hone : f.seq.inputs.length = 1 ∧ f.inputs.length ≤ P.numCtx :=
          h.room.resolve_left (by omega)
        have hrest : rest = [] := length_eq_zero_iff.mp (by omega)
        have hfull : f.inputs.length = P.numCtx := by omega
        subst hrest
        rcases h.shift refused hid hfull hpend with
          ⟨mem, inputs, hres, hshort, hinv⟩ | ⟨mem, inputs, hres, hshort, hinv⟩
        · rw [hres] at hrun
          exact ih hinv (hkeeps.reprocess f mem inputs h hfull hres hQ) hremoved (Or.inl rfl) hrun
        have hQ₁ := hkeeps.shifted f mem inputs h hfull hres (by simpa using hshift) hQ
        rw [hres] at hrun
        dsimp only at hrun
        cases hadd : (f.shifted mem inputs).add P seqIdx f.seq.pendingInputs.length input with
        | mk f₁ stop =>
          rw [hadd] at hrun
          obtain ⟨hinv₁, hremoved₁, hnext⟩ := hinv.add hremoved hqueue (by
              show inputs.length + f.seq.pendingInputs.length + 1 ≤ _
              rw [hpend]
              omega) hadd
          have hQ₂ := hkeeps.add _ _ _ _ _ _ hadd hQ₁
          cases stop with
          | true =>
            injection hrun with hrun
            exact hrun ▸ ⟨hinv₁, hQ₂⟩
          | false => exact ih hinv₁ hQ₂ hremoved₁ (Or.inr (hnext rfl)) hrun
      · injection hrun with hrun
        exact hrun ▸ ⟨h, hQ⟩
    · next hfits =>
      cases hadd : f.add P seqIdx f.seq.pendingInputs.length input with
      | mk f₁ stop =>
        rw [hadd] at hrun
        obtain ⟨hinv₁, hremoved₁, hnext⟩ := h.add hremoved hqueue (by omega) hadd
        have hQ₁ := hkeeps.add _ _ _ _ _ _ hadd hQ
        cases stop with
        | true =>
          injection hrun with hrun
          exact hrun ▸ ⟨hinv₁, hQ₁⟩
        | false => exact ih hinv₁ hQ₁ hremoved₁ (Or.inr (hnext rfl)) hrun

theorem FillingInv.fillInputs
    {refused : Bool} {seqIdx k : Nat} {xs : List Input} {f f' : Filling} (hid : id < mem₀.length)
    (h : FillingInv P id b₀ mem₀ f) (hremoved : f.removed = false) (hsync : xs = [] ∨
      (f.seq.inputs = f.seq.pendingInputs ++ xs ∧ k = f.seq.pendingInputs.length))
    (hrun : fillInputs P refused seqIdx (xs.zipIdx k) f = some f') :
    FillingInv P id b₀ mem₀ f' := by
  have hkeeps : FillingKeeps P id b₀ mem₀ refused fun _ => True := by constructor <;> simp
  exact (FillingInv.fillInputs_keeps hkeeps hid xs h trivial hremoved hsync hrun).1

/-- The outer loop: the sequences `todo` have not been visited, `visited` have. -/
structure FillInv (P : Params) (f : Fill) (todo : List Nat) (visited : Nat) : Prop where
  slots : SlotsHold f.slots f.mem
  seqs : ∀ (j : Nat) q, f.seqs[j]? = some (some q) → ∃ slot, f.slots[q.cache]? = some slot ∧
    SeqInv P slot (streamOf f.mem q.cache) q (entriesFor f.batch q.cache)
  fresh : ∀ (j : Nat) q, f.seqs[j]? = some (some q) → j ∈ todo → q.pendingInputs = []
  distinct : ∀ (j k : Nat) q r, f.seqs[j]? = some (some q) → f.seqs[k]? = some (some r) →
    q.cache = r.cache → j = k
  owned : ∀ e ∈ entriesOf f.batch, ∃ (j : Nat) (q : Sequence),
    f.seqs[j]? = some (some q) ∧ q.cache = e.seqId
  batch : ∀ b, f.batch = some b → BatchInv P b
  total : (entriesOf f.batch).length ≤ P.batchSize * visited

theorem getElem?_set_cases {α : Type} {l : List α} {i j : Nat} {a b : α}
    (h : (l.set i a)[j]? = some b) : (j = i ∧ b = a) ∨ (j ≠ i ∧ l[j]? = some b) := by
  by_cases hij : j = i
  · subst hij
    left
    have hlt := (List.getElem?_eq_some_iff.mp h).1
    rw [length_set] at hlt
    rw [getElem?_set_self hlt] at h
    exact ⟨rfl, (Option.some.inj h).symm⟩
  · right
    rw [getElem?_set_ne (Ne.symm hij)] at h
    exact ⟨hij, h⟩

variable {slot : InputCacheSlot}

theorem getElem?_modify_cases {slots : List InputCacheSlot} {i j : Nat}
    {f : InputCacheSlot → InputCacheSlot} (h : (slots.modify i f)[j]? = some slot) :
    (j = i ∧ ∃ old, slots[i]? = some old ∧ slot = f old) ∨ (j ≠ i ∧ slots[j]? = some slot) := by
  by_cases hij : j = i
  · subst hij
    left
    rw [getElem?_modify_eq] at h
    obtain ⟨old, hold, rfl⟩ := Option.map_eq_some_iff.mp h
    exact ⟨rfl, old, hold, rfl⟩
  · right
    rw [modify_others hij] at h
    exact ⟨hij, h⟩

theorem SlotsHold.free {slots : List InputCacheSlot} {mem : Memory} (h : SlotsHold slots mem)
    (i : Nat) : SlotsHold (slots.modify i fun s => { s with inUse := false }) mem := by
  refine ⟨by rw [h.length, length_modify], ?_⟩
  intro j slot hslot
  rcases getElem?_modify_cases hslot with ⟨rfl, old, hold, rfl⟩ | ⟨-, hslot⟩
  · exact h.holds j old hold
  · exact h.holds j slot hslot

theorem entriesFor_append {b b' : Option Batch} {new : List Entry}
    (h : entriesOf b' = entriesOf b ++ new) (id : Nat) :
    entriesFor b' id = entriesFor b id ++ new.filter fun e => e.seqId = id := by
  unfold entriesFor
  rw [h, filter_append]

variable {q : Sequence}

theorem SeqInv.no_entries {stream : Stream}
    {entries : List Entry} (h : SeqInv P slot stream q entries) (hpend : q.pendingInputs = []) :
    entries = [] := by
  have hlen := h.placed.length
  rw [hpend] at hlen
  exact length_eq_zero_iff.mp hlen

variable {f : Fill} {todo : List Nat} {visited j : Nat}

/-- A sequence without entries in the batch is removed. -/
theorem FillInv.remove (h : FillInv P f (j :: todo) visited) (hq : f.seqs[j]? = some (some q)) :
    FillInv P { f with
      slots := (removeSeq f.slots f.seqs j q.cache).1
      seqs := (removeSeq f.slots f.seqs j q.cache).2 } todo visited := by
  obtain ⟨slot, hslot, hinv⟩ := h.seqs j q hq
  have hnone := hinv.no_entries (h.fresh j q hq mem_cons_self)
  have hothers : ∀ {k : Nat} {r : Sequence}, (f.seqs.set j none)[k]? = some (some r) →
      k ≠ j ∧ f.seqs[k]? = some (some r) := by
    intro k r hr
    rcases getElem?_set_cases hr with ⟨-, hr⟩ | hr
    · cases hr
    · exact hr
  refine ⟨h.slots.free q.cache, ?_, ?_, ?_, ?_, h.batch, ?_⟩
  · intro k r hr
    obtain ⟨hkj, hr⟩ := hothers hr
    obtain ⟨slot', hslot', hinv'⟩ := h.seqs k r hr
    have hne : r.cache ≠ q.cache := fun heq => hkj (h.distinct k j r q hr hq heq)
    exact ⟨slot', by
      show (f.slots.modify q.cache _)[r.cache]? = _
      rw [modify_others hne, hslot'], hinv'⟩
  · intro k r hr hk
    exact h.fresh k r (hothers hr).2 (mem_cons_of_mem _ hk)
  · intro k l r r' hr hr' heq
    exact h.distinct k l r r' (hothers hr).2 (hothers hr').2 heq
  · intro e he
    obtain ⟨k, r, hr, hid⟩ := h.owned e he
    have hkj : k ≠ j := by
      rintro rfl
      rw [hq] at hr
      injection hr with hr
      injection hr with hr
      subst hr
      have hmem : e ∈ entriesFor f.batch q.cache :=
        mem_filter.mpr ⟨he, decide_eq_true hid.symm⟩
      rw [hnone] at hmem
      cases hmem
    refine ⟨k, r, ?_, hid⟩
    show (f.seqs.set j none)[k]? = _
    rw [getElem?_set_ne (Ne.symm hkj), hr]
  · exact h.total

theorem FillInv.later {visited : Nat}
    (h : FillInv P f todo visited) : FillInv P f todo (visited + 1) :=
  { h with total := Nat.le_trans h.total (Nat.mul_le_mul_left _ (Nat.le_succ _)) }

/-- The variables of the inner loop as it begins. -/
theorem FillInv.filling (h : FillInv P f (j :: todo) visited)
    (hq : f.seqs[j]? = some (some q)) (hslot : f.slots[q.cache]? = some slot) :
    FillingInv P q.cache f.batch f.mem
      { inputs := slot.inputs, mem := f.mem, seq := q, batch := f.batch, nextSeq := f.nextSeq,
        numOutputs := f.numOutputs } := by
  obtain ⟨slot', hslot', hinv⟩ := h.seqs j q hq
  rw [hslot] at hslot'
  injection hslot' with hslot'
  subst hslot'
  have hpend := h.fresh j q hq mem_cons_self
  have hwhole := hinv.whole
  have hhanded := hinv.handed
  have hroom := hinv.room
  rw [hpend] at hwhole hhanded hroom
  refine ⟨rfl, rfl, fun _ _ => rfl, hinv.holds, hwhole, ?_, hhanded, hinv.decoded, ?_, ?_,
    hinv.numKeep, ⟨[], ?_, ?_⟩, h.batch, hinv.pending, fun hgone => by cases hgone⟩
  · rw [hpend]
    exact List.nil_prefix
  · rw [length_nil, Nat.zero_add] at hroom
    exact hroom
  · show slot.inputs.length + q.pendingInputs.length ≤ _
    rw [hpend, length_nil]
    rcases hroom with hroom | ⟨-, hroom⟩ <;> omega
  · rw [append_nil]
  · rw [hpend]
    exact .nil _

/-- The sequence after the inner loop. -/
theorem FillingInv.leave {r : Filling} {new : List Entry} (h : FillingInv P id b₀ mem₀ r)
    (huse : slot.inUse = true) (hplaced : Placed P.numCtx id r.inputs r.seq.pendingInputs new) :
    SeqInv P { slot with inputs := r.inputs } (streamOf r.mem id) r.leave new := by
  obtain ⟨rest, hrest⟩ := h.pend
  have hdrop : r.seq.inputs.drop r.seq.pendingInputs.length = rest := by
    rw [← hrest, drop_left]
  have hlen : r.seq.inputs.length = r.seq.pendingInputs.length + rest.length := by
    rw [← hrest, length_append]
  refine ⟨huse, h.holds, ?_, ?_, h.decoded, ?_, h.pending, ?_, h.numKeep⟩
  · show r.inputs ++ (r.seq.pendingInputs ++ r.seq.inputs.drop _) = r.seq.whole
    rw [hdrop, hrest]
    exact h.whole
  · show _ ++ (r.seq.pendingInputs ++ r.seq.inputs.drop _) = r.seq.handed
    rw [hdrop, hrest]
    exact h.handed
  · show Placed _ r.seq.cache _ _ _
    rw [h.cache]
    exact hplaced
  · show r.inputs.length + (_ + (r.seq.inputs.drop _).length) ≤ _ ∨
      (_ + (r.seq.inputs.drop _).length = 1 ∧ _)
    rw [hdrop, show r.leave.pendingInputs = r.seq.pendingInputs from rfl, ← hlen]
    exact h.room.imp_right fun hone => ⟨hone.1, h.fits⟩

/-- Writing back what the inner loop leaves. -/
theorem FillInv.write {r : Filling} (h : FillInv P f (j :: todo) visited) (hj : j ∉ todo)
    (hq : f.seqs[j]? = some (some q)) (hslot : f.slots[q.cache]? = some slot)
    (hres : FillingInv P q.cache f.batch f.mem r) :
    FillInv P (f.write j q.cache r) todo (visited + 1) := by
  obtain ⟨slot', hslot', hinv⟩ := h.seqs j q hq
  rw [hslot] at hslot'
  injection hslot' with hslot'
  subst hslot'
  have hnone := hinv.no_entries (h.fresh j q hq mem_cons_self)
  obtain ⟨new, hnew, hplaced⟩ := hres.added
  -- what the other sequences see of the slots, the memory and the batch
  have hframe : ∀ {k : Nat} {q' : Sequence}, k ≠ j → f.seqs[k]? = some (some q') →
      q'.cache ≠ q.cache := fun hk hq' heq => hk (h.distinct _ _ _ _ hq' hq heq)
  have hfor : ∀ id, id ≠ q.cache → entriesFor r.batch id = entriesFor f.batch id := by
    intro id hne
    rw [entriesFor_append hnew, filter_eq_nil_iff.mpr, append_nil]
    intro e he heq
    exact hne ((of_decide_eq_true heq).symm.trans (hplaced.seqId e he))
  have hself : entriesFor r.batch q.cache = new := by
    rw [entriesFor_append hnew, hnone, nil_append, filter_eq_self.mpr]
    exact fun e he => decide_eq_true (hplaced.seqId e he)
  have hcases : ∀ {k : Nat} {q' : Sequence}, (f.write j q.cache r).seqs[k]? = some (some q') →
      (k = j ∧ q' = r.leave) ∨ (k ≠ j ∧ f.seqs[k]? = some (some q')) := by
    intro k q' hq'
    rcases getElem?_set_cases hq' with ⟨hk, hq'⟩ | hq'
    · exact Or.inl ⟨hk, Option.some.inj hq'⟩
    · exact Or.inr hq'
  have hcache : r.leave.cache = q.cache := hres.cache
  refine ⟨⟨?_, ?_⟩, ?_, ?_, ?_, ?_, hres.batch, ?_⟩
  · show r.mem.length = (f.slots.modify q.cache _).length
    rw [hres.length, h.slots.length, length_modify]
  · intro k slot' hslot'
    show ∃ kept, Holds (streamOf r.mem k) kept ∧ _
    rcases getElem?_modify_cases hslot' with ⟨rfl, old, hold, rfl⟩ | ⟨hne, hslot'⟩
    · exact ⟨r.inputs, hres.holds, prefix_rfl⟩
    · rw [hres.others k hne]
      exact h.slots.holds k slot' hslot'
  · intro k q' hq'
    rcases hcases hq' with ⟨rfl, rfl⟩ | ⟨hkj, hq'⟩
    · refine ⟨{ slot with inputs := r.inputs }, ?_, ?_⟩
      · show (f.slots.modify q.cache _)[r.leave.cache]? = _
        rw [hcache, getElem?_modify_eq, hslot]
        rfl
      · show SeqInv P _ (streamOf r.mem r.leave.cache) _ (entriesFor r.batch r.leave.cache)
        rw [hcache, hself]
        exact hres.leave hinv.inUse hplaced
    · obtain ⟨slot', hslot', hinv'⟩ := h.seqs k q' hq'
      refine ⟨slot', by
        show (f.slots.modify q.cache _)[q'.cache]? = _
        rw [modify_others (hframe hkj hq'), hslot'], ?_⟩
      show SeqInv P slot' (streamOf r.mem _) q' (entriesFor r.batch _)
      rw [hres.others _ (hframe hkj hq'), hfor _ (hframe hkj hq')]
      exact hinv'
  · intro k q' hq' hk
    rcases hcases hq' with ⟨rfl, -⟩ | ⟨-, hq'⟩
    · exact absurd hk hj
    · exact h.fresh k q' hq' (mem_cons_of_mem _ hk)
  · intro k l q' r' hq' hr' heq
    rcases hcases hq' with ⟨hkj, hleave⟩ | ⟨hkj, hold⟩
    · rcases hcases hr' with ⟨hlj, -⟩ | ⟨hlj, hold'⟩
      · rw [hkj, hlj]
      · rw [hleave, hcache] at heq
        exact absurd heq.symm (hframe hlj hold')
    · rcases hcases hr' with ⟨hlj, hleave⟩ | ⟨hlj, hold'⟩
      · rw [hleave, hcache] at heq
        exact absurd heq (hframe hkj hold)
      · exact h.distinct k l q' r' hold hold' heq
  · intro e he
    have hjlt : j < f.seqs.length := (List.getElem?_eq_some_iff.mp hq).1
    rw [show entriesOf (f.write j q.cache r).batch = entriesOf f.batch ++ new from hnew] at he
    rcases mem_append.mp he with he | he
    · obtain ⟨k, q', hq', heq⟩ := h.owned e he
      by_cases hkj : k = j
      · subst hkj
        rw [hq] at hq'
        injection hq' with hq'
        injection hq' with hq'
        subst hq'
        exact ⟨k, r.leave, getElem?_set_self hjlt, hcache.trans heq⟩
      · refine ⟨k, q', ?_, heq⟩
        show (f.seqs.set j _)[k]? = _
        rw [getElem?_set_ne (Ne.symm hkj), hq']
    · exact ⟨j, r.leave, getElem?_set_self hjlt, hcache.trans (hplaced.seqId e he).symm⟩
  · show (entriesOf r.batch).length ≤ _
    rw [hnew, length_append, hplaced.length, Nat.mul_succ]
    exact Nat.add_le_add h.total hres.pending

variable {refused : Nat → Bool}

/-- **The outer loop keeps the invariant.** -/
theorem FillInv.fillSeq {f f' : Fill} (h : FillInv P f (j :: todo) visited) (hj : j ∉ todo)
    (hrun : fillSeq P refused f j = some f') : FillInv P f' todo (visited + 1) := by
  unfold LlamaRunner.fillSeq at hrun
  split at hrun
  · next q hq =>
    split at hrun
    · injection hrun with hrun
      subst hrun
      exact (h.remove hq).later
    split at hrun
    · cases hrun
    rename_i slot hslot
    have hpend := h.fresh j q hq mem_cons_self
    have hid : q.cache < f.mem.length := by
      rw [h.slots.length]
      exact (List.getElem?_eq_some_iff.mp hslot).1
    split at hrun
    · cases hrun
    rename_i r hr
    have hres := FillingInv.fillInputs hid (h.filling hq hslot) rfl
      (Or.inr ⟨by rw [hpend]; rfl, by rw [hpend]; rfl⟩) hr
    have hwritten := h.write hj hq hslot hres
    dsimp only at hrun
    cases hremoved : r.removed with
    | false =>
      rw [hremoved, if_neg Bool.false_ne_true] at hrun
      injection hrun with hrun
      exact hrun ▸ hwritten
    | true =>
      rw [hremoved, if_pos rfl] at hrun
      injection hrun with hrun
      subst hrun
      -- the sequence is removed before anything of it is in the batch
      have hfresh : FillInv P (f.write j q.cache r) (j :: todo) (visited + 1) :=
        { hwritten with
          fresh := fun k q' hq' hk => by
            rcases mem_cons.mp hk with rfl | hk
            · have hjlt : k < f.seqs.length := (List.getElem?_eq_some_iff.mp hq).1
              have hself : (f.write k q.cache r).seqs[k]? = some (some r.leave) :=
                getElem?_set_self hjlt
              rw [hself] at hq'
              injection hq' with hq'
              injection hq' with hq'
              rw [← hq']
              exact hres.removed hremoved
            · exact hwritten.fresh k q' hq' hk }
      have hjlt : j < f.seqs.length := (List.getElem?_eq_some_iff.mp hq).1
      have hgone := hfresh.remove (q := r.leave) (getElem?_set_self hjlt)
      rw [show r.leave.cache = q.cache from hres.cache] at hgone
      exact hgone
  · injection hrun with hrun
    subst hrun
    exact { h.later with
      fresh := fun k q hq hk => h.fresh k q hq (mem_cons_of_mem _ hk) }

theorem order_nodup (nextSeq n : Nat) : (order nextSeq n).Nodup := by
  apply List.Nodup.map_on
  · intro a ha b hb heq
    rw [mem_range] at ha hb
    have hab := Nat.ModEq.add_left_cancel' nextSeq (show nextSeq + a ≡ nextSeq + b [MOD n] from heq)
    rwa [Nat.ModEq, Nat.mod_eq_of_lt ha, Nat.mod_eq_of_lt hb] at hab
  · exact nodup_range

theorem order_length (nextSeq n : Nat) : (order nextSeq n).length = n := by
  unfold order
  rw [length_map, length_range]

/-- The outer loop over what is still to be visited, and what its steps keep. -/
theorem FillInv.foldlM_keeps {Q : List Nat → Fill → Prop}
    (hkeeps : ∀ {f f' : Fill} {j visited : Nat} {todo : List Nat},
      FillInv P f (j :: todo) visited → j ∉ todo → LlamaRunner.fillSeq P refused f j = some f' →
      Q (j :: todo) f → Q todo f') (todo : List Nat) :
    ∀ {f f' : Fill} {visited : Nat}, FillInv P f todo visited → Q todo f → todo.Nodup →
      todo.foldlM (LlamaRunner.fillSeq P refused) f = some f' →
      FillInv P f' [] (visited + todo.length) ∧ Q [] f' := by
  induction todo with
  | nil =>
    intro f f' visited h hQ _ hrun
    injection hrun with hrun
    exact hrun ▸ ⟨h, hQ⟩
  | cons j todo ih =>
    intro f f' visited h hQ hnodup hrun
    obtain ⟨f₁, hfirst, hrest⟩ := Option.bind_eq_some_iff.mp hrun
    obtain ⟨hj, hnodup⟩ := nodup_cons.mp hnodup
    have := ih (h.fillSeq hj hfirst) (hkeeps h hj hfirst hQ) hnodup hrest
    rw [length_cons, Nat.add_comm todo.length 1, ← Nat.add_assoc]
    exact this

/-! ## §4  Decoding the batch -/

theorem Holds.purge {s : Stream} {S : List Input} (h : Holds s S) (masked : Int → Int → Bool)
    (evict : Int) : Holds (s.purge masked evict) S := by
  unfold Stream.purge
  split
  · exact ⟨h.full, fun c hc => h.swa c (mem_filter.mp hc).1⟩
  · exact h

/-- Storing the next input. -/
theorem Holds.store {s : Stream} {S : List Input} (h : Holds s S) (windowed : Bool) (x : Input) :
    Holds (s.store windowed ((S.length : Int), x)) (S ++ [x]) := by
  constructor
  · show s.full ++ _ = _
    rw [h.full, stored_snoc]
  intro c hc
  rw [stored_snoc]
  cases windowed with
  | false => exact mem_append_left _ (h.swa c hc)
  | true =>
    rcases mem_append.mp hc with hc | hc
    · exact mem_append_left _ (h.swa c hc)
    · exact mem_append_right _ hc

def decodedFor (decoded : List Decoded) (id : Nat) : List Decoded :=
  decoded.filter fun d => d.entry.seqId = id

structure StreamKeeps (w : Window) (Q : Stream → Prop) : Prop where
  purge : ∀ s S evict, Holds s S → Q s → Q (s.purge w.masked evict)
  store : ∀ s S x, Holds s S → Q s → Q (s.store w.windowed ((S.length : Int), x))

/-- **What `Decode` does to one sequence** whose entries are placed in order. -/
theorem decode_spec {Q : Stream → Prop} (hkeeps : StreamKeeps P.window Q)
    (evict : Nat → Int) (es : List Entry) :
    ∀ (k : Nat) (mem : Memory) (S xs : List Input), id < mem.length →
      Holds (streamOf mem id) S → Q (streamOf mem id) →
      Placed P.numCtx id S xs (es.filter fun e => e.seqId = id) →
      Holds (streamOf (decode P.window evict k mem es).1 id) (S ++ xs) ∧
      Q (streamOf (decode P.window evict k mem es).1 id) ∧
      (decodedFor (decode P.window evict k mem es).2 id).map (·.entry.input) = xs ∧
      ∀ d ∈ decodedFor (decode P.window evict k mem es).2 id, DecodedAt P d ∧ Q d.stream := by
  induction es with
  | nil =>
    intro k mem S xs hid hholds hQ hplaced
    cases hplaced
    exact ⟨by rw [append_nil]; exact hholds, hQ, rfl, fun d hd => by cases hd⟩
  | cons e es ih =>
    intro k mem S xs hid hholds hQ hplaced
    obtain ⟨stream, hstream⟩ : ∃ t, t = (streamOf mem e.seqId).purge P.window.masked (evict k) :=
      ⟨_, rfl⟩
    obtain ⟨mem₁, hmem₁⟩ : ∃ m, m = mem.set e.seqId (stream.store P.window.windowed (e.pos, e.input)) :=
      ⟨_, rfl⟩
    have hdecode : decode P.window evict k mem (e :: es) =
        ((decode P.window evict (k + 1) mem₁ es).1,
          { entry := e, stream } :: (decode P.window evict (k + 1) mem₁ es).2) := by
      rw [hmem₁, hstream]
      rfl
    have hlen₁ : mem₁.length = mem.length := by rw [hmem₁, length_set]
    rw [hdecode]
    by_cases he : e.seqId = id
    · have hfirst : (e :: es).filter (fun e => e.seqId = id) =
          e :: es.filter fun e => e.seqId = id := filter_cons_of_pos (decide_eq_true he)
      rw [hfirst] at hplaced
      have hcons : decodedFor
          ({ entry := e, stream } :: (decode P.window evict (k + 1) mem₁ es).2) id =
          { entry := e, stream } :: decodedFor (decode P.window evict (k + 1) mem₁ es).2 id :=
        filter_cons_of_pos (decide_eq_true he)
      cases hplaced with
      | @cons _ xs' _ _ hseq hbefore hpos hlt hrest =>
        have hpurged : Holds stream S := by
          rw [hstream, he]
          exact hholds.purge _ _
        have hQpurged : Q stream := by
          rw [hstream, he]
          exact hkeeps.purge _ S _ hholds hQ
        have hstored : streamOf mem₁ id =
            stream.store P.window.windowed ((S.length : Int), e.input) := by
          rw [hmem₁, he, streamOf_set_self hid, hpos]
        obtain ⟨hfinal, hQfinal, hinputs, hall⟩ :=
          ih (k + 1) mem₁ (S ++ [e.input]) xs' (by rw [hlen₁]; exact hid)
            (by rw [hstored]; exact hpurged.store _ _)
            (by rw [hstored]; exact hkeeps.store _ S _ hpurged hQpurged) hrest
        refine ⟨?_, hQfinal, ?_, ?_⟩
        · rw [append_assoc] at hfinal
          exact hfinal
        · rw [hcons, map_cons, hinputs]
        rw [hcons]
        intro d hd
        rcases mem_cons.mp hd with rfl | hd
        · exact ⟨⟨by rw [hbefore]; exact hpurged, by rw [hbefore]; exact hpos,
            by rw [hbefore]; exact hlt⟩, hQpurged⟩
        · exact hall d hd
    · have hskip : (e :: es).filter (fun e => e.seqId = id) =
          es.filter fun e => e.seqId = id := filter_cons_of_neg (by simpa using he)
      rw [hskip] at hplaced
      have hcons : decodedFor
          ({ entry := e, stream } :: (decode P.window evict (k + 1) mem₁ es).2) id =
          decodedFor (decode P.window evict (k + 1) mem₁ es).2 id :=
        filter_cons_of_neg (by simpa using he)
      have hsame : streamOf mem₁ id = streamOf mem id := by
        rw [hmem₁, streamOf_set_ne (Ne.symm he)]
      have := ih (k + 1) mem₁ S xs (by rw [hlen₁]; exact hid) (by rw [hsame]; exact hholds)
        (by rw [hsame]; exact hQ) hplaced
      rw [hcons]
      exact this

theorem decode_others {w : Window} (evict : Nat → Int) (es : List Entry) :
    ∀ (k : Nat) (mem : Memory), (∀ e ∈ es, e.seqId ≠ id) →
      streamOf (decode w evict k mem es).1 id = streamOf mem id := by
  induction es with
  | nil => exact fun k mem _ => rfl
  | cons e es ih =>
    intro k mem hes
    show streamOf (decode w evict (k + 1) _ es).1 id = _
    rw [ih _ _ fun e' he' => hes e' (mem_cons_of_mem _ he'),
      streamOf_set_ne (Ne.symm (hes e mem_cons_self))]

theorem decode_length {w : Window} (evict : Nat → Int) (es : List Entry) :
    ∀ (k : Nat) (mem : Memory), (decode w evict k mem es).1.length = mem.length := by
  induction es with
  | nil => exact fun k mem => rfl
  | cons e es ih =>
    intro k mem
    show (decode w evict (k + 1) _ es).1.length = _
    rw [ih, length_set]

/-- What `appendPending` appends to slot `i`. -/
def pendingFor (seqs : List (Option Sequence)) (i : Nat) : List Input :=
  seqs.flatMap fun q =>
    match q with
    | none => []
    | some q => if q.cache = i then q.pendingInputs else []

theorem appendPending_getElem? (seqs : List (Option Sequence)) :
    ∀ (slots : List InputCacheSlot) (i : Nat), (appendPending slots seqs)[i]? =
      (slots[i]?).map fun s => { s with inputs := s.inputs ++ pendingFor seqs i } := by
  induction seqs with
  | nil =>
    intro slots i
    show slots[i]? = _
    cases slots[i]? with
    | none => rfl
    | some slot =>
      show some slot = some { slot with inputs := slot.inputs ++ [] }
      rw [append_nil]
  | cons q seqs ih =>
    intro slots i
    cases q with
    | none => exact ih slots i
    | some q =>
      have hfor : pendingFor (some q :: seqs) i =
          (if q.cache = i then q.pendingInputs else []) ++ pendingFor seqs i := rfl
      show (appendPending (slots.modify q.cache _) seqs)[i]? = _
      rw [ih, hfor]
      by_cases hi : q.cache = i
      · subst hi
        rw [getElem?_modify_eq, if_pos rfl]
        cases slots[q.cache]? with
        | none => rfl
        | some slot =>
          show some _ = some _
          dsimp only
          rw [append_assoc]
      · rw [modify_others (Ne.symm hi), if_neg hi, nil_append]

theorem pendingFor_none {seqs : List (Option Sequence)} {i : Nat}
    (h : ∀ (j : Nat) q, seqs[j]? = some (some q) → q.cache ≠ i) : pendingFor seqs i = [] := by
  unfold pendingFor
  rw [flatMap_eq_nil_iff]
  intro o ho
  cases o with
  | none => rfl
  | some q =>
    obtain ⟨j, hj⟩ := mem_iff_getElem?.mp ho
    exact if_neg (h j q hj)

/-- Only the sequence that has the slot appends to it. -/
theorem pendingFor_eq {seqs : List (Option Sequence)} {j : Nat} (hq : seqs[j]? = some (some q))
    (hothers : ∀ (k : Nat) r, seqs[k]? = some (some r) → k ≠ j → r.cache ≠ q.cache) :
    pendingFor seqs q.cache = q.pendingInputs := by
  have hlt := (List.getElem?_eq_some_iff.mp hq).1
  have hsplit : seqs = seqs.take j ++ some q :: seqs.drop (j + 1) := by
    conv_lhs => rw [← take_append_drop j seqs, drop_eq_getElem_cons hlt]
    rw [(List.getElem?_eq_some_iff.mp hq).2]
  have hbefore : pendingFor (seqs.take j) q.cache = [] := by
    apply pendingFor_none
    intro k r hr
    rw [getElem?_take] at hr
    split at hr
    · exact hothers k r hr (by omega)
    · cases hr
  have hafter : pendingFor (seqs.drop (j + 1)) q.cache = [] := by
    apply pendingFor_none
    intro k r hr
    rw [getElem?_drop] at hr
    exact hothers _ r hr (by omega)
  rw [hsplit]
  unfold pendingFor at hbefore hafter ⊢
  rw [flatMap_append, flatMap_cons, hbefore, hafter, append_nil, nil_append]
  exact if_pos rfl

/-! ## §5  The state between two steps -/

/-- A batch as it was decoded: one kind of input, no more than `batchSize` for
a sequence. -/
structure BatchOk (P : Params) (numSeqs : Nat) (b : Batch) : Prop where
  kind : ∀ e ∈ b.entries, ∀ e' ∈ b.entries, e.input.isEmbed = e'.input.isEmbed
  perSeq : ∀ id, (b.entries.filter fun e => e.seqId = id).length ≤ P.batchSize
  total : b.entries.length ≤ P.batchSize * numSeqs

structure Inv (P : Params) (s : State) : Prop where
  slots : SlotsHold s.slots s.mem
  seqs : ∀ (j : Nat) q, s.seqs[j]? = some (some q) → q.pendingInputs = [] ∧
    ∃ slot, s.slots[q.cache]? = some slot ∧ SeqInv P slot (streamOf s.mem q.cache) q []
  distinct : ∀ (j k : Nat) q r, s.seqs[j]? = some (some q) → s.seqs[k]? = some (some r) →
    q.cache = r.cache → j = k
  batch : ∀ b, s.batch = some b → BatchOk P s.seqs.length b

theorem Inv.fillInv {s : State} (h : Inv P s) (todo : List Nat) :
    FillInv P { slots := s.slots, mem := s.mem, seqs := s.seqs, nextSeq := s.nextSeq } todo 0 where
  slots := h.slots
  seqs := fun j q hq => (h.seqs j q hq).2
  fresh := fun j q hq _ => (h.seqs j q hq).1
  distinct := h.distinct
  owned := fun e he => by cases he
  batch := fun b hb => by cases hb
  total := Nat.zero_le _

/-- The number of sequences does not change. -/
theorem fillSeq_length {f f' : Fill} {j : Nat}
    (h : fillSeq P refused f j = some f') : f'.seqs.length = f.seqs.length := by
  unfold fillSeq at h
  split at h
  · split at h
    · injection h with h
      rw [← h]
      exact length_set ..
    split at h
    · cases h
    split at h
    · cases h
    split at h
    · injection h with h
      rw [← h]
      show ((f.seqs.set j _).set j none).length = _
      rw [length_set, length_set]
    · injection h with h
      rw [← h]
      exact length_set ..
  · injection h with h
    rw [← h]

theorem fillSeqs_length (todo : List Nat) :
    ∀ {f f' : Fill}, todo.foldlM (fillSeq P refused) f = some f' →
      f'.seqs.length = f.seqs.length := by
  induction todo with
  | nil =>
    intro f f' h
    injection h with h
    rw [h]
  | cons j todo ih =>
    intro f f' h
    obtain ⟨f₁, hfirst, hrest⟩ := Option.bind_eq_some_iff.mp h
    rw [ih hrest, fillSeq_length hfirst]

theorem SeqInv.no_pending {stream : Stream}
    (h : SeqInv P slot stream q []) : q.pendingInputs = [] := by
  have hlen := h.placed.length
  exact length_eq_zero_iff.mp hlen.symm

/-- A sequence once its entries are decoded. -/
theorem SeqInv.afterDecode {stream stream' : Stream} {entries : List Entry} {decoded : List Decoded}
    (h : SeqInv P slot stream q entries) (hstream : Holds stream' (slot.inputs ++ q.pendingInputs))
    (hinputs : (decodedFor decoded q.cache).map (·.entry.input) = q.pendingInputs)
    (hdecoded : ∀ d ∈ decodedFor decoded q.cache, DecodedAt P d) :
    SeqInv P { slot with inputs := slot.inputs ++ q.pendingInputs } stream'
      (q.afterDecode decoded) [] := by
  refine ⟨h.inUse, hstream, ?_, ?_, ?_, .nil _, Nat.zero_le _, ?_, h.numKeep⟩
  · show (slot.inputs ++ q.pendingInputs) ++ ([] ++ q.inputs) = q.whole
    rw [nil_append, append_assoc]
    exact h.whole
  · show (q.decoded ++ decodedFor decoded q.cache).map _ ++ ([] ++ q.inputs) = q.handed
    rw [map_append, hinputs, nil_append, append_assoc]
    exact h.handed
  · intro d hd
    rcases mem_append.mp hd with hd | hd
    · exact h.decoded d hd
    · exact hdecoded d hd
  show (slot.inputs ++ q.pendingInputs).length + (0 + q.inputs.length) ≤ _ ∨
    (0 + q.inputs.length = 1 ∧ (slot.inputs ++ q.pendingInputs).length + 0 ≤ _)
  rw [length_append]
  rcases h.room with hroom | ⟨hone, hroom⟩
  · exact Or.inl (by omega)
  · by_cases hzero : q.inputs.length = 1
    · exact Or.inr ⟨by omega, by omega⟩
    · exact Or.inl (by omega)

/-- **Filling and decoding a batch keeps the invariant.** -/
theorem Inv.decodeBatch {evict : Nat → Int} {s s' : State}
    (h : Inv P s) (hrun : decodeBatch P refused evict s = some s') : Inv P s' := by
  unfold LlamaRunner.decodeBatch at hrun
  split at hrun
  · cases hrun
  rename_i f hfill
  unfold fillBatch at hfill
  have hlen := fillSeqs_length _ hfill
  have hf := (FillInv.foldlM_keeps (Q := fun _ _ => True) (fun _ _ _ _ => trivial) _
    (h.fillInv _) trivial (order_nodup _ _) hfill).1
  rw [order_length, Nat.zero_add] at hf
  -- nothing was put into a batch
  have hidle : entriesOf f.batch = [] → Inv P
      { s with slots := f.slots, mem := f.mem, seqs := f.seqs, nextSeq := f.nextSeq,
               batch := none } := by
    intro hnone
    refine ⟨hf.slots, ?_, hf.distinct, fun b hb => by cases hb⟩
    intro j q hq
    obtain ⟨slot, hslot, hinv⟩ := hf.seqs j q hq
    have hentries : entriesFor f.batch q.cache = [] := by
      unfold entriesFor
      rw [hnone]
      rfl
    rw [hentries] at hinv
    exact ⟨hinv.no_pending, slot, hslot, hinv⟩
  dsimp only at hrun
  split at hrun
  · next hbatch =>
    injection hrun with hrun
    subst hrun
    exact hidle (by rw [hbatch]; rfl)
  rename_i b hbatch
  have hentries : entriesOf f.batch = b.entries := by rw [hbatch]; rfl
  split at hrun
  · next hempty =>
    injection hrun with hrun
    subst hrun
    exact hidle (by rw [hentries, hempty])
  cases hdec : decode P.window evict 0 f.mem b.entries with
  | mk mem decoded =>
    rw [hdec] at hrun
    injection hrun with hrun
    subst hrun
    have hmem : mem = (decode P.window evict 0 f.mem b.entries).1 := by rw [hdec]
    have hlog : decoded = (decode P.window evict 0 f.mem b.entries).2 := by rw [hdec]
    have hmlen : mem.length = f.mem.length := by rw [hmem, decode_length]
    have hfor : ∀ id, entriesFor f.batch id = b.entries.filter fun e => e.seqId = id := by
      intro id
      unfold entriesFor
      rw [hentries]
    have hspec : ∀ (j : Nat) q, f.seqs[j]? = some (some q) → ∃ slot, f.slots[q.cache]? = some slot ∧
        SeqInv P { slot with inputs := slot.inputs ++ q.pendingInputs }
          (streamOf mem q.cache) (q.afterDecode decoded) [] ∧
        Holds (streamOf mem q.cache) (slot.inputs ++ q.pendingInputs) := by
      intro j q hq
      obtain ⟨slot, hslot, hinv⟩ := hf.seqs j q hq
      have hid : q.cache < f.mem.length := by
        rw [hf.slots.length]
        exact (List.getElem?_eq_some_iff.mp hslot).1
      have hplaced := hinv.placed
      rw [hfor] at hplaced
      have hkeeps : StreamKeeps P.window fun _ => True := by constructor <;> simp
      obtain ⟨hholds, -, hinputs, hall⟩ := decode_spec hkeeps evict b.entries 0 f.mem
        slot.inputs q.pendingInputs hid hinv.holds trivial hplaced
      rw [← hmem] at hholds
      rw [← hlog] at hinputs hall
      exact ⟨slot, hslot, hinv.afterDecode hholds hinputs fun d hd => (hall d hd).1, hholds⟩
    have hpending : ∀ (j : Nat) q, f.seqs[j]? = some (some q) →
        pendingFor f.seqs q.cache = q.pendingInputs := by
      intro j q hq
      apply pendingFor_eq hq
      intro k r hr hkj heq
      exact hkj (hf.distinct k j r q hr hq heq)
    have hmap : ∀ {j : Nat} {q : Sequence},
        (f.seqs.map (Option.map (Sequence.afterDecode decoded)))[j]? = some (some q) →
        ∃ q₀, f.seqs[j]? = some (some q₀) ∧ q = q₀.afterDecode decoded := by
      intro j q hq
      rw [getElem?_map] at hq
      obtain ⟨o, ho, heq⟩ := Option.map_eq_some_iff.mp hq
      obtain ⟨q₀, rfl, hq₀⟩ := Option.map_eq_some_iff.mp heq
      exact ⟨q₀, ho, hq₀.symm⟩
    refine ⟨⟨?_, ?_⟩, ?_, ?_, ?_⟩
    · have hsl : ∀ (seqs : List (Option Sequence)) (slots : List InputCacheSlot),
          (appendPending slots seqs).length = slots.length := by
        intro seqs
        induction seqs with
        | nil => exact fun slots => rfl
        | cons q seqs ih =>
          intro slots
          cases q with
          | none => exact ih slots
          | some q =>
            show (appendPending (slots.modify q.cache _) seqs).length = _
            rw [ih, length_modify]
      show mem.length = (appendPending f.slots f.seqs).length
      rw [hmlen, hsl, hf.slots.length]
    · intro i slot hslot
      rw [appendPending_getElem?] at hslot
      obtain ⟨old, hold, rfl⟩ := Option.map_eq_some_iff.mp hslot
      show ∃ kept, Holds (streamOf mem i) kept ∧ old.inputs ++ pendingFor f.seqs i <+: kept
      by_cases hrunning : ∃ (j : Nat) (q : Sequence), f.seqs[j]? = some (some q) ∧ q.cache = i
      · obtain ⟨j, q, hq, rfl⟩ := hrunning
        obtain ⟨slot', hslot', -, hholds⟩ := hspec j q hq
        rw [hold] at hslot'
        injection hslot' with hslot'
        subst hslot'
        rw [hpending j q hq]
        exact ⟨_, hholds, prefix_rfl⟩
      · -- the slot of no sequence is not in the batch
        have hnobody : ∀ (j : Nat) q, f.seqs[j]? = some (some q) → q.cache ≠ i :=
          fun j q hq heq => hrunning ⟨j, q, hq, heq⟩
        have hsame : streamOf mem i = streamOf f.mem i := by
          rw [hmem]
          apply decode_others
          intro e he heq
          rw [← hentries] at he
          obtain ⟨j, q, hq, hid⟩ := hf.owned e he
          exact hnobody j q hq (hid.trans heq)
        rw [hsame, pendingFor_none hnobody, append_nil]
        exact hf.slots.holds i old hold
    · intro j q hq
      obtain ⟨q₀, hq₀, rfl⟩ := hmap hq
      obtain ⟨slot, hslot, hinv, -⟩ := hspec j q₀ hq₀
      refine ⟨rfl, _, ?_, hinv⟩
      show (appendPending f.slots f.seqs)[q₀.cache]? = _
      rw [appendPending_getElem?, hslot, hpending j q₀ hq₀]
      rfl
    · intro j k q r hq hr heq
      obtain ⟨q₀, hq₀, rfl⟩ := hmap hq
      obtain ⟨r₀, hr₀, rfl⟩ := hmap hr
      exact hf.distinct j k q₀ r₀ hq₀ hr₀ heq
    intro b' hb'
    injection hb' with hb'
    subst hb'
    have hkind := (hf.batch b hbatch).kind
    refine ⟨fun e he e' he' => by rw [hkind e he, hkind e' he'], ?_, ?_⟩
    · intro id
      rw [← hfor]
      by_cases hrunning : ∃ (j : Nat) (q : Sequence), f.seqs[j]? = some (some q) ∧ q.cache = id
      · obtain ⟨j, q, hq, rfl⟩ := hrunning
        obtain ⟨slot, -, hinv⟩ := hf.seqs j q hq
        rw [hinv.placed.length]
        exact hinv.pending
      rw [hfor, filter_eq_nil_iff.mpr]
      · exact Nat.zero_le _
      · intro e he heq
        rw [← hentries] at he
        obtain ⟨j, q, hq, hid⟩ := hf.owned e he
        exact hrunning ⟨j, q, hq, hid.trans (of_decide_eq_true heq)⟩
    · show b.entries.length ≤ P.batchSize * (f.seqs.map _).length
      rw [length_map, hlen, ← hentries]
      exact hf.total

end Ollama.LlamaRunner
