import Ollama.Ggml.Decode

/-!
# Hostile files

The lengths, counts and the alignment that a file declares, in the order in which decoding
comes to them. Decoding panics exactly where one of them is out of range; and its loops end,
since each turn takes bytes or is one of a declared number of strings that are skipped.
-/

namespace Ollama.Ggml

open Lib.Binary List Lib.Binary.Layout Reader Lib.Binary

/-! ## §1  Fields -/

inductive Field
  | length (v1 : Bool) (n : ℕ)
  | count (elemSize n : ℕ)
  | dimensions (n : ℕ)
  | alignment (n : ℕ)
  deriving DecidableEq

/-- A string of version 1 has at least its terminator; no length is negative as an `int`;
what is kept in memory fits the runtime; and the alignment is not zero. -/
def InRange (maxAlloc : ℕ) : Field → Prop
  | .length true n => 0 < n ∧ n < 2 ^ 63
  | .length false n => n < 2 ^ 63 ∧ (n ≤ scratchLen ∨ n ≤ maxAlloc)
  | .count elemSize n => n < 2 ^ 63 ∧ n * elemSize ≤ maxAlloc
  | .dimensions n => n * 8 ≤ maxAlloc
  | .alignment n => n ≠ 0

instance (maxAlloc : ℕ) : DecidablePred (InRange maxAlloc)
  | .length true _ => inferInstanceAs (Decidable (_ ∧ _))
  | .length false _ => inferInstanceAs (Decidable (_ ∧ _))
  | .count _ _ => inferInstanceAs (Decidable (_ ∧ _))
  | .dimensions _ => inferInstanceAs (Decidable (_ ≤ _))
  | .alignment _ => inferInstanceAs (Decidable (_ ≠ _))

/-! ## §2  The layout of a file -/

namespace Layout

variable (llm : ContainerGGUF)

def number (w : ℕ) : Layout Field ℕ := do
  let bs ← take w
  return llm.byteOrder.value bs

def declare (x : Field) : Lib.Binary.Layout Field Unit := Lib.Binary.Layout.declare (InRange llm.maxAlloc) x

/-- A string, without the terminator of version 1. -/
def string : Layout Field Bytes := do
  let n ← number llm 8
  declare llm (.length (llm.version = 1) n)
  let s ← take n
  return if llm.version = 1 then s.dropLast else s

/-- A string that is skipped: a length below zero counts as zero, and the end of the input
is passed over. -/
def skipped : Layout Field Unit := fun bs =>
  ([], some ((), if 8 ≤ bs.length then
    bs.drop (8 + (toInt64 (llm.byteOrder.value (bs.take 8))).toNat) else []))

/-- An array of `n` values is kept. -/
def Kept (n : ℕ) : Prop := llm.maxArraySize < 0 ∨ toInt64 n ≤ llm.maxArraySize

instance (n : ℕ) : Decidable (Kept llm n) := inferInstanceAs (Decidable (_ ∨ _))

def array : Layout Field Unit := do
  let t ← number llm 4
  let n ← number llm 8
  match scalarOf t with
  | some t => do
      if Kept llm n then declare llm (.count t.size n)
      let _ ← take (n * t.size)
  | none =>
      if t = ggufTypeString then
        if Kept llm n then do
          declare llm (.count stringHeader n)
          let _ ← (string llm).times n
        else do
          let _ ← (skipped llm).times n
      else stop

/-- A value, and its number if it is a `uint32`. -/
def value (t : ℕ) : Layout Field (Option ℕ) :=
  match scalarOf t with
  | some t => do
      let n ← number llm t.size
      return if t = .uint32 then some n else none
  | none =>
      if t = ggufTypeString then do
        let _ ← string llm
        return none
      else if t = ggufTypeArray then do
        array llm
        return none
      else stop

/-- A key-value, and the alignment after it. -/
def keyValue (alignment : ℕ) : Layout Field ℕ := do
  let k ← string llm
  let t ← number llm 4
  let v ← value llm t
  return if k = alignmentKey then v.getD 32 else alignment

def keyValues : ℕ → ℕ → Layout Field ℕ
  | 0, alignment => pure alignment
  | n + 1, alignment => do
      let alignment ← keyValue llm alignment
      keyValues n alignment

def tensor : Layout Field Unit := do
  let _ ← string llm
  let dims ← number llm 4
  declare llm (.dimensions dims)
  let _ ← take (dims * 8)
  let _ ← take 4
  let _ ← take 8

variable (order : ByteOrder) (maxArraySize : ℤ) (maxAlloc : ℕ)

/-- The fields of what follows the magic. -/
def file : Layout Field Unit := do
  let version ← number ⟨order, 0, maxArraySize, maxAlloc⟩ 4
  let w := if version = 1 then 4 else 8
  let counts ← take (2 * w)
  let llm := ⟨order, version, maxArraySize, maxAlloc⟩
  let alignment ← keyValues llm (order.value (counts.drop w)) 32
  let _ ← (tensor llm).times (order.value (counts.take w))
  declare llm (.alignment alignment)

end Layout

/-! ## §3  Strings and arrays -/

/-- The number of a `uint32`. -/
def Value.asUint32 : Value → Option ℕ
  | .scalar .uint32 v => some v.val
  | _ => none

section Strings

variable (llm : ContainerGGUF)

theorem agrees_readUint (w : ℕ) : Agrees (InRange llm.maxAlloc)
    (fun a b => a = b ∧ a < 256 ^ w) (readUint llm w) (Layout.number llm w) := by
  refine (agrees_take _ w).bind fun a b h => ?_
  obtain ⟨rfl, hlen⟩ := h
  refine agrees_pure ⟨rfl, ?_⟩
  rw [← hlen]
  exact llm.byteOrder.value_lt a

theorem agrees_readGGUFV1String (n : ℕ) (hn : n < 2 ^ 64) : Agrees (InRange llm.maxAlloc) (· = ·)
      (do let b ← copyN (toInt64 n); truncate b (b.length - 1) : Read Bytes)
      (do
        Layout.declare llm (.length true n)
        let s ← take n
        return s.dropLast) := by
  by_cases hr : InRange llm.maxAlloc (.length true n)
  · refine agrees_declared hr ?_
    obtain ⟨hpos, hlt⟩ := hr
    have hcopy : (toInt64 n).toNat = n := by rw [toInt64_of_lt hlt, Int.toNat_natCast]
    unfold copyN
    rw [hcopy]
    refine (agrees_take _ n).bind fun a b h => ?_
    obtain ⟨rfl, hlen⟩ := h
    have htruncate : truncate a (a.length - 1) = pure a.dropLast := by
      unfold truncate
      rw [if_neg (by omega), dropLast_eq_take]
      congr 2
      omega
    rw [htruncate]
    exact agrees_pure rfl
  · -- nothing is copied, and there is no terminator to cut off
    have hcopy : (toInt64 n).toNat = 0 := by
      have hnot : ¬(0 < n ∧ n < 2 ^ 63) := hr
      unfold toInt64
      split <;> omega
    have hall : (do let b ← copyN (toInt64 n); truncate b (b.length - 1) : Read Bytes) =
        .halt .truncate := by
      funext bs
      unfold copyN
      rw [hcopy]
      rfl
    rw [hall]
    exact agrees_halt hr _ _

theorem agrees_readGGUFString : Agrees (InRange llm.maxAlloc) (· = ·)
    (readGGUFString llm) (Layout.string llm) := by
  unfold readGGUFString Layout.string
  by_cases hv : llm.version = 1
  · rw [if_pos hv]
    refine (agrees_readUint llm 8).bind fun n n' h => ?_
    obtain ⟨rfl, hn⟩ := h
    simp only [hv, decide_true, if_true]
    exact agrees_readGGUFV1String llm n hn
  rw [if_neg hv]
  refine (agrees_readUint llm 8).bind fun n n' h => ?_
  obtain ⟨rfl, hn⟩ := h
  simp only [hv, decide_false, if_false]
  have hbody : ∀ k, k = n → Agrees (InRange llm.maxAlloc) (· = ·) (readFull k)
      (take n >>= fun s => pure s) := by
    rintro k rfl
    exact (agrees_take _ k).thenPure fun _ _ h => h.1
  by_cases hlt : n < 2 ^ 63
  · have hint := toInt64_of_lt hlt
    have hnat : (toInt64 n).toNat = n := by rw [hint, Int.toNat_natCast]
    by_cases hlarge : (scratchLen : ℤ) < toInt64 n
    · rw [if_pos hlarge]
      refine (Lib.Binary.Layout.agrees_declare ?_).bind fun _ _ _ => hbody _ hnat
      show _ ↔ ¬(n < 2 ^ 63 ∧ (n ≤ scratchLen ∨ n ≤ llm.maxAlloc))
      omega
    · rw [if_neg hlarge, if_neg (by omega)]
      exact Lib.Binary.Layout.agrees_declared ⟨hlt, Or.inl (by omega)⟩ (hbody _ hnat)
  · have hneg := (toInt64_neg hn).mpr (Nat.not_lt.mp hlt)
    rw [if_neg (by omega), if_pos hneg]
    exact Lib.Binary.Layout.agrees_halt (fun hr => hlt hr.1) _ _

/-- Whatever the turns read, they skip the declared size. -/
theorem discard_rest (size : ℕ) (bs : Bytes) : (discard size bs).2 = bs.drop size := by
  induction size using Nat.strong_induction_on generalizing bs with
  | _ size ih =>
    unfold discard
    split
    · next h => rw [h, drop_zero]
    split
    · next h => rw [h, drop_nil]
    have : bs.length ≠ 0 := by rwa [ne_eq, length_eq_zero_iff]
    have hpos : 0 < scratchLen := by decide
    rw [ih _ (by omega), drop_drop]
    by_cases hle : size ≤ bs.length
    · rw [show min (min size scratchLen) bs.length + (size - min (min size scratchLen) bs.length) =
        size by omega]
    · rw [drop_of_length_le (by omega), drop_of_length_le (by omega)]

theorem agrees_skipString : Agrees (InRange llm.maxAlloc) (fun _ _ => True)
    (skipString llm) (Layout.skipped llm) := by
  intro bs
  refine ⟨fun _ hx => absurd hx not_mem_nil, (), ?_, trivial⟩
  unfold Layout.skipped discardGGUFString readUint
  rw [bind_apply]
  unfold readFull Reader.take
  by_cases h : 8 ≤ bs.length
  · rw [if_pos h, if_pos h]
    show some ((), _) = some ((), (discard _ (bs.drop 8)).2)
    rw [discard_rest, drop_drop]
  · rw [if_neg h, if_neg h]
    rfl

theorem agrees_makeSlice (elemSize n : ℕ) (hn : n < 2 ^ 64) :
    Agrees (InRange llm.maxAlloc) (fun _ _ => True)
      (makeSlice llm.maxAlloc elemSize (toInt64 n)) (Layout.declare llm (.count elemSize n)) := by
  refine agrees_declare ?_
  show _ ↔ ¬(n < 2 ^ 63 ∧ n * elemSize ≤ llm.maxAlloc)
  by_cases hlt : n < 2 ^ 63
  · rw [toInt64_of_lt hlt, ← Nat.cast_mul, Nat.cast_lt]
    omega
  · have := (toInt64_neg hn).mpr (Nat.not_lt.mp hlt)
    omega

theorem fixed_readUint (w : ℕ) : Fixed w (readUint llm w) := (fixed_take _ w).map _

theorem fixed_readGGUF (t : Scalar) : Fixed t.size (readGGUF llm t) :=
  (fixed_readUint llm t.size).map _

variable {llm}

theorem toNat_of_not_kept {n : ℕ} (hn : n < 2 ^ 64) (h : ¬Layout.Kept llm n) :
    (toInt64 n).toNat = n := by
  have hle : ¬(llm.maxArraySize < 0 ∨ toInt64 n ≤ llm.maxArraySize) := h
  have hlt : n < 2 ^ 63 := by
    by_contra hge
    have := (toInt64_neg hn).mpr (Nat.not_lt.mp hge)
    omega
  rw [toInt64_of_lt hlt, Int.toNat_natCast]

variable (llm)

/-- A count in range is the number of turns. -/
theorem agrees_counted (elemSize : ℕ) {n : ℕ} (hn : n < 2 ^ 64) {α β : Type}
    {R : α → β → Prop} {f : ℕ → Read α} {w : Layout Field β}
    (h : Agrees (InRange llm.maxAlloc) R (f n) w) :
    Agrees (InRange llm.maxAlloc) R
      (do makeSlice llm.maxAlloc elemSize (toInt64 n); f (toInt64 n).toNat)
      (do Layout.declare llm (.count elemSize n); w) := by
  by_cases hlt : n < 2 ^ 63
  · have hnat : (toInt64 n).toNat = n := by rw [toInt64_of_lt hlt, Int.toNat_natCast]
    rw [hnat]
    exact (agrees_makeSlice llm elemSize n hn).bind fun _ _ _ => h
  have hneg := (toInt64_neg hn).mpr (Nat.not_lt.mp hlt)
  have hhalt : (do makeSlice llm.maxAlloc elemSize (toInt64 n); f (toInt64 n).toNat : Read α) =
      .halt .makeSlice := by
    funext bs
    unfold makeSlice
    rw [if_pos (Or.inl hneg)]
    rfl
  rw [hhalt]
  exact Lib.Binary.Layout.agrees_halt (fun hr => hlt hr.1) _ _

theorem agrees_readGGUFArrayData (t : Scalar) (n : ℕ) (keep : Bool) :
    Agrees (InRange llm.maxAlloc) (fun v _ => v.asUint32 = none) (readGGUFArrayData llm t n keep)
      (do let _ ← take (n * t.size); return ()) :=
  (agrees_fixed ((fixed_readGGUF llm t).times n)).bind fun _ _ _ =>
    agrees_pure rfl

theorem agrees_readGGUFArray : Agrees (InRange llm.maxAlloc) (fun v _ => v.asUint32 = none)
    (readGGUFArray llm) (Layout.array llm) := by
  refine (agrees_readUint llm 4).bind fun t t' h => ?_
  obtain ⟨rfl, -⟩ := h
  refine (agrees_readUint llm 8).bind fun n n' h => ?_
  obtain ⟨rfl, hn⟩ := h
  have hkeep : ∀ elemSize, Layout.Kept llm n → newArray llm elemSize (toInt64 n) =
      (do makeSlice llm.maxAlloc elemSize (toInt64 n); return true) :=
    fun _ hkept => if_pos hkept
  have hskip : ∀ elemSize, ¬Layout.Kept llm n → newArray llm elemSize (toInt64 n) = pure false :=
    fun _ hkept => if_neg hkept
  cases scalarOf t with
  | some t =>
    simp only
    by_cases hkept : Layout.Kept llm n
    · rw [if_pos hkept, hkeep _ hkept, bind_assoc]
      exact agrees_counted llm t.size hn (f := fun n => readGGUFArrayData llm t n true)
        (agrees_readGGUFArrayData llm t n true)
    · rw [if_neg hkept, hskip _ hkept, toNat_of_not_kept hn hkept]
      exact agrees_readGGUFArrayData llm t n false
  | none =>
    by_cases ht : t = ggufTypeString
    · rw [if_pos ht, if_pos ht]
      by_cases hkept : Layout.Kept llm n
      · rw [if_pos hkept, hkeep _ hkept, bind_assoc]
        refine agrees_counted llm stringHeader hn (f := fun n => readGGUFStringsData llm n true) ?_
        exact ((agrees_readGGUFString llm).times n).bind fun _ _ _ => agrees_pure rfl
      · rw [if_neg hkept, hskip _ hkept, toNat_of_not_kept hn hkept]
        exact ((agrees_skipString llm).times n).bind fun _ _ _ => agrees_pure rfl
    · rw [if_neg ht, if_neg ht]
      exact agrees_fail _

end Strings

/-! ## §4  Key-values and tensors -/

section KeyValues

variable (llm : ContainerGGUF)

theorem alignment_insert (kv : KV) (k : Bytes) (v : Value) : KV.alignment (kv.insert k v) =
      if k = alignmentKey then v.asUint32.getD 32 else kv.alignment := by
  unfold KV.alignment
  by_cases h : k = alignmentKey
  · rw [if_pos h, h, Finmap.lookup_insert]
    cases v with
    | scalar t v => cases t <;> rfl
    | string s => rfl
    | array t n vs => rfl
    | strings n vs => rfl
  · rw [if_neg h, Finmap.lookup_insert_of_ne _ (Ne.symm h)]

theorem agrees_readValue (t : ℕ) : Agrees (InRange llm.maxAlloc)
    (fun v n => v.asUint32 = n) (readValue llm t) (Layout.value llm t) := by
  unfold readValue Layout.value
  cases scalarOf t with
  | some t =>
    simp only
    unfold readGGUF
    rw [bind_assoc]
    refine (agrees_readUint llm t.size).bind fun n n' h => ?_
    obtain ⟨rfl, hn⟩ := h
    refine agrees_pure ?_
    cases t with
    | uint32 =>
      have hlt : n < 2 ^ 32 := hn
      show some (n % 2 ^ 32) = some n
      rw [Nat.mod_eq_of_lt hlt]
    | _ => rfl
  | none =>
    simp only
    split
    · exact (agrees_readGGUFString llm).bind fun _ _ _ => agrees_pure rfl
    · split
      · exact (agrees_readGGUFArray llm).thenPure fun _ _ h => h
      · exact agrees_fail _

theorem agrees_readKV (kv : KV) : Agrees (InRange llm.maxAlloc)
    (fun kv n => kv.alignment = n) (readKV llm kv) (Layout.keyValue llm kv.alignment) := by
  refine (agrees_readGGUFString llm).bind fun k k' h => ?_
  subst h
  refine (agrees_readUint llm 4).bind fun t t' h => ?_
  obtain ⟨rfl, -⟩ := h
  refine (agrees_readValue llm t).bind fun v n h => ?_
  subst h
  exact agrees_pure (alignment_insert kv k v)

theorem agrees_readKVs (n : ℕ) (kv : KV) : Agrees (InRange llm.maxAlloc)
    (fun kv n => kv.alignment = n) (readKVs llm n kv) (Layout.keyValues llm n kv.alignment) := by
  induction n generalizing kv with
  | zero => exact agrees_pure rfl
  | succ n ih =>
    refine (agrees_readKV llm kv).bind fun kv' a h => ?_
    subst h
    exact ih kv'

theorem Agrees.wrap {α β : Type} {R : α → β → Prop} {m : Read α} {w : Layout Field β}
    {inRange : Field → Prop} (h : Agrees inRange R m w) (what : String) :
    Agrees inRange R (wrap what m) w := by
  intro bs
  have hbs := h bs
  unfold Ggml.wrap
  cases hm : m bs with
  | ok a rest => rwa [hm] at hbs
  | error e => rwa [hm] at hbs
  | panic p => rwa [hm] at hbs

theorem agrees_readTensor : Agrees (InRange llm.maxAlloc) (fun _ _ => True)
    (readTensor llm) (Layout.tensor llm) := by
  refine (Agrees.wrap (agrees_readGGUFString llm) _).bind fun _ _ _ => ?_
  refine (Agrees.wrap (agrees_readUint llm 4) _).bind fun dims dims' h => ?_
  obtain ⟨rfl, -⟩ := h
  refine (Lib.Binary.Layout.agrees_declare ?_).bind fun _ _ _ => ?_
  · show _ ↔ ¬dims * 8 ≤ llm.maxAlloc
    omega
  refine (Agrees.wrap (agrees_fixed ((fixed_readUint llm 8).times dims)) _).bind fun _ _ _ => ?_
  refine (Agrees.wrap (agrees_fixed (fixed_readUint llm 4)) _).bind fun _ _ _ => ?_
  refine (Agrees.wrap (agrees_fixed (fixed_readUint llm 8)) _).bind fun _ _ _ => ?_
  exact agrees_pure trivial

end KeyValues

/-! ## §5  The file -/

theorem ggufPadding_panics (offset : ℤ) (align : ℕ) (bs : Bytes) :
    (∃ p, ggufPadding offset align bs = .panic p) ↔ align = 0 := by
  unfold ggufPadding
  by_cases h : align = 0
  · rw [if_pos (by rw [h]; rfl)]
    exact ⟨fun _ => h, fun _ => ⟨_, rfl⟩⟩
  · rw [if_neg (Int.natCast_ne_zero.mpr h)]
    exact ⟨nofun, fun h' => absurd h' h⟩

/-- With an alignment the data can be skipped, or there is an error. -/
theorem seekTensors_goes (alignment : ℕ) (h : alignment ≠ 0) (ts : List Tensor) (pos : ℤ)
    (bs : Bytes) : ∀ p, seekTensors alignment ts pos bs ≠ .panic p := by
  have hseek : ∀ (what : String) (pos offset : ℤ) (bs : Bytes),
      (∃ pos', wrap what (seek pos offset) bs = .ok pos' bs) ∨
        ∃ e, wrap what (seek pos offset) bs = .error e := by
    intro what pos offset bs
    unfold wrap seek
    by_cases hpos : pos + offset < 0 ∨ 2 ^ 63 ≤ pos + offset
    · rw [if_pos hpos]
      exact Or.inr ⟨_, rfl⟩
    · rw [if_neg hpos]
      exact Or.inl ⟨_, rfl⟩
  induction ts generalizing pos with
  | nil => exact nofun
  | cons t ts ih =>
    intro p
    have hpadding : ggufPadding pos alignment = pure (padding pos alignment) :=
      if_neg (Int.natCast_ne_zero.mpr h)
    unfold seekTensors
    rw [hpadding, pure_bind, bind_apply]
    rcases hseek "failed to seek to init padding" pos (padding pos alignment) bs with
      ⟨pos', hpos⟩ | ⟨e, he⟩
    · rw [hpos]
      show (do
        let pos ← wrap "failed to seek to tensor" (seek pos' (toInt64 t.size))
        seekTensors alignment ts pos : Read ℤ) bs ≠ .panic p
      rw [bind_apply]
      rcases hseek "failed to seek to tensor" pos' (toInt64 t.size) bs with ⟨pos'', hpos'⟩ | ⟨e, he⟩
      · rw [hpos']
        exact ih pos'' p
      · rw [he]
        exact nofun
    · rw [he]
      exact nofun

/-- What decoding does after the tensors. -/
theorem panicsAt_end (llm : ContainerGGUF) (kv : KV) (tensors : List Tensor) (parameters : ℕ)
    (alignment stop : ℕ) : PanicsAt (InRange llm.maxAlloc) (do
        let offset ← tell stop
        let padding ← ggufPadding offset alignment
        let position ← seekTensors alignment tensors offset
        return ⟨kv, tensors, parameters, offset + padding, position⟩ : Read Gguf)
      (Layout.declare llm (.alignment alignment)) := by
  intro bs
  have hright : (∃ x ∈ (Layout.declare llm (.alignment alignment) bs).1, ¬InRange llm.maxAlloc x) ↔
      alignment = 0 := by
    constructor
    · rintro ⟨x, hx, hnot⟩
      cases mem_singleton.mp hx
      exact not_not.mp hnot
    · exact fun h => ⟨_, mem_singleton.mpr rfl, not_not.mpr h⟩
  rw [hright]
  show (∃ p, (ggufPadding (stop - bs.length) alignment bs).andThen _ = .panic p) ↔ _
  by_cases h : alignment = 0
  · obtain ⟨p, hp⟩ := (ggufPadding_panics (stop - bs.length) alignment bs).mpr h
    rw [hp]
    exact ⟨fun _ => h, fun _ => ⟨p, rfl⟩⟩
  have hpadding : ggufPadding (stop - bs.length) alignment bs = .ok _ bs :=
    congrFun (if_neg (Int.natCast_ne_zero.mpr h)) bs
  rw [hpadding]
  refine ⟨?_, fun h' => absurd h' h⟩
  rintro ⟨p, hp⟩
  exfalso
  have hgoes := seekTensors_goes alignment h tensors (stop - bs.length) bs
  change (seekTensors alignment tensors (stop - bs.length) bs).andThen _ = _ at hp
  cases hseek : seekTensors alignment tensors (stop - bs.length) bs with
  | ok pos rest =>
    rw [hseek] at hp
    cases hp
  | error e =>
    rw [hseek] at hp
    cases hp
  | panic p' => exact hgoes p' hseek

theorem parameterCountKey_ne : parameterCountKey ≠ alignmentKey := by decide

theorem panicsAt_decodeContainer (order : ByteOrder) (maxArraySize : ℤ) (maxAlloc stop : ℕ) :
    PanicsAt (InRange maxAlloc) (decodeContainer order maxArraySize maxAlloc stop)
      (Layout.file order maxArraySize maxAlloc) := by
  refine (agrees_readUint ⟨order, 0, maxArraySize, maxAlloc⟩ 4).bind_panicsAt fun version v h => ?_
  obtain ⟨rfl, -⟩ := h
  refine (agrees_take _ _).bind_panicsAt fun counts c h => ?_
  obtain ⟨rfl, -⟩ := h
  refine (agrees_readKVs ⟨order, version, maxArraySize, maxAlloc⟩ _ ∅).bind_panicsAt
    fun kv alignment h => ?_
  refine ((agrees_readTensor ⟨order, version, maxArraySize, maxAlloc⟩).times _).bind_panicsAt
    fun tensors _ _ => ?_
  rw [← h]
  have hkeep : KV.alignment (kv.insert parameterCountKey (.scalar .uint64 (Scalar.uint64.ofBits
      (tensors.foldl (fun n t => (n + t.elements) % 2 ^ 64) 0)))) = kv.alignment := by
    rw [alignment_insert, if_neg parameterCountKey_ne]
  simp only
  rw [hkeep]
  exact panicsAt_end ⟨order, version, maxArraySize, maxAlloc⟩ _ tensors _ kv.alignment stop

section Progress

variable (llm : ContainerGGUF)

theorem takes_readUint (w : ℕ) : Takes w (readUint llm w) :=
  (takes_take _ w).bind fun _ => takes_pure _

theorem takes_makeSlice (maxAlloc size : ℕ) (n : ℤ) : Takes 0 (makeSlice maxAlloc size n) := by
  unfold makeSlice
  split
  · exact takes_halt _ 0
  · exact takes_pure ()

theorem takes_truncate (b : Bytes) (n : ℤ) : Takes 0 (truncate b n) := by
  unfold truncate
  split
  · exact takes_halt _ 0
  · exact takes_pure _

theorem takes_readGGUFString : Takes 8 (readGGUFString llm) := by
  have hfull : ∀ n, Takes 0 (readFull n) := fun n =>
    (takes_take _ n).weaken (Nat.zero_le n)
  unfold readGGUFString
  split
  · refine (takes_readUint llm 8).bind (k := 0) fun n => ?_
    exact ((takes_take _ _).weaken (Nat.zero_le _)).bind fun b => takes_truncate b _
  refine (takes_readUint llm 8).bind (k := 0) fun n => ?_
  split
  · exact (takes_makeSlice _ _ _).bind fun _ => hfull _
  · split
    · exact takes_halt _ 0
    · exact hfull _

theorem takes_skipString : Takes 0 (skipString llm) := by
  intro bs a rest h
  cases h
  have hagrees := agrees_skipString llm bs
  obtain ⟨-, u, hu, -⟩ := hagrees
  have hrest := congrArg Prod.snd (Option.some.inj hu)
  rw [← hrest]
  split
  · rw [length_drop]
    omega
  · exact Nat.zero_le _

theorem takes_readGGUFArray : Takes 0 (readGGUFArray llm) := by
  have hnew : ∀ elemSize n, Takes 0 (newArray llm elemSize n) := by
    intro elemSize n
    unfold newArray
    split
    · exact (takes_makeSlice _ _ _).bind fun _ => takes_pure true
    · exact takes_pure false
  refine ((takes_readUint llm 4).weaken (Nat.zero_le 4)).bind (k := 0) fun t => ?_
  refine ((takes_readUint llm 8).weaken (Nat.zero_le 8)).bind (k := 0) fun n => ?_
  cases scalarOf t with
  | some t =>
    refine (hnew _ _).bind (k := 0) fun keep => ?_
    have htimes := ((takes_readUint llm t.size).bind fun n =>
      takes_pure (t.ofBits n)).times (toInt64 n).toNat
    exact (htimes.weaken (Nat.zero_le _)).bind fun values => takes_pure _
  | none =>
    simp only
    split
    · refine (hnew _ _).bind (k := 0) fun keep => ?_
      unfold readGGUFStringsData
      split
      · exact (((takes_readGGUFString llm).times _).weaken (Nat.zero_le _)).bind
          fun values => takes_pure _
      · exact (((takes_skipString llm).times _).weaken (Nat.zero_le _)).bind
          fun values => takes_pure _
    · exact takes_fail _ 0

theorem takes_readKV (kv : KV) : Takes 12 (readKV llm kv) := by
  refine (takes_readGGUFString llm).bind (k := 4) fun k => ?_
  refine (takes_readUint llm 4).bind (k := 0) fun t => ?_
  have hvalue : Takes 0 (readValue llm t) := by
    unfold readValue
    cases scalarOf t with
    | some t =>
      exact (((takes_readUint llm t.size).bind fun n => takes_pure (t.ofBits n)).weaken
        (Nat.zero_le _)).bind fun v => takes_pure _
    | none =>
      simp only
      split
      · exact ((takes_readGGUFString llm).weaken (Nat.zero_le 8)).bind fun s => takes_pure _
      · split
        · exact takes_readGGUFArray llm
        · exact takes_fail _ 0
  exact hvalue.bind fun v => takes_pure _

theorem takes_readKVs (n : ℕ) (kv : KV) : Takes (n * 12) (readKVs llm n kv) := by
  induction n generalizing kv with
  | zero =>
    exact takes_pure kv
  | succ n ih =>
    rw [Nat.succ_mul, Nat.add_comm]
    exact (takes_readKV llm kv).bind fun kv => ih kv

theorem Takes.wrap {α : Type} {m : Read α} {n : ℕ} (h : Takes n m) (what : String) :
    Takes n (wrap what m) := by
  intro bs a rest hok
  unfold Ggml.wrap at hok
  cases hm : m bs with
  | ok b rest' =>
    rw [hm] at hok
    cases hok
    exact h bs a rest hm
  | error e =>
    rw [hm] at hok
    cases hok
  | panic p =>
    rw [hm] at hok
    cases hok

theorem takes_readTensor : Takes 24 (readTensor llm) := by
  refine (Takes.wrap (takes_readGGUFString llm) _).bind (k := 16) fun name => ?_
  refine (Takes.wrap (takes_readUint llm 4) _).bind (k := 12) fun dims => ?_
  refine ((takes_makeSlice llm.maxAlloc 8 dims).bind (k := 12) fun _ => ?_)
  refine ((Takes.wrap (((takes_readUint llm 8).times dims).weaken (Nat.zero_le _)) _).bind
    (k := 12) fun shape => ?_)
  refine (Takes.wrap (takes_readUint llm 4) _).bind (k := 8) fun kind => ?_
  exact (Takes.wrap (takes_readUint llm 8) _).bind fun offset => takes_pure _

end Progress

/-- **Hostile files.** On every input decoding returns a model or an error if and only if every
length, count and alignment that it comes to is in range; each turn of the loops over
key-values and tensors takes bytes, and skipping a string takes what it says or all that is
left. -/
theorem decode_total_iff (order : ByteOrder) (maxArraySize : ℤ) (maxAlloc stop : ℕ) (bs : Bytes) :
    (((∃ g rest, decodeContainer order maxArraySize maxAlloc stop bs = .ok g rest) ∨
        ∃ e, decodeContainer order maxArraySize maxAlloc stop bs = .error e) ↔
      ∀ x ∈ (Layout.file order maxArraySize maxAlloc bs).1, InRange maxAlloc x) ∧
    ∀ llm : ContainerGGUF,
      (∀ n kv kv' rest, readKVs llm n kv bs = .ok kv' rest → rest.length + n * 12 ≤ bs.length) ∧
      (∀ n ts rest, (readTensor llm).times n bs = .ok ts rest → rest.length + n * 24 ≤ bs.length) ∧
      ∀ size, (discard size bs).2 = bs.drop size := by
  refine ⟨?_, fun llm => ⟨fun n kv => takes_readKVs llm n kv bs,
    fun n => (takes_readTensor llm).times n bs, fun size => discard_rest size bs⟩⟩
  have hpanics := panicsAt_decodeContainer order maxArraySize maxAlloc stop bs
  have hall : (∀ x ∈ (Layout.file order maxArraySize maxAlloc bs).1, InRange maxAlloc x) ↔
      ¬∃ p, decodeContainer order maxArraySize maxAlloc stop bs = .panic p := by
    rw [hpanics]
    push Not
    rfl
  rw [hall]
  cases decodeContainer order maxArraySize maxAlloc stop bs with
  | ok g rest => exact ⟨fun _ => nofun, fun _ => Or.inl ⟨g, rest, rfl⟩⟩
  | error e => exact ⟨fun _ => nofun, fun _ => Or.inr ⟨e, rfl⟩⟩
  | panic p =>
    refine ⟨?_, fun h => absurd ⟨p, rfl⟩ h⟩
    rintro (⟨g, rest, h⟩ | ⟨e, h⟩) <;> cases h

/-- A file of version 3 whose first key has the length 2^63. -/
def negativeLength : Bytes := toLE 4 3 ++ (toLE 8 0 ++ (toLE 8 1 ++ toLE 8 (2 ^ 63)))

/-- A length that is negative as an `int` stops the program. -/
theorem negative_length_panics :
    ¬ ∀ bs : Bytes, (∃ g rest, decodeContainer .littleEndian (-1) (2 ^ 48) 32 bs = .ok g rest) ∨
      ∃ e, decodeContainer .littleEndian (-1) (2 ^ 48) 32 bs = .error e := by
  intro hall
  have h := hall negativeLength
  rcases h with ⟨g, rest, h⟩ | ⟨e, h⟩ <;> cases h

end Ollama.Ggml
