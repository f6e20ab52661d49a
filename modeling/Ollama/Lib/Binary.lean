import Mathlib.Data.Nat.ModEq
import Mathlib.Tactic.Ring

/-!
# Reading bytes
-/

namespace Ollama.Lib.Binary

open List

abbrev Byte := Fin 256

instance byteSpace : NeZero 256 := ⟨by decide⟩

abbrev Bytes := List Byte

/-! ## §1  Numbers -/

/-- The `w` low bytes of a number, the least significant first. -/
def toLE : ℕ → ℕ → Bytes
  | 0, _ => []
  | w + 1, n => Fin.ofNat 256 n :: toLE w (n / 256)

def ofLE : Bytes → ℕ
  | [] => 0
  | b :: bs => b.val + 256 * ofLE bs

@[simp] theorem length_toLE (w n : ℕ) : (toLE w n).length = w := by
  induction w generalizing n with
  | zero => rfl
  | succ w ih => rw [toLE, length_cons, ih]

theorem ofLE_lt (bs : Bytes) : ofLE bs < 256 ^ bs.length := by
  induction bs with
  | nil => exact Nat.one_pos
  | cons b bs ih =>
    rw [ofLE, length_cons, pow_succ]
    omega

theorem ofLE_toLE (w n : ℕ) : ofLE (toLE w n) = n % 256 ^ w := by
  induction w generalizing n with
  | zero => rw [pow_zero, Nat.mod_one]; rfl
  | succ w ih =>
    rw [toLE, ofLE, ih, pow_succ', Nat.mod_mul]
    rfl

theorem ofLE_toLE_of_lt {w n : ℕ} (h : n < 256 ^ w) : ofLE (toLE w n) = n := by
  rw [ofLE_toLE, Nat.mod_eq_of_lt h]

theorem toLE_ofLE (bs : Bytes) : toLE bs.length (ofLE bs) = bs := by
  induction bs with
  | nil => rfl
  | cons b bs ih =>
    have hlow : Fin.ofNat 256 (b.val + 256 * ofLE bs) = b := Fin.ext (by
      show (b.val + 256 * ofLE bs) % 256 = b.val
      omega)
    have hhigh : (b.val + 256 * ofLE bs) / 256 = ofLE bs := by omega
    rw [ofLE, length_cons, toLE, hlow, hhigh, ih]

/-- The order of bytes in a number. -/
inductive ByteOrder
  | littleEndian
  | bigEndian
  deriving DecidableEq

def ByteOrder.value : ByteOrder → Bytes → ℕ
  | .littleEndian, bs => ofLE bs
  | .bigEndian, bs => ofLE bs.reverse

theorem ByteOrder.value_lt (order : ByteOrder) (bs : Bytes) : order.value bs < 256 ^ bs.length := by
  cases order with
  | littleEndian => exact ofLE_lt bs
  | bigEndian =>
    rw [← length_reverse]
    exact ofLE_lt bs.reverse

def toInt64 (n : ℕ) : ℤ := if n < 2 ^ 63 then n else n - 2 ^ 64

theorem toInt64_of_lt {n : ℕ} (h : n < 2 ^ 63) : toInt64 n = n := if_pos h

theorem toInt64_neg {n : ℕ} (hn : n < 2 ^ 64) : toInt64 n < 0 ↔ 2 ^ 63 ≤ n := by
  unfold toInt64
  split <;> omega

/-! ## §2  Readers -/

inductive Result (ε π α : Type)
  | ok (value : α) (rest : Bytes)
  | error (e : ε)
  | panic (p : π)
  deriving DecidableEq

def Result.andThen {ε π α β : Type} (r : Result ε π α) (f : α → Bytes → Result ε π β) :
    Result ε π β :=
  match r with
  | .ok a rest => f a rest
  | .error e => .error e
  | .panic p => .panic p

def Reader (ε π α : Type) : Type := Bytes → Result ε π α

namespace Reader

variable {ε π α β : Type} {m : Reader ε π α} {f : α → Reader ε π β} {bs rest : Bytes} {a : α}

instance : Monad (Reader ε π) where
  pure a := fun bs => .ok a bs
  bind m f := fun bs => (m bs).andThen f

def fail (e : ε) : Reader ε π α := fun _ => .error e

def halt (p : π) : Reader ε π α := fun _ => .panic p

theorem bind_apply (m : Reader ε π α) (f : α → Reader ε π β) (bs : Bytes) :
    (m >>= f) bs = (m bs).andThen f := rfl

theorem bind_ok (h : m bs = .ok a rest) : (m >>= f) bs = f a rest := by
  rw [bind_apply, h]
  rfl

theorem bind_eq_ok {b : β} :
    (m >>= f) bs = .ok b rest ↔ ∃ a mid, m bs = .ok a mid ∧ f a mid = .ok b rest := by
  rw [bind_apply]
  constructor
  · intro h
    cases hm : m bs with
    | ok a mid =>
      rw [hm] at h
      exact ⟨a, mid, rfl, h⟩
    | error e =>
      rw [hm] at h
      cases h
    | panic p =>
      rw [hm] at h
      cases h
  · rintro ⟨a, mid, hm, hf⟩
    rw [hm]
    exact hf

instance : LawfulMonad (Reader ε π) := by
  refine LawfulMonad.mk' _ (fun m => ?_) (fun _ _ => rfl) (fun m f g => ?_)
  · funext bs
    show (m bs).andThen _ = m bs
    cases m bs <;> rfl
  · funext bs
    show ((m bs).andThen _).andThen _ = (m bs).andThen _
    cases m bs <;> rfl

/-- The next `n` bytes; `short` is what reading says when there are fewer. -/
def take (short : Bytes → ε) (n : ℕ) : Reader ε π Bytes := fun bs =>
  if n ≤ bs.length then .ok (bs.take n) (bs.drop n) else .error (short bs)

theorem take_append (short : Bytes → ε) {n : ℕ} (h : bs.length = n) :
    (take short n : Reader ε π Bytes) (bs ++ rest) = .ok bs rest := by
  subst h
  unfold take
  rw [if_pos (by rw [length_append]; omega), take_left, drop_left]

/-- The reader, `n` times. -/
def times (m : Reader ε π α) : ℕ → Reader ε π (List α)
  | 0 => pure []
  | n + 1 => do
      let a ← m
      let as ← times m n
      return a :: as

/-- A reader that takes `w` bytes, whatever they are. -/
def Fixed (w : ℕ) (m : Reader ε π α) : Prop :=
  ∀ bs, if w ≤ bs.length then ∃ a, m bs = .ok a (bs.drop w) else ∃ e, m bs = .error e

theorem fixed_take (short : Bytes → ε) (n : ℕ) : Fixed n (take short n : Reader ε π Bytes) := by
  intro bs
  unfold take
  split
  · exact ⟨_, rfl⟩
  · exact ⟨_, rfl⟩

theorem Fixed.map {w : ℕ} (h : Fixed w m) (g : α → β) :
    Fixed w (do let a ← m; return g a : Reader ε π β) := by
  intro bs
  have hm := h bs
  split
  · next hle =>
    rw [if_pos hle] at hm
    obtain ⟨a, ha⟩ := hm
    exact ⟨g a, bind_ok ha⟩
  rename_i hlt
  rw [if_neg hlt] at hm
  obtain ⟨e, he⟩ := hm
  refine ⟨e, ?_⟩
  rw [bind_apply, he]
  rfl

/-- Taking a fixed number of bytes again and again takes all of them at once. -/
theorem Fixed.times {w : ℕ} (h : Fixed w m) (n : ℕ) : Fixed (n * w) (m.times n) := by
  induction n with
  | zero =>
    intro bs
    rw [Nat.zero_mul, if_pos (Nat.zero_le _), drop_zero]
    exact ⟨[], rfl⟩
  | succ n ih =>
    intro bs
    have hm := h bs
    rw [Nat.succ_mul, Nat.add_comm]
    by_cases hw : w ≤ bs.length
    · rw [if_pos hw] at hm
      obtain ⟨a, ha⟩ := hm
      have hlater := ih (bs.drop w)
      rw [length_drop] at hlater
      have hfirst : m.times (n + 1) bs =
          (do let as ← m.times n; return a :: as : Reader ε π (List α)) (bs.drop w) := bind_ok ha
      rw [hfirst, ← drop_drop]
      by_cases hn : n * w ≤ bs.length - w
      · rw [if_pos hn] at hlater
        obtain ⟨as, has⟩ := hlater
        rw [if_pos (by omega)]
        exact ⟨a :: as, bind_ok has⟩
      rw [if_neg hn] at hlater
      obtain ⟨e, he⟩ := hlater
      rw [if_neg (by omega)]
      refine ⟨e, ?_⟩
      rw [bind_apply, he]
      rfl
    · rw [if_neg hw] at hm
      obtain ⟨e, he⟩ := hm
      rw [if_neg (by omega)]
      refine ⟨e, ?_⟩
      show (m bs).andThen _ = _
      rw [he]
      rfl

/-- A reader that takes at least `n` bytes when it goes on. -/
def Takes (n : ℕ) (m : Reader ε π α) : Prop :=
  ∀ bs a rest, m bs = .ok a rest → rest.length + n ≤ bs.length

theorem Takes.bind {n k : ℕ} (h : Takes n m) (hf : ∀ a, Takes k (f a)) : Takes (n + k) (m >>= f) := by
  intro bs b rest hb
  rw [bind_apply] at hb
  cases hm : m bs with
  | error e =>
    rw [hm] at hb
    cases hb
  | panic p =>
    rw [hm] at hb
    cases hb
  | ok a mid =>
    rw [hm] at hb
    have := h bs a mid hm
    have := hf a mid b rest hb
    omega

theorem takes_pure (a : α) : Takes 0 (pure a : Reader ε π α) := by
  intro bs b rest h
  cases h
  exact Nat.le_refl _

theorem takes_fail (e : ε) (n : ℕ) : Takes n (fail e : Reader ε π α) := nofun

theorem takes_halt (p : π) (n : ℕ) : Takes n (halt p : Reader ε π α) := nofun

theorem Takes.weaken {n k : ℕ} (h : Takes n m) (hk : k ≤ n) : Takes k m := by
  intro bs a rest hm
  have := h bs a rest hm
  omega

theorem takes_take (short : Bytes → ε) (n : ℕ) : Takes n (take short n : Reader ε π Bytes) := by
  intro bs a rest h
  unfold take at h
  split at h
  · cases h
    rw [length_drop]
    omega
  · cases h

theorem Takes.times {w : ℕ} (h : Takes w m) (n : ℕ) : Takes (n * w) (m.times n) := by
  induction n with
  | zero =>
    rw [Nat.zero_mul]
    exact takes_pure []
  | succ n ih =>
    rw [Nat.succ_mul, Nat.add_comm]
    exact h.bind fun a => ih.bind fun as => takes_pure _

def Reads (m : Reader ε π α) (bs : Bytes) (a : α) : Prop := ∀ rest, m (bs ++ rest) = .ok a rest

theorem reads_pure (a : α) : Reads (pure a : Reader ε π α) [] a := fun _ => rfl

theorem reads_take (short : Bytes → ε) {n : ℕ} (h : bs.length = n) :
    Reads (take short n : Reader ε π Bytes) bs bs := fun _ => take_append short h

theorem Reads.bind {bs' : Bytes} {b : β} (h : Reads m bs a) (hf : Reads (f a) bs' b) :
    Reads (m >>= f) (bs ++ bs') b := by
  intro rest
  rw [append_assoc, bind_ok (h _)]
  exact hf rest

theorem Reads.map (h : Reads m bs a) (g : α → β) :
    Reads (do let a ← m; return g a : Reader ε π β) bs (g a) := fun rest => bind_ok (h rest)

theorem Reads.times (encode : α → Bytes) (as : List α) (h : ∀ a ∈ as, Reads m (encode a) a) :
    Reads (m.times as.length) (as.flatMap encode) as := by
  induction as with
  | nil => exact reads_pure []
  | cons a as ih =>
    refine (h a mem_cons_self).bind ?_
    exact (ih fun b hb => h b (mem_cons_of_mem a hb)).map (a :: ·)

/-- Reads whatever `m` reads, to the same value. -/
def Follows {ε' : Type} (m' : Reader ε' π α) (m : Reader ε π α) : Prop :=
  ∀ bs a rest, m bs = .ok a rest → m' bs = .ok a rest

section Follows

variable {ε' : Type} {m' : Reader ε' π α} {f' : α → Reader ε' π β}

theorem follows_pure (a : α) : Follows (pure a : Reader ε' π α) (pure a : Reader ε π α) :=
  fun _ _ _ h => by cases h; rfl

theorem Follows.bind (h : Follows m' m) (hf : ∀ a, Follows (f' a) (f a)) :
    Follows (m' >>= f') (m >>= f) := by
  intro bs b rest hok
  obtain ⟨a, mid, hm, hmid⟩ := bind_eq_ok.mp hok
  rw [bind_ok (h bs a mid hm)]
  exact hf a mid b rest hmid

theorem follows_take (short : Bytes → ε) (short' : Bytes → ε') (n : ℕ) :
    Follows (take short' n : Reader ε' π Bytes) (take short n : Reader ε π Bytes) := by
  intro bs a rest h
  unfold take at h ⊢
  split at h
  · next hle =>
    rw [if_pos hle]
    cases h
    rfl
  · cases h

theorem Follows.times (h : Follows m' m) (n : ℕ) : Follows (m'.times n) (m.times n) := by
  induction n with
  | zero => exact follows_pure []
  | succ n ih => exact h.bind fun a => ih.bind fun as => follows_pure (a :: as)

theorem Follows.reads (h : Follows m' m) (hm : Reads m bs a) : Reads m' bs a :=
  fun rest => h _ _ _ (hm rest)

end Follows

end Reader

/-! ## §3  What a reader comes to -/

/-- The fields that an input declares, in order, and what follows them; `none` where the
reader stops. -/
def Layout (φ α : Type) : Type := Bytes → List φ × Option (α × Bytes)

namespace Layout

variable {ε π φ α β γ δ : Type}

instance : Monad (Layout φ) where
  pure a := fun bs => ([], some (a, bs))
  bind w g := fun bs =>
    match (w bs).2 with
    | none => ((w bs).1, none)
    | some (a, rest) => ((w bs).1 ++ (g a rest).1, (g a rest).2)

/-- Some bytes. -/
def take (n : ℕ) : Layout φ Bytes := fun bs =>
  ([], if n ≤ bs.length then some (bs.take n, bs.drop n) else none)

def declare (inRange : φ → Prop) [DecidablePred inRange] (x : φ) : Layout φ Unit := fun bs =>
  ([x], if inRange x then some ((), bs) else none)

def stop : Layout φ α := fun _ => ([], none)

def times (w : Layout φ α) : ℕ → Layout φ (List α)
  | 0 => pure []
  | n + 1 => do
      let a ← w
      let as ← times w n
      return a :: as

/-- A reader that panics exactly at a field out of range, and goes on where the layout
does. -/
def Agrees (inRange : φ → Prop) (R : α → β → Prop) (m : Reader ε π α) (w : Layout φ β) : Prop :=
  ∀ bs, match m bs with
    | .ok a rest => (∀ x ∈ (w bs).1, inRange x) ∧ ∃ b, (w bs).2 = some (b, rest) ∧ R a b
    | .error _ => (∀ x ∈ (w bs).1, inRange x) ∧ (w bs).2 = none
    | .panic _ => ∃ x ∈ (w bs).1, ¬inRange x

def PanicsAt (inRange : φ → Prop) (m : Reader ε π α) (w : Layout φ β) : Prop :=
  ∀ bs, (∃ p, m bs = .panic p) ↔ ∃ x ∈ (w bs).1, ¬inRange x

variable {inRange : φ → Prop} {R : α → β → Prop} {S : γ → δ → Prop} {m : Reader ε π α}
  {w : Layout φ β} {f : α → Reader ε π γ} {g : β → Layout φ δ}

theorem bind_some {bs rest : Bytes} {b : β} (h : (w bs).2 = some (b, rest)) :
    (w >>= g) bs = ((w bs).1 ++ (g b rest).1, (g b rest).2) := by
  show (match (w bs).2 with
    | none => ((w bs).1, none)
    | some (a, rest) => ((w bs).1 ++ (g a rest).1, (g a rest).2)) = _
  rw [h]

theorem bind_none {bs : Bytes} (h : (w bs).2 = none) : (w >>= g) bs = ((w bs).1, none) := by
  show (match (w bs).2 with
    | none => ((w bs).1, none)
    | some (a, rest) => ((w bs).1 ++ (g a rest).1, (g a rest).2)) = _
  rw [h]

theorem mem_bind {bs : Bytes} {x : φ} (h : x ∈ (w bs).1) : x ∈ ((w >>= g) bs).1 := by
  cases hw : (w bs).2 with
  | none => rwa [bind_none hw]
  | some q =>
    rw [bind_some hw]
    exact mem_append_left _ h

theorem Agrees.bind (h : Agrees inRange R m w) (hf : ∀ a b, R a b → Agrees inRange S (f a) (g b)) :
    Agrees inRange S (m >>= f) (w >>= g) := by
  intro bs
  have hbs := h bs
  rw [Reader.bind_apply]
  cases hm : m bs with
  | error e =>
    rw [hm] at hbs
    rw [bind_none hbs.2]
    exact ⟨hbs.1, rfl⟩
  | panic p =>
    rw [hm] at hbs
    obtain ⟨x, hx, hnot⟩ := hbs
    exact ⟨x, mem_bind hx, hnot⟩
  | ok a rest =>
    rw [hm] at hbs
    obtain ⟨hfirst, b, hb, hR⟩ := hbs
    have hlater := hf a b hR rest
    rw [bind_some hb]
    show match f a rest with
      | .ok a' rest' => _
      | .error e => _
      | .panic p => _
    cases hfa : f a rest with
    | ok a' rest' =>
      rw [hfa] at hlater
      exact ⟨forall_mem_append.mpr ⟨hfirst, hlater.1⟩, hlater.2⟩
    | error e =>
      rw [hfa] at hlater
      exact ⟨forall_mem_append.mpr ⟨hfirst, hlater.1⟩, hlater.2⟩
    | panic p =>
      rw [hfa] at hlater
      obtain ⟨x, hx, hnot⟩ := hlater
      exact ⟨x, mem_append_right _ hx, hnot⟩

theorem Agrees.bind_panicsAt (h : Agrees inRange R m w)
    (hf : ∀ a b, R a b → PanicsAt inRange (f a) (g b)) :
    PanicsAt inRange (m >>= f) (w >>= g) := by
  intro bs
  have hbs := h bs
  rw [Reader.bind_apply]
  cases hm : m bs with
  | error e =>
    rw [hm] at hbs
    rw [bind_none hbs.2]
    exact ⟨nofun, fun ⟨x, hx, hnot⟩ => absurd (hbs.1 x hx) hnot⟩
  | panic p =>
    rw [hm] at hbs
    obtain ⟨x, hx, hnot⟩ := hbs
    exact ⟨fun _ => ⟨x, mem_bind hx, hnot⟩, fun _ => ⟨p, rfl⟩⟩
  | ok a rest =>
    rw [hm] at hbs
    obtain ⟨hfirst, b, hb, hR⟩ := hbs
    rw [bind_some hb]
    refine (hf a b hR rest).trans ⟨?_, ?_⟩
    · rintro ⟨x, hx, hnot⟩
      exact ⟨x, mem_append_right _ hx, hnot⟩
    · rintro ⟨x, hx, hnot⟩
      rcases mem_append.mp hx with hx | hx
      · exact absurd (hfirst x hx) hnot
      · exact ⟨x, hx, hnot⟩

theorem agrees_pure {a : α} {b : β} (h : R a b) :
    Agrees inRange R (pure a : Reader ε π α) (pure b : Layout φ β) :=
  fun _ => ⟨fun _ hx => absurd hx not_mem_nil, b, rfl, h⟩

theorem agrees_fail (e : ε) : Agrees inRange R (Reader.fail e : Reader ε π α) (stop : Layout φ β) :=
  fun _ => ⟨fun _ hx => absurd hx not_mem_nil, rfl⟩

theorem agrees_take (short : Bytes → ε) (n : ℕ) :
    Agrees inRange (fun a b => a = b ∧ a.length = n) (Reader.take short n : Reader ε π Bytes)
      (take n) := by
  intro bs
  unfold Reader.take take
  by_cases hn : n ≤ bs.length
  · rw [if_pos hn, if_pos hn]
    exact ⟨fun _ hx => absurd hx not_mem_nil, _, rfl, rfl, length_take_of_le hn⟩
  · rw [if_neg hn, if_neg hn]
    exact ⟨fun _ hx => absurd hx not_mem_nil, rfl⟩

/-- Fixed bytes, read in any way. -/
theorem agrees_fixed {n : ℕ} (h : Reader.Fixed n m) :
    Agrees inRange (fun _ _ => True) m (take n : Layout φ Bytes) := by
  intro bs
  have hm := h bs
  unfold take
  by_cases hn : n ≤ bs.length
  · rw [if_pos hn] at hm ⊢
    obtain ⟨a, ha⟩ := hm
    rw [ha]
    exact ⟨fun _ hx => absurd hx not_mem_nil, _, rfl, trivial⟩
  · rw [if_neg hn] at hm ⊢
    obtain ⟨e, he⟩ := hm
    rw [he]
    exact ⟨fun _ hx => absurd hx not_mem_nil, rfl⟩

theorem Agrees.thenPure {S : α → δ → Prop} {g : β → δ} (h : Agrees inRange R m w)
    (hS : ∀ a b, R a b → S a (g b)) :
    Agrees inRange S m (do let b ← w; return g b) := by
  intro bs
  have hbs := h bs
  cases hm : m bs with
  | ok a rest =>
    rw [hm] at hbs
    obtain ⟨hfirst, b, hb, hR⟩ := hbs
    rw [bind_some hb]
    refine ⟨?_, g b, rfl, hS a b hR⟩
    show ∀ x ∈ (w bs).1 ++ [], inRange x
    rwa [append_nil]
  | error e =>
    rw [hm] at hbs
    rw [bind_none hbs.2]
    exact ⟨hbs.1, rfl⟩
  | panic p =>
    rw [hm] at hbs
    obtain ⟨x, hx, hnot⟩ := hbs
    exact ⟨x, mem_bind hx, hnot⟩

theorem Agrees.times (h : Agrees inRange R m w) (n : ℕ) :
    Agrees inRange (fun _ _ => True) (m.times n) (w.times n) := by
  induction n with
  | zero => exact agrees_pure trivial
  | succ n ih => exact h.bind fun _ _ _ => ih.bind fun _ _ _ => agrees_pure trivial

theorem agrees_declare [DecidablePred inRange] {x : φ} {p : π} {c : Prop} [Decidable c]
    (h : c ↔ ¬inRange x) :
    Agrees inRange (fun _ _ => True)
      (if c then Reader.halt p else pure () : Reader ε π Unit) (declare inRange x) := by
  intro bs
  unfold declare
  by_cases hx : inRange x
  · rw [if_neg (fun hc => h.mp hc hx), if_pos hx]
    exact ⟨forall_mem_singleton.mpr hx, (), rfl, trivial⟩
  · rw [if_pos (h.mpr hx)]
    exact ⟨x, mem_singleton.mpr rfl, hx⟩

theorem agrees_declared [DecidablePred inRange] {x : φ} (hx : inRange x)
    (h : Agrees inRange R m w) : Agrees inRange R m (declare inRange x >>= fun _ => w) := by
  intro bs
  have hbs := h bs
  have hdeclare : (declare inRange x bs).2 = some ((), bs) := if_pos hx
  rw [bind_some hdeclare]
  have hone : ∀ y ∈ (declare inRange x bs).1, inRange y := forall_mem_singleton.mpr hx
  cases hm : m bs with
  | ok a rest =>
    rw [hm] at hbs
    exact ⟨forall_mem_append.mpr ⟨hone, hbs.1⟩, hbs.2⟩
  | error e =>
    rw [hm] at hbs
    exact ⟨forall_mem_append.mpr ⟨hone, hbs.1⟩, hbs.2⟩
  | panic p =>
    rw [hm] at hbs
    obtain ⟨y, hy, hnot⟩ := hbs
    exact ⟨y, mem_append_right _ hy, hnot⟩

theorem agrees_halt [DecidablePred inRange] {x : φ} (hx : ¬inRange x) (p : π)
    (g : Unit → Layout φ β) :
    Agrees inRange R (Reader.halt p : Reader ε π α) (declare inRange x >>= g) :=
  fun _ => ⟨x, mem_bind (mem_singleton.mpr rfl), hx⟩

end Layout

end Ollama.Lib.Binary
