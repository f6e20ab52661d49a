import Mathlib.Data.List.Basic

/-!
# Streams of numbered blocks

A stream carries blocks one after the other. A block has a number and a kind, is opened, is
filled with pieces that fit its kind, and is closed. A stream is *numbered* when the numbers
are 0, 1, 2, … and no two blocks are open at a time.
-/

namespace Ollama.Lib.Blocks

/-! ## §1  Blocks and marks -/

inductive Mark (κ δ : Type)
  | start (i : ℕ) (kind : κ)
  | piece (i : ℕ) (d : δ)
  | stop (i : ℕ)
  deriving DecidableEq

structure Block (κ δ : Type) where
  kind : κ
  pieces : List δ
  deriving DecidableEq

variable {κ δ : Type}

/-- The marks of one block under the number `i`. -/
def Block.marks (i : ℕ) (b : Block κ δ) : List (Mark κ δ) :=
  .start i b.kind :: (b.pieces.map (.piece i) ++ [.stop i])

/-- The marks of the blocks, numbered from `i` on. -/
def marksFrom : ℕ → List (Block κ δ) → List (Mark κ δ)
  | _, [] => []
  | i, b :: bs => b.marks i ++ marksFrom (i + 1) bs

def Block.Fits (fits : κ → δ → Prop) (b : Block κ δ) : Prop := ∀ d ∈ b.pieces, fits b.kind d

def Numbered (fits : κ → δ → Prop) (ms : List (Mark κ δ)) : Prop :=
  ∃ bs : List (Block κ δ), (∀ b ∈ bs, b.Fits fits) ∧ ms = marksFrom 0 bs

/-! ## §2  The reader of a stream -/

/-- What a reader knows after some marks: how many blocks are closed, and the kind of the
open one. -/
structure Reading (κ : Type) where
  closed : ℕ
  openKind : Option κ
  deriving DecidableEq

inductive Reads (fits : κ → δ → Prop) : Reading κ → Mark κ δ → Reading κ → Prop
  | start (i : ℕ) (k : κ) : Reads fits ⟨i, none⟩ (.start i k) ⟨i, some k⟩
  | piece (i : ℕ) (k : κ) (d : δ) (h : fits k d) : Reads fits ⟨i, some k⟩ (.piece i d) ⟨i, some k⟩
  | stop (i : ℕ) (k : κ) : Reads fits ⟨i, some k⟩ (.stop i) ⟨i + 1, none⟩

inductive ReadsAll (fits : κ → δ → Prop) : Reading κ → List (Mark κ δ) → Reading κ → Prop
  | nil (q : Reading κ) : ReadsAll fits q [] q
  | cons {q r s : Reading κ} {m : Mark κ δ} {ms : List (Mark κ δ)} :
      Reads fits q m r → ReadsAll fits r ms s → ReadsAll fits q (m :: ms) s

variable {fits : κ → δ → Prop} {q r s : Reading κ} {m : Mark κ δ} {ms ns : List (Mark κ δ)}

theorem Reads.unique (h : Reads fits q m r) (h' : Reads fits q m s) : r = s := by
  cases h <;> cases h' <;> rfl

theorem ReadsAll.append (h : ReadsAll fits q ms r) (h' : ReadsAll fits r ns s) :
    ReadsAll fits q (ms ++ ns) s := by
  induction h with
  | nil => exact h'
  | cons step _ ih => exact .cons step (ih h')

theorem readsAll_append :
    ReadsAll fits q (ms ++ ns) s ↔ ∃ r, ReadsAll fits q ms r ∧ ReadsAll fits r ns s := by
  constructor
  · intro h
    induction ms generalizing q with
    | nil => exact ⟨q, .nil q, h⟩
    | cons m ms ih =>
        cases h with
        | cons step rest =>
            obtain ⟨r, hr, hs⟩ := ih rest
            exact ⟨r, .cons step hr, hs⟩
  · rintro ⟨r, hr, hs⟩
    exact hr.append hs

theorem ReadsAll.unique (h : ReadsAll fits q ms r) (h' : ReadsAll fits q ms s) : r = s := by
  induction h with
  | nil => cases h'; rfl
  | cons step _ ih =>
      cases h' with
      | cons step' rest' =>
          cases step.unique step'
          exact ih rest'

theorem ReadsAll.then_iff (h : ReadsAll fits q ms r) :
    ReadsAll fits q (ms ++ ns) s ↔ ReadsAll fits r ns s := by
  refine readsAll_append.trans ⟨?_, fun h' => ⟨r, h, h'⟩⟩
  rintro ⟨r', hr', hs⟩
  rwa [h.unique hr']

theorem readsAll_cons :
    ReadsAll fits q (m :: ms) s ↔ ∃ r, Reads fits q m r ∧ ReadsAll fits r ms s := by
  refine ⟨?_, fun ⟨r, hr, hs⟩ => .cons hr hs⟩
  rintro ⟨⟩
  exact ⟨_, ‹_›, ‹_›⟩

theorem not_readsAll_start {i j : ℕ} {k l : κ} :
    ¬ReadsAll fits ⟨i, some k⟩ (.start j l :: ms) s := by
  intro h
  cases h with
  | cons step _ => cases step

theorem readsAll_pieces (i : ℕ) (k : κ) (ds : List δ) (h : ∀ d ∈ ds, fits k d) :
    ReadsAll fits ⟨i, some k⟩ (ds.map (.piece i)) ⟨i, some k⟩ := by
  induction ds with
  | nil => exact .nil _
  | cons d ds ih =>
      have hd : fits k d := h d List.mem_cons_self
      exact .cons (.piece i k d hd) (ih fun d' hd' => h d' (List.mem_cons_of_mem _ hd'))

theorem Block.reads (b : Block κ δ) (h : b.Fits fits) (i : ℕ) :
    ReadsAll fits ⟨i, none⟩ (b.marks i) ⟨i + 1, none⟩ := by
  refine .cons (.start i b.kind) ((readsAll_pieces i b.kind b.pieces h).append ?_)
  exact .cons (.stop i b.kind) (.nil _)

theorem readsAll_marksFrom (bs : List (Block κ δ)) (h : ∀ b ∈ bs, b.Fits fits) (i : ℕ) :
    ReadsAll fits ⟨i, none⟩ (marksFrom i bs) ⟨i + bs.length, none⟩ := by
  induction bs generalizing i with
  | nil => exact .nil _
  | cons b bs ih =>
      have hb := b.reads (h b List.mem_cons_self) i
      have hbs := ih (fun b' hb' => h b' (List.mem_cons_of_mem _ hb')) (i + 1)
      rw [List.length_cons, show i + (bs.length + 1) = i + 1 + bs.length by omega]
      exact hb.append hbs

/-- What a reader took between two blocks, or from inside a block on, is the marks of blocks. -/
theorem ReadsAll.blocks (h : ReadsAll fits q ms s) (hs : s.openKind = none) :
    match q with
    | ⟨i, none⟩ => ∃ bs : List (Block κ δ), (∀ b ∈ bs, b.Fits fits) ∧ ms = marksFrom i bs
    | ⟨i, some k⟩ => ∃ ds : List δ, (∀ d ∈ ds, fits k d) ∧ ∃ bs : List (Block κ δ),
        (∀ b ∈ bs, b.Fits fits) ∧ ms = ds.map (.piece i) ++ .stop i :: marksFrom (i + 1) bs := by
  induction h with
  | nil q =>
      obtain ⟨i, k⟩ := q
      obtain rfl : k = none := hs
      exact ⟨[], by simp, rfl⟩
  | cons step _ ih =>
      have rest := ih hs
      cases step with
      | start i k =>
          obtain ⟨ds, hds, bs, hbs, rfl⟩ := rest
          refine ⟨⟨k, ds⟩ :: bs, List.forall_mem_cons.mpr ⟨hds, hbs⟩, ?_⟩
          simp [marksFrom, Block.marks]
      | piece i k d hd =>
          obtain ⟨ds, hds, bs, hbs, rfl⟩ := rest
          exact ⟨d :: ds, List.forall_mem_cons.mpr ⟨hd, hds⟩, bs, hbs, rfl⟩
      | stop i k =>
          obtain ⟨bs, hbs, rfl⟩ := rest
          exact ⟨[], by simp, bs, hbs, rfl⟩

theorem numbered_iff : Numbered fits ms ↔ ∃ n, ReadsAll fits ⟨0, none⟩ ms ⟨n, none⟩ := by
  constructor
  · rintro ⟨bs, hbs, rfl⟩
    exact ⟨_, readsAll_marksFrom bs hbs 0⟩
  · rintro ⟨n, h⟩
    exact h.blocks rfl

end Ollama.Lib.Blocks
