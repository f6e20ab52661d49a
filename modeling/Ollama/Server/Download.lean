import Mathlib
import Ollama.Lib.Transition

/-!
# Resumable downloads: model of `server/download.go`

`Prepare`, `run`, `downloadChunk`, `newPart`, `readPart` and `writePart` as a system whose steps
are the file operations, with the interruption of an attempt as one more.
-/

namespace Ollama.Server.Download

open Lib List

/-! ## §1  Files -/

structure Slot where
  n : ℕ
  offset : ℕ
  size : ℕ
deriving DecidableEq

/-- `(*blobDownloadPart).StopsAt` -/
def Slot.StopsAt (p : Slot) : ℕ := p.offset + p.size

/-- `blobDownloadPart`, as it is in its file. -/
structure Part extends Slot where
  completed : ℕ
deriving DecidableEq

/-- `(*blobDownloadPart).StartsAt` -/
def Part.StartsAt (p : Part) : ℕ := p.offset + p.completed

/-- A file: what is written holds the number of the byte that was requested. -/
structure File where
  length : ℕ
  byte : ℕ → Option ℕ

def File.empty : File := ⟨0, fun _ => none⟩

def File.truncate (f : File) (n : ℕ) : File := ⟨n, fun i => if i < n then f.byte i else none⟩

/-- `k` bytes that were requested from `src` on are written from `pos` on. -/
def File.writeAt (f : File) (pos src k : ℕ) : File where
  length := max f.length (pos + k)
  byte i := if pos ≤ i ∧ i < pos + k then some (src + (i - pos)) else f.byte i

/-- The part files by their numbers, the file `-partial` and the blob. -/
structure Disk where
  parts : List Part
  incomplete : Option File
  blob : Option File

/-- `writePart`, which creates the file of a part or replaces it. -/
def writePart (ps : List Part) (p : Part) : List Part :=
  if ps.any fun q => decide (q.n = p.n) then ps.map fun q => if q.n = p.n then p else q
  else ps ++ [p]

/-- `filepath.Glob`, in the order of the names. -/
def globbed (ps : List Part) : List Part :=
  ps.insertionSort fun p q => Nat.toDigits 10 p.n ≤ Nat.toDigits 10 q.n

/-! ## §2  The steps -/

def numDownloadParts : ℕ := 16
def minDownloadPartSize : ℕ := 100 * 1000 * 1000
def maxDownloadPartSize : ℕ := 1000 * 1000 * 1000

/-- The size of parts that `Prepare` chooses. -/
def partSize (total : ℕ) : ℕ :=
  if total / numDownloadParts < minDownloadPartSize then minDownloadPartSize
  else if maxDownloadPartSize < total / numDownloadParts then maxDownloadPartSize
  else total / numDownloadParts

structure Worker extends Part where
  copied : ℕ
deriving DecidableEq

inductive Phase where
  | idle
  | creating (total size offset : ℕ) (parts : List Part)
  | prepared (total : ℕ) (parts : List Part)
  | opened (total : ℕ) (parts : List Part)
  | running (workers : List Worker)
  | removing (parts : List Part) (i : ℕ)

structure State where
  disk : Disk
  phase : Phase

inductive Op where
  | glob
  | newPart
  | ready
  | openFile
  | truncate (ok : Bool)
  | write (i k : ℕ)
  | add (i : ℕ)
  | rollback (i : ℕ)
  | writePart (i : ℕ)
  | wait
  | remove
  | rename
  | interrupt
deriving DecidableEq

/-- The part that `newPart` appends. -/
def nextPart (total size offset : ℕ) (parts : List Part) : Part where
  n := parts.length
  offset := offset
  size := if offset + size > total then total - offset else size
  completed := 0

/-- A step of the worker `i`. -/
def updateWorker (s : State) (ws : List Worker) (i : ℕ) (f : Worker → Option Worker) :
    Option State := do
  let w ← ws[i]?
  let w ← f w
  pure { s with phase := .running (ws.set i w) }

/-- The steps of an attempt to download a blob of `contentLength` bytes. -/
def step (contentLength : ℕ) (s : State) : Op → Option State
  | .glob =>
      match s.phase with
      | .idle =>
          if s.disk.parts = [] then
            some { s with phase := .creating contentLength (partSize contentLength) 0 [] }
          else some { s with
            phase := .prepared (s.disk.parts.map fun p => p.size).sum (globbed s.disk.parts) }
      | _ => none
  | .newPart =>
      match s.phase with
      | .creating total size offset parts =>
          let p := nextPart total size offset parts
          if offset < total then
            some { disk := { s.disk with parts := Download.writePart s.disk.parts p },
                   phase := .creating total p.size (offset + p.size) (parts ++ [p]) }
          else none
      | _ => none
  | .ready =>
      match s.phase with
      | .creating total _ offset parts =>
          if offset < total then none else some { s with phase := .prepared total parts }
      | _ => none
  | .openFile =>
      match s.phase with
      | .prepared total parts =>
          some { disk := { s.disk with incomplete := some (s.disk.incomplete.getD .empty) },
                 phase := .opened total parts }
      | _ => none
  | .truncate ok =>
      match s.phase with
      | .opened total parts =>
          let file := if ok then s.disk.incomplete.map (·.truncate total) else s.disk.incomplete
          some { disk := { s.disk with incomplete := file },
                 phase := .running (parts.map fun p => { p with copied := 0 }) }
      | _ => none
  | .write i k =>
      match s.phase with
      | .running ws => do
          let w ← ws[i]?
          if w.copied + k ≤ w.size - w.completed then
            let pos := w.StartsAt + w.copied
            some { disk := { s.disk with incomplete := s.disk.incomplete.map (·.writeAt pos pos k) },
                   phase := .running (ws.set i { w with copied := w.copied + k }) }
          else none
      | _ => none
  | .add i =>
      match s.phase with
      | .running ws => updateWorker s ws i fun w =>
          some { w with completed := w.completed + w.copied, copied := 0 }
      | _ => none
  | .rollback i =>
      match s.phase with
      | .running ws => updateWorker s ws i fun w => some { w with copied := 0 }
      | _ => none
  | .writePart i =>
      match s.phase with
      | .running ws => do
          let w ← ws[i]?
          some { s with disk := { s.disk with parts := Download.writePart s.disk.parts w.toPart } }
      | _ => none
  | .wait =>
      match s.phase with
      | .running ws =>
          if ws.all fun w => decide (w.completed = w.size) then
            some { s with phase := .removing (ws.map Worker.toPart) 0 }
          else none
      | _ => none
  | .remove =>
      match s.phase with
      | .removing parts i =>
          if i < parts.length then
            if s.disk.parts.any fun p => decide (p.n = i) then
              some { disk := { s.disk with parts := s.disk.parts.filter fun p => decide (p.n ≠ i) },
                     phase := .removing parts (i + 1) }
            else some { s with phase := .idle }
          else none
      | _ => none
  | .rename =>
      match s.phase with
      | .removing parts i =>
          if i < parts.length then none
          else some { disk := { s.disk with blob := s.disk.incomplete, incomplete := none },
                      phase := .idle }
      | _ => none
  | .interrupt => some { s with phase := .idle }

/-! ## §3  Layouts -/

/-- The places follow each other from `a` to `b`. -/
def Tiles : ℕ → List Slot → ℕ → Prop
  | a, [], b => a = b
  | a, p :: ps, b => p.offset = a ∧ Tiles p.StopsAt ps b

variable {ps : List Slot} {p : Slot}

theorem tiles_append {a b c : ℕ} (h : Tiles a ps b)
    (hp : p.offset = b) (hc : p.StopsAt = c) : Tiles a (ps ++ [p]) c := by
  induction ps generalizing a with
  | nil => exact ⟨hp.trans h.symm, hc⟩
  | cons q ps ih => exact ⟨h.1, ih h.2⟩

variable {a b : ℕ}

theorem le_stopsAt (h : Tiles a (p :: ps) b) : a ≤ p.StopsAt := by
  rw [← h.1]
  exact Nat.le_add_right p.offset p.size

theorem Tiles.le (h : Tiles a ps b) : a ≤ b := by
  induction ps generalizing a with
  | nil => exact Nat.le_of_eq h
  | cons p ps ih => exact (le_stopsAt h).trans (ih h.2)

theorem Tiles.stopsAt_le (h : Tiles a ps b) (hp : p ∈ ps) : p.StopsAt ≤ b := by
  induction ps generalizing a with
  | nil => exact absurd hp not_mem_nil
  | cons q ps ih =>
    rcases mem_cons.mp hp with rfl | hp
    · exact h.2.le
    · exact ih h.2 hp

theorem Tiles.sum_size (h : Tiles a ps b) : a + (ps.map Slot.size).sum = b := by
  induction ps generalizing a with
  | nil => exact h
  | cons p ps ih =>
    rw [map_cons, sum_cons, ← Nat.add_assoc, ← h.1]
    exact ih h.2

/-- What the places hold is what is between the ends. -/
theorem Tiles.mem_iff (h : Tiles a ps b) (j : ℕ) :
    (∃ p ∈ ps, p.offset ≤ j ∧ j < p.StopsAt) ↔ a ≤ j ∧ j < b := by
  induction ps generalizing a with
  | nil =>
    refine iff_of_false ?_ fun hj => absurd (h ▸ hj.1) (not_le.mpr hj.2)
    rintro ⟨p, hp, -⟩
    exact absurd hp not_mem_nil
  | cons p ps ih =>
    rw [exists_mem_cons_iff, ih h.2]
    have hle := h.2.le
    have hstop : p.StopsAt = p.offset + p.size := rfl
    rw [← h.1]
    omega

def Apart (p q : Slot) : Prop := p.StopsAt ≤ q.offset ∨ q.StopsAt ≤ p.offset

theorem Tiles.pairwise (h : Tiles a ps b) : ps.Pairwise Apart := by
  have hfrom : ∀ {a ps}, Tiles a ps b → ∀ p ∈ ps, a ≤ p.offset := by
    intro a ps
    induction ps generalizing a with
    | nil => exact fun _ p hp => absurd hp not_mem_nil
    | cons q ps ih =>
      intro h p hp
      rcases mem_cons.mp hp with rfl | hp
      · exact h.1.ge
      · exact (le_stopsAt h).trans (ih h.2 p hp)
  induction ps generalizing a with
  | nil => exact List.Pairwise.nil
  | cons p ps ih => exact List.Pairwise.cons (fun q hq => Or.inl (hfrom h.2 q hq)) (ih h.2)

/-- The places of a whole download, by their numbers. -/
structure Layout (total : ℕ) (ps : List Slot) : Prop where
  tiles : Tiles 0 ps total
  numbered : ps.map Slot.n = List.range ps.length

/-- Disjoint places that cover exactly what is below `total`. -/
structure Partition (total : ℕ) (ps : List Slot) : Prop where
  apart : ps.Pairwise Apart
  cover : ∀ j, (∃ p ∈ ps, p.offset ≤ j ∧ j < p.StopsAt) ↔ j < total

variable {total : ℕ}

theorem Layout.partition {L ps : List Slot} (h : Layout total L) (hps : ps.Perm L) :
    Partition total ps where
  apart := by
    exact (hps.pairwise_iff fun h => h.symm).mpr h.tiles.pairwise
  cover j := by
    have hmem : (∃ p ∈ ps, p.offset ≤ j ∧ j < p.StopsAt) ↔ ∃ p ∈ L, p.offset ≤ j ∧ j < p.StopsAt :=
      exists_congr fun p => and_congr_left fun _ => hps.mem_iff
    rw [hmem, h.tiles.mem_iff]
    exact and_iff_right (Nat.zero_le j)

variable {L : List Slot}

theorem Layout.n_getElem (h : Layout total L) {i : ℕ} (hi : i < L.length) : L[i].n = i := by
  have hmap : (L.map Slot.n)[i]? = some L[i].n := by
    rw [getElem?_map, getElem?_eq_getElem hi]
    rfl
  rw [h.numbered, getElem?_range hi] at hmap
  exact (Option.some.inj hmap).symm

theorem Layout.eq_of_n (h : Layout total L) {p q : Slot} (hp : p ∈ L)
    (hq : q ∈ L) (hn : p.n = q.n) : p = q := by
  obtain ⟨i, hi, rfl⟩ := getElem_of_mem hp
  obtain ⟨j, hj, rfl⟩ := getElem_of_mem hq
  rw [h.n_getElem hi, h.n_getElem hj] at hn
  subst hn
  rfl

theorem Layout.filter_drop (h : Layout total L) {i : ℕ}
    (hi : i < L.length) : (L.drop i).filter (fun p => decide (p.n ≠ i)) = L.drop (i + 1) := by
  rw [drop_eq_getElem_cons hi, filter_cons_of_neg]
  · refine filter_eq_self.mpr fun p hp => ?_
    obtain ⟨k, hk, rfl⟩ := getElem_of_mem hp
    rw [getElem_drop, decide_eq_true_iff]
    rw [length_drop] at hk
    rw [h.n_getElem (by omega)]
    omega
  · rw [decide_eq_true_iff, not_not, h.n_getElem hi]

/-! ## §4  What every step keeps -/

def slots (ps : List Part) : List Slot := ps.map Part.toSlot

def Disk.byte (d : Disk) (j : ℕ) : Option ℕ := d.incomplete.bind fun f => f.byte j

/-- The first `k` bytes of a place are written. -/
structure Written (byte : ℕ → Option ℕ) (p : Slot) (k : ℕ) : Prop where
  le : k ≤ p.size
  byte : ∀ j, p.offset ≤ j → j < p.offset + k → byte j = some j

/-- What is written was requested for its place. -/
structure File.Sound (total : ℕ) (f : File) : Prop where
  length_le : f.length ≤ total
  byte : ∀ i v, f.byte i = some v → v = i ∧ i < f.length

/-- A file of `total` bytes, each written by a request for it. -/
structure File.Complete (total : ℕ) (f : File) : Prop where
  length : f.length = total
  byte : ∀ i < total, f.byte i = some i

/-- What an attempt has in memory, against what is on the disk. -/
def PhaseInv (total : ℕ) (d : Disk) : Phase → Prop
  | .idle => d.parts = [] ∨ ∃ L, Layout total L ∧ (slots d.parts).Perm L
  | .creating t _ offset parts =>
      t = total ∧ d.parts = parts ∧ Layout offset (slots parts) ∧ offset ≤ total
  | .prepared t parts => t = total ∧ ∃ L, Layout total L ∧ (slots d.parts).Perm L ∧
      (slots parts).Perm L ∧ ∀ p ∈ parts, Written d.byte p.toSlot p.completed
  | .opened t parts => t = total ∧ d.incomplete.isSome = true ∧ ∃ L, Layout total L ∧
      (slots d.parts).Perm L ∧ (slots parts).Perm L ∧
      ∀ p ∈ parts, Written d.byte p.toSlot p.completed
  | .running ws => d.incomplete.isSome = true ∧ ∃ L, Layout total L ∧
      (slots d.parts).Perm L ∧ (slots (ws.map Worker.toPart)).Perm L ∧
      ∀ w ∈ ws, Written d.byte w.toSlot (w.completed + w.copied)
  | .removing parts i => (∃ f, d.incomplete = some f ∧ f.Complete total) ∧ ∃ L, Layout total L ∧
      (slots parts).Perm L ∧ i ≤ L.length ∧ (slots d.parts).Perm (L.drop i)

structure Inv (total : ℕ) (s : State) : Prop where
  sound : ∀ f, s.disk.incomplete = some f → f.Sound total
  blob : ∀ f, s.disk.blob = some f → f.Complete total
  written : ∀ p ∈ s.disk.parts, Written s.disk.byte p.toSlot p.completed
  phase : PhaseInv total s.disk s.phase

/-- No attempt is interrupted between its first and its last `newPart`, nor between the first
and the last removal of a part. -/
def Allowed (s : State) : Op → Prop
  | .interrupt =>
      match s.phase with
      | .creating total _ offset parts => parts = [] ∨ total ≤ offset
      | .removing parts i => i = 0 ∨ parts.length ≤ i
      | _ => True
  | _ => True

theorem Written.mono {byte byte' : ℕ → Option ℕ} {k k' : ℕ} (h : Written byte p k)
    (hk : k' ≤ k) (hbyte : ∀ j, byte j = some j → byte' j = some j) : Written byte' p k' where
  le := hk.trans h.le
  byte j hj hlt := hbyte j (h.byte j hj (by omega))

theorem written_zero (byte : ℕ → Option ℕ) (p : Slot) : Written byte p 0 :=
  ⟨Nat.zero_le _, fun _ _ hlt => absurd hlt (by omega)⟩

theorem globbed_perm (ps : List Part) : (globbed ps).Perm ps := perm_insertionSort _ ps

theorem mem_slots {ps : List Part} {p : Part} (hp : p ∈ ps) : p.toSlot ∈ slots ps :=
  mem_map.mpr ⟨p, hp, rfl⟩

theorem eq_nil_of_slots {ps : List Part} (h : slots ps = []) : ps = [] := map_eq_nil_iff.mp h

section Steps

variable {total : ℕ} {s s' : State}

theorem inv_glob (h : Inv total s) (hs : step total s .glob = some s') : Inv total s' := by
  obtain ⟨d, ph⟩ := s
  cases ph with
  | idle =>
    by_cases hnil : d.parts = []
    · simp only [step, if_pos hnil, Option.some.injEq] at hs
      subst hs
      refine ⟨h.sound, h.blob, h.written, rfl, hnil, ⟨rfl, rfl⟩, Nat.zero_le _⟩
    simp only [step, if_neg hnil, Option.some.injEq] at hs
    subst hs
    obtain ⟨L, hL, hdisk⟩ := h.phase.resolve_left hnil
    have hperm : (slots (globbed d.parts)).Perm L := ((globbed_perm d.parts).map _).trans hdisk
    refine ⟨h.sound, h.blob, h.written, ?_, L, hL, hdisk, hperm, ?_⟩
    · rw [← hL.tiles.sum_size, Nat.zero_add, ← (hdisk.map Slot.size).sum_nat, slots, map_map]
      rfl
    · exact fun p hp => h.written p ((globbed_perm d.parts).mem_iff.mp hp)
  | _ => simp [step] at hs

theorem writePart_new {ps : List Part} {p : Part} (hnew : ∀ q ∈ ps, q.n ≠ p.n) :
    writePart ps p = ps ++ [p] := by
  refine if_neg ?_
  rw [any_eq_true]
  rintro ⟨q, hq, hn⟩
  exact hnew q hq (of_decide_eq_true hn)

theorem inv_newPart (h : Inv total s) (hs : step total s .newPart = some s') : Inv total s' := by
  obtain ⟨d, ph⟩ := s
  cases ph with
  | creating t size offset parts =>
    obtain ⟨rfl, hparts, hlayout, hle⟩ := h.phase
    by_cases hlt : offset < t
    · simp only [step, if_pos hlt, Option.some.injEq] at hs
      subst hs
      have hnew : ∀ q ∈ d.parts, q.n ≠ (nextPart t size offset parts).n := by
        intro q hq heq
        have hmem : q.n ∈ (slots parts).map Slot.n :=
          mem_map.mpr ⟨_, mem_slots (hparts ▸ hq), rfl⟩
        rw [hlayout.numbered, mem_range, slots, length_map] at hmem
        exact hmem.ne heq
      have hsize : offset + (nextPart t size offset parts).size ≤ t := by
        simp only [nextPart]
        split <;> omega
      refine ⟨h.sound, h.blob, ?_, rfl, ?_, ⟨?_, ?_⟩, hsize⟩
      · intro p hp
        simp only [writePart_new hnew, mem_append, mem_singleton] at hp
        rcases hp with hp | rfl
        · exact h.written p hp
        · exact written_zero _ _
      · exact (writePart_new hnew).trans (congrArg (· ++ [nextPart t size offset parts]) hparts)
      · rw [slots, map_append, map_singleton]
        exact tiles_append hlayout.tiles rfl rfl
      rw [slots, map_append, map_append, length_append, length_map,
        map_singleton, map_singleton, length_singleton, range_succ]
      have hnumbered := hlayout.numbered
      rw [slots, length_map] at hnumbered
      rw [hnumbered]
      rfl
    · simp [step, if_neg hlt] at hs
  | _ => simp [step] at hs

theorem inv_ready (h : Inv total s) (hs : step total s .ready = some s') : Inv total s' := by
  obtain ⟨d, ph⟩ := s
  cases ph with
  | creating t size offset parts =>
    obtain ⟨rfl, hparts, hlayout, hle⟩ := h.phase
    by_cases hlt : offset < t
    · simp [step, if_pos hlt] at hs
    simp only [step, if_neg hlt, Option.some.injEq] at hs
    subst hs
    obtain rfl : offset = t := le_antisymm hle (not_lt.mp hlt)
    refine ⟨h.sound, h.blob, h.written, rfl, _, hlayout, ?_, List.Perm.refl _, ?_⟩
    · rw [hparts]
    · exact fun p hp => h.written p (hparts ▸ hp)
  | _ => simp [step] at hs

theorem inv_openFile (h : Inv total s) (hs : step total s .openFile = some s') : Inv total s' := by
  obtain ⟨d, ph⟩ := s
  cases ph with
  | prepared t parts =>
    simp only [step, Option.some.injEq] at hs
    subst hs
    have hbyte : ∀ j, d.byte j = some j → (d.incomplete.getD .empty).byte j = some j := by
      intro j hj
      rw [Disk.byte] at hj
      cases hfile : d.incomplete with
      | none =>
        rw [hfile] at hj
        cases hj
      | some f => rwa [hfile] at hj
    obtain ⟨ht, L, hL, hdisk, hparts, hwritten⟩ := h.phase
    refine ⟨?_, h.blob, ?_, ht, rfl, L, hL, hdisk, hparts, ?_⟩
    · intro f hf
      obtain rfl := Option.some.inj hf
      cases hfile : d.incomplete with
      | none => exact ⟨Nat.zero_le _, fun i v hv => nomatch hv⟩
      | some f => exact h.sound f hfile
    · exact fun p hp => (h.written p hp).mono le_rfl hbyte
    · exact fun p hp => (hwritten p hp).mono le_rfl hbyte
  | _ => simp [step] at hs

variable {f : File}

theorem File.Sound.truncate (h : f.Sound total) : (f.truncate total).Sound total := by
  refine ⟨le_rfl, fun i v hv => ?_⟩
  simp only [File.truncate] at hv ⊢
  split at hv
  · rename_i hi
    exact ⟨(h.byte i v hv).1, hi⟩
  · cases hv

theorem File.Sound.truncate_byte (h : f.Sound total) {j : ℕ}
    (hj : f.byte j = some j) : (f.truncate total).byte j = some j :=
  (if_pos ((h.byte j j hj).2.trans_le h.length_le)).trans hj

theorem inv_truncate {ok : Bool} (h : Inv total s)
    (hs : step total s (.truncate ok) = some s') : Inv total s' := by
  obtain ⟨d, ph⟩ := s
  cases ph with
  | opened t parts =>
    simp only [step, Option.some.injEq] at hs
    subst hs
    obtain ⟨rfl, hsome, L, hL, hdisk, hparts, hwritten⟩ := h.phase
    obtain ⟨f, hf⟩ := Option.isSome_iff_exists.mp hsome
    have hsound := h.sound f hf
    obtain ⟨f', hf', hsound', hmono⟩ : ∃ f', (if ok then d.incomplete.map (·.truncate t)
        else d.incomplete) = some f' ∧ f'.Sound t ∧
          ∀ j, d.byte j = some j → f'.byte j = some j := by
      cases ok with
      | true =>
        refine ⟨f.truncate t, by rw [hf]; rfl, hsound.truncate, fun j hj => ?_⟩
        rw [Disk.byte, hf] at hj
        exact hsound.truncate_byte hj
      | false =>
        refine ⟨f, hf, hsound, fun j hj => ?_⟩
        rwa [Disk.byte, hf] at hj
    have hslots : slots ((parts.map fun p => ({ p with copied := 0 } : Worker)).map
        Worker.toPart) = slots parts := by
      rw [map_map]
      exact congrArg slots (map_id parts)
    rw [hf']
    refine ⟨?_, h.blob, ?_, rfl, L, hL, hdisk, hslots ▸ hparts, ?_⟩
    · intro g hg
      rw [← Option.some.inj hg]
      exact hsound'
    · exact fun p hp => (h.written p hp).mono le_rfl hmono
    · refine forall_mem_map.mpr fun p hp => ?_
      exact (hwritten p hp).mono le_rfl hmono
  | _ => simp [step] at hs

variable {i : ℕ}

/-- A step of one worker leaves the places. -/
theorem slots_set {ws : List Worker} {w w' : Worker} (hw : ws[i]? = some w)
    (hslot : w'.toSlot = w.toSlot) :
    slots ((ws.set i w').map Worker.toPart) = slots (ws.map Worker.toPart) := by
  rw [slots, slots, map_map, map_map]
  refine ext_getElem? fun k => ?_
  rw [getElem?_map, getElem?_map, getElem?_set]
  split
  · rename_i hik
    subst hik
    split
    · rw [hw]
      exact congrArg some hslot
    · rename_i hlen
      rw [getElem?_eq_none (not_lt.mp hlen)]
  · rfl

theorem inv_worker {d : Disk} {ws : List Worker} {w w' : Worker}
    (h : Inv total ⟨d, .running ws⟩) (hw : ws[i]? = some w) (hslot : w'.toSlot = w.toSlot)
    (hwritten : Written d.byte w'.toSlot (w'.completed + w'.copied)) :
    Inv total ⟨d, .running (ws.set i w')⟩ := by
  obtain ⟨hsome, L, hL, hdisk, hws, hall⟩ := h.phase
  refine ⟨h.sound, h.blob, h.written, hsome, L, hL, hdisk, ?_, ?_⟩
  · rw [slots_set hw hslot]
    exact hws
  · intro v hv
    rcases mem_or_eq_of_mem_set hv with hv | rfl
    · exact hall v hv
    · exact hwritten

theorem inv_add (h : Inv total s) (hs : step total s (.add i) = some s') : Inv total s' := by
  obtain ⟨d, ph⟩ := s
  cases ph with
  | running ws =>
    simp only [step, updateWorker, Option.bind_eq_bind, Option.bind_eq_some_iff] at hs
    obtain ⟨w, hw, w', hw', hs⟩ := hs
    cases hw'
    cases hs
    obtain ⟨-, L, -, -, -, hall⟩ := h.phase
    exact inv_worker h hw rfl (hall w (mem_of_getElem? hw))
  | _ => simp [step] at hs

theorem inv_rollback (h : Inv total s) (hs : step total s (.rollback i) = some s') :
    Inv total s' := by
  obtain ⟨d, ph⟩ := s
  cases ph with
  | running ws =>
    simp only [step, updateWorker, Option.bind_eq_bind, Option.bind_eq_some_iff] at hs
    obtain ⟨w, hw, w', hw', hs⟩ := hs
    cases hw'
    cases hs
    obtain ⟨-, L, -, -, -, hall⟩ := h.phase
    refine inv_worker h hw rfl ?_
    exact (hall w (mem_of_getElem? hw)).mono (Nat.le_add_right _ _) fun _ hj => hj
  | _ => simp [step] at hs

theorem File.writeAt_byte {pos k j : ℕ} (hj : pos ≤ j ∧ j < pos + k) :
    (f.writeAt pos pos k).byte j = some j := by
  have hsame : pos + (j - pos) = j := Nat.add_sub_cancel' hj.1
  exact (if_pos hj).trans (congrArg some hsame)

theorem File.writeAt_byte_mono {pos k j : ℕ} (hj : f.byte j = some j) :
    (f.writeAt pos pos k).byte j = some j := by
  by_cases hin : pos ≤ j ∧ j < pos + k
  · exact writeAt_byte hin
  · exact (if_neg hin).trans hj

theorem File.Sound.writeAt (h : f.Sound total) {pos k : ℕ} (hle : pos + k ≤ total) :
    (f.writeAt pos pos k).Sound total := by
  refine ⟨max_le h.length_le hle, fun i v hv => ?_⟩
  by_cases hin : pos ≤ i ∧ i < pos + k
  · rw [writeAt_byte hin] at hv
    exact ⟨(Option.some.inj hv).symm, hin.2.trans_le (le_max_right _ _)⟩
  · have hv : f.byte i = some v := (if_neg hin).symm.trans hv
    exact ⟨(h.byte i v hv).1, (h.byte i v hv).2.trans_le (le_max_left _ _)⟩

section

variable (h : Inv total s)
include h

theorem inv_write {i k : ℕ} (hs : step total s (.write i k) = some s') :
    Inv total s' := by
  obtain ⟨d, ph⟩ := s
  cases ph with
  | running ws =>
    simp only [step, Option.bind_eq_bind, Option.bind_eq_some_iff] at hs
    obtain ⟨w, hw, hs⟩ := hs
    by_cases hk : w.copied + k ≤ w.size - w.completed
    · rw [if_pos hk] at hs
      cases hs
      obtain ⟨hsome, L, hL, hdisk, hws, hall⟩ := h.phase
      obtain ⟨f, hf⟩ := Option.isSome_iff_exists.mp hsome
      have hwritten := hall w (mem_of_getElem? hw)
      have hmem : w.toSlot ∈ L := by
        refine hws.mem_iff.mp (mem_slots (p := w.toPart) ?_)
        exact mem_map.mpr ⟨w, mem_of_getElem? hw, rfl⟩
      have hstop : w.offset + w.size ≤ total := hL.tiles.stopsAt_le hmem
      have hpos : w.StartsAt + w.copied = w.offset + (w.completed + w.copied) :=
        Nat.add_assoc _ _ _
      have hle := hwritten.le
      generalize w.StartsAt + w.copied = pos at hpos
      have hmono : ∀ j, d.byte j = some j → (f.writeAt pos pos k).byte j = some j := by
        intro j hj
        rw [Disk.byte, hf] at hj
        exact File.writeAt_byte_mono hj
      rw [hf]
      refine ⟨?_, h.blob, ?_, rfl, L, hL, hdisk, ?_, ?_⟩
      · intro g hg
        rw [← Option.some.inj hg]
        exact (h.sound f hf).writeAt (by omega)
      · exact fun p hp => (h.written p hp).mono le_rfl hmono
      · rw [slots_set hw]
        · exact hws
        · rfl
      intro v hv
      rcases mem_or_eq_of_mem_set hv with hv | rfl
      · exact (hall v hv).mono le_rfl hmono
      -- what was written before, and what is now
      refine ⟨by dsimp only; omega, fun j hj hlt => ?_⟩
      dsimp only at hj hlt
      rcases Nat.lt_or_ge j pos with hbefore | hnow
      · exact hmono j (hwritten.byte j hj (by omega))
      · exact File.writeAt_byte ⟨hnow, by omega⟩
    · simp [hk] at hs
  | _ => simp [step] at hs

theorem inv_writePart (hs : step total s (.writePart i) = some s') :
    Inv total s' := by
  obtain ⟨d, ph⟩ := s
  cases ph with
  | running ws =>
    simp only [step, Option.bind_eq_bind, Option.bind_eq_some_iff] at hs
    obtain ⟨w, hw, hs⟩ := hs
    cases hs
    obtain ⟨hsome, L, hL, hdisk, hws, hall⟩ := h.phase
    have hmem : w.toSlot ∈ L := by
      refine hws.mem_iff.mp (mem_slots (p := w.toPart) ?_)
      exact mem_map.mpr ⟨w, mem_of_getElem? hw, rfl⟩
    -- the file of the part is there and has its place
    have hreplace : writePart d.parts w.toPart =
        d.parts.map fun q => if q.n = w.n then w.toPart else q := by
      obtain ⟨q, hq, hslot⟩ := mem_map.mp (hdisk.mem_iff.mpr hmem)
      refine if_pos (any_eq_true.mpr ⟨q, hq, decide_eq_true ?_⟩)
      exact congrArg Slot.n hslot
    have hsame : slots (writePart d.parts w.toPart) = slots d.parts := by
      rw [hreplace, slots, map_map]
      refine map_congr_left fun q hq => ?_
      rw [Function.comp]
      split
      · rename_i hn
        exact hL.eq_of_n hmem (hdisk.mem_iff.mp (mem_slots hq)) hn.symm
      · rfl
    refine ⟨h.sound, h.blob, ?_, hsome, L, hL, hsame ▸ hdisk, hws, hall⟩
    intro p hp
    rw [hreplace, mem_map] at hp
    obtain ⟨q, hq, rfl⟩ := hp
    split
    · exact (hall w (mem_of_getElem? hw)).mono (Nat.le_add_right _ _) fun _ hj => hj
    · exact h.written q hq
  | _ => simp [step] at hs

theorem inv_wait (hs : step total s .wait = some s') : Inv total s' := by
  obtain ⟨d, ph⟩ := s
  cases ph with
  | running ws =>
    by_cases hdone : (ws.all fun w => decide (w.completed = w.size)) = true
    · simp only [step, if_pos hdone, Option.some.injEq] at hs
      subst hs
      obtain ⟨hsome, L, hL, hdisk, hws, hall⟩ := h.phase
      obtain ⟨f, hf⟩ := Option.isSome_iff_exists.mp hsome
      have hbyte : ∀ j < total, f.byte j = some j := by
        intro j hj
        obtain ⟨p, hp, hstart, hstop⟩ := ((hL.partition hws).cover j).mpr hj
        rw [slots, map_map, mem_map] at hp
        obtain ⟨w, hw, rfl⟩ := hp
        have hcompleted : w.completed = w.size :=
          of_decide_eq_true (all_eq_true.mp hdone w hw)
        have hj' : d.byte j = some j := by
          refine (hall w hw).byte j hstart (hstop.trans_le ?_)
          rw [hcompleted]
          exact Nat.add_le_add_left (Nat.le_add_right _ _) _
        rwa [Disk.byte, hf] at hj'
      have hlength : f.length = total := by
        refine le_antisymm (h.sound f hf).length_le ?_
        rcases Nat.eq_zero_or_pos total with rfl | hpos
        · exact Nat.zero_le _
        · have hlast := ((h.sound f hf).byte _ _ (hbyte (total - 1) (Nat.sub_lt hpos one_pos))).2
          omega
      refine ⟨h.sound, h.blob, h.written, ⟨f, hf, hlength, hbyte⟩, L, hL, hws, Nat.zero_le _, ?_⟩
      exact hdisk
    · simp [step, hdone] at hs
  | _ => simp [step] at hs

theorem inv_remove (hs : step total s .remove = some s') : Inv total s' := by
  obtain ⟨d, ph⟩ := s
  cases ph with
  | removing parts i =>
    obtain ⟨hfile, L, hL, hparts, hle, hdisk⟩ := h.phase
    have hlength : parts.length = L.length := by
      rw [← hparts.length_eq, slots, length_map]
    by_cases hi : i < parts.length
    · have hiL : i < L.length := hlength ▸ hi
      have hany : (d.parts.any fun p => decide (p.n = i)) = true := by
        have hmem : L[i] ∈ L.drop i := by
          rw [drop_eq_getElem_cons hiL]
          exact mem_cons_self
        obtain ⟨p, hp, hslot⟩ := mem_map.mp (hdisk.mem_iff.mpr hmem)
        refine any_eq_true.mpr ⟨p, hp, decide_eq_true ?_⟩
        exact (congrArg Slot.n hslot).trans (hL.n_getElem hiL)
      simp only [step, if_pos hi, hany, if_true, Option.some.injEq] at hs
      subst hs
      refine ⟨h.sound, h.blob, ?_, hfile, L, hL, hparts, hiL, ?_⟩
      · exact fun p hp => h.written p (mem_of_mem_filter hp)
      · rw [← hL.filter_drop hiL]
        refine List.Perm.trans (List.Perm.of_eq ?_) (hdisk.filter _)
        rw [slots, slots, filter_map]
        rfl
    · simp [step, hi] at hs
  | _ => simp [step] at hs

theorem inv_rename (hs : step total s .rename = some s') : Inv total s' := by
  obtain ⟨d, ph⟩ := s
  cases ph with
  | removing parts i =>
    obtain ⟨⟨f, hf, hcomplete⟩, L, hL, hparts, hle, hdisk⟩ := h.phase
    by_cases hi : i < parts.length
    · simp [step, hi] at hs
    simp only [step, if_neg hi, Option.some.injEq] at hs
    subst hs
    have hlength : parts.length = L.length := by
      rw [← hparts.length_eq, slots, length_map]
    have hnil : d.parts = [] := by
      rw [drop_eq_nil_of_le (by omega)] at hdisk
      exact eq_nil_of_slots hdisk.eq_nil
    refine ⟨fun g hg => (nomatch hg), fun g hg => ?_, fun p hp => ?_, Or.inl hnil⟩
    · rw [hf] at hg
      rw [← Option.some.inj hg]
      exact hcomplete
    · rw [hnil] at hp
      exact absurd hp not_mem_nil
  | _ => simp [step] at hs

theorem inv_interrupt (hallowed : Allowed s .interrupt)
    (hs : step total s .interrupt = some s') : Inv total s' := by
  obtain ⟨d, ph⟩ := s
  simp only [step, Option.some.injEq] at hs
  subst hs
  refine ⟨h.sound, h.blob, h.written, ?_⟩
  cases ph with
  | idle => exact h.phase
  | creating t size offset parts =>
    obtain ⟨rfl, hparts, hlayout, hle⟩ := h.phase
    rcases hallowed with hnil | hall
    · exact Or.inl (hparts.trans hnil)
    · obtain rfl := le_antisymm hle hall
      exact Or.inr ⟨_, hlayout, List.Perm.of_eq (congrArg slots hparts)⟩
  | prepared t parts =>
    obtain ⟨-, L, hL, hdisk, -⟩ := h.phase
    exact Or.inr ⟨L, hL, hdisk⟩
  | opened t parts =>
    obtain ⟨-, -, L, hL, hdisk, -⟩ := h.phase
    exact Or.inr ⟨L, hL, hdisk⟩
  | running ws =>
    obtain ⟨-, L, hL, hdisk, -⟩ := h.phase
    exact Or.inr ⟨L, hL, hdisk⟩
  | removing parts i =>
    obtain ⟨-, L, hL, hparts, -, hdisk⟩ := h.phase
    rcases hallowed with rfl | hall
    · exact Or.inr ⟨L, hL, hdisk⟩
    · refine Or.inl (eq_nil_of_slots ?_)
      have hlength : parts.length = L.length := by
        rw [← hparts.length_eq, slots, length_map]
      rw [drop_eq_nil_of_le (hlength ▸ hall)] at hdisk
      exact hdisk.eq_nil

/-- **Every step that is allowed keeps the invariant.** -/
theorem inv_step {op : Op} (hallowed : Allowed s op)
    (hs : step total s op = some s') : Inv total s' := by
  cases op with
  | glob => exact inv_glob h hs
  | newPart => exact inv_newPart h hs
  | ready => exact inv_ready h hs
  | openFile => exact inv_openFile h hs
  | truncate ok => exact inv_truncate h hs
  | write i k => exact inv_write h hs
  | add i => exact inv_add h hs
  | rollback i => exact inv_rollback h hs
  | writePart i => exact inv_writePart h hs
  | wait => exact inv_wait h hs
  | remove => exact inv_remove h hs
  | rename => exact inv_rename h hs
  | interrupt => exact inv_interrupt h hallowed hs

end

end Steps

/-! ## §5  Runs -/

/-- Nothing is downloaded yet. -/
def start : State := ⟨⟨[], none, none⟩, .idle⟩

/-- Attempts to download a blob of `contentLength` bytes. -/
def system (contentLength : ℕ) : System State Op where
  init s := s = start
  step s op s' := step contentLength s op = some s'

theorem inv_start (total : ℕ) : Inv total start where
  sound _ hf := nomatch hf
  blob _ hf := nomatch hf
  written _ hp := absurd hp not_mem_nil
  phase := Or.inl rfl

theorem inv_reachable {s : State}
    (h : ((system total).guard Allowed).Reachable s) : Inv total s := by
  refine h.invariant ?_ ?_
  · rintro s rfl
    exact inv_start total
  · rintro s op s' hinv ⟨hallowed, hs⟩
    exact inv_step hinv hallowed hs

/-- The parts that an attempt works with once they are prepared. -/
def State.parts (s : State) : Option (List Part) :=
  match s.phase with
  | .prepared _ parts => some parts
  | .opened _ parts => some parts
  | .running workers => some (workers.map Worker.toPart)
  | .removing parts _ => some parts
  | _ => none

/-- The parts that are worked with are disjoint and cover the blob, and a file that is renamed
to it has all its bytes, each written by a request for it. -/
structure Safe (total : ℕ) (s : State) : Prop where
  parts : ∀ ps, s.parts = some ps → Partition total (slots ps)
  rename : ∀ s', step total s .rename = some s' →
    ∃ f, s.disk.incomplete = some f ∧ s'.disk.blob = some f ∧ f.Complete total
  blob : ∀ f, s.disk.blob = some f → f.Complete total

theorem Inv.safe {s : State} (h : Inv total s) : Safe total s := by
  obtain ⟨d, ph⟩ := s
  refine ⟨fun ps hps => ?_, fun s' hs => ?_, h.blob⟩
  · cases ph with
    | idle => cases hps
    | creating => cases hps
    | prepared t parts =>
      obtain ⟨-, L, hL, -, hparts, -⟩ := h.phase
      cases hps
      exact hL.partition hparts
    | opened t parts =>
      obtain ⟨-, -, L, hL, -, hparts, -⟩ := h.phase
      cases hps
      exact hL.partition hparts
    | running ws =>
      obtain ⟨-, L, hL, -, hws, -⟩ := h.phase
      cases hps
      exact hL.partition hws
    | removing parts i =>
      obtain ⟨-, L, hL, hparts, -⟩ := h.phase
      cases hps
      exact hL.partition hparts
  · cases ph with
    | removing parts i =>
      obtain ⟨⟨f, hf, hcomplete⟩, -⟩ := h.phase
      by_cases hi : i < parts.length
      · simp [step, hi] at hs
      · simp only [step, if_neg hi, Option.some.injEq] at hs
        subst hs
        exact ⟨f, hf, hf, hcomplete⟩
    | _ => simp [step] at hs

/-- **Resumable downloads do not shrink a blob**, in runs where no attempt is interrupted between
its first and its last `newPart`, nor between the first and the last removal of a part. -/
theorem downloads_safe {total : ℕ} {s : State}
    (h : ((system total).guard Allowed).Reachable s) : Safe total s :=
  (inv_reachable h).safe

/-- One part, and an interruption after it is created. -/
theorem downloads_safe_resumed :
    Safe 250 ⟨⟨[⟨⟨0, 0, 250⟩, 0⟩], some .empty, none⟩, .opened 250 [⟨⟨0, 0, 250⟩, 0⟩]⟩ := by
  refine downloads_safe ?_
  have hglob : ((system 250).guard Allowed).Reachable
      ⟨start.disk, .creating 250 minDownloadPartSize 0 []⟩ :=
    .step (a := .glob) (.init rfl) ⟨trivial, rfl⟩
  have hpart : ((system 250).guard Allowed).Reachable
      ⟨⟨[⟨⟨0, 0, 250⟩, 0⟩], none, none⟩, .creating 250 250 250 [⟨⟨0, 0, 250⟩, 0⟩]⟩ :=
    .step (a := .newPart) hglob ⟨trivial, rfl⟩
  have hagain : ((system 250).guard Allowed).Reachable
      ⟨⟨[⟨⟨0, 0, 250⟩, 0⟩], none, none⟩, .prepared 250 [⟨⟨0, 0, 250⟩, 0⟩]⟩ :=
    .step (a := .glob) (.step (a := .interrupt) hpart ⟨Or.inr le_rfl, rfl⟩) ⟨trivial, rfl⟩
  exact .step (a := .openFile) hagain ⟨trivial, rfl⟩

def runOps (total : ℕ) : State → List Op → Option State
  | s, [] => some s
  | s, op :: ops => (step total s op).bind fun s' => runOps total s' ops

theorem reachable_of_runOps {s s' : State} {ops : List Op}
    (h : (system total).Reachable s) (hrun : runOps total s ops = some s') :
    (system total).Reachable s' := by
  induction ops generalizing s with
  | nil => exact Option.some.inj hrun ▸ h
  | cons op ops ih =>
    obtain ⟨t, ht, hrest⟩ := Option.bind_eq_some_iff.mp hrun
    exact ih (.step h ht) hrest

def firstPartOnly : List Op :=
  [.glob, .newPart, .interrupt, .glob, .openFile, .truncate true, .write 0 100000000, .add 0,
    .writePart 0, .wait, .remove, .rename]

theorem blob_shrinks : ¬ ∀ (total : ℕ) (s : State), (system total).Reachable s → Safe total s := by
  intro hall
  have hlength : ((runOps 250000000 start firstPartOnly).bind fun s => s.disk.blob).map
      File.length = some 100000000 := by
    decide +kernel
  obtain ⟨f, hf, hlen⟩ := Option.map_eq_some_iff.mp hlength
  obtain ⟨s, hs, hblob⟩ := Option.bind_eq_some_iff.mp hf
  have hsafe := hall 250000000 s (reachable_of_runOps (.init rfl) hs)
  have hcomplete := (hsafe.blob f hblob).length
  rw [hlen] at hcomplete
  exact absurd hcomplete (by decide)

end Ollama.Server.Download
