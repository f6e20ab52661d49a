import Ollama.Lib.Binary

/-!
# Reading a file through a buffer

`fs/util/bufioutil`, through which a model file is decoded, with `bufio.Reader` and `io.ReadFull`.
-/

namespace Ollama.Ggml

open Lib.Binary List

/-! ## §1  The file -/

inductive Whence
  | SeekStart | SeekCurrent | SeekEnd
deriving DecidableEq

/-- A file at `pos`. A read may be short: `most` limits the reads to come. -/
structure ReadSeeker where
  data : Bytes
  pos : ℕ
  most : ℕ → ℕ

/-- Where a seek from `pos` goes, in a file of `size` bytes; none before its start. -/
def seekTo (size pos : ℕ) (offset : ℤ) (whence : Whence) : Option ℕ :=
  let n := match whence with
    | .SeekStart => offset
    | .SeekCurrent => pos + offset
    | .SeekEnd => size + offset
  if n < 0 then none else some n.toNat

/-- `Read` of `k` bytes; none at the end of the file. -/
def ReadSeeker.Read (rs : ReadSeeker) (k : ℕ) : Bytes × ReadSeeker :=
  let p := (rs.data.drop rs.pos).take (min k (rs.most 0 + 1))
  (p, ⟨rs.data, rs.pos + p.length, fun i => rs.most (i + 1)⟩)

/-! ## §2  The buffer -/

/-- `buf` holds what was read from the file and not from the buffer, whose length is `size`. -/
structure BufferedSeeker where
  rs : ReadSeeker
  buf : Bytes
  size : ℕ

def NewBufferedSeeker (rs : ReadSeeker) (size : ℕ) : BufferedSeeker := ⟨rs, [], max size 16⟩

/-- `bufio.Reader.Read`, of one byte or more. -/
def BufferedSeeker.Read (b : BufferedSeeker) (k : ℕ) : Bytes × BufferedSeeker :=
  if b.buf = [] then
    if b.size ≤ k then
      let (p, rs) := b.rs.Read k
      (p, { b with rs })
    else
      let (p, rs) := b.rs.Read b.size
      (p.take k, { b with rs, buf := p.drop k })
  else (b.buf.take k, { b with buf := b.buf.drop k })

def BufferedSeeker.Seek (b : BufferedSeeker) (offset : ℤ) (whence : Whence) :
    Option ℕ × BufferedSeeker :=
  let offset := if whence = .SeekCurrent then offset - b.buf.length else offset
  match seekTo b.rs.data.length b.rs.pos offset whence with
  | none => (none, b)
  | some n => (some n, { b with rs := { b.rs with pos := n }, buf := [] })

/-- `io.ReadFull`, with as many turns as bytes. -/
def BufferedSeeker.readFull : ℕ → BufferedSeeker → ℕ → Bytes × BufferedSeeker
  | 0, b, _ => ([], b)
  | n + 1, b, k =>
      if k = 0 then ([], b)
      else
        match b.Read k with
        | ([], b) => ([], b)
        | (p, b) =>
            let (q, b) := readFull n b (k - p.length)
            (p ++ q, b)

/-! ## §3  What the reader sees -/

/-- The reader is at `pos`, however far the file has been read ahead. -/
structure BufferedSeeker.At (b : BufferedSeeker) (data : Bytes) (pos : ℕ) : Prop where
  file : b.rs.data = data
  ahead : b.rs.pos = pos + b.buf.length
  buf : b.buf <+: data.drop pos
  size : 0 < b.size

variable {b b' : BufferedSeeker} {data p q : Bytes} {pos k n : ℕ}

theorem drop_prefix_drop (h : q <+: data) (k : ℕ) : q.drop k <+: data.drop (q.take k).length := by
  obtain ⟨t, rfl⟩ := h
  have hdrop := @drop_left _ (q.take k) (q.drop k)
  rw [take_append_drop] at hdrop
  rw [drop_append_of_le_length (length_take_le' k q), hdrop]
  exact prefix_append _ t

theorem ReadSeeker.read_spec (rs : ReadSeeker) (hk : 0 < k) :
    (rs.Read k).1 <+: rs.data.drop rs.pos ∧ (rs.Read k).1.length ≤ k ∧
      ((rs.Read k).1 = [] → rs.data.drop rs.pos = []) := by
  refine ⟨List.take_prefix _ _, ?_, fun h => ?_⟩
  · exact (length_take_le _ _).trans (Nat.min_le_left _ _)
  · exact (take_eq_nil_iff.mp h).resolve_left (by omega)

/-- **A read** returns what the file has at the position, and something unless there is nothing. -/
theorem BufferedSeeker.At.read (h : b.At data pos) (hk : 0 < k) :
    (b.Read k).1 <+: data.drop pos ∧ (b.Read k).1.length ≤ k ∧
      ((b.Read k).1 = [] → data.drop pos = []) ∧ (b.Read k).2.At data (pos + (b.Read k).1.length) := by
  obtain ⟨rfl, hpos, hbuf, hsize⟩ := h
  unfold Read
  split_ifs with hnil hle
  · -- a large read, past the buffer
    obtain ⟨hread, hlen, hend⟩ := b.rs.read_spec hk
    rw [hnil, length_nil, add_zero] at hpos
    rw [hpos] at hread hend
    refine ⟨hread, hlen, hend, rfl, ?_, ?_, hsize⟩
    · rw [hnil, ← hpos]
      rfl
    · rw [hnil]
      exact nil_prefix
  · -- the buffer is filled
    obtain ⟨hread, -, hend⟩ := b.rs.read_spec hsize
    rw [hnil, length_nil, add_zero] at hpos
    rw [hpos] at hread hend
    refine ⟨(List.take_prefix _ _).trans hread, length_take_le _ _, fun h => ?_, rfl, ?_, ?_, hsize⟩
    · exact hend ((take_eq_nil_iff.mp h).resolve_left hk.ne')
    · rw [add_assoc, ← length_append, take_append_drop, ← hpos]
      rfl
    · rw [← drop_drop]
      exact drop_prefix_drop hread k
  · refine ⟨(List.take_prefix _ _).trans hbuf, length_take_le _ _, fun h => ?_, rfl, ?_, ?_, hsize⟩
    · exact absurd ((take_eq_nil_iff.mp h).resolve_left hk.ne') hnil
    · rw [add_assoc, ← length_append, take_append_drop, hpos]
    · rw [← drop_drop]
      exact drop_prefix_drop hbuf k

/-- **Reading in full** returns the bytes at the position, however short the reads are. -/
theorem BufferedSeeker.At.readFull (h : b.At data pos) (hn : k ≤ n) :
    (b.readFull n k).1 = (data.drop pos).take k ∧
      (b.readFull n k).2.At data (pos + ((data.drop pos).take k).length) := by
  induction n generalizing b pos k with
  | zero =>
    obtain rfl := Nat.le_zero.mp hn
    exact ⟨rfl, h⟩
  | succ n ih =>
    rw [BufferedSeeker.readFull]
    split_ifs with hk
    · rw [hk]
      exact ⟨rfl, h⟩
    obtain ⟨hread, hlen, hend, hat⟩ := h.read (Nat.pos_of_ne_zero hk)
    generalize b.Read k = r at hread hlen hend hat ⊢
    rcases r with ⟨_ | ⟨x, p⟩, b'⟩
    · rw [hend rfl, take_nil]
      exact ⟨rfl, hat⟩
    obtain ⟨hq, hat'⟩ := @ih b' _ (k - (x :: p).length) hat (by simp; omega)
    obtain ⟨t, ht⟩ := hread
    rw [← drop_drop, ← ht, drop_left] at hq hat'
    have htake : (x :: p) ++ t.take (k - (x :: p).length) = ((x :: p) ++ t).take k := by
      rw [@take_append _ (x :: p) t k, @take_of_length_le _ k (x :: p) hlen]
    rw [← ht, ← htake, length_append, ← add_assoc, ← hq]
    exact ⟨rfl, hq ▸ hat'⟩

theorem BufferedSeeker.At.seek (h : b.At data pos) (offset : ℤ) (whence : Whence) :
    (b.Seek offset whence).1 = seekTo data.length pos offset whence ∧
      (b.Seek offset whence).2.At data ((seekTo data.length pos offset whence).getD pos) := by
  obtain ⟨rfl, hpos, hbuf, hsize⟩ := h
  have hseek : seekTo b.rs.data.length b.rs.pos
      (if whence = .SeekCurrent then offset - b.buf.length else offset) whence =
        seekTo b.rs.data.length pos offset whence := by
    cases whence <;> simp [seekTo, hpos]
  unfold Seek
  dsimp only
  rw [hseek]
  cases seekTo b.rs.data.length pos offset whence with
  | none => exact ⟨rfl, rfl, hpos, hbuf, hsize⟩
  | some n => exact ⟨rfl, rfl, rfl, nil_prefix, hsize⟩

/-! ## §4  Runs -/

inductive ReadOp
  | readFull (k : ℕ)
  | seek (offset : ℤ) (whence : Whence)

/-- The bytes read, or where the seek went. -/
abbrev ReadResult := Bytes ⊕ Option ℕ

def BufferedSeeker.step (b : BufferedSeeker) : ReadOp → ReadResult × BufferedSeeker
  | .readFull k => ((.inl (b.readFull k k).1), (b.readFull k k).2)
  | .seek offset whence => (.inr (b.Seek offset whence).1, (b.Seek offset whence).2)

/-- The same on the bytes of the file and a position. -/
def fileStep (data : Bytes) (pos : ℕ) : ReadOp → ReadResult × ℕ
  | .readFull k => (.inl ((data.drop pos).take k), pos + ((data.drop pos).take k).length)
  | .seek offset whence =>
      let n := seekTo data.length pos offset whence
      (.inr n, n.getD pos)

/-- What the operations return, one after the other. -/
def results {σ : Type} (step : σ → ReadOp → ReadResult × σ) : σ → List ReadOp → List ReadResult
  | _, [] => []
  | s, op :: ops => (step s op).1 :: results step (step s op).2 ops

theorem BufferedSeeker.At.results (h : b.At data pos) (ops : List ReadOp) :
    results step b ops = Ggml.results (fileStep data) pos ops := by
  induction ops generalizing b pos with
  | nil => rfl
  | cons op ops ih =>
    rw [Ggml.results, Ggml.results]
    cases op with
    | readFull k =>
      obtain ⟨hread, hat⟩ := h.readFull (Nat.le_refl k)
      rw [step, fileStep, hread, ih hat]
    | seek offset whence =>
      obtain ⟨hseek, hat⟩ := h.seek offset whence
      rw [step, fileStep, hseek, ih hat]

/-- **The buffer is not visible**: in every run of reads and seeks, over every file and with reads
as short as the file makes them, the buffered reader returns what the file itself would. -/
theorem newBufferedSeeker_results (rs : ReadSeeker) (size : ℕ) (ops : List ReadOp) :
    results BufferedSeeker.step (NewBufferedSeeker rs size) ops =
      results (fileStep rs.data) rs.pos ops :=
  BufferedSeeker.At.results ⟨rfl, rfl, nil_prefix, by unfold NewBufferedSeeker; dsimp only; omega⟩ ops

end Ollama.Ggml
