import Mathlib
import Ollama.Lib.Binary
import Ollama.Lib.Listing
import Ollama.Names.Name

/-!
# The blob cache

`server/internal/cache/blob`. Digests are any type, `sum` hashes and `ParseDigest` reads one.
File operations succeed; a file system tells the cases of a name apart, and names are ASCII.
-/

namespace Ollama.Blob

open Lib Lib.Binary Model Names List

variable {Digest : Type} [DecidableEq Digest]

/-! ## §1  Copying -/

inductive Error
  | invalidName | notExist | invalidDigest | changedUnderfoot | exceedsSize | unexpectedEOF
  | sizeMismatch | read
  deriving DecidableEq

/-- What a reader returns, read by read, and whether it fails then. -/
structure Reader where
  chunks : List Bytes
  fails : Bool

def Reader.bytes (data : Bytes) : Reader := ⟨[data], false⟩

/-- A `checkWriter`: the bytes written, those hashed, and the file. -/
structure checkWriter where
  n : ℕ
  h : Bytes
  f : Bytes

/-- Writing `p` at offset `n` of a file. -/
def writeAt (f : Bytes) (n : ℕ) (p : Bytes) : Bytes := f.take n ++ (p ++ f.drop (n + p.length))

def checkWriter.Write (sum : Bytes → Digest) (d : Digest) (size : ℤ) (w : checkWriter)
    (p : Bytes) : Except Error checkWriter :=
  let nextSize : ℤ := w.n + p.length
  if nextSize = size ∧ sum (w.h ++ p) ≠ d then .error .changedUnderfoot
  else if size < nextSize then .error .exceedsSize
  else .ok ⟨w.n + p.length, w.h ++ p, writeAt w.f w.n p⟩

/-- `io.Copy`; a read of nothing is not written. -/
def ioCopy (sum : Bytes → Digest) (d : Digest) (size : ℤ) (fails : Bool) :
    List Bytes → checkWriter → Except Error checkWriter
  | [], w => if fails then .error .read else .ok w
  | p :: chunks, w =>
      if p = [] then ioCopy sum d size fails chunks w
      else
        match w.Write sum d size p with
        | .ok w => ioCopy sum d size fails chunks w
        | .error e => .error e

/-- `copyNamedFile`: the file before and after, and the error. -/
def copyNamedFile (sum : Bytes → Digest) (file : Option Bytes) (r : Reader) (out : Digest)
    (size : ℤ) : Bytes × Option Error :=
  match file with
  | some data =>
      -- a file of that size is good enough
      if (data.length : ℤ) = size then (data, none)
      else copyTo (if size < data.length then [] else data)
  | none => copyTo []
where
  copyTo (f : Bytes) : Bytes × Option Error :=
    if size = 0 then (f, none)
    else
      match ioCopy sum out size r.fails r.chunks ⟨0, [], f⟩ with
      | .ok w => if (w.n : ℤ) < size then ([], some .unexpectedEOF) else (w.f, none)
      | .error e => ([], some e)

/-! ## §2  Links -/

@[ext] structure DiskCache (Digest : Type) where
  blobs : Digest → Option Bytes
  /-- The files that match `manifests/*/*/*/*`. -/
  manifests : List (Str × Bytes)

/-- The names of `fs.Glob` are sorted in each directory. -/
def lexical (l r : Str) : Prop := l.splitOn '/' ≤ r.splitOn '/'

instance : DecidableRel lexical := fun l r =>
  inferInstanceAs (Decidable (l.splitOn '/' ≤ r.splitOn '/'))

def nameToPath (name : Str) : Option Str :=
  let n := Parse name
  if n.IsFullyQualified then some (Path.join [n.h, n.n, n.m, n.t]) else none

/-- The path of a link, in the directory of the cache. -/
def linkPath (name : Str) : Option Str :=
  (nameToPath name).map fun np => Path.join ["manifests".toList, np]

/-- The file of the first link that is `maybe` but for the case, or `maybe` itself. -/
def DiskCache.linkFile (c : DiskCache Digest) (maybe : Str) : Str :=
  match Listing.pick (equalFold maybe) c.manifests with
  | some (l, _) => l
  | none => maybe

def DiskCache.manifestPath (c : DiskCache Digest) (name : Str) : Except Error Str :=
  match linkPath name with
  | none => .error .invalidName
  | some maybe => .ok (c.linkFile maybe)

/-- The digest of a name `name@digest`. -/
def splitNameDigest (s : Str) : Str × Str :=
  match cutLast (· == '@') s with
  | none => (s, [])
  | some (name, _, digest) => (name, digest)

/-! ## §3  The operations -/

def DiskCache.setBlob (c : DiskCache Digest) (d : Digest) (data : Bytes) : DiskCache Digest :=
  { c with blobs := Function.update c.blobs d (some data) }

def DiskCache.setManifest (c : DiskCache Digest) (l : Str) (data : Bytes) : DiskCache Digest :=
  { c with manifests := Listing.write lexical c.manifests l data }

def DiskCache.Put (sum : Bytes → Digest) (c : DiskCache Digest) (d : Digest) (r : Reader)
    (size : ℤ) : Option Error × DiskCache Digest :=
  let (data, err) := copyNamedFile sum (c.blobs d) r d size
  (err, c.setBlob d data)

def DiskCache.PutBytes (sum : Bytes → Digest) (c : DiskCache Digest) (d : Digest) (data : Bytes) :
    Option Error × DiskCache Digest :=
  c.Put sum d (Reader.bytes data) data.length

def DiskCache.Import (sum : Bytes → Digest) (c : DiskCache Digest) (r : Reader) (size : ℤ) :
    Except Error Digest × DiskCache Digest :=
  let data := r.chunks.flatten
  if r.fails then (.error .read, c)
  else if (data.length : ℤ) ≠ size then (.error .sizeMismatch, c)
  else (.ok (sum data), c.setBlob (sum data) data)

/-- The reads of `io.Copy` from a file. -/
def readFile (data : Bytes) : Reader := ⟨data.toChunks (32 * 1024), false⟩

def DiskCache.Link (sum : Bytes → Digest) (c : DiskCache Digest) (name : Str) (d : Digest) :
    Option Error × DiskCache Digest :=
  match c.manifestPath name with
  | .error e => (some e, c)
  | .ok manifest =>
      match c.blobs d with
      | none => (some .notExist, c)
      | some blob =>
          let (data, err) := copyNamedFile sum (Listing.get c.manifests manifest) (readFile blob) d
            blob.length
          (err, c.setManifest manifest data)

/-- Whether a manifest was removed. -/
def DiskCache.Unlink (c : DiskCache Digest) (name : Str) : Except Error Bool × DiskCache Digest :=
  match c.manifestPath name with
  | .error e => (.error e, c)
  | .ok manifest =>
      match Listing.get c.manifests manifest with
      | none => (.ok false, c)
      | some _ => (.ok true, { c with manifests := Listing.remove c.manifests manifest })

/-- `readAndSum` of a file, with its limit. -/
def readAndSum (sum : Bytes → Digest) (data : Bytes) (limit : ℕ) : Bytes × Digest :=
  (data.take limit, sum (data.take limit))

def DiskCache.Resolve (sum : Bytes → Digest) (ParseDigest : Str → Option Digest)
    (c : DiskCache Digest) (name : Str) : Except Error Digest × DiskCache Digest :=
  let (name, digest) := splitNameDigest name
  if digest ≠ [] then
    match ParseDigest digest with
    | some d => (.ok d, c)
    | none => (.error .invalidDigest, c)
  else
    match c.manifestPath name with
    | .error e => (.error e, c)
    | .ok file =>
        match Listing.get c.manifests file with
        | none => (.error .notExist, c)
        | some manifest =>
            let (data, d) := readAndSum sum manifest (1 <<< 20)
            match c.PutBytes sum d data with
            | (some e, c) => (.error e, c)
            | (none, c) => (.ok d, c)

inductive Op (Digest : Type)
  | put (d : Digest) (r : Reader) (size : ℤ)
  | putBytes (d : Digest) (data : Bytes)
  | imp (r : Reader) (size : ℤ)
  | link (name : Str) (d : Digest)
  | unlink (name : Str)
  | resolve (name : Str)

def DiskCache.step (sum : Bytes → Digest) (ParseDigest : Str → Option Digest)
    (c : DiskCache Digest) : Op Digest → DiskCache Digest
  | .put d r size => (c.Put sum d r size).2
  | .putBytes d data => (c.PutBytes sum d data).2
  | .imp r size => (c.Import sum r size).2
  | .link name d => (c.Link sum name d).2
  | .unlink name => (c.Unlink name).2
  | .resolve name => (c.Resolve sum ParseDigest name).2

def DiskCache.run (sum : Bytes → Digest) (ParseDigest : Str → Option Digest)
    (c : DiskCache Digest) (ops : List (Op Digest)) : DiskCache Digest :=
  ops.foldl (DiskCache.step sum ParseDigest) c

/-! ## §4  What is copied -/

variable {sum : Bytes → Digest} {d : Digest} {size : ℤ}

theorem toChunks_go (n : ℕ) (xs : Bytes) (acc : Array (Fin 256)) (chunks : Array Bytes) :
    (List.toChunks.go n xs acc chunks).flatten = chunks.toList.flatten ++ (acc.toList ++ xs) := by
  induction xs generalizing acc chunks with
  | nil => simp [List.toChunks.go]
  | cons x xs ih =>
    rw [List.toChunks.go]
    split
    · rw [ih]
      simp
    · rw [ih]
      simp

theorem flatten_readFile (data : Bytes) : (readFile data).chunks.flatten = data := by
  cases data with
  | nil => rfl
  | cons x xs =>
    show (List.toChunks.go (32 * 1024) xs #[x] #[]).flatten = x :: xs
    rw [toChunks_go]
    rfl

/-- The rest of a file, over what it held, when `pre` was written. -/
def written (f pre : Bytes) : Bytes := pre ++ f.drop pre.length

theorem writeAt_written (f pre p : Bytes) :
    writeAt (written f pre) pre.length p = written f (pre ++ p) := by
  have hdrop : (pre ++ f.drop pre.length).drop (pre.length + p.length) =
      f.drop (pre ++ p).length := by
    rw [drop_append, drop_of_length_le (Nat.le_add_right _ _), nil_append,
      Nat.add_sub_cancel_left, drop_drop, length_append]
  unfold writeAt written
  rw [take_left, hdrop, append_assoc]

theorem ioCopy_nothing {chunks : List Bytes} (h : chunks.flatten = []) (w : checkWriter) :
    ioCopy sum d size false chunks w = .ok w := by
  induction chunks with
  | nil => rfl
  | cons p chunks ih =>
    rw [flatten_cons, append_eq_nil_iff] at h
    rw [ioCopy, if_pos h.1]
    exact ih h.2

/-- The bytes of a reader are copied when they have the size and the digest promised. -/
theorem ioCopy_exact {chunks : List Bytes} {f pre data : Bytes} (hdata : pre ++ chunks.flatten = data)
    (hsize : (data.length : ℤ) = size) (hne : chunks.flatten ≠ []) :
    ioCopy sum d size false chunks ⟨pre.length, pre, written f pre⟩ =
      if sum data = d then .ok ⟨data.length, data, written f data⟩
      else .error .changedUnderfoot := by
  induction chunks generalizing pre with
  | nil => exact absurd rfl hne
  | cons p chunks ih =>
    rw [flatten_cons] at hdata hne
    by_cases hp : p = []
    · rw [ioCopy, if_pos hp]
      rw [hp, nil_append] at hdata hne
      exact ih hdata hne
    rw [← append_assoc] at hdata
    have hlen : data.length = pre.length + p.length + chunks.flatten.length := by
      rw [← hdata, length_append, length_append]
    rw [ioCopy, if_neg hp]
    unfold checkWriter.Write
    simp only [writeAt_written]
    by_cases hrest : chunks.flatten = []
    · -- the last write, where the hash is checked
      rw [hrest, append_nil] at hdata
      rw [hrest, length_nil] at hlen
      have hlast : (pre.length : ℤ) + p.length = size := by omega
      rw [hdata]
      by_cases hsum : sum data = d
      · rw [if_neg (by rw [not_and, not_not]; exact fun _ => hsum), if_neg (by omega), if_pos hsum]
        simp only
        rw [ioCopy_nothing hrest, ← length_append, hdata]
      · rw [if_pos ⟨hlast, hsum⟩, if_neg hsum]
    · have hpos := length_pos_of_ne_nil hrest
      rw [if_neg (fun h => absurd h.1 (by omega)), if_neg (by omega)]
      rw [← length_append]
      exact ih hdata hrest

/-- A copy of the bytes that were promised: nothing is copied over a file of the same size, nor
are bytes with another digest. -/
theorem copyNamedFile_exact (file : Option Bytes) {r : Reader} {data : Bytes}
    (hdata : r.chunks.flatten = data) (hr : r.fails = false) :
    copyNamedFile sum file r d data.length =
      match file with
      | some old => if old.length = data.length then (old, none)
          else if data = [] ∨ sum data = d then (data, none) else ([], some .changedUnderfoot)
      | none => if data = [] ∨ sum data = d then (data, none) else ([], some .changedUnderfoot) := by
  have hcopy : ∀ f : Bytes, f.length ≤ data.length → copyNamedFile.copyTo sum r d data.length f =
        if data = [] ∨ sum data = d then (data, none) else ([], some .changedUnderfoot) := by
    intro f hf
    unfold copyNamedFile.copyTo
    by_cases hempty : data = []
    · rw [hempty, length_nil] at hf
      rw [if_pos (by rw [hempty]; rfl), if_pos (Or.inl hempty), hempty,
        eq_nil_of_length_eq_zero (Nat.le_zero.mp hf)]
    have hpos := length_pos_of_ne_nil hempty
    have hwritten : written f data = data := by
      unfold written
      rw [drop_of_length_le hf, append_nil]
    have hnil : ([] : Bytes) ++ r.chunks.flatten = data := hdata
    have hio : ioCopy sum d data.length false r.chunks ⟨0, [], f⟩ =
        if sum data = d then .ok ⟨data.length, data, written f data⟩
        else .error .changedUnderfoot :=
      ioCopy_exact (f := f) hnil rfl (by rwa [hdata])
    rw [if_neg (by omega), hr, hio, hwritten]
    by_cases hsum : sum data = d
    · rw [if_pos hsum, if_pos (Or.inr hsum)]
      exact if_neg (lt_irrefl _)
    · rw [if_neg hsum, if_neg (by rw [not_or]; exact ⟨hempty, hsum⟩)]
  unfold copyNamedFile
  cases file with
  | none => exact hcopy [] (Nat.zero_le _)
  | some old =>
    simp only [Nat.cast_inj]
    by_cases hlen : old.length = data.length
    · rw [if_pos hlen, if_pos hlen]
    · rw [if_neg hlen, if_neg hlen]
      split
      · exact hcopy [] (Nat.zero_le _)
      · exact hcopy old (by omega)

/-- `PutBytes` of the bytes of a digest returns no error. -/
theorem putBytes_ok (c : DiskCache Digest) {data : Bytes} (h : sum data = d) :
    (c.PutBytes sum d data).1 = none ∧ (c.PutBytes sum d data).2.manifests = c.manifests := by
  refine ⟨?_, rfl⟩
  unfold DiskCache.PutBytes DiskCache.Put
  have hflat : (Reader.bytes data).chunks.flatten = data := append_nil data
  rw [copyNamedFile_exact _ hflat rfl]
  cases c.blobs d with
  | none =>
    rw [if_pos (Or.inr h)]
  | some old =>
    simp only
    rw [if_pos (Or.inr h)]
    split <;> rfl

end Ollama.Blob
