import Ollama.Gguf.Lazy

/-!
# The order of reading does not matter

A lazy file is always at some place of one sequence: first its key-values are
pulled one after the other, then its tensors. Every step moves it forward, and
answers from what the whole file holds.
-/

namespace Ollama.Gguf

open Lib Lib.Binary List Reader Ggml Parsed

/-! ## §1  What is left to read -/

/-- The values are what is read next; `last` is left after them. -/
def Remaining {α : Type} (fn : Read α) : List α → Bytes → Bytes → Prop
  | [], input, last => input = last
  | a :: as, input, last => ∃ mid, fn input = .ok a mid ∧ Remaining fn as mid last

variable {α : Type} {fn : Read α}

/-- What is read at once can be read one by one. -/
theorem remaining_of_times : ∀ {n : ℕ} {as : List α} {input last : Bytes},
    times fn n input = .ok as last → as.length = n ∧ Remaining fn as input last := by
  intro n
  induction n with
  | zero =>
    intro as input last h
    cases h
    exact ⟨rfl, rfl⟩
  | succ n ih =>
    intro as input last h
    obtain ⟨a, mid, ha, h⟩ := bind_eq_ok.mp h
    obtain ⟨as', last', has, h⟩ := bind_eq_ok.mp h
    cases h
    obtain ⟨hlen, hrest⟩ := ih has
    exact ⟨by rw [length_cons, hlen], mid, ha, hrest⟩

variable {maxAlloc : ℕ}

/-- A file that is well formed: it can be read, the alignment is a `uint32`, and
the offsets of its tensors are within it. -/
structure WellFormedFile (maxAlloc : ℕ) (file : Bytes) (p : Parsed) (tail : Bytes) : Prop where
  parsed : parse maxAlloc file = .ok p tail
  size : file.length < 2 ^ 63
  alignment : ∀ kv, p.lookup alignmentKey = some kv → ∃ v, kv.value = .scalar .uint32 v
  offsets : ∀ t ∈ p.tensors, t.offset < file.length

structure Parts (maxAlloc size : ℕ) (p : Parsed) (mid last : Bytes) : Prop where
  tensors : Remaining (readTensor maxAlloc) p.tensors mid last
  infosEnd : p.infosEnd = size - last.length
  alignment : alignmentOf (p.lookup alignmentKey) = 32
  keyValues_lt : p.keyValues.length < 2 ^ 63
  tensors_lt : p.tensors.length < 2 ^ 63

/-! ## §2  Places -/

/-- A list of which the first values are pulled; at the last place the iterator has
returned. -/
def Lazy.at {α : Type} (as : List α) (i : ℕ) : Lazy α :=
  ⟨as.length, as.take i, decide (as.length < i)⟩

/-- The place after the next call of `next`. -/
def after {α : Type} (as : List α) (i : ℕ) : ℕ := if i ≤ as.length then i + 1 else i

/-- The file is at place `i` of its key-values and `j` of its tensors. -/
structure At (maxAlloc size : ℕ) (p : Parsed) (mid last : Bytes) (i j : ℕ) (f : LazyFile) :
    Prop where
  size : f.size = size
  keyValues : f.keyValues = Lazy.at p.keyValues i
  tensors : f.tensors = Lazy.at p.tensors j
  -- no tensor is read before the key-values are
  order : i ≤ p.keyValues.length → j = 0 ∧
    Remaining (readKeyValue maxAlloc) (p.keyValues.drop i) f.input mid
  input : p.keyValues.length < i → Remaining (readTensor maxAlloc) (p.tensors.drop j) f.input last
  offset : p.tensors.length < j → f.offset = p.infosEnd + padding p.infosEnd 32

variable {as : List α} {i : ℕ}

/-- One call of `next`. -/
theorem next_at {input last : Bytes}
    (hi : i ≤ as.length) (h : Remaining fn (as.drop i) input last) :
    ∃ input', (Lazy.at as i).next fn input =
        .ok ⟨as[i]?, Lazy.at as (i + 1), input', decide (i = as.length)⟩ ∧
      Remaining fn (as.drop (i + 1)) input' last ∧ (i = as.length → input' = input) := by
  unfold Lazy.next Lazy.at
  rw [if_neg (by rw [decide_eq_true_eq]; omega)]
  simp only [length_take]
  rcases Nat.lt_or_eq_of_le hi with hlt | heq
  · rw [drop_eq_getElem_cons hlt] at h
    obtain ⟨mid, hread, hrest⟩ := h
    refine ⟨mid, ?_, hrest, fun heq => absurd heq (Nat.ne_of_lt hlt)⟩
    rw [if_pos (by omega), hread]
    simp only
    rw [getElem?_eq_getElem hlt, take_append_getElem hlt,
      decide_eq_false (Nat.ne_of_lt hlt), decide_eq_false (by omega), decide_eq_false (by omega)]
  · rw [drop_of_length_le (by omega)] at h
    refine ⟨input, ?_, ?_, fun _ => rfl⟩
    · rw [if_neg (by omega), getElem?_eq_none (by omega), decide_eq_true heq,
        decide_eq_true (by omega), take_of_length_le (by omega),
        take_of_length_le (by omega)]
    · rw [drop_of_length_le (by omega)]
      exact h

theorem next_done (input : Bytes) (hi : as.length < i) :
    (Lazy.at as i).next fn input = .ok ⟨none, Lazy.at as i, input, false⟩ := by
  unfold Lazy.next Lazy.at
  rw [if_pos (decide_eq_true hi)]

theorem find_take_drop (as : List α) (i : ℕ) (q : α → Bool) :
    as.find? q = ((as.take i).find? q).or ((as.drop i).find? q) := by
  conv_lhs => rw [← take_append_drop i as]
  exact find?_append

/-! ## §3  Key-values -/

section Places

variable {size i j : ℕ} {p : Parsed} {mid last : Bytes} {f : LazyFile}
  (parts : Parts maxAlloc size p mid last)
include parts

theorem At.nextKeyValue (h : At maxAlloc size p mid last i j f) :
    ∃ f', nextKeyValue maxAlloc f = .ok (p.keyValues[i]?, f') ∧
      At maxAlloc size p mid last (after p.keyValues i) j f' := by
  unfold Gguf.nextKeyValue
  rw [h.keyValues]
  unfold after
  by_cases hi : i ≤ p.keyValues.length
  · obtain ⟨rfl, hrest⟩ := h.order hi
    obtain ⟨input', hnext, hrest', hsame⟩ := next_at hi hrest
    rw [if_pos hi, hnext]
    refine ⟨_, rfl, h.size, rfl, h.tensors, fun _ => ⟨rfl, hrest'⟩, fun hlt => ?_, h.offset⟩
    -- where the key-values end the tensors begin
    have heq : i = p.keyValues.length := by omega
    rw [drop_of_length_le (by omega)] at hrest
    have hmid : input' = mid := (hsame heq).trans hrest
    show Remaining (readTensor maxAlloc) (p.tensors.drop 0) input' last
    rw [hmid]
    exact parts.tensors
  · rw [if_neg hi, next_done f.input (by omega), getElem?_eq_none (by omega)]
    exact ⟨_, rfl, h.size, rfl, h.tensors, h.order, h.input, h.offset⟩

theorem At.pullKeyValue (key : Bytes) : ∀ (n : ℕ) {i : ℕ} {f : LazyFile},
    At maxAlloc size p mid last i j f → p.keyValues.length + 1 ≤ n + i →
      ∃ i' f', pullKeyValue maxAlloc key n f =
          .ok ((p.keyValues.drop i).find? fun kv => kv.key = key, f') ∧
        At maxAlloc size p mid last i' j f' ∧ i ≤ i' := by
  intro n
  induction n with
  | zero =>
    intro i f h hn
    rw [drop_of_length_le (by omega)]
    exact ⟨i, f, rfl, h, Nat.le_refl i⟩
  | succ n ih =>
    intro i f h hn
    obtain ⟨f', hnext, h'⟩ := h.nextKeyValue parts
    have hafter : i ≤ after p.keyValues i ∧
        (i ≤ p.keyValues.length → after p.keyValues i = i + 1) := by
      unfold after
      split <;> omega
    rcases Nat.lt_or_ge i p.keyValues.length with hlt | hge
    · rw [getElem?_eq_getElem hlt] at hnext
      rw [Gguf.pullKeyValue, hnext, drop_eq_getElem_cons hlt, find?_cons]
      simp only [Except.bind, bind, pure, Except.pure]
      by_cases hkey : p.keyValues[i].key = key
      · simp only [hkey, decide_true, if_true]
        exact ⟨_, f', rfl, h', hafter.1⟩
      · simp only [hkey, decide_false, if_false]
        rw [hafter.2 hlt.le] at h'
        obtain ⟨i', f'', hpull, h'', hle⟩ := ih h' (by omega)
        exact ⟨i', f'', hpull, h'', by omega⟩
    · rw [getElem?_eq_none hge] at hnext
      rw [Gguf.pullKeyValue, hnext, drop_of_length_le hge]
      exact ⟨_, f', rfl, h', hafter.1⟩

omit parts in
theorem left_at {α : Type} (as : List α) (i : ℕ) : as.length + 1 ≤ (Lazy.at as i).left + i := by
  unfold Lazy.left Lazy.at
  simp only [length_take]
  omega

theorem At.lookupKeyValue (h : At maxAlloc size p mid last i j f) (key : Bytes) :
    ∃ i' f', lookupKeyValue maxAlloc key f = .ok (p.lookup key, f') ∧
      At maxAlloc size p mid last i' j f' ∧ i ≤ i' := by
  unfold Gguf.lookupKeyValue Parsed.lookup
  rw [find_take_drop p.keyValues i]
  have hvalues : f.keyValues.values = p.keyValues.take i := by rw [h.keyValues]; rfl
  rw [hvalues]
  cases hfind : (p.keyValues.take i).find? fun kv => kv.key = key with
  | some kv => exact ⟨i, f, rfl, h, Nat.le_refl i⟩
  | none =>
    simp only [Option.none_or]
    refine h.pullKeyValue parts key _ ?_
    rw [h.keyValues]
    exact left_at _ _

theorem At.getKeyValue (h : At maxAlloc size p mid last i j f) (key : Bytes) :
    ∃ i' f', getKeyValue maxAlloc key f = .ok (p.keyValue key, f') ∧
      At maxAlloc size p mid last i' j f' ∧ i ≤ i' := by
  unfold Gguf.getKeyValue Parsed.keyValue
  split
  · exact h.lookupKeyValue parts key
  obtain ⟨i', f', harch, h', hle⟩ := h.lookupKeyValue parts architectureKey
  obtain ⟨i'', f'', hkey, h'', hle'⟩ := h'.lookupKeyValue parts
    (stringOf (p.lookup architectureKey) ++ ascii "." ++ key)
  refine ⟨i'', f'', ?_, h'', hle.trans hle'⟩
  rw [harch]
  exact hkey

theorem At.restKeyValues : ∀ (n : ℕ) {i : ℕ} {f : LazyFile},
    At maxAlloc size p mid last i j f → p.keyValues.length + 1 ≤ n + i →
      ∃ i' f', restKeyValues maxAlloc n f = .ok f' ∧ At maxAlloc size p mid last i' j f' ∧
        i ≤ i' ∧ p.keyValues.length < i' := by
  intro n
  induction n with
  | zero => exact fun h hn => ⟨_, _, rfl, h, Nat.le_refl _, by omega⟩
  | succ n ih =>
    intro i f h hn
    obtain ⟨f', hnext, h'⟩ := h.nextKeyValue parts
    rw [Gguf.restKeyValues, hnext]
    rcases Nat.lt_or_ge i p.keyValues.length with hlt | hge
    · rw [getElem?_eq_getElem hlt]
      unfold after at h'
      rw [if_pos hlt.le] at h'
      obtain ⟨i', f'', hrest, h'', hle, hdone⟩ := ih h' (by omega)
      exact ⟨i', f'', hrest, h'', by omega, hdone⟩
    rw [getElem?_eq_none hge]
    refine ⟨_, f', rfl, h', ?_, ?_⟩
    · unfold after
      split <;> omega
    · unfold after
      split <;> omega

end Places

/-! ## §4  Tensors -/

variable {p : Parsed}

/-- Once all key-values are pulled a lookup changes nothing. -/
theorem lookupKeyValue_done {f : LazyFile}
    (h : f.keyValues = Lazy.at p.keyValues i) (hi : p.keyValues.length < i) (key : Bytes) :
    lookupKeyValue maxAlloc key f = .ok (p.lookup key, f) := by
  have hvalues : f.keyValues.values = p.keyValues := by
    rw [h]
    exact take_of_length_le (by omega)
  unfold lookupKeyValue Parsed.lookup
  rw [hvalues]
  cases p.keyValues.find? fun kv => kv.key = key with
  | some kv => rfl
  | none =>
    have hnext : nextKeyValue maxAlloc f = .ok (none, f) := by
      unfold nextKeyValue
      rw [h, next_done f.input hi, ← h]
      rfl
    show pullKeyValue maxAlloc key (f.keyValues.count - f.keyValues.values.length + 1) f = _
    rw [pullKeyValue, hnext]
    rfl

theorem isGlobal_alignmentKey : isGlobal alignmentKey = true := by decide +kernel

section Places

variable {size i j : ℕ} {p : Parsed} {mid last : Bytes} {f : LazyFile}
  (parts : Parts maxAlloc size p mid last)
include parts

theorem successFunc_done (h : f.keyValues = Lazy.at p.keyValues i) (hi : p.keyValues.length < i)
    (hsize : f.size = size) (hinput : f.input = last) :
    successFunc maxAlloc f = .ok { f with offset := p.infosEnd + padding p.infosEnd 32 } := by
  have hpos : f.position = p.infosEnd := by
    rw [parts.infosEnd, LazyFile.position, hsize, hinput]
  unfold successFunc getKeyValue
  rw [isGlobal_alignmentKey, if_pos rfl, lookupKeyValue_done h hi, hpos]
  show Except.ok _ = _
  rw [parts.alignment]

theorem At.nextTensor (h : At maxAlloc size p mid last i j f) (hi : p.keyValues.length < i) :
    ∃ f', nextTensor maxAlloc f = .ok (p.tensors[j]?, f') ∧
      At maxAlloc size p mid last i (after p.tensors j) f' := by
  unfold Gguf.nextTensor
  rw [h.tensors]
  have hrest := h.input hi
  have horder : ∀ {g : LazyFile} {k : ℕ}, i ≤ p.keyValues.length → k = 0 ∧
      Remaining (readKeyValue maxAlloc) (p.keyValues.drop i) g.input mid := by
    intro g k hle
    omega
  unfold after
  by_cases hj : j ≤ p.tensors.length
  · obtain ⟨input', hnext, hrest', hsame⟩ := next_at hj hrest
    rw [if_pos hj, hnext]
    rcases Nat.lt_or_eq_of_le hj with hlt | heq
    · simp only [decide_eq_false (Nat.ne_of_lt hlt)]
      refine ⟨_, rfl, h.size, h.keyValues, rfl, horder, fun _ => hrest', fun hdone => ?_⟩
      omega
    -- the last call of `next` finds the end
    rw [drop_of_length_le (by omega)] at hrest
    have hinput : input' = last := (hsame heq).trans hrest
    simp only [decide_eq_true heq]
    have hsuccess := @successFunc_done _ size i p mid last
      { f with tensors := Lazy.at p.tensors (j + 1), input := input' } parts h.keyValues hi
      h.size hinput
    refine ⟨{ f with
      tensors := Lazy.at p.tensors (j + 1)
      input := input'
      offset := p.infosEnd + padding p.infosEnd 32 }, ?_, h.size, h.keyValues, rfl, horder,
      fun _ => hrest', fun _ => rfl⟩
    simp only [Except.bind, bind, pure, Except.pure, if_true]
    rw [hsuccess]
  · rw [if_neg hj, next_done f.input (by omega), getElem?_eq_none (by omega)]
    exact ⟨_, rfl, h.size, h.keyValues, rfl, h.order, h.input, h.offset⟩

theorem At.pullTensor (hi : p.keyValues.length < i) (name : Bytes) : ∀ (n : ℕ) {j : ℕ}
    {f : LazyFile}, At maxAlloc size p mid last i j f → p.tensors.length + 1 ≤ n + j →
      ∃ j' f', pullTensor maxAlloc name n f =
          .ok ((p.tensors.drop j).find? fun t => t.name = name, f') ∧
        At maxAlloc size p mid last i j' f' ∧ j ≤ j' := by
  intro n
  induction n with
  | zero =>
    intro j f h hn
    rw [drop_of_length_le (by omega)]
    exact ⟨j, f, rfl, h, Nat.le_refl j⟩
  | succ n ih =>
    intro j f h hn
    obtain ⟨f', hnext, h'⟩ := h.nextTensor parts hi
    have hafter : j ≤ after p.tensors j ∧ (j ≤ p.tensors.length → after p.tensors j = j + 1) := by
      unfold after
      split <;> omega
    rcases Nat.lt_or_ge j p.tensors.length with hlt | hge
    · rw [getElem?_eq_getElem hlt] at hnext
      rw [Gguf.pullTensor, hnext, drop_eq_getElem_cons hlt, find?_cons]
      simp only [Except.bind, bind, pure, Except.pure]
      by_cases hname : p.tensors[j].name = name
      · simp only [hname, decide_true, if_true]
        exact ⟨_, f', rfl, h', hafter.1⟩
      · simp only [hname, decide_false, if_false]
        rw [hafter.2 hlt.le] at h'
        obtain ⟨j', f'', hpull, h'', hle⟩ := ih h' (by omega)
        exact ⟨j', f'', hpull, h'', by omega⟩
    · rw [getElem?_eq_none hge] at hnext
      rw [Gguf.pullTensor, hnext, drop_of_length_le hge]
      exact ⟨_, f', rfl, h', hafter.1⟩

theorem At.restTensors (hi : p.keyValues.length < i) : ∀ (n : ℕ) {j : ℕ} {f : LazyFile},
    At maxAlloc size p mid last i j f → p.tensors.length + 1 ≤ n + j →
      ∃ j' f', restTensors maxAlloc n f = .ok f' ∧ At maxAlloc size p mid last i j' f' ∧
        j ≤ j' ∧ p.tensors.length < j' := by
  intro n
  induction n with
  | zero => exact fun h hn => ⟨_, _, rfl, h, Nat.le_refl _, by omega⟩
  | succ n ih =>
    intro j f h hn
    obtain ⟨f', hnext, h'⟩ := h.nextTensor parts hi
    rw [Gguf.restTensors, hnext]
    rcases Nat.lt_or_ge j p.tensors.length with hlt | hge
    · rw [getElem?_eq_getElem hlt]
      unfold after at h'
      rw [if_pos hlt.le] at h'
      obtain ⟨j', f'', hrest, h'', hle, hdone⟩ := ih h' (by omega)
      exact ⟨j', f'', hrest, h'', by omega, hdone⟩
    rw [getElem?_eq_none hge]
    refine ⟨_, f', rfl, h', ?_, ?_⟩
    · unfold after
      split <;> omega
    · unfold after
      split <;> omega

/-- A tensor that has been found among those pulled, or by pulling the others. -/
theorem At.tensorInfo (h : At maxAlloc size p mid last i j f) (name : Bytes) :
    ∃ i' j' f', tensorInfo maxAlloc name f = .ok ((p.tensor name).getD noTensor, f') ∧
      At maxAlloc size p mid last i' j' f' ∧ i ≤ i' ∧ j ≤ j' ∧ p.keyValues.length < i' := by
  unfold Gguf.tensorInfo tensor
  rw [find_take_drop p.tensors j]
  have hvalues : f.tensors.values = p.tensors.take j := by rw [h.tensors]; rfl
  rw [hvalues]
  cases hfind : (p.tensors.take j).find? fun t => t.name = name with
  | some t =>
    -- a tensor has been pulled, so all key-values have been
    refine ⟨i, j, f, rfl, h, Nat.le_refl i, Nat.le_refl j, ?_⟩
    by_contra hle
    rw [(h.order (by omega)).1] at hfind
    cases hfind
  | none =>
    simp only [Option.none_or]
    obtain ⟨i', f', hrest, h', hle, hi'⟩ := h.restKeyValues parts f.keyValues.left (by
      rw [h.keyValues]
      exact left_at _ _)
    obtain ⟨j', f'', hpull, h'', hle'⟩ := h'.pullTensor parts hi' name f'.tensors.left (by
      rw [h'.tensors]
      exact left_at _ _)
    refine ⟨i', j', f'', ?_, h'', hle, hle', hi'⟩
    rw [hrest]
    show (Gguf.pullTensor maxAlloc name f'.tensors.left f').bind _ = _
    rw [hpull]
    rfl

end Places

/-! ## §5  One step -/

namespace Parsed

variable (p : Parsed)

/-- What `TensorReader` returns: it takes the tensor without a name for one of the
file, and the alignment for 32. -/
def openedLazily (name : Bytes) : Opened :=
  let t := (p.tensor name).getD noTensor
  if numBytes t = 0 then .notFound
  else .section t (p.infosEnd + padding p.infosEnd 32 + toInt64 t.offset) (numBytes t)

def answerLazily (op : Op) (cursors : List Cursor) : Answer :=
  match op with
  | .tensorReader name => .opened (p.openedLazily name)
  | op => (p.step op cursors).1

def answersLazily : List Op → List Cursor → List Answer
  | [], _ => []
  | op :: ops, cursors => p.answerLazily op cursors :: answersLazily ops (p.step op cursors).2

end Parsed

def Cursor.Behind (p : Parsed) (i j : ℕ) (c : Cursor) : Prop :=
  match c.kind with
  | .keyValues => c.index ≤ i ∧ c.index ≤ p.keyValues.length
  | .tensors => p.keyValues.length < i ∧ c.index ≤ j ∧ c.index ≤ p.tensors.length

theorem Cursor.Behind.mono {i j i' j' : ℕ} {c : Cursor} (h : c.Behind p i j)
    (hi : i ≤ i') (hj : j ≤ j') : c.Behind p i' j' := by
  unfold Behind at h ⊢
  cases hk : c.kind with
  | keyValues =>
    rw [hk] at h
    exact ⟨h.1.trans hi, h.2⟩
  | tensors =>
    rw [hk] at h
    exact ⟨h.1.trans_le hi, h.2.1.trans hj, h.2.2⟩

/-- One turn of a loop: it yields what has been pulled, or pulls the next value. -/
theorem allAt_at {list : LazyFile → Lazy α} {i k : ℕ} {f : LazyFile}
    {next : LazyFile → Except Panic (Option α × LazyFile)} (hlist : list f = Lazy.at as i)
    (hlen : as.length < 2 ^ 63) (hk : k ≤ i) :
    allAt list next k f = if k < as.length ∧ k = i then next f else .ok (as[k]?, f) := by
  unfold allAt
  rw [hlist]
  have hcount : toInt64 (Lazy.at as i).count = as.length := toInt64_of_lt hlen
  have hvalues : (Lazy.at as i).values = as.take i := rfl
  rw [hcount, hvalues]
  by_cases hlt : k < as.length
  · rw [if_pos (by omega)]
    by_cases heq : k = i
    · rw [if_pos ⟨hlt, heq⟩, getElem?_eq_none (by rw [length_take]; omega)]
    · rw [if_neg fun h => heq h.2, getElem?_take_of_lt (by omega), getElem?_eq_getElem hlt]
  · rw [if_neg (by omega), if_neg fun h => hlt h.1, getElem?_eq_none (by omega)]

section Places

variable {size i j : ℕ} {p : Parsed} {mid last : Bytes} {f : LazyFile}
  (parts : Parts maxAlloc size p mid last)
include parts

theorem At.tensorReader (h : At maxAlloc size p mid last i j f) (name : Bytes) :
    ∃ i' j' f', tensorReader maxAlloc name f = .ok (p.openedLazily name, f') ∧
      At maxAlloc size p mid last i' j' f' ∧ i ≤ i' ∧ j ≤ j' := by
  obtain ⟨i', j', f', hinfo, h', hi, hj, hi'⟩ := h.tensorInfo parts name
  unfold Gguf.tensorReader openedLazily
  rw [hinfo]
  simp only [Except.bind, bind, pure, Except.pure]
  split
  · exact ⟨i', j', f', rfl, h', hi, hj⟩
  obtain ⟨j'', f'', hrest, h'', hj', hdone⟩ := h'.restTensors parts hi' f'.tensors.left (by
    rw [h'.tensors]
    exact left_at _ _)
  rw [hrest]
  refine ⟨i', j'', f'', ?_, h'', hi, hj.trans hj'⟩
  simp only
  rw [h''.offset hdone]

theorem At.iterate (h : At maxAlloc size p mid last i j f) {c : Cursor} (hc : c.Behind p i j) :
    ∃ i' j' f', iterate maxAlloc c f = .ok ((p.elements c.kind)[c.index]?, f') ∧
      At maxAlloc size p mid last i' j' f' ∧ i ≤ i' ∧ j ≤ j' ∧
      (c.index < (p.elements c.kind).length →
        Cursor.Behind p i' j' { c with index := c.index + 1 }) := by
  unfold Gguf.iterate
  unfold Cursor.Behind at hc ⊢
  cases hk : c.kind with
  | keyValues =>
    rw [hk] at hc
    obtain ⟨hci, hcn⟩ := hc
    simp only [elements, length_map, getElem?_map]
    rw [allAt_at h.keyValues parts.keyValues_lt hci]
    split
    · next hpull =>
      obtain ⟨hlt, heq⟩ := hpull
      obtain ⟨f', hnext, h'⟩ := h.nextKeyValue parts
      unfold after at h'
      rw [if_pos (by omega)] at h'
      rw [hnext, heq]
      exact ⟨i + 1, j, f', rfl, h', Nat.le_succ i, Nat.le_refl j, fun _ => ⟨by omega, by omega⟩⟩
    · exact ⟨i, j, f, rfl, h, Nat.le_refl i, Nat.le_refl j, fun _ => ⟨by omega, by omega⟩⟩
  | tensors =>
    rw [hk] at hc
    obtain ⟨hi, hcj, hcm⟩ := hc
    simp only [elements, length_map, getElem?_map]
    rw [allAt_at h.tensors parts.tensors_lt hcj]
    split
    · next hpull =>
      obtain ⟨hlt, heq⟩ := hpull
      obtain ⟨f', hnext, h'⟩ := h.nextTensor parts hi
      unfold after at h'
      rw [if_pos (by omega)] at h'
      rw [hnext, heq]
      exact ⟨i, j + 1, f', rfl, h', Nat.le_refl i, Nat.le_succ j, fun _ => ⟨hi, by omega, by omega⟩⟩
    · exact ⟨i, j, f, rfl, h, Nat.le_refl i, Nat.le_refl j, fun _ => ⟨hi, by omega, by omega⟩⟩

/-- **One step**: the file moves on, and the answer is that of the whole file. -/
theorem At.step (h : At maxAlloc size p mid last i j f) {cursors : List Cursor}
    (hc : ∀ c ∈ cursors, c.Behind p i j) (op : Op) :
    ∃ i' j' f', step maxAlloc op f cursors =
        .ok (p.answerLazily op cursors, f', (p.step op cursors).2) ∧
      At maxAlloc size p mid last i' j' f' ∧
      ∀ c ∈ (p.step op cursors).2, c.Behind p i' j' := by
  have hlater : ∀ {i' j'}, i ≤ i' → j ≤ j' → ∀ c ∈ cursors, c.Behind p i' j' :=
    fun hi hj c hmem => (hc c hmem).mono hi hj
  cases op with
  | keyValue key =>
    obtain ⟨i', f', hget, h', hi⟩ := h.getKeyValue parts key
    refine ⟨i', j, f', ?_, h', hlater hi (Nat.le_refl j)⟩
    rw [Gguf.step, hget]
    rfl
  | tensorInfo name =>
    obtain ⟨i', j', f', hinfo, h', hi, hj, _⟩ := h.tensorInfo parts name
    refine ⟨i', j', f', ?_, h', hlater hi hj⟩
    rw [Gguf.step, hinfo]
    rfl
  | tensorReader name =>
    obtain ⟨i', j', f', hreader, h', hi, hj⟩ := h.tensorReader parts name
    refine ⟨i', j', f', ?_, h', hlater hi hj⟩
    rw [Gguf.step, hreader]
    rfl
  | keyValues =>
    refine ⟨i, j, f, rfl, h, fun c hmem => ?_⟩
    rcases mem_append.mp hmem with hmem | hmem
    · exact hc c hmem
    · rw [mem_singleton.mp hmem]
      exact ⟨Nat.zero_le _, Nat.zero_le _⟩
  | tensorInfos =>
    obtain ⟨i', f', hrest, h', hi, hi'⟩ := h.restKeyValues parts f.keyValues.left (by
      rw [h.keyValues]
      exact left_at _ _)
    refine ⟨i', j, f', ?_, h', fun c hmem => ?_⟩
    · rw [Gguf.step, hrest]
      rfl
    · rcases mem_append.mp hmem with hmem | hmem
      · exact hlater hi (Nat.le_refl j) c hmem
      · rw [mem_singleton.mp hmem]
        exact ⟨hi', Nat.zero_le _, Nat.zero_le _⟩
  | advance loop =>
    simp only [Gguf.step, Parsed.answerLazily, Parsed.step]
    cases hloop : cursors[loop]? with
    | none => exact ⟨i, j, f, rfl, h, hc⟩
    | some c =>
      obtain ⟨i', j', f', hiter, h', hi, hj, hbehind⟩ :=
        h.iterate parts (hc c (mem_of_getElem? hloop))
      simp only
      rw [hiter]
      cases helement : (p.elements c.kind)[c.index]? with
      | none => exact ⟨i', j', f', rfl, h', hlater hi hj⟩
      | some e =>
        refine ⟨i', j', f', rfl, h', fun c' hmem => ?_⟩
        rcases mem_or_eq_of_mem_set hmem with hmem | rfl
        · exact hlater hi hj c' hmem
        · exact hbehind (List.getElem?_eq_some_iff.mp helement).1

end Places

/-! ## §6  Runs -/

theorem At.answers {size : ℕ} {mid last : Bytes}
    (parts : Parts maxAlloc size p mid last) : ∀ (ops : List Op) {i j : ℕ} {f : LazyFile}
    {cursors : List Cursor}, At maxAlloc size p mid last i j f → (∀ c ∈ cursors, c.Behind p i j) →
      answers maxAlloc ops f cursors = .ok (p.answersLazily ops cursors) := by
  intro ops
  induction ops with
  | nil => exact fun _ _ => rfl
  | cons op ops ih =>
    intro i j f cursors h hc
    obtain ⟨i', j', f', hstep, h', hc'⟩ := h.step parts hc op
    rw [Gguf.answers, hstep]
    show (Gguf.answers maxAlloc ops f' (p.step op cursors).2).bind _ = _
    rw [ih h' hc']
    rfl

theorem takes_readFull (n : ℕ) : Takes n (readFull n) := takes_take _ n

theorem takes_readUint (w : ℕ) : Takes w (readUint w) :=
  (takes_readFull w).bind fun _ => takes_pure _

theorem takes_makeSlice (size n : ℕ) : Takes 0 (makeSlice maxAlloc size n) := by
  unfold makeSlice
  split
  · exact takes_halt _ 0
  · exact takes_pure _

theorem takes_unsupported : Takes 0 (unsupported : Read α) := nofun

theorem takes_readString : Takes 8 (readString maxAlloc) := by
  refine Takes.bind (k := 0) (takes_readUint 8) fun n => ?_
  split
  · exact takes_halt _ 0
  · split
    · exact (takes_makeSlice 1 n).bind fun _ => (takes_readFull n).weaken (Nat.zero_le n)
    · exact (takes_readFull n).weaken (Nat.zero_le n)

theorem takes_read (t : Scalar) : Takes 0 (read t) :=
  ((takes_readUint t.size).bind fun _ => takes_pure _).weaken (Nat.zero_le _)

theorem takes_readArray : Takes 0 (readArray maxAlloc) := by
  refine Takes.weaken (Takes.bind (k := 0) (takes_readUint 4) fun t =>
    Takes.weaken (Takes.bind (k := 0) (takes_readUint 8) fun n => ?_)
      (Nat.zero_le _)) (Nat.zero_le _)
  split
  · next t _ =>
    exact (takes_makeSlice t.size n).bind fun _ =>
      (((takes_read t).times n).bind fun _ => takes_pure _).weaken (Nat.zero_le _)
  · split
    · exact (takes_makeSlice _ n).bind fun _ =>
        ((takes_readString.times n).bind fun _ => takes_pure _).weaken (Nat.zero_le _)
    · exact takes_unsupported

theorem takes_readValue (t : ℕ) : Takes 0 (readValue maxAlloc t) := by
  unfold readValue
  split
  · next t _ => exact (takes_read t).bind fun _ => takes_pure _
  split
  · exact (takes_readString.bind fun _ => takes_pure _).weaken (Nat.zero_le _)
  · split
    · exact takes_readArray
    · exact takes_unsupported

theorem takes_readKeyValue : Takes 8 (readKeyValue maxAlloc) := by
  refine Takes.bind (k := 0) takes_readString fun key => ?_
  refine Takes.weaken (Takes.bind (k := 0) (takes_readUint 4) fun t => ?_) (Nat.zero_le _)
  exact (takes_readValue t).bind fun _ => takes_pure _

theorem takes_readTensor : Takes 8 (readTensor maxAlloc) := by
  refine Takes.bind (k := 0) takes_readString fun name => ?_
  refine Takes.weaken (Takes.bind (k := 0) (takes_readUint 4) fun dims => ?_) (Nat.zero_le _)
  refine Takes.bind (k := 0) (takes_makeSlice 8 dims) fun _ => ?_
  exact (((takes_readUint 8).times dims).bind fun _ => (takes_readUint 4).bind fun _ =>
    (takes_readUint 8).bind fun _ => takes_pure _).weaken (Nat.zero_le _)

theorem WellFormedFile.alignmentOf {file tail : Bytes} (h : WellFormedFile maxAlloc file p tail) :
    alignmentOf (p.lookup alignmentKey) = 32 := by
  cases hkv : p.lookup alignmentKey with
  | none => rfl
  | some kv =>
    obtain ⟨v, hv⟩ := h.alignment kv hkv
    unfold Gguf.alignmentOf
    rw [Option.map_some, hv]
    rfl

/-- An open file is at the first place. -/
theorem WellFormedFile.opened {file tail : Bytes}
    (h : WellFormedFile maxAlloc file p tail) : ∃ f input mid last,
      openLazy file = .ok f input ∧ Parts maxAlloc file.length p mid last ∧
        At maxAlloc file.length p mid last 0 0 f := by
  have hparsed := h.parsed
  obtain ⟨magic, rest₁, hmagic, hparsed⟩ := bind_eq_ok.mp hparsed
  split at hparsed
  · cases hparsed
  rename_i hgguf
  obtain ⟨version, rest₂, hversion, hparsed⟩ := bind_eq_ok.mp hparsed
  split at hparsed
  · cases hparsed
  rename_i hnew
  obtain ⟨numTensor, rest₃, htensor, hparsed⟩ := bind_eq_ok.mp hparsed
  obtain ⟨numKV, rest₄, hkv, hparsed⟩ := bind_eq_ok.mp hparsed
  obtain ⟨keyValues, mid, hkvs, hparsed⟩ := bind_eq_ok.mp hparsed
  obtain ⟨tensors, last, hts, hparsed⟩ := bind_eq_ok.mp hparsed
  obtain ⟨infosEnd, last', htell, hparsed⟩ := bind_eq_ok.mp hparsed
  cases htell
  cases hparsed
  obtain ⟨hkvlen, hkvremaining⟩ := remaining_of_times hkvs
  obtain ⟨htlen, htremaining⟩ := remaining_of_times hts
  have hsmall : rest₄.length ≤ file.length := by
    have h₁ := takes_readFull 4 file magic rest₁ hmagic
    have h₂ := takes_readUint 4 rest₁ version rest₂ hversion
    have h₃ := takes_readUint 8 rest₂ numTensor rest₃ htensor
    have h₄ := takes_readUint 8 rest₃ numKV rest₄ hkv
    omega
  have hkvsmall := takes_readKeyValue.times numKV rest₄ keyValues mid hkvs
  have htsmall := takes_readTensor.times numTensor mid tensors _ hts
  have hsize := h.size
  refine ⟨⟨file.length, rest₄, ⟨numKV, [], false⟩, ⟨numTensor, [], false⟩, 0⟩, rest₄, mid, tail,
    ?_, ⟨htremaining, rfl, h.alignmentOf, ?_, ?_⟩, ⟨rfl, ?_, ?_, fun _ => ⟨rfl, hkvremaining⟩, ?_, ?_⟩⟩
  · unfold openLazy
    rw [bind_ok hmagic, if_neg (by
      rw [not_not.mp hgguf]
      decide), bind_ok hversion, if_neg hnew, bind_ok htensor, bind_ok hkv]
    rfl
  · show keyValues.length < 2 ^ 63
    omega
  · show tensors.length < 2 ^ 63
    omega
  · rw [← hkvlen]
    rfl
  · rw [← htlen]
    rfl
  · exact fun hlt => absurd hlt (Nat.not_lt_zero _)
  · exact fun hlt => absurd hlt (Nat.not_lt_zero _)

/-- What a loop yields in a run. -/
def yielded (loop : ℕ) (ops : List Op) (as : List Answer) : List (Element × ℕ) :=
  (ops.zip as).filterMap fun
    | (.advance l, .yielded i e) => if l = loop then some (e, i) else none
    | _ => none

def Parsed.ahead (p : Parsed) (c : Cursor) : List (Element × ℕ) :=
  (p.elements c.kind).zipIdx.drop c.index

theorem Parsed.ahead_cons {c : Cursor} {e : Element} (h : (p.elements c.kind)[c.index]? = some e) :
    p.ahead c = (e, c.index) :: p.ahead { c with index := c.index + 1 } := by
  obtain ⟨hlt, rfl⟩ := List.getElem?_eq_some_iff.mp h
  unfold ahead
  rw [drop_eq_getElem_cons (by rw [length_zipIdx]; exact hlt), getElem_zipIdx, Nat.zero_add]

theorem yielded_cons {loop l i : ℕ} {e : Element} {ops : List Op} {as : List Answer} :
    yielded loop (.advance l :: ops) (.yielded i e :: as) =
      if l = loop then (e, i) :: yielded loop ops as else yielded loop ops as := by
  unfold yielded
  rw [zip_cons_cons, filterMap_cons]
  by_cases h : l = loop
  · simp only [h, if_true]
  · simp only [h, if_false]

/-- A loop ends, or yields the element at its index. -/
theorem Parsed.step_advance (p : Parsed) (l : ℕ) (cursors : List Cursor) :
    p.step (.advance l) cursors = (.ended, cursors) ∨
      ∃ c e, cursors[l]? = some c ∧ (p.elements c.kind)[c.index]? = some e ∧
        p.step (.advance l) cursors = (.yielded c.index e, advanceAt cursors l c) := by
  cases hl : cursors[l]? with
  | none =>
    refine Or.inl ?_
    simp only [step, hl]
  | some c =>
    cases he : (p.elements c.kind)[c.index]? with
    | none =>
      refine Or.inl ?_
      simp only [step, hl, he]
    | some e =>
      refine Or.inr ⟨c, e, rfl, he, ?_⟩
      simp only [step, hl, he]

/-- A loop that has been started yields what is ahead of it. -/
theorem yielded_of_some (p : Parsed) {loop : ℕ} : ∀ (ops : List Op) {cursors : List Cursor}
    {c : Cursor}, cursors[loop]? = some c →
      yielded loop ops (p.answersLazily ops cursors) <+: p.ahead c := by
  intro ops
  induction ops with
  | nil => exact fun _ => List.nil_prefix
  | cons op ops ih =>
    intro cursors c hloop
    have hstarted : ∀ k : Kind, (cursors ++ [⟨k, 0⟩])[loop]? = some c := by
      intro k
      rw [getElem?_append_left (List.getElem?_eq_some_iff.mp hloop).1]
      exact hloop
    cases op with
    | keyValue key => exact ih hloop
    | tensorInfo name => exact ih hloop
    | tensorReader name => exact ih hloop
    | keyValues => exact ih (hstarted .keyValues)
    | tensorInfos => exact ih (hstarted .tensors)
    | advance l =>
      show yielded loop (.advance l :: ops) ((p.step (.advance l) cursors).1 ::
        p.answersLazily ops (p.step (.advance l) cursors).2) <+: _
      rcases p.step_advance l cursors with hstep | ⟨c', e, hl, he, hstep⟩
      · rw [hstep]
        exact ih hloop
      rw [hstep, yielded_cons]
      by_cases heq : l = loop
      · -- the loop's own element comes next
        subst heq
        obtain rfl := Option.some.inj (hloop.symm.trans hl)
        rw [if_pos rfl, ahead_cons he]
        refine (prefix_cons_inj _).mpr (ih ?_)
        exact getElem?_set_self (List.getElem?_eq_some_iff.mp hl).1
      · rw [if_neg heq]
        refine ih ?_
        exact (getElem?_set_ne heq).trans hloop

/-- **A loop yields the elements in file order**, each once. -/
theorem yielded_prefix (p : Parsed) (loop : ℕ) : ∀ (ops : List Op) {cursors : List Cursor},
    cursors[loop]? = none → ∃ kind, yielded loop ops (p.answersLazily ops cursors) <+:
      (p.elements kind).zipIdx := by
  intro ops
  induction ops with
  | nil => exact fun _ => ⟨.keyValues, List.nil_prefix⟩
  | cons op ops ih =>
    intro cursors hloop
    have hge := List.getElem?_eq_none_iff.mp hloop
    -- the loop may be the one that is started
    have hstarted : ∀ k : Kind, ∃ kind,
        yielded loop ops (p.answersLazily ops (cursors ++ [⟨k, 0⟩])) <+:
          (p.elements kind).zipIdx := by
      intro k
      rcases Nat.lt_or_eq_of_le hge with hlt | heq
      · refine ih (getElem?_eq_none ?_)
        rw [length_append, length_singleton]
        exact hlt
      · refine ⟨k, yielded_of_some p ops (c := ⟨k, 0⟩) ?_⟩
        rw [← heq, getElem?_concat_length]
    cases op with
    | keyValue key => exact ih hloop
    | tensorInfo name => exact ih hloop
    | tensorReader name => exact ih hloop
    | keyValues => exact hstarted .keyValues
    | tensorInfos => exact hstarted .tensors
    | advance l =>
      show ∃ kind, yielded loop (.advance l :: ops) ((p.step (.advance l) cursors).1 ::
        p.answersLazily ops (p.step (.advance l) cursors).2) <+: (p.elements kind).zipIdx
      rcases p.step_advance l cursors with hstep | ⟨c, e, hl, _, hstep⟩
      · rw [hstep]
        exact ih hloop
      have hne : l ≠ loop := by
        rintro rfl
        rw [hl] at hloop
        cases hloop
      rw [hstep, yielded_cons, if_neg hne]
      refine ih ?_
      exact (getElem?_set_ne hne).trans hloop

/-! ## §7  Where the answers differ -/

/-- A reader is asked for a tensor that the file has, and the data of the file
begins where it would with an alignment of 32. -/
def Parsed.Served (p : Parsed) : Op → Prop
  | .tensorReader name => ∃ t, p.tensor name = some t ∧
      (numBytes t = 0 ∨ padding p.infosEnd p.alignment = padding p.infosEnd 32)
  | _ => True

theorem numBytes_noTensor : numBytes noTensor ≠ 0 := by decide +kernel

theorem served_iff {name : Bytes} {t : Tensor} (ht : p.tensor name = some t) :
    p.Served (.tensorReader name) ↔
      numBytes t = 0 ∨ padding p.infosEnd p.alignment = padding p.infosEnd 32 := by
  constructor
  · rintro ⟨t', ht', h⟩
    rw [Option.some.inj (ht.symm.trans ht')]
    exact h
  · exact fun h => ⟨t, ht, h⟩

section

variable (h : ∀ t ∈ p.tensors, t.offset < 2 ^ 63)
include h

theorem openedLazily_eq_iff (name : Bytes) :
    p.openedLazily name = p.opened name ↔ p.Served (.tensorReader name) := by
  unfold openedLazily opened
  cases ht : p.tensor name with
  | none =>
    rw [Option.getD_none, if_neg numBytes_noTensor]
    refine iff_of_false nofun ?_
    rintro ⟨t, heq, _⟩
    rw [ht] at heq
    cases heq
  | some t =>
    have hoffset : toInt64 t.offset = t.offset := toInt64_of_lt (h t (mem_of_find?_eq_some ht))
    rw [served_iff ht]
    simp only [Option.getD_some, hoffset]
    by_cases hzero : numBytes t = 0
    · rw [if_pos hzero, if_pos hzero]
      exact iff_of_true rfl (Or.inl hzero)
    rw [if_neg hzero, if_neg hzero, or_iff_right hzero, Opened.section.injEq, dataOffset]
    constructor
    · rintro ⟨_, hstart, _⟩
      omega
    · intro hpadding
      rw [hpadding]
      exact ⟨rfl, rfl, rfl⟩

theorem answerLazily_eq_iff (op : Op)
    (cursors : List Cursor) : p.answerLazily op cursors = (p.step op cursors).1 ↔ p.Served op := by
  cases op with
  | tensorReader name =>
    rw [← openedLazily_eq_iff h]
    exact Answer.opened.injEq _ _ ▸ Iff.rfl
  | keyValue key => exact iff_of_true rfl trivial
  | tensorInfo name => exact iff_of_true rfl trivial
  | keyValues => exact iff_of_true rfl trivial
  | tensorInfos => exact iff_of_true rfl trivial
  | advance l => exact iff_of_true rfl trivial

theorem answersLazily_eq_iff :
    ∀ (ops : List Op) (cursors : List Cursor),
      p.answersLazily ops cursors = p.answers ops cursors ↔ ∀ op ∈ ops, p.Served op := by
  intro ops
  induction ops with
  | nil => exact fun _ => iff_of_true rfl fun _ hop => absurd hop not_mem_nil
  | cons op ops ih =>
    intro cursors
    rw [Parsed.answersLazily, Parsed.answers, List.cons.injEq, answerLazily_eq_iff h, ih,
      forall_mem_cons]

end

/-- **A lazy file answers as the whole file would, in every order of steps**, exactly
when every reader is asked for a tensor that the file has and its data begins at
a multiple of 32. Loops yield the elements in file order in any case. -/
theorem answers_eq_parsed_iff {file tail : Bytes} {p : Parsed}
    (h : WellFormedFile maxAlloc file p tail) (ops : List Op) : ∃ f input as,
      openLazy file = .ok f input ∧ answers maxAlloc ops f [] = .ok as ∧
        (as = p.answers ops [] ↔ ∀ op ∈ ops, p.Served op) ∧
        ∀ loop, ∃ kind, yielded loop ops as <+: (p.elements kind).zipIdx := by
  obtain ⟨f, input, mid, last, hopen, parts, hat⟩ := h.opened
  have hsmall : ∀ t ∈ p.tensors, t.offset < 2 ^ 63 := fun t ht => (h.offsets t ht).trans h.size
  refine ⟨f, input, p.answersLazily ops [], hopen, ?_, answersLazily_eq_iff hsmall ops [],
    fun loop => yielded_prefix p loop ops rfl⟩
  exact hat.answers parts ops fun c hc => absurd hc not_mem_nil

def alignedFile (alignment : ℕ) : Bytes :=
  ascii "GGUF" ++ toLE 4 3 ++ toLE 8 1 ++ toLE 8 1 ++
    (toLE 8 17 ++ alignmentKey ++ toLE 4 4 ++ toLE 4 alignment) ++
    (toLE 8 1 ++ ascii "t" ++ toLE 4 1 ++ toLE 8 4 ++ toLE 4 0 ++ toLE 8 0) ++
    List.replicate 54 0

def alignedParsed (alignment : ℕ) : Parsed where
  keyValues := [⟨alignmentKey, .scalar .uint32 (Scalar.uint32.ofBits alignment)⟩]
  tensors := [⟨ascii "t", 0, 0, [4]⟩]
  infosEnd := 90

theorem wellFormed_alignedFile {alignment : ℕ} (h : parse (2 ^ 48) (alignedFile alignment) =
    .ok (alignedParsed alignment) (List.replicate 54 0)) :
    WellFormedFile (2 ^ 48) (alignedFile alignment) (alignedParsed alignment)
      (List.replicate 54 0) := by
  have hlen : (alignedFile alignment).length = 144 := by
    rfl
  refine ⟨h, by rw [hlen]; decide, fun kv hkv => ?_, fun t ht => ?_⟩
  · rw [mem_singleton.mp (mem_of_find?_eq_some hkv)]
    exact ⟨_, rfl⟩
  · rw [mem_singleton.mp ht, hlen]
    decide

/-- Lookups, a reader and nested loops over a file with an alignment of 32. -/
theorem answers_eq_parsed_iff_aligned :
    let ops := [Op.keyValues, .advance 0, .tensorInfo (ascii "t"), .tensorInfos, .advance 1,
      .advance 0, .tensorReader (ascii "t"), .advance 1]
    ∃ f input as, openLazy (alignedFile 32) = .ok f input ∧
      answers (2 ^ 48) ops f [] = .ok as ∧ as = (alignedParsed 32).answers ops [] := by
  intro ops
  obtain ⟨f, input, as, hopen, hanswers, hiff, _⟩ := answers_eq_parsed_iff
    (wellFormed_alignedFile (by decide +kernel : parse (2 ^ 48) (alignedFile 32) = _)) ops
  refine ⟨f, input, as, hopen, hanswers, hiff.mpr fun op hop => ?_⟩
  have hserved : (alignedParsed 32).Served (.tensorReader (ascii "t")) :=
    ⟨⟨ascii "t", 0, 0, [4]⟩, by decide +kernel, Or.inr (by decide +kernel)⟩
  simp only [ops, mem_cons, not_mem_nil, or_false] at hop
  rcases hop with rfl | rfl | rfl | rfl | rfl | rfl | rfl | rfl
  · exact True.intro
  · exact True.intro
  · exact True.intro
  · exact True.intro
  · exact True.intro
  · exact True.intro
  · exact hserved
  · exact True.intro

/-- With an alignment of 64 the section of the tensor begins 32 bytes too early, and
there is one of four bytes for a tensor that the file does not have. -/
theorem sections_misplaced :
    let ops := [Op.tensorReader (ascii "t"), .tensorReader (ascii "x")]
    WellFormedFile (2 ^ 48) (alignedFile 64) (alignedParsed 64) (List.replicate 54 0) ∧
      (∃ f input, openLazy (alignedFile 64) = .ok f input ∧
        answers (2 ^ 48) ops f [] = .ok [.opened (.section ⟨ascii "t", 0, 0, [4]⟩ 96 16),
          .opened (.section noTensor 96 4)]) ∧
      (alignedParsed 64).answers ops [] =
        [.opened (.section ⟨ascii "t", 0, 0, [4]⟩ 128 16), .opened .notFound] := by
  intro ops
  have hfile := wellFormed_alignedFile (by decide +kernel : parse (2 ^ 48) (alignedFile 64) = _)
  obtain ⟨f, input, mid, last, hopen, parts, hat⟩ := hfile.opened
  refine ⟨hfile, ⟨f, input, hopen, ?_⟩, by decide +kernel⟩
  rw [hat.answers parts ops fun c hc => absurd hc not_mem_nil]
  have hlazy : (alignedParsed 64).answersLazily ops [] =
      [.opened (.section ⟨ascii "t", 0, 0, [4]⟩ 96 16), .opened (.section noTensor 96 4)] := by
    decide +kernel
  rw [hlazy]

end Ollama.Gguf
