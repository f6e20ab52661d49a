import Mathlib.Data.List.Sort
import Ollama.Lib.Patterns
import Ollama.Lib.Strconv

/-!
# Merging experts: model of `convert/tensor.go` and the converters that merge

`parseSafetensors`, `mergeTensors` and `Tensors` of `lfm2` and `mixtral`. Names are lists of
characters; the header of a file is a list with distinct keys.
-/

namespace Ollama.Convert

open Lib.Patterns List

-- membership in a list of texts is decided by their equality
local instance lawfulText : LawfulBEq (List Char) := List.instLawfulBEq

abbrev Name := List Char

/-! ## §1  Files -/

/-- `safetensorMetadata`, with the bytes between its offsets as `WriteTo` writes them. -/
structure Metadata where
  dtype : String
  shape : List ℕ
  data : List UInt8
deriving DecidableEq

/-- A file by its header. -/
abbrev File := List (Name × Metadata)

/-- `safetensor` -/
structure Tensor where
  name : Name
  dtype : String
  shape : List ℕ
  data : List UInt8
deriving DecidableEq

inductive ParseError where
  | unsupported
  | duplicate (name : Name)
deriving DecidableEq

/-- The tensors of one file in the order of their keys, `names` being those so far. -/
def parseKeys (replacer : Replacements) (names : List Name) : File → Except ParseError (List Tensor)
  | [] => .ok []
  | (key, value) :: rest =>
      if value.dtype = "" then parseKeys replacer names rest
      else if value.shape = [] then .error .unsupported
      else
        let ggufName := replace replacer key
        if ggufName ∈ names then .error (.duplicate ggufName)
        else do
          let ts ← parseKeys replacer (ggufName :: names) rest
          pure ({ name := ggufName, dtype := value.dtype, shape := value.shape,
                  data := value.data } :: ts)

/-- `slices.Sorted(maps.Keys(headers))` -/
def sortKeys (f : File) : File := f.insertionSort fun a b => a.1 ≤ b.1

/-- `parseSafetensors` -/
def parseSafetensors (replacer : Replacements) (files : List File) :
    Except ParseError (List Tensor) := do
  let ts ← files.mapM fun f => parseKeys replacer [] (sortKeys f)
  pure ts.flatten

/-! ## §2  Merging -/

/-- `merge`: a pattern and a name. -/
structure Merge where
  pattern : Name
  name : Name
deriving DecidableEq

/-- `ggml.Tensor`, with the tensors that its `WriterTo` writes. -/
structure Output where
  name : Name
  kind : ℕ
  shape : List ℕ
  writerTo : List Tensor
deriving DecidableEq

/-- `(mergeGroup).WriteTo` -/
def Output.written (o : Output) : List UInt8 := o.writerTo.flatMap Tensor.data

def slicesSplitFunc (s : List Tensor) (fn : Tensor → Bool) : List Tensor × List Tensor :=
  (s.filter fn, s.filter fun t => !fn t)

def Merge.matches (m : Merge) (t : Tensor) : Bool := pathMatch m.pattern t.name

/-- `mergeTensors`; `kind` is `Tensor.Kind`. -/
def mergeTensors (kind : Tensor → ℕ) : List Tensor → List Merge → List Output × List Tensor
  | unmatched, [] => ([], unmatched)
  | unmatched, m :: merges =>
      let (matched, unmatched) := slicesSplitFunc unmatched m.matches
      let (out, unmatched) := mergeTensors kind unmatched merges
      match matched with
      | [] => (out, unmatched)
      | t :: _ =>
          ({ name := m.name, kind := kind t, shape := matched.length :: t.shape,
             writerTo := matched } :: out, unmatched)

def Merge.output (kind : Tensor → ℕ) (m : Merge) : List Tensor → List Output
  | [] => []
  | t :: ts =>
      [{ name := m.name, kind := kind t, shape := (t :: ts).length :: t.shape,
         writerTo := t :: ts }]

theorem mergeTensors_cons (kind : Tensor → ℕ) (ts : List Tensor) (m : Merge)
    (merges : List Merge) : mergeTensors kind ts (m :: merges) =
      (m.output kind (ts.filter m.matches) ++
          (mergeTensors kind (ts.filter fun t => !m.matches t) merges).1,
        (mergeTensors kind (ts.filter fun t => !m.matches t) merges).2) := by
  rw [mergeTensors]
  simp only [slicesSplitFunc]
  cases ts.filter m.matches <;> rfl

theorem Merge.flatMap_output (kind : Tensor → ℕ) (m : Merge) (ts : List Tensor) :
    (m.output kind ts).flatMap Output.writerTo = ts := by
  cases ts with
  | nil => rfl
  | cons t ts => exact append_nil (t :: ts)

/-- **Every tensor is in one place** after merging. -/
theorem mergeTensors_perm (kind : Tensor → ℕ) (ts : List Tensor) (merges : List Merge) :
    ((mergeTensors kind ts merges).1.flatMap Output.writerTo ++
      (mergeTensors kind ts merges).2).Perm ts := by
  induction merges generalizing ts with
  | nil => exact List.Perm.refl ts
  | cons m merges ih =>
    rw [mergeTensors_cons, flatMap_append, m.flatMap_output, append_assoc]
    exact ((ih _).append_left _).trans (filter_append_perm m.matches ts)

/-- Merges that share no tensor take what they match. -/
theorem mergeTensors_eq {kind : Tensor → ℕ} {ts : List Tensor} {merges : List Merge}
    (h : merges.Pairwise fun m m' => ∀ t ∈ ts, m.matches t = true → m'.matches t = false) :
    (mergeTensors kind ts merges).1 =
      merges.flatMap fun m => m.output kind (ts.filter m.matches) := by
  induction merges generalizing ts with
  | nil => rfl
  | cons m merges ih =>
    rw [pairwise_cons] at h
    obtain ⟨hfirst, hrest⟩ := h
    have hih := @ih (ts.filter fun t => !m.matches t)
      (hrest.imp fun hmm t ht => hmm t (mem_of_mem_filter ht))
    rw [mergeTensors_cons, hih, flatMap_cons]
    -- the later merges match none of those that the first takes
    refine congrArg _ (flatMap_congr fun m' hm' => congrArg (m'.output kind) ?_)
    rw [filter_filter]
    refine filter_congr fun t ht => ?_
    cases hm : m.matches t with
    | false => exact Bool.and_true _
    | true => rw [hfirst m' hm' t ht hm, Bool.false_and]

/-! ## §3  The converters -/

/-- `%d` -/
def dec (n : ℕ) : Name := Nat.toDigits 10 n

inductive Arch where
  | lfm2
  | mixtral
deriving DecidableEq

/-- `Replacements` of `llama` -/
def llamaReplacements : Replacements :=
  [("lm_head", "output"), ("model.embed_tokens", "token_embd"), ("model.norm", "output_norm"),
    ("model.layers", "blk"), ("input_layernorm", "attn_norm"), ("self_attn.q_proj", "attn_q"),
    ("self_attn.k_proj", "attn_k"), ("self_attn.v_proj", "attn_v"),
    ("self_attn.o_proj", "attn_output"), ("mlp.gate_proj", "ffn_gate"),
    ("mlp.down_proj", "ffn_down"), ("mlp.up_proj", "ffn_up"),
    ("post_attention_layernorm", "ffn_norm")].map fun p => (p.1.toList, p.2.toList)

/-- `Replacements` -/
def Arch.replacements : Arch → Replacements
  | .lfm2 =>
      [("model.embed_tokens", "token_embd"), ("model.embedding_norm", "token_embd_norm"),
        ("model.layers", "blk"), ("operator_norm", "attn_norm"), ("self_attn.q_proj", "attn_q"),
        ("self_attn.k_proj", "attn_k"), ("self_attn.v_proj", "attn_v"),
        ("self_attn.out_proj", "attn_output"), ("self_attn.q_layernorm", "attn_q_norm"),
        ("self_attn.k_layernorm", "attn_k_norm"), ("conv.conv", "shortconv.conv"),
        ("conv.in_proj", "shortconv.in_proj"), ("conv.out_proj", "shortconv.out_proj"),
        ("feed_forward.gate", "ffn_gate_inp"), ("feed_forward.expert_bias", "exp_probs_b.bias"),
        ("feed_forward.w1", "ffn_gate"), ("feed_forward.w2", "ffn_down"),
        ("feed_forward.w3", "ffn_up"), ("ffn_norm", "ffn_norm")].map
          fun p => (p.1.toList, p.2.toList)
  | .mixtral =>
      llamaReplacements ++ [("model.layers", "blk"), ("block_sparse_moe.gate", "ffn_gate_inp"),
          ("block_sparse_moe.experts.", ".")].map fun p => (p.1.toList, p.2.toList)

/-- The merges of one layer. -/
def Arch.layerMerges (a : Arch) (i : ℕ) : List Merge :=
  let blk := "blk.".toList ++ dec i
  let merge (pattern name : String) : Merge := ⟨blk ++ pattern.toList, blk ++ name.toList⟩
  match a with
  | .lfm2 =>
      [merge ".feed_forward.experts.*.w1.weight" ".ffn_gate_exps.weight",
        merge ".feed_forward.experts.*.w2.weight" ".ffn_down_exps.weight",
        merge ".feed_forward.experts.*.w3.weight" ".ffn_up_exps.weight"]
  | .mixtral =>
      [merge ".*.w1.weight" ".ffn_gate_exps.weight", merge ".*.w1.bias" ".ffn_gate_exps.bias",
        merge ".*.w2.weight" ".ffn_up_exps.weight", merge ".*.w2.bias" ".ffn_up_exps.bias",
        merge ".*.w3.weight" ".ffn_down_exps.weight", merge ".*.w3.bias" ".ffn_down_exps.bias"]

/-- What is read of the configuration: the converter, `NumHiddenLayers`, and `NumDenseLayers`
of `lfm2`, which is a mixture of experts. -/
structure Config where
  arch : Arch
  layers : ℕ
  dense : ℕ
deriving DecidableEq

/-- The layers that are merged. -/
def Config.merged (c : Config) : List ℕ :=
  match c.arch with
  | .lfm2 => (List.range c.layers).filter fun i => !decide (i < c.dense)
  | .mixtral => List.range c.layers

def Config.merges (c : Config) : List Merge := c.merged.flatMap c.arch.layerMerges

/-- The shape of a tensor that is not merged: `lfm2` squeezes those of convolutions. -/
def Arch.squeeze (a : Arch) (t : Tensor) : List ℕ :=
  match a, t.shape with
  | .lfm2, [d, 1, k] => if "shortconv.conv.weight".toList <:+ t.name then [d, k] else [d, 1, k]
  | _, shape => shape

/-- `Tensors`: the merged ones and one for each of the others. -/
def Config.tensors (kind : Tensor → ℕ) (c : Config) (ts : List Tensor) :
    List Output × List Output :=
  let (merged, remaining) := mergeTensors kind ts c.merges
  (merged, remaining.map fun t =>
    { name := t.name, kind := kind t, shape := c.arch.squeeze t, writerTo := [t] })

end Ollama.Convert
