import Ollama.Convert.MergeTensors

/-!
# Experts: their names and the merges that take them

The tensors of experts in the files, their names after the replacements, and which pattern of
`lfm2Model.Tensors` and `mixtralModel.Tensors` matches which.
-/

namespace Ollama.Convert

open Lib.Patterns List

/-! ## §1  Numerals -/

theorem isDigit_of_mem_dec {n : ℕ} {c : Char} (h : c ∈ dec n) : c.isDigit = true :=
  Nat.isDigit_of_mem_toDigits (by decide) (by decide) h

theorem dec_inj {m n : ℕ} (h : dec m = dec n) : m = n := by
  have hvalue : Nat.ofDigitChars 10 (dec m) 0 = Nat.ofDigitChars 10 (dec n) 0 := by rw [h]
  rwa [dec, dec, Nat.ofDigitChars_ten_toDigits, Nat.ofDigitChars_ten_toDigits] at hvalue

theorem exists_dec (n : ℕ) : ∃ d s, dec n = d :: s ∧ d.isDigit = true := by
  cases h : dec n with
  | nil => exact absurd h Nat.toDigits_ne_nil
  | cons d s => exact ⟨d, s, rfl, isDigit_of_mem_dec (h ▸ mem_cons_self)⟩

theorem dot_notMem_dec (n : ℕ) : '.' ∉ dec n := fun h =>
  absurd (isDigit_of_mem_dec h) (by decide)

theorem slash_notMem_dec (n : ℕ) : '/' ∉ dec n := fun h =>
  absurd (isDigit_of_mem_dec h) (by decide)

theorem star_notMem_dec (n : ℕ) : '*' ∉ dec n := fun h =>
  absurd (isDigit_of_mem_dec h) (by decide)

theorem dot_lt_of_mem_dec {n : ℕ} {c : Char} (h : c ∈ dec n) : '.' < c := by
  have hdigit := isDigit_of_mem_dec h
  rw [Char.isDigit, Bool.and_eq_true, decide_eq_true_iff, decide_eq_true_iff] at hdigit
  exact lt_of_lt_of_le (by decide) hdigit.1

theorem dec_append_inj {m n : ℕ} {s t : Name} (h : dec m ++ '.' :: s = dec n ++ '.' :: t) :
    m = n ∧ s = t := by
  have hparts := append_cons_inj (dot_notMem_dec m) (dot_notMem_dec n) h
  exact ⟨dec_inj hparts.1, hparts.2⟩

theorem replace_append_dec {pairs : Replacements} {lit : Name} (hlit : settled pairs lit = true)
    (hpairs : (pairs.all fun p => clash p.1 []) = true) (n : ℕ) (s : Name) :
    replace pairs (lit ++ (dec n ++ s)) = replace pairs lit ++ (dec n ++ replace pairs s) := by
  rw [← replace_digits hpairs (fun _ hd => isDigit_of_mem_dec hd) s]
  obtain ⟨d, ds, hn, hd⟩ := exists_dec n
  rw [hn]
  exact replace_append_digit hlit hd (ds ++ s)

/-! ## §2  Names -/

inductive Weight where
  | w1
  | w2
  | w3
deriving DecidableEq

def weights : List Weight := [.w1, .w2, .w3]

theorem mem_weights (w : Weight) : w ∈ weights := by cases w <;> decide

instance {P : Weight → Prop} [DecidablePred P] : Decidable (∀ w, P w) :=
  decidable_of_iff (∀ w ∈ weights, P w) ⟨fun h w => h w (mem_weights w), fun h w _ => h w⟩

def Weight.text : Weight → Name
  | .w1 => ".w1.weight".toList
  | .w2 => ".w2.weight".toList
  | .w3 => ".w3.weight".toList

/-- The bias of the same, which only `mixtral` merges. -/
def Weight.bias : Weight → Name
  | .w1 => ".w1.bias".toList
  | .w2 => ".w2.bias".toList
  | .w3 => ".w3.bias".toList

def Arch.experts : Arch → Name
  | .lfm2 => ".feed_forward.experts.".toList
  | .mixtral => ".block_sparse_moe.experts.".toList

/-- The key of a weight of expert `e` of layer `l` in the files. -/
def Arch.key (a : Arch) (l e : ℕ) (w : Weight) : Name :=
  "model.layers.".toList ++ (dec l ++ (a.experts ++ (dec e ++ w.text)))

/-- The replacements leave `mixtral` two dots. -/
def Arch.ggufExperts : Arch → Name
  | .lfm2 => ".feed_forward.experts.".toList
  | .mixtral => "..".toList

def Arch.ggufName (a : Arch) (l e : ℕ) (w : Weight) : Name :=
  "blk.".toList ++ (dec l ++ (a.ggufExperts ++ (dec e ++ w.text)))

/-- What the kernel finds of the fixed texts of an architecture. -/
theorem Arch.texts_replaced (a : Arch) : (a.replacements.all fun p => clash p.1 []) = true ∧
      settled a.replacements "model.layers.".toList = true ∧
      settled a.replacements a.experts = true ∧
      replace a.replacements "model.layers.".toList = "blk.".toList ∧
      replace a.replacements a.experts = a.ggufExperts ∧ a.ggufExperts.head? = some '.' ∧
      ∀ w : Weight, replace a.replacements w.text = w.text := by
  cases a <;> decide +kernel

theorem replace_key (a : Arch) (l e : ℕ) (w : Weight) :
    replace a.replacements (a.key l e w) = a.ggufName l e w := by
  obtain ⟨hdigits, hlayers, hexperts, hblk, hgguf, -, htext⟩ := a.texts_replaced
  unfold Arch.key Arch.ggufName
  rw [replace_append_dec hlayers hdigits, replace_append_dec hexperts hdigits, hblk, hgguf, htext]

/-- No text of a weight ends in that of another one, nor in a bias. -/
theorem Weight.texts_differ : ∀ v w : Weight,
    (v.text <:+ w.text → v = w) ∧ ¬v.bias <:+ w.text ∧ ¬w.text <:+ v.bias ∧
      '*' ∉ v.text ∧ '*' ∉ v.bias ∧ v.text.head? = some '.' := by
  decide +kernel

theorem Weight.text_eq (w : Weight) : ∃ t, w.text = '.' :: t :=
  head?_eq_some_iff.mp (texts_differ w w).2.2.2.2.2

theorem Arch.ggufExperts_eq (a : Arch) : ∃ t, a.ggufExperts = '.' :: t :=
  head?_eq_some_iff.mp a.texts_replaced.2.2.2.2.2.1

variable {a : Arch} {l x y : ℕ} {w : Weight}

theorem Arch.ggufName_inj (h : a.ggufName l x w = a.ggufName l y w) : x = y := by
  obtain ⟨t, ht⟩ := w.text_eq
  rw [ggufName, ggufName, append_cancel_left_eq, append_cancel_left_eq,
    append_cancel_left_eq, ht] at h
  exact (dec_append_inj h).1

theorem Arch.key_inj (h : a.key l x w = a.key l y w) : x = y := by
  refine @ggufName_inj a l x y w ?_
  rw [← replace_key, ← replace_key, h]

theorem Arch.key_lt_iff : a.key l x w < a.key l y w ↔ dec x < dec y := by
  obtain ⟨t, ht⟩ := w.text_eq
  unfold key
  rw [append_lt_append_iff, append_lt_append_iff, append_lt_append_iff, ht]
  exact append_lt_of_end (fun _ h => dot_lt_of_mem_dec h) fun _ h => dot_lt_of_mem_dec h

/-! ## §3  Patterns -/

def Arch.patternExperts : Arch → Name
  | .lfm2 => ".feed_forward.experts.".toList
  | .mixtral => ".".toList

/-- A pattern of layer `l` that ends in `q`. -/
def Arch.pattern (a : Arch) (l : ℕ) (q : Name) : Name :=
  "blk.".toList ++ dec l ++ (a.patternExperts ++ '*' :: q)

theorem Weight.text_unique {q : Name} (hq : ∃ w : Weight, q = w.text ∨ q = w.bias)
    {s : Name} (htext : w.text <:+ s) (hend : q <:+ s) : q = w.text := by
  rcases hq with ⟨v, rfl | rfl⟩
  · rcases suffix_or_suffix_of_suffix hend htext with h | h
    · rw [(texts_differ v w).1 h]
    · rw [(texts_differ w v).1 h]
  · rcases suffix_or_suffix_of_suffix hend htext with h | h
    · exact absurd h (texts_differ v w).2.1
    · exact absurd h (texts_differ v w).2.2.1

theorem Weight.text_inj {v w : Weight} (h : v.text = w.text) : v = w :=
  (texts_differ v w).1 (h ▸ suffix_rfl)

theorem Weight.bias_ne_text (v w : Weight) : v.bias ≠ w.text := fun h =>
  (texts_differ v w).2.1 (h ▸ suffix_rfl)

theorem Arch.patterns_closed (a : Arch) : '*' ∉ "blk.".toList ∧ '*' ∉ a.patternExperts ∧
    a.patternExperts.head? = some '.' := by
  cases a <;> decide +kernel

/-- **A pattern matches the experts** of its own layer and weight. -/
theorem Arch.pathMatch_ggufName {l l' e : ℕ} {q : Name}
    (hq : ∃ v : Weight, q = v.text ∨ q = v.bias) :
    pathMatch (a.pattern l q) (a.ggufName l' e w) = true ↔ l = l' ∧ q = w.text := by
  have hpre : '*' ∉ "blk.".toList ++ dec l ++ a.patternExperts := by
    rw [mem_append, mem_append, not_or, not_or]
    exact ⟨⟨a.patterns_closed.1, star_notMem_dec l⟩, a.patterns_closed.2.1⟩
  have hpost : '*' ∉ q := by
    rcases hq with ⟨v, rfl | rfl⟩
    · exact (Weight.texts_differ v w).2.2.2.1
    · exact (Weight.texts_differ v w).2.2.2.2.1
  rw [pattern, ← append_assoc, pathMatch_star hpre hpost]
  constructor
  · rintro ⟨m, hname, -⟩
    have hend : q <:+ a.ggufName l' e w :=
      ⟨"blk.".toList ++ dec l ++ a.patternExperts ++ m, by rw [hname, append_assoc _ m]⟩
    have htext : w.text <:+ a.ggufName l' e w :=
      ⟨"blk.".toList ++ (dec l' ++ (a.ggufExperts ++ dec e)), by
        simp only [ggufName, append_assoc]⟩
    refine ⟨?_, Weight.text_unique hq htext hend⟩
    obtain ⟨t, ht⟩ := head?_eq_some_iff.mp a.patterns_closed.2.2
    obtain ⟨u, hu⟩ := a.ggufExperts_eq
    rw [ggufName, append_assoc, append_assoc, append_cancel_left_eq, ht, hu] at hname
    exact (dec_append_inj hname).1.symm
  · rintro ⟨rfl, rfl⟩
    cases a with
    | lfm2 =>
      refine ⟨dec e, ?_, slash_notMem_dec e⟩
      simp only [ggufName, append_assoc]
      rfl
    | mixtral =>
      refine ⟨'.' :: dec e, ?_, ?_⟩
      · simp only [ggufName, append_assoc]
        rfl
      · rw [mem_cons, not_or]
        exact ⟨by decide, slash_notMem_dec e⟩

/-! ## §4  The merges of a configuration -/

def Arch.exps : Arch → Weight → Name
  | _, .w1 => ".ffn_gate_exps.weight".toList
  | .lfm2, .w2 => ".ffn_down_exps.weight".toList
  | .lfm2, .w3 => ".ffn_up_exps.weight".toList
  | .mixtral, .w2 => ".ffn_up_exps.weight".toList
  | .mixtral, .w3 => ".ffn_down_exps.weight".toList

def Weight.expsBias : Weight → Name
  | .w1 => ".ffn_gate_exps.bias".toList
  | .w2 => ".ffn_up_exps.bias".toList
  | .w3 => ".ffn_down_exps.bias".toList

/-- The ends of the patterns of a layer and of their names. -/
def Arch.ends : Arch → List (Name × Name)
  | .lfm2 => weights.map fun w => (w.text, Arch.lfm2.exps w)
  | .mixtral => weights.flatMap fun w =>
      [(w.text, Arch.mixtral.exps w), (w.bias, w.expsBias)]

def Arch.mergeOf (a : Arch) (l : ℕ) (p : Name × Name) : Merge :=
  ⟨a.pattern l p.1, "blk.".toList ++ dec l ++ p.2⟩

theorem Arch.layerMerges_eq (a : Arch) (l : ℕ) : a.layerMerges l = a.ends.map (a.mergeOf l) := by
  cases a with
  | lfm2 =>
    rfl
  | mixtral =>
    rfl

theorem Arch.mem_ends {p : Name × Name} (h : p ∈ a.ends) :
    ∃ w : Weight, p = (w.text, a.exps w) ∨ p = (w.bias, w.expsBias) := by
  cases a with
  | lfm2 =>
    obtain ⟨w, -, rfl⟩ := mem_map.mp h
    exact ⟨w, Or.inl rfl⟩
  | mixtral =>
    obtain ⟨w, -, hw⟩ := mem_flatMap.mp h
    rw [mem_cons, mem_singleton] at hw
    exact ⟨w, hw⟩

theorem Arch.exps_mem_ends (a : Arch) (w : Weight) : (w.text, a.exps w) ∈ a.ends := by
  revert w
  cases a <;> decide +kernel

theorem Arch.flatMap_ends {β : Type} {g : Name × Name → List β}
    (h : ∀ w : Weight, (w.bias, w.expsBias) ∈ a.ends → g (w.bias, w.expsBias) = []) :
    a.ends.flatMap g = weights.flatMap fun w => g (w.text, a.exps w) := by
  cases a with
  | lfm2 => exact flatMap_map _ _ _
  | mixtral =>
    rw [ends, flatMap_assoc]
    refine flatMap_congr fun w hw => ?_
    have hbias : (w.bias, w.expsBias) ∈ Arch.mixtral.ends :=
      mem_flatMap.mpr ⟨w, hw, mem_cons_of_mem _ (mem_singleton_self _)⟩
    rw [flatMap_cons, flatMap_singleton, h w hbias, append_nil]

theorem Arch.ends_nodup (a : Arch) : a.ends.Pairwise fun p p' => p.1 ≠ p'.1 := by
  cases a <;> decide +kernel

theorem Arch.mergeOf_matches {l l' e : ℕ} {p : Name × Name} (hp : p ∈ a.ends)
    {t : Tensor} (ht : t.name = a.ggufName l' e w) :
    (a.mergeOf l p).matches t = true ↔ l = l' ∧ p.1 = w.text := by
  rw [Merge.matches, ht]
  refine pathMatch_ggufName ?_
  obtain ⟨w, rfl | rfl⟩ := mem_ends hp
  · exact ⟨w, Or.inl rfl⟩
  · exact ⟨w, Or.inr rfl⟩

theorem Config.mem_merges {c : Config} {m : Merge} :
    m ∈ c.merges ↔ ∃ l ∈ c.merged, ∃ p ∈ c.arch.ends, m = c.arch.mergeOf l p := by
  rw [merges, mem_flatMap]
  refine exists_congr fun l => and_congr_right fun _ => ?_
  rw [Arch.layerMerges_eq, mem_map]
  exact exists_congr fun p => and_congr_right fun _ => eq_comm

theorem Config.merged_nodup (c : Config) : c.merged.Nodup := by
  rw [merged]
  cases c.arch with
  | lfm2 => exact nodup_range.filter _
  | mixtral => exact nodup_range

def Config.Sorts (c : Config) (t : Tensor) : Prop :=
  (∃ l e w, t.name = c.arch.ggufName l e w) ∨ ∀ m ∈ c.merges, m.matches t = false

/-- **No tensor has two merges.** -/
theorem Config.merges_disjoint {c : Config} {ts : List Tensor} (hts : ∀ t ∈ ts, c.Sorts t) :
    c.merges.Pairwise fun m m' => ∀ t ∈ ts, m.matches t = true → m'.matches t = false := by
  have hne : ∀ {l l' p p'}, l ∈ c.merged → p ∈ c.arch.ends → p' ∈ c.arch.ends →
      (l = l' → p.1 ≠ p'.1) → ∀ t ∈ ts, (c.arch.mergeOf l p).matches t = true →
        (c.arch.mergeOf l' p').matches t = false := by
    intro l l' p p' hl hp hp' hdiff t ht hm
    rcases hts t ht with ⟨k, e, w, hname⟩ | hother
    · obtain ⟨rfl, hend⟩ := (Arch.mergeOf_matches hp hname).mp hm
      rw [← Bool.not_eq_true, Arch.mergeOf_matches hp' hname]
      rintro ⟨rfl, hend'⟩
      exact hdiff rfl (hend.trans hend'.symm)
    · rw [hother _ (mem_merges.mpr ⟨l, hl, p, hp, rfl⟩)] at hm
      cases hm
  rw [merges, pairwise_flatMap]
  constructor
  · intro l hl
    rw [Arch.layerMerges_eq, pairwise_map]
    exact c.arch.ends_nodup.imp_of_mem fun hp hp' hpp => hne hl hp hp' fun _ => hpp
  refine c.merged_nodup.imp_of_mem ?_
  intro l l' hl _ hll m hm m' hm'
  rw [Arch.layerMerges_eq, mem_map] at hm hm'
  obtain ⟨p, hp, rfl⟩ := hm
  obtain ⟨p', hp', rfl⟩ := hm'
  exact hne hl hp hp' fun h => absurd h hll

end Ollama.Convert
