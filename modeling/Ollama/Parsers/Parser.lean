import Ollama.Lib.Chunks
import Mathlib.Data.List.DropRight

/-!
# Stream parsers

What `model/parsers` shares: texts as lists of characters (a chunk is valid UTF-8, and
every tag is ASCII), white space, and the four values that `Add` returns.
-/

namespace Ollama.Parsers

open Lib List

/-- A Go string that is valid UTF-8. -/
abbrev Text := List Char

/-- The text of a Go error. -/
abbrev Error := String

/-! ## §1  White space -/

/-- `unicode.IsSpace` -/
def isSpace (r : Char) : Bool :=
  if r.toNat ≤ 0xff then
    (0x09 ≤ r.toNat && r.toNat ≤ 0x0d) || r.toNat == 0x20 || r.toNat == 0x85 || r.toNat == 0xa0
  else
    r.toNat == 0x1680 || (0x2000 ≤ r.toNat && r.toNat ≤ 0x200a) || r.toNat == 0x2028 ||
      r.toNat == 0x2029 || r.toNat == 0x202f || r.toNat == 0x205f || r.toNat == 0x3000

variable {s : Text}

theorem not_isSpace_of_all (h : s.all (fun r => !isSpace r) = true) : ∀ r ∈ s, isSpace r = false :=
  fun r hr => (Bool.not_eq_true' _).mp (all_eq_true.mp h r hr)

/-- `strings.TrimLeftFunc(s, unicode.IsSpace)` -/
def trimLeft (s : Text) : Text := s.dropWhile isSpace

/-- `strings.TrimRightFunc(s, unicode.IsSpace)` -/
def trimRight (s : Text) : Text := s.rdropWhile isSpace

/-- `strings.TrimSpace` -/
def trimSpace (s : Text) : Text := trimRight (trimLeft s)

def trailingWhitespaceLen (s : Text) : ℕ := (s.rtakeWhile isSpace).length

/-- The text with whitespace removed. -/
def visible (s : Text) : Text := s.filter fun r => !isSpace r

def Blank (s : Text) : Prop := ∀ r ∈ s, isSpace r = true

instance (s : Text) : Decidable (Blank s) := decidableBAll _ s

@[simp] theorem visible_nil : visible [] = [] := rfl

@[simp] theorem visible_append (s t : Text) : visible (s ++ t) = visible s ++ visible t :=
  filter_append ..

theorem visible_eq_nil : visible s = [] ↔ Blank s := by
  unfold visible Blank
  simp

theorem blank_takeWhile (s : Text) : Blank (s.takeWhile isSpace) := fun _ hr =>
  mem_takeWhile_imp hr

theorem trimLeft_spec (s : Text) : ∃ w, Blank w ∧ s = w ++ trimLeft s :=
  ⟨s.takeWhile isSpace, blank_takeWhile s, (takeWhile_append_dropWhile ..).symm⟩

theorem trimRight_append_rtakeWhile (s : Text) : trimRight s ++ s.rtakeWhile isSpace = s := by
  unfold trimRight rdropWhile rtakeWhile
  rw [← reverse_append, takeWhile_append_dropWhile, reverse_reverse]

theorem blank_rtakeWhile (s : Text) : Blank (s.rtakeWhile isSpace) := fun _ hr =>
  mem_rtakeWhile_imp hr

theorem trimRight_spec (s : Text) : ∃ w, Blank w ∧ s = trimRight s ++ w :=
  ⟨_, blank_rtakeWhile s, (trimRight_append_rtakeWhile s).symm⟩

@[simp] theorem visible_trimLeft (s : Text) : visible (trimLeft s) = visible s := by
  obtain ⟨w, hw, hs⟩ := trimLeft_spec s
  calc visible (trimLeft s)
      = visible w ++ visible (trimLeft s) := by rw [visible_eq_nil.mpr hw, nil_append]
    _ = visible s := by rw [← visible_append, ← hs]

@[simp] theorem visible_trimRight (s : Text) : visible (trimRight s) = visible s := by
  obtain ⟨w, hw, hs⟩ := trimRight_spec s
  calc visible (trimRight s)
      = visible (trimRight s) ++ visible w := by rw [visible_eq_nil.mpr hw, append_nil]
    _ = visible s := by rw [← visible_append, ← hs]

theorem trimLeft_length_le (s : Text) : (trimLeft s).length ≤ s.length :=
  (dropWhile_sublist _).length_le

theorem trimRight_append {w : Text} (h : ∀ r, w.getLast? = some r → isSpace r = false)
    (t : Text) : trimRight (w ++ t) = w ++ trimRight t := by
  induction t using reverseRecOn with
  | nil =>
    rw [append_nil]
    show w.rdropWhile isSpace = w ++ []
    rw [append_nil, rdropWhile_eq_self_iff]
    intro hne
    rw [h _ (getLast?_eq_some_getLast hne)]
    exact Bool.false_ne_true
  | append_singleton t r ih =>
    unfold trimRight at ih ⊢
    rw [← append_assoc]
    cases hr : isSpace r with
    | true => rw [rdropWhile_concat_pos _ _ _ hr, rdropWhile_concat_pos _ _ _ hr, ih]
    | false =>
      rw [rdropWhile_concat_neg _ _ _ (by rw [hr]; exact Bool.false_ne_true),
        rdropWhile_concat_neg _ _ _ (by rw [hr]; exact Bool.false_ne_true), append_assoc]

/-- Text that begins and ends with a visible rune is not trimmed. -/
theorem trimSpace_eq (hhead : ∀ r, s.head? = some r → isSpace r = false)
    (hlast : ∀ r, s.getLast? = some r → isSpace r = false) : trimSpace s = s := by
  have hleft : trimLeft s = s := by
    cases s with
    | nil => rfl
    | cons r s =>
      refine dropWhile_cons_of_neg ?_
      rw [hhead r rfl]
      exact Bool.false_ne_true
  have hright := trimRight_append hlast []
  rw [append_nil] at hright
  show trimRight (trimLeft s) = s
  rw [hleft, hright]
  exact append_nil s

/-- Text that is not trimmed begins with a visible rune. -/
theorem head_of_trimSpace (h : trimSpace s = s) : ∀ r, s.head? = some r → isSpace r = false := by
  intro r hr
  obtain ⟨t, rfl⟩ : ∃ t, s = r :: t := by
    cases s with
    | nil => cases hr
    | cons r' t => exact ⟨t, by rw [Option.some.inj hr]⟩
  by_contra hspace
  rw [Bool.not_eq_false] at hspace
  have hleft : (trimLeft (r :: t)).length ≤ t.length := by
    rw [trimLeft, dropWhile_cons_of_pos hspace]
    exact trimLeft_length_le t
  have hright : (trimSpace (r :: t)).length ≤ (trimLeft (r :: t)).length := by
    conv_rhs => rw [← trimRight_append_rtakeWhile (trimLeft (r :: t))]
    rw [length_append]
    exact Nat.le_add_right _ _
  rw [h, length_cons] at hright
  omega

theorem trimLeft_append_of_blank {w : Text} (hw : Blank w) (s : Text) :
    trimLeft (w ++ s) = trimLeft s := by
  induction w with
  | nil => rfl
  | cons r w ih =>
    have hr := hw r mem_cons_self
    show (r :: (w ++ s)).dropWhile isSpace = _
    rw [dropWhile_cons_of_pos hr]
    exact ih fun r' hr' => hw r' (mem_cons_of_mem r hr')

theorem trimLeft_append (s t : Text) : trimLeft (trimLeft s ++ t) = trimLeft (s ++ t) := by
  obtain ⟨w, hw, hs⟩ := trimLeft_spec s
  conv_rhs => rw [hs, append_assoc]
  exact (trimLeft_append_of_blank hw _).symm

theorem trimLeft_eq_nil : trimLeft s = [] ↔ Blank s := by
  unfold trimLeft Blank
  rw [dropWhile_eq_nil_iff]

theorem trimLeft_append_of_ne (h : trimLeft s ≠ []) (t : Text) :
    trimLeft (s ++ t) = trimLeft s ++ t := by
  unfold trimLeft at h ⊢
  rw [dropWhile_append, if_neg]
  rwa [List.isEmpty_iff]

theorem trimLeft_of_prefix {s u : Text} (h : s <+: u) (hu : trimLeft u = u) : trimLeft s = s := by
  cases s with
  | nil => rfl
  | cons r s =>
    obtain ⟨d, rfl⟩ := h
    refine dropWhile_cons_of_neg fun hr => ?_
    have hlen := congrArg length hu
    have hle := trimLeft_length_le (s ++ d)
    unfold trimLeft at hlen hle
    rw [cons_append, dropWhile_cons_of_pos hr, length_cons] at hlen
    omega

theorem trimLeft_trimLeft (s : Text) : trimLeft (trimLeft s) = trimLeft s :=
  dropWhile_idempotent isSpace s

theorem not_occurs_of_blank {w s tag : Text} (htag : Marked '<' tag) (hw : Blank w) {i : ℕ}
    (hi : i < w.length) : ¬Occurs tag (w ++ s) i := by
  intro ho
  have hc := ho.getElem? (k := 0) (length_pos_iff.mpr htag.ne_nil)
  rw [Nat.add_zero, htag.getElem?_zero, getElem?_append_left hi] at hc
  exact absurd (hw _ (mem_of_getElem? hc)) (by decide)

theorem cut_blank {w tag : Text} (htag : Marked '<' tag) (hw : Blank w) (t : Text) :
    cut (w ++ t) tag = (cut t tag).map fun p => (w ++ p.1, p.2) :=
  cut_prepend htag.ne_nil fun _ hi => not_occurs_of_blank htag hw hi

/-! ## §2  What is held back -/

/-- Where the ambiguous end of a buffer begins: the white space before the last
`overlapLen` characters, and these. -/
def ambiguousStart (s : Text) (overlapLen : ℕ) : ℕ :=
  s.length - overlapLen - trailingWhitespaceLen (s.take (s.length - overlapLen))

/-- The buffer is cut into what may be returned, white space and the last characters. -/
theorem ambiguousStart_spec {n : ℕ} (hn : n ≤ s.length) :
    ∃ w p, Blank w ∧ p.length = n ∧ p <:+ s ∧ s.drop (ambiguousStart s n) = w ++ p := by
  have hp : (s.drop (s.length - n)).length = n := by
    rw [length_drop]
    omega
  refine ⟨(s.take (s.length - n)).rtakeWhile isSpace, s.drop (s.length - n), blank_rtakeWhile _,
    hp, drop_suffix _ _, ?_⟩
  have hs : s = trimRight (s.take (s.length - n)) ++
      ((s.take (s.length - n)).rtakeWhile isSpace ++ s.drop (s.length - n)) := by
    rw [← append_assoc, trimRight_append_rtakeWhile, take_append_drop]
  have hlen : ambiguousStart s n = (trimRight (s.take (s.length - n))).length := by
    have h := congrArg length (trimRight_append_rtakeWhile (s.take (s.length - n)))
    rw [length_append, length_take] at h
    unfold ambiguousStart trailingWhitespaceLen
    omega
  rw [hlen]
  exact (congrArg (drop _) hs).trans drop_left

/-- What is held back is white space and the last characters; so these alone are seen. -/
theorem visible_ambiguousStart {n : ℕ} (hn : n ≤ s.length) :
    visible (s.take (ambiguousStart s n)) = visible (s.take (s.length - n)) ∧
      visible (s.drop (ambiguousStart s n)) = visible (s.drop (s.length - n)) := by
  obtain ⟨w, p, hw, hp, -, hdrop⟩ := ambiguousStart_spec hn
  have hs : s = s.take (ambiguousStart s n) ++ w ++ p := by
    rw [append_assoc, ← hdrop, take_append_drop]
  have hlen := congrArg length hs
  rw [length_append] at hlen
  generalize s.take (ambiguousStart s n) = d at *
  have hsub : s.length - n = (d ++ w).length := by omega
  rw [hdrop, hsub]
  constructor
  · rw [hs, take_left, visible_append, visible_eq_nil.mpr hw, append_nil]
  · rw [hs, drop_left, visible_append, visible_eq_nil.mpr hw, nil_append]

/-- White space in front does not change what is held back. -/
theorem overlap_blank {tag w : Text} (htag : Marked '<' tag) (hw : Blank w) (s : Text) :
    overlap (w ++ s) tag = overlap s tag := by
  have hback := (overlap_suffix s tag).trans (suffix_append w s)
  have hfront := overlap_suffix (w ++ s) tag
  refine Nat.le_antisymm ?_ (le_overlap (overlap_le_right _ _) hback)
  by_contra hlt
  rw [Nat.not_le] at hlt
  by_cases hle : overlap (w ++ s) tag ≤ s.length
  · have hsuf := suffix_of_suffix_length_le hfront (suffix_append w s)
      ((length_take_le _ _).trans hle)
    exact absurd (le_overlap (overlap_le_right _ _) hsuf) (Nat.not_le.mpr hlt)
  -- the partial tag would begin in the white space
  obtain ⟨d, hd⟩ := hfront
  have hpos : 0 < overlap (w ++ s) tag := by omega
  have hright := overlap_le_right (w ++ s) tag
  have hlen := congrArg length hd
  rw [length_append, length_append, length_take, Nat.min_eq_left hright] at hlen
  have hget : (w ++ s)[d.length]? = some '<' := by
    rw [← hd, getElem?_append_right (Nat.le_refl _), Nat.sub_self,
      getElem?_take_of_lt hpos, htag.getElem?_zero]
  rw [getElem?_append_left (by omega)] at hget
  exact absurd (hw _ (mem_of_getElem? hget)) (by decide)

/-! ## §3  Answers -/

/-- The values that `Add` returns. -/
structure Response (τ : Type) where
  content : Text
  thinking : Text
  calls : List τ
  err : Option Error
  deriving DecidableEq

namespace Response

variable {τ : Type}

/-- The empty answer. -/
def none : Response τ := ⟨[], [], [], Option.none⟩

/-- An answer and a later one. -/
instance : Append (Response τ) :=
  ⟨fun r r' => ⟨r.content ++ r'.content, r.thinking ++ r'.thinking, r.calls ++ r'.calls,
    r.err.or r'.err⟩⟩

def seen (r : Response τ) : Response τ := { r with content := visible r.content, thinking := visible r.thinking }

@[ext] theorem ext' {r r' : Response τ} (h₁ : r.content = r'.content)
    (h₂ : r.thinking = r'.thinking) (h₃ : r.calls = r'.calls) (h₄ : r.err = r'.err) : r = r' := by
  cases r
  cases r'
  cases h₁
  cases h₂
  cases h₃
  cases h₄
  rfl

variable (r r' : Response τ)

@[simp] theorem content_append :
    (r ++ r').content = r.content ++ r'.content := rfl

@[simp] theorem thinking_append :
    (r ++ r').thinking = r.thinking ++ r'.thinking := rfl

@[simp] theorem calls_append : (r ++ r').calls = r.calls ++ r'.calls := rfl

@[simp] theorem err_append : (r ++ r').err = r.err.or r'.err := rfl

@[simp] theorem none_append (r : Response τ) : none ++ r = r := rfl

@[simp] theorem append_none (r : Response τ) : r ++ none = r := by
  refine ext' (append_nil _) (append_nil _) (append_nil _) ?_
  cases h : r.err <;> simp [h, none]

theorem append_assoc (r r' r'' : Response τ) : r ++ r' ++ r'' = r ++ (r' ++ r'') :=
  ext' (List.append_assoc ..) (List.append_assoc ..) (List.append_assoc ..) (Option.or_assoc ..)

theorem seen_append : (r ++ r').seen = r.seen ++ r'.seen :=
  ext' (visible_append _ _) (visible_append _ _) rfl rfl

/-- All the answers of a run, one after the other. -/
def all (rs : List (Response τ)) : Response τ := rs.foldr (· ++ ·) none

@[simp] theorem all_nil : all ([] : List (Response τ)) = none := rfl

@[simp] theorem all_cons (r : Response τ) (rs : List (Response τ)) : all (r :: rs) = r ++ all rs := rfl

end Response

/-! ## §4  Runs of `Add` -/

variable {τ : Type} {σ : Type}

/-- The chunks passed to `Add` in order, the last call with `done`; an error ends the
response. -/
def stream (add : Text → Bool → σ → Response τ × σ) (p : σ) (chunks : List Text) :
    List (Response τ) × σ :=
  feed (fun p s done => add s done p) (fun r => r.err.isSome) p chunks

/-- What the client has in the end: everything returned, with whitespace removed. -/
def outcome (add : Text → Bool → σ → Response τ × σ) (p : σ) (chunks : List Text) : Response τ :=
  (Response.all (stream add p chunks).1).seen

end Ollama.Parsers
