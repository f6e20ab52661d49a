import Mathlib.Data.List.Basic

/-!
# Slash-separated paths

Cleaning and joining of paths.
-/

namespace Ollama.Lib.Path

open List

/-! ## §1  Definitions -/

/-- One component of a path that is cleaned; `out` has the last component first. -/
def push (rooted : Bool) (out : List (List Char)) (c : List Char) : List (List Char) :=
  if c = [] ∨ c = ['.'] then out
  else if c = ['.', '.'] then
    match out with
    | [] => if rooted then [] else [c]
    | top :: rest => if top = ['.', '.'] then c :: out else rest
  else c :: out

def clean (path : List Char) : List Char :=
  let rooted := path.head? == some '/'
  let joined := ['/'].intercalate (((path.splitOn '/').foldl (push rooted) []).reverse)
  if rooted then '/' :: joined else if joined = [] then ['.'] else joined

def join (elems : List (List Char)) : List Char :=
  match elems.dropWhile fun e => e = [] with
  | [] => []
  | elems => clean (['/'].intercalate elems)

/-! ## §2  Paths that are clean already -/

structure Plain (c : List Char) : Prop where
  ne_nil : c ≠ []
  ne_dot : c ≠ ['.']
  ne_dots : c ≠ ['.', '.']
  no_slash : '/' ∉ c

variable {cs : List (List Char)}

theorem foldl_push (h : ∀ c ∈ cs, Plain c) (rooted : Bool) (out : List (List Char)) :
    cs.foldl (push rooted) out = cs.reverse ++ out := by
  induction cs generalizing out with
  | nil => rfl
  | cons c cs ih =>
    obtain ⟨hc, hcs⟩ := forall_mem_cons.mp h
    have hpush : push rooted out c = c :: out := by
      unfold push
      rw [if_neg (by rintro (h | h); exacts [hc.ne_nil h, hc.ne_dot h]), if_neg hc.ne_dots]
    rw [foldl_cons, hpush, ih hcs, reverse_cons, append_assoc]
    rfl

theorem intercalate_cons_cons (c d : List Char) (cs : List (List Char)) :
    ['/'].intercalate (c :: d :: cs) = c ++ '/' :: ['/'].intercalate (d :: cs) := by
  simp

theorem head_intercalate (h : ∀ c ∈ cs, c ≠ [] ∧ '/' ∉ c) :
    (['/'].intercalate cs).head? ≠ some '/' := by
  rcases cs with _ | ⟨c, cs⟩
  · exact nofun
  obtain ⟨hne, hslash⟩ := h c mem_cons_self
  obtain ⟨x, s, rfl⟩ := exists_cons_of_ne_nil hne
  have hx : x ≠ '/' := fun heq => hslash (by rw [heq]; exact mem_cons_self)
  cases cs with
  | nil => simpa using hx
  | cons d cs =>
    simpa using hx

theorem intercalate_ne_nil (h : ∀ c ∈ cs, c ≠ []) (hne : cs ≠ []) : ['/'].intercalate cs ≠ [] := by
  obtain ⟨c, cs, rfl⟩ := exists_cons_of_ne_nil hne
  cases cs with
  | nil => simpa using h c mem_cons_self
  | cons d cs =>
    simp

theorem clean_intercalate (h : ∀ c ∈ cs, Plain c) (hne : cs ≠ []) :
    clean (['/'].intercalate cs) = ['/'].intercalate cs := by
  have hrooted : ((['/'].intercalate cs).head? == some '/') = false :=
    beq_eq_false_iff_ne.mpr (head_intercalate fun c hc => ⟨(h c hc).ne_nil, (h c hc).no_slash⟩)
  have hjoined := intercalate_ne_nil (fun c hc => (h c hc).ne_nil) hne
  unfold clean
  simp only [hrooted]
  rw [splitOn_intercalate '/' (fun c hc => (h c hc).no_slash) hne, foldl_push h,
    append_nil, reverse_reverse]
  simp only [Bool.false_eq_true, if_false, if_neg hjoined]

theorem join_plain (h : ∀ c ∈ cs, Plain c) (hne : cs ≠ []) : join cs = ['/'].intercalate cs := by
  obtain ⟨c, cs, rfl⟩ := exists_cons_of_ne_nil hne
  have hdrop : (c :: cs).dropWhile (fun e => e = []) = c :: cs :=
    dropWhile_cons_of_neg (by simpa using (h c mem_cons_self).ne_nil)
  unfold join
  rw [hdrop]
  exact clean_intercalate h hne

/-! ## §3  Joining what is joined -/

def Normal (rooted : Bool) : List (List Char) → Prop
  | [] => True
  | c :: out => c ≠ [] ∧ c ≠ ['.'] ∧ '/' ∉ c ∧
      (c = ['.', '.'] → rooted = false ∧ out.head?.all (· = ['.', '.'])) ∧ Normal rooted out

variable {rooted : Bool} {out : List (List Char)} {c path : List Char}

theorem Normal.push (h : Normal rooted out) (hc : '/' ∉ c) : Normal rooted (push rooted out c) := by
  unfold Path.push
  split
  · exact h
  rename_i hplain
  obtain ⟨hne, hdot⟩ := not_or.mp hplain
  split
  · next hdots =>
    cases out with
    | nil =>
      cases rooted with
      | true => exact h
      | false => exact ⟨hne, hdot, hc, fun _ => ⟨rfl, rfl⟩, h⟩
    | cons top rest =>
      simp only
      split
      · next htop =>
        obtain ⟨hrooted, -⟩ := h.2.2.2.1 htop
        exact ⟨hne, hdot, hc, fun _ => ⟨hrooted, by simpa using htop⟩, h⟩
      · exact h.2.2.2.2
  · next hdots => exact ⟨hne, hdot, hc, fun heq => absurd heq hdots, h⟩

/-- A component on top of those of a clean path is pushed. -/
theorem Normal.push_eq (h : Normal rooted (c :: out)) : Path.push rooted out c = c :: out := by
  obtain ⟨hne, hdot, -, hdots, -⟩ := h
  unfold Path.push
  rw [if_neg (not_or.mpr ⟨hne, hdot⟩)]
  split
  · next heq =>
    obtain ⟨hrooted, hall⟩ := hdots heq
    cases out with
    | nil => rw [hrooted]; rfl
    | cons top rest =>
      have htop : top = ['.', '.'] := by simpa using hall
      exact if_pos htop
  · rfl

theorem Normal.foldl (h : Normal rooted out) : out.reverse.foldl (Path.push rooted) [] = out := by
  induction out with
  | nil => rfl
  | cons c out ih =>
    rw [reverse_cons, foldl_append, ih h.2.2.2.2]
    exact h.push_eq

theorem Normal.mem (h : Normal rooted out) (hc : c ∈ out) : c ≠ [] ∧ '/' ∉ c := by
  induction out with
  | nil => cases hc
  | cons d out ih =>
    rcases mem_cons.mp hc with rfl | hc
    · exact ⟨h.1, h.2.2.1⟩
    · exact ih h.2.2.2.2 hc

theorem not_mem_of_splitOn (hc : c ∈ path.splitOn '/') : '/' ∉ c := by
  induction path generalizing c with
  | nil =>
    rw [splitOn_nil, mem_singleton] at hc
    rw [hc]
    exact nofun
  | cons x path ih =>
    rw [splitOn_cons_eq_if_modifyHead] at hc
    split at hc
    · rcases mem_cons.mp hc with rfl | hc
      · exact nofun
      · exact ih hc
    rename_i hx
    obtain ⟨d, ds, hsplit⟩ := exists_cons_of_ne_nil (splitOn_ne_nil '/' path)
    rw [hsplit, modifyHead_cons] at hc
    rcases mem_cons.mp hc with rfl | hc
    · rw [mem_cons, not_or]
      refine ⟨fun heq => hx (beq_iff_eq.mpr heq.symm), ih ?_⟩
      rw [hsplit]
      exact mem_cons_self
    · exact ih (by rw [hsplit]; exact mem_cons_of_mem _ hc)

theorem normal_foldl (h : Normal rooted out) (hcs : ∀ c ∈ cs, '/' ∉ c) :
    Normal rooted (cs.foldl (Path.push rooted) out) := by
  induction cs generalizing out with
  | nil => exact h
  | cons c cs ih =>
    obtain ⟨hc, hcs⟩ := forall_mem_cons.mp hcs
    exact ih (h.push hc) hcs

/-- What a path is after cleaning: rooted as before, with the same components. -/
theorem clean_spec (path : List Char) : (clean path).head? = some '/' ∧ path.head? = some '/' ∧
    ((clean path).splitOn '/').foldl (push true) [] = (path.splitOn '/').foldl (push true) [] ∨
    (clean path).head? ≠ some '/' ∧ path.head? ≠ some '/' ∧
    ((clean path).splitOn '/').foldl (push false) [] = (path.splitOn '/').foldl (push false) [] := by
  have hnormal : ∀ rooted, Normal rooted ((path.splitOn '/').foldl (push rooted) []) :=
    fun rooted => normal_foldl trivial fun c => not_mem_of_splitOn
  have hsplit : ∀ rooted out, Normal rooted out → out ≠ [] →
      ((['/'].intercalate out.reverse).splitOn '/') = out.reverse := by
    intro rooted out hout hne
    refine splitOn_intercalate '/' (fun c hc => ?_) (by simpa using hne)
    exact (hout.mem (mem_reverse.mp hc)).2
  by_cases hroot : path.head? = some '/'
  · left
    have hclean : clean path =
        '/' :: ['/'].intercalate ((path.splitOn '/').foldl (push true) []).reverse := by
      unfold clean
      rw [beq_iff_eq.mpr hroot]
      rfl
    refine ⟨by rw [hclean]; rfl, hroot, ?_⟩
    generalize hout : (path.splitOn '/').foldl (push true) [] = out at hclean
    have hn : Normal true out := by rw [← hout]; exact hnormal true
    rw [hclean, splitOn_cons_eq_if_modifyHead, if_pos (beq_self_eq_true '/')]
    by_cases hempty : out = []
    · rw [hempty]
      rfl
    · rw [hsplit true out hn hempty, foldl_cons]
      exact hn.foldl
  · right
    have hclean : clean path =
        if ['/'].intercalate ((path.splitOn '/').foldl (push false) []).reverse = [] then ['.']
        else ['/'].intercalate ((path.splitOn '/').foldl (push false) []).reverse := by
      unfold clean
      rw [beq_eq_false_iff_ne.mpr hroot]
      rfl
    generalize hout : (path.splitOn '/').foldl (push false) [] = out at hclean
    have hn : Normal false out := by rw [← hout]; exact hnormal false
    by_cases hempty : out = []
    · rw [hclean, hempty]
      exact ⟨by decide, hroot, rfl⟩
    · have hmem : ∀ c ∈ out.reverse, c ≠ [] ∧ '/' ∉ c := fun c hc => hn.mem (mem_reverse.mp hc)
      have hjoined := intercalate_ne_nil (fun c hc => (hmem c hc).1) (by simpa using hempty)
      rw [if_neg hjoined] at hclean
      rw [hclean, hsplit false out hn hempty]
      exact ⟨head_intercalate hmem, hroot, hn.foldl⟩

theorem clean_ne_nil (path : List Char) : clean path ≠ [] := by
  rcases clean_spec path with ⟨hhead, -⟩ | ⟨-, hhead, -⟩
  · intro hnil
    rw [hnil] at hhead
    cases hhead
  unfold clean
  rw [beq_eq_false_iff_ne.mpr hhead]
  simp only [Bool.false_eq_true, if_false]
  split
  · exact cons_ne_nil _ _
  · assumption

theorem clean_congr {p q : List Char} (hp : (p.head? == some '/') = rooted)
    (hq : (q.head? == some '/') = rooted)
    (hsame : (p.splitOn '/').foldl (push rooted) [] = (q.splitOn '/').foldl (push rooted) []) :
    clean p = clean q := by
  unfold clean
  rw [hp, hq]
  simp only
  rw [hsame]

theorem clean_append (hne : path ≠ []) (s : List Char) :
    clean (clean path ++ '/' :: s) = clean (path ++ '/' :: s) := by
  have hhead : ∀ path : List Char, path ≠ [] → (path ++ '/' :: s).head? = path.head? := by
    intro path hne
    obtain ⟨x, path, rfl⟩ := exists_cons_of_ne_nil hne
    rfl
  have hclean := hhead _ (clean_ne_nil path)
  have hpath := hhead _ hne
  rcases clean_spec path with ⟨hroot, hroot', hsame⟩ | ⟨hroot, hroot', hsame⟩
  · refine clean_congr (beq_iff_eq.mpr (hclean.trans hroot)) (beq_iff_eq.mpr (hpath.trans hroot')) ?_
    rw [splitOn_append_cons_self, splitOn_append_cons_self, foldl_append, hsame, foldl_append]
  · refine clean_congr (beq_eq_false_iff_ne.mpr (by rwa [hclean]))
      (beq_eq_false_iff_ne.mpr (by rwa [hpath])) ?_
    rw [splitOn_append_cons_self, splitOn_append_cons_self, foldl_append, hsame, foldl_append]

/-- Joining in two steps. -/
theorem join_join {a b : List Char} (hb : b ≠ []) (c : List Char) :
    join [join [a, b], c] = join [a, b, c] := by
  have hdrop : ∀ a : List Char, a ≠ [] → ∀ rest : List (List Char),
      join (a :: rest) = clean (['/'].intercalate (a :: rest)) := by
    intro a ha rest
    unfold join
    rw [dropWhile_cons_of_neg (by simpa using ha)]
  have htwo : ∀ path : List Char, path ≠ [] → join [clean path, c] = clean (path ++ '/' :: c) := by
    intro path hpath
    rw [hdrop _ (clean_ne_nil path), intercalate_cons_cons, intercalate_singleton,
      clean_append hpath]
  by_cases ha : a = []
  · have hskip : ∀ rest : List (List Char), join ([] :: rest) = join rest := fun rest => by
      unfold join
      rw [dropWhile_cons_of_pos (by simp)]
    rw [ha, hskip, hskip, hdrop b hb, hdrop b hb, intercalate_singleton,
      intercalate_cons_cons, intercalate_singleton, htwo b hb]
  · rw [hdrop a ha, hdrop a ha, htwo _ (intercalate_ne_nil ?_ (by simp))]
    · simp
    · simp [ha, hb]

end Ollama.Lib.Path
