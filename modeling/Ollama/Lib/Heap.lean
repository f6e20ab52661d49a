import Mathlib.Data.List.MinMax
import Mathlib.Data.List.Perm.Basic

/-!
# Priority queues

A heap is known by what `pop` returns: an element with the least key, and the
others. Which of several least elements comes first is left open.
-/

namespace Ollama.Lib

open List

/-- A priority queue over elements with keys in a linear order. -/
structure Heap {α κ : Type} [LinearOrder κ] (key : α → κ) where
  pop : List α → Option (α × List α)
  pop_nil : pop [] = none
  exists_of_ne_nil : ∀ q, q ≠ [] → ∃ x rest, pop q = some (x, rest)
  perm : ∀ q x rest, pop q = some (x, rest) → q.Perm (x :: rest)
  least : ∀ q x rest, pop q = some (x, rest) → ∀ y ∈ rest, key x ≤ key y

variable {α κ : Type} [LinearOrder κ] {key : α → κ} (h : Heap key)

theorem Heap.mem {q rest : List α} {x : α} (hp : h.pop q = some (x, rest)) :
    x ∈ q ∧ ∀ y ∈ rest, y ∈ q := by
  have hperm := h.perm q x rest hp
  exact ⟨hperm.mem_iff.mpr mem_cons_self, fun y hy => hperm.mem_iff.mpr (mem_cons_of_mem _ hy)⟩

theorem Heap.length {q rest : List α} {x : α} (hp : h.pop q = some (x, rest)) :
    q.length = rest.length + 1 := (h.perm q x rest hp).length_eq

/-- The queue kept as a list, searched for the first least element. -/
def Heap.list [DecidableEq α] (key : α → κ) : Heap key where
  pop q := (q.argmin key).map fun x => (x, q.erase x)
  pop_nil := rfl
  exists_of_ne_nil := by
    intro q hq
    obtain ⟨x, hx⟩ := Option.ne_none_iff_exists'.mp fun hn => hq ((argmin_eq_none (f := key)).mp hn)
    exact ⟨x, q.erase x, by rw [hx]; rfl⟩
  perm := by
    intro q x rest hp
    obtain ⟨y, hy, heq⟩ := Option.map_eq_some_iff.mp hp
    cases heq
    exact perm_cons_erase (argmin_mem hy)
  least := by
    intro q x rest hp y hy
    obtain ⟨z, hz, heq⟩ := Option.map_eq_some_iff.mp hp
    cases heq
    exact le_of_mem_argmin (mem_of_mem_erase hy) hz

/-- A queue that goes by a finer key goes by the coarser one. -/
def Heap.coarsen {κ' : Type} [LinearOrder κ'] {key' : α → κ'} (h : Heap key')
    (hle : ∀ x y, key' x ≤ key' y → key x ≤ key y) : Heap key where
  pop := h.pop
  pop_nil := h.pop_nil
  exists_of_ne_nil := h.exists_of_ne_nil
  perm := h.perm
  least q x rest hp y hy := hle x y (h.least q x rest hp y hy)

/-- The queue kept as a list where, as in a binary heap, the last element takes
the place of the one that is taken out at the front. -/
def Heap.swapLast [DecidableEq α] (key : α → κ) : Heap key where
  pop q := (q.argmin key).map fun x =>
    (x, (q.erase x).getLast?.toList ++ (q.erase x).dropLast)
  pop_nil := rfl
  exists_of_ne_nil := by
    intro q hq
    obtain ⟨x, hx⟩ := Option.ne_none_iff_exists'.mp fun hn => hq ((argmin_eq_none (f := key)).mp hn)
    exact ⟨x, _, by rw [hx]; rfl⟩
  perm := by
    intro q x rest hp
    obtain ⟨y, hy, heq⟩ := Option.map_eq_some_iff.mp hp
    cases heq
    refine (perm_cons_erase (argmin_mem hy)).trans (List.Perm.cons _ ?_)
    rcases eq_nil_or_concat (q.erase x) with hnil | ⟨l, z, hl⟩
    · rw [hnil]
      rfl
    · rw [hl, concat_eq_append, getLast?_concat, dropLast_concat]
      exact perm_append_comm
  least := by
    intro q x rest hp y hy
    obtain ⟨z, hz, heq⟩ := Option.map_eq_some_iff.mp hp
    cases heq
    have hmem : y ∈ q.erase x := by
      rcases mem_append.mp hy with hy | hy
      · exact mem_of_getLast? (Option.mem_toList.mp hy)
      · exact (dropLast_sublist _).mem hy
    exact le_of_mem_argmin (mem_of_mem_erase hmem) hz

end Ollama.Lib
