import Mathlib

/-! Numbering the items of a list in the order in which they first occur. A longer list numbers the items
    of a shorter one alike. -/

namespace Schemes

variable {N : Type*} [DecidableEq N]

/-- The items of a list without repeats, in the order of their first occurrences. -/
def firsts (l : List N) : List N := l.foldl (fun acc n => if n ∈ acc then acc else acc ++ [n]) []

/-- The number of an item, from 0 on. -/
def number (l : List N) (n : N) : ℕ := (firsts l).idxOf n

theorem firsts_concat (l : List N) (n : N) :
    firsts (l ++ [n]) = if n ∈ firsts l then firsts l else firsts l ++ [n] := by
  rw [firsts, List.foldl_append]; rfl

theorem firsts_spec (l : List N) : (firsts l).Nodup ∧ ∀ n, n ∈ firsts l ↔ n ∈ l := by
  induction l using List.reverseRecOn with
  | nil => exact ⟨List.nodup_nil, fun n => Iff.rfl⟩
  | append_singleton l m ih =>
    obtain ⟨hnodup, hmem⟩ := ih
    rw [firsts_concat]
    split
    · rename_i hm
      refine ⟨hnodup, fun n => ?_⟩
      rw [hmem, List.mem_append, List.mem_singleton]
      refine (or_iff_left_of_imp ?_).symm
      rintro rfl
      exact (hmem n).mp hm
    · rename_i hm
      refine ⟨?_, fun n => ?_⟩
      · rw [List.nodup_append]
        refine ⟨hnodup, List.nodup_singleton m, fun a ha b hb heq => hm ?_⟩
        rw [← List.mem_singleton.mp hb, ← heq]
        exact ha
      · rw [List.mem_append, List.mem_append, hmem]

theorem nodup_firsts (l : List N) : (firsts l).Nodup := (firsts_spec l).1

@[simp] theorem mem_firsts {l : List N} {n : N} : n ∈ firsts l ↔ n ∈ l := (firsts_spec l).2 n

theorem length_firsts_le (l : List N) : (firsts l).length ≤ l.length :=
  ((nodup_firsts l).subperm fun _ hn => mem_firsts.mp hn).length_le

theorem number_lt {l : List N} {n : N} (h : n ∈ l) : number l n < (firsts l).length :=
  List.idxOf_lt_length_of_mem (mem_firsts.mpr h)

theorem number_inj {l : List N} {n m : N} (hn : n ∈ l) (h : number l n = number l m) : n = m :=
  (List.idxOf_inj (mem_firsts.mpr hn)).mp h

/-- An item that occurred before keeps its number. -/
theorem number_concat_of_mem {l : List N} {n : N} (h : n ∈ l) (m : N) :
    number (l ++ [m]) n = number l n := by
  rw [number, firsts_concat]
  split
  · rfl
  · rw [List.idxOf_append_of_mem (mem_firsts.mpr h)]
    rfl

/-- A new item gets the next number. -/
theorem number_concat_self {l : List N} {n : N} (h : n ∉ l) :
    number (l ++ [n]) n = (firsts l).length := by
  have hn : n ∉ firsts l := fun hm => h (mem_firsts.mp hm)
  rw [number, firsts_concat, if_neg hn, List.idxOf_append_of_notMem hn]
  simp

end Schemes
