import Mathlib.Data.List.Basic
import Mathlib.Order.Lattice
import Mathlib.Tactic

/-!
# Writing a block over a list

A block of elements replaces what stands at a position, and what reaches behind the end extends the
list.
-/

namespace Splice

variable {α : Type _}

def splice (xs : List α) (i : Nat) (block : List α) : List α :=
  xs.take i ++ block ++ xs.drop (i + block.length)

variable {xs block : List α} {i : Nat}

theorem length_splice (hi : i ≤ xs.length) :
    (splice xs i block).length = max (i + block.length) xs.length := by
  simp only [splice, List.length_append, List.length_take, List.length_drop]
  omega

theorem le_length_splice (xs : List α) (i : Nat) (block : List α) :
    xs.length ≤ (splice xs i block).length := by
  simp only [splice, List.length_append, List.length_take, List.length_drop]
  omega

@[simp] theorem splice_length (xs block : List α) : splice xs xs.length block = xs ++ block := by
  simp [splice]

theorem getElem?_splice (hi : i ≤ xs.length) (j : Nat) :
    (splice xs i block)[j]? =
      if i ≤ j ∧ j < i + block.length then block[j - i]? else xs[j]? := by
  have htake : (xs.take i).length = i := by
    rw [List.length_take]
    omega
  rw [splice]
  by_cases hfront : j < i
  · rw [List.append_assoc, List.getElem?_append_left (by omega), List.getElem?_take_of_lt hfront,
      if_neg (by omega)]
  · by_cases hblock : j < i + block.length
    · rw [List.append_assoc, List.getElem?_append_right (by omega), htake,
        List.getElem?_append_left (by omega), if_pos (by omega)]
    · rw [List.getElem?_append_right (by rw [List.length_append]; omega), List.length_append, htake,
        List.getElem?_drop, if_neg (by omega)]
      congr 1
      omega

end Splice
