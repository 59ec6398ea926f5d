import Mathlib.Data.List.Basic
import Mathlib.Tactic.Common
set_option autoImplicit false

/-! Applying a function to a list one block at a time. -/
namespace Chunks

variable {β : Type}

/-- Split `xs` in blocks of `k`, the last one possibly shorter, and apply `f`
to each block on its own. -/
def chunkMap (f : List β → List β) (k : Nat) (xs : List β) : List β :=
  if k = 0 ∨ xs.length ≤ k then f xs
  else f (xs.take k) ++ chunkMap f k (xs.drop k)
termination_by xs.length
decreasing_by simp only [List.length_drop]; omega

theorem chunkMap_short (f : List β → List β) (k : Nat) (xs : List β) (h : xs.length ≤ k) :
    chunkMap f k xs = f xs := by
  rw [chunkMap,if_pos (Or.inr h)]

theorem chunkMap_long (f : List β → List β) (k : Nat) (xs : List β) (hk : 0 < k)
    (h : k < xs.length) :
    chunkMap f k xs = f (xs.take k) ++ chunkMap f k (xs.drop k) := by
  rw [chunkMap,if_neg (by omega)]

/-- A function that works cell by cell does not see the block boundaries. -/
theorem chunkMap_map (f : β → β) (k : Nat) (xs : List β) :
    chunkMap (List.map f) k xs = xs.map f := by
  induction xs using chunkMap.induct k with
  | case1 xs h => rw [chunkMap,if_pos h]
  | case2 xs h ih =>
    rw [chunkMap,if_neg h,ih,← List.map_append,List.take_append_drop]

theorem map_nil {f : List β → List β} (hf : ∀ xs, (f xs).length = xs.length) : f [] = [] :=
  List.eq_nil_of_length_eq_zero (hf [])

/-- One more block after `n` full ones. -/
theorem chunkMap_append (f : List β → List β) (hf : ∀ xs, (f xs).length = xs.length)
    (k n : Nat) (xs ys : List β) (hk : 0 < k) (hx : xs.length = k*n) (hy : ys.length ≤ k) :
    chunkMap f k (xs ++ ys) = chunkMap f k xs ++ f ys := by
  induction n generalizing xs with
  | zero =>
    obtain rfl := List.eq_nil_of_length_eq_zero hx
    rw [List.nil_append,chunkMap_short f k ys hy,chunkMap_short f k [] (Nat.zero_le k),map_nil hf,
      List.nil_append]
  | succ n ih =>
    rw [Nat.mul_succ] at hx
    by_cases hnil : ys = []
    · subst hnil
      rw [map_nil hf,List.append_nil,List.append_nil]
    · have hpos := List.length_pos_iff.mpr hnil
      have hdrop : (xs.drop k).length = k*n := by rw [List.length_drop]; omega
      rw [chunkMap_long f k _ hk (by rw [List.length_append]; omega),
        List.take_append_of_le_length (by omega),List.drop_append_of_le_length (by omega),
        ih _ hdrop,← List.append_assoc]
      congr 1
      by_cases hlong : k < xs.length
      · rw [chunkMap_long f k xs hk hlong]
      · have hlast : xs.drop k = [] := List.drop_eq_nil_of_le (by omega)
        rw [hlast,chunkMap_short f k [] (Nat.zero_le k),map_nil hf,List.append_nil,
          List.take_of_length_le (by omega),chunkMap_short f k xs (by omega)]

theorem chunkMap_length (f : List β → List β) (hf : ∀ xs, (f xs).length = xs.length)
    (k : Nat) (xs : List β) : (chunkMap f k xs).length = xs.length := by
  induction xs using chunkMap.induct k with
  | case1 xs h => rw [chunkMap,if_pos h,hf]
  | case2 xs h ih =>
    rw [chunkMap,if_neg h,List.length_append,hf,ih,← List.length_append,List.take_append_drop]

/-- A length-preserving `f` keeps the block boundaries, so a left inverse on
single blocks is one on the whole list. -/
theorem chunkMap_leftInverse (f g : List β → List β) (hf : ∀ xs, (f xs).length = xs.length)
    (k : Nat) (hg : ∀ xs, 1 ≤ xs.length → xs.length ≤ k → g (f xs) = xs)
    (xs : List β) (hk : 0 < k) (hx : 1 ≤ xs.length) :
    chunkMap g k (chunkMap f k xs) = xs := by
  induction xs using chunkMap.induct k with
  | case1 xs h =>
    have hle : xs.length ≤ k := by omega
    rw [chunkMap_short f k xs hle,chunkMap_short g k _ (by rw [hf]; exact hle)]
    exact hg xs hx hle
  | case2 xs h ih =>
    have hlt : k < xs.length := by omega
    have htake : (f (xs.take k)).length = k := by rw [hf,List.length_take]; omega
    have hrest : (chunkMap f k (xs.drop k)).length = xs.length-k := by
      rw [chunkMap_length f hf,List.length_drop]
    rw [chunkMap_long f k xs hk hlt]
    rw [chunkMap_long g k _ hk (by rw [List.length_append,htake,hrest]; omega)]
    rw [List.take_left' htake,List.drop_left' htake]
    rw [hg (xs.take k) (by rw [List.length_take]; omega) (by rw [List.length_take]; omega)]
    rw [ih (by rw [List.length_drop]; omega),List.take_append_drop]

/-- Run `f` with the sizes of the blocks that `n` cells are split in. -/
def chunkFold {γ : Type} (f : Nat → γ → γ) (k n : Nat) (x : γ) : γ :=
  if k = 0 ∨ n ≤ k then f n x else chunkFold f k (n-k) (f k x)
termination_by n
decreasing_by omega

theorem chunkFold_short {γ : Type} (f : Nat → γ → γ) (k n : Nat) (x : γ) (h : n ≤ k) :
    chunkFold f k n x = f n x := by
  rw [chunkFold,if_pos (Or.inr h)]

theorem chunkFold_long {γ : Type} (f : Nat → γ → γ) (k n : Nat) (x : γ) (hk : 0 < k)
    (h : k < n) : chunkFold f k n x = chunkFold f k (n-k) (f k x) := by
  rw [chunkFold,if_neg (by omega)]

end Chunks
