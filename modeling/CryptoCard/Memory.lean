import Mathlib.Algebra.Group.Nat.Defs
import Mathlib.Logic.Function.Basic
import Mathlib.Tactic.Common
set_option autoImplicit false

/-! Flat memories: total maps from addresses to cells, read and written by
contiguous ranges. Nothing here names a device or a driver. -/
namespace Memory

variable {β : Type}

/-- The `n` cells from `a` on. -/
def load (m : Nat → β) (a n : Nat) : List β := (List.range n).map (fun i => m (a+i))

/-- Overwrite the cells from `a` on by `xs`. -/
def store (m : Nat → β) (a : Nat) (xs : List β) : Nat → β := fun x =>
  if a ≤ x then xs[x-a]?.getD (m x) else m x

/-- `x` is one of the `n` cells from `a` on. -/
def Within (a n x : Nat) : Prop := a ≤ x ∧ x < a+n

instance (a n x : Nat) : Decidable (Within a n x) := inferInstanceAs (Decidable (_ ∧ _))

@[simp] theorem load_length (m : Nat → β) (a n : Nat) : (load m a n).length = n := by
  simp [load]

@[simp] theorem load_zero (m : Nat → β) (a : Nat) : load m a 0 = [] := rfl

theorem load_getElem? (m : Nat → β) (a n i : Nat) (h : i < n) :
    (load m a n)[i]? = some (m (a+i)) := by
  simp [load,h]

theorem load_add (m : Nat → β) (a n k : Nat) :
    load m a (n+k) = load m a n ++ load m (a+n) k := by
  simp [load,List.range_add,Nat.add_assoc]

theorem load_congr {m m' : Nat → β} {a n : Nat}
    (h : ∀ x, Within a n x → m x = m' x) : load m a n = load m' a n := by
  apply List.map_congr_left
  intro i hi
  have hi' := List.mem_range.mp hi
  exact h (a+i) ⟨by omega,by omega⟩

theorem load_drop (m : Nat → β) (a n k : Nat) (h : k ≤ n) :
    (load m a n).drop k = load m (a+k) (n-k) := by
  obtain ⟨d,rfl⟩ := Nat.exists_eq_add_of_le h
  rw [load_add,List.drop_left' (load_length m a k),Nat.add_sub_cancel_left]

theorem load_take (m : Nat → β) (a n k : Nat) (h : k ≤ n) :
    (load m a n).take k = load m a k := by
  obtain ⟨d,rfl⟩ := Nat.exists_eq_add_of_le h
  rw [load_add,List.take_left' (load_length m a k)]

theorem store_outside (m : Nat → β) (a : Nat) (xs : List β) (x : Nat)
    (h : ¬ Within a xs.length x) : store m a xs x = m x := by
  unfold store
  split
  · rename_i ha
    have hx : xs.length ≤ x-a := by unfold Within at h; omega
    simp [List.getElem?_eq_none hx]
  · rfl

theorem store_inside (m : Nat → β) (a : Nat) (xs : List β) (i : Nat) (h : i < xs.length) :
    store m a xs (a+i) = xs[i] := by
  simp [store,h]

theorem store_within (m : Nat → β) (a : Nat) (xs : List β) (x : Nat)
    (h : Within a xs.length x) :
    store m a xs x = xs.get ⟨x-a,by unfold Within at h; omega⟩ := by
  have hx : x = a+(x-a) := by unfold Within at h; omega
  have hi : x-a < xs.length := by unfold Within at h; omega
  conv_lhs => rw [hx]
  exact store_inside m a xs (x-a) hi

@[simp] theorem store_nil (m : Nat → β) (a : Nat) : store m a [] = m := by
  funext x
  exact store_outside m a [] x (by simp [Within])

@[simp] theorem load_store (m : Nat → β) (a : Nat) (xs : List β) :
    load (store m a xs) a xs.length = xs := by
  apply List.ext_getElem?
  intro i
  by_cases hi : i < xs.length
  · rw [load_getElem? _ _ _ _ hi,store_inside _ _ _ _ hi,List.getElem?_eq_getElem hi]
  · rw [List.getElem?_eq_none (by simp; omega),List.getElem?_eq_none (by omega)]

theorem load_store_of_length {m : Nat → β} {a n : Nat} {xs : List β} (h : xs.length = n) :
    load (store m a xs) a n = xs := by subst h; exact load_store m a xs

theorem load_store_disjoint (m : Nat → β) (a b n : Nat) (xs : List β)
    (h : ∀ x, Within b n x → ¬ Within a xs.length x) :
    load (store m a xs) b n = load m b n :=
  load_congr (fun x hx => store_outside m a xs x (h x hx))

@[simp] theorem store_load (m : Nat → β) (a n : Nat) : store m a (load m a n) = m := by
  funext x
  by_cases h : Within a n x
  · rw [store_within m a _ x (by simpa using h)]
    have hx : a+(x-a) = x := by unfold Within at h; omega
    simp [load,hx]
  · exact store_outside m a _ x (by simpa using h)

/-- A second store to the same range hides the first. -/
theorem store_store {m : Nat → β} {a : Nat} {xs ys : List β} (h : xs.length = ys.length) :
    store (store m a xs) a ys = store m a ys := by
  funext x
  by_cases hx : Within a ys.length x
  · rw [store_within _ _ _ _ hx,store_within _ _ _ _ hx]
  · rw [store_outside _ _ _ _ hx,store_outside _ _ _ _ hx,store_outside _ _ _ _ (h ▸ hx)]

theorem store_append (m : Nat → β) (a : Nat) (xs ys : List β) :
    store m a (xs ++ ys) = store (store m a xs) (a+xs.length) ys := by
  funext x
  by_cases hx : Within a xs.length x
  · have hy : ¬ Within (a+xs.length) ys.length x := by unfold Within at *; omega
    have hxy : Within a (xs ++ ys).length x := by
      unfold Within at *; simp only [List.length_append]; omega
    rw [store_outside _ _ _ _ hy,store_within _ _ _ _ hx,store_within _ _ _ _ hxy]
    exact List.getElem_append_left _
  · by_cases hy : Within (a+xs.length) ys.length x
    · have hxy : Within a (xs ++ ys).length x := by
        unfold Within at *; simp only [List.length_append]; omega
      rw [store_within _ _ _ _ hy,store_within _ _ _ _ hxy]
      simp only [List.get_eq_getElem]
      rw [List.getElem_append_right (by unfold Within at hy; omega)]
      congr 1
      omega
    · have hxy : ¬ Within a (xs ++ ys).length x := by
        unfold Within at *; simp only [List.length_append]; omega
      rw [store_outside _ _ _ _ hy,store_outside _ _ _ _ hx,store_outside _ _ _ _ hxy]

theorem load_map {γ : Type} (m : Nat → β) (a n : Nat) (f : β → γ) :
    (load m a n).map f = load (fun x => f (m x)) a n := by
  simp [load]

/-- A range that was overwritten holds cell by cell what was stored there. -/
theorem store_map (m : Nat → β) (a n : Nat) (f : β → β) (x : Nat) (h : Within a n x) :
    store m a ((load m a n).map f) x = f (m x) := by
  rw [store_within _ _ _ _ (by simpa using h)]
  have hx : a+(x-a) = x := by unfold Within at h; omega
  simp [load,hx]

end Memory
