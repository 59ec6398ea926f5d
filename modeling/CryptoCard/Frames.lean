import CryptoCard.Memory
import Mathlib.Data.Finset.Card
import Mathlib.Order.Interval.Finset.Nat
set_option autoImplicit false

/-! A buffer of consecutive addresses whose pages lie anywhere in physical memory. -/
namespace Memory

variable {β : Type} {page : Nat}

/-- The frames of the pages of a buffer: no frame holds two of them. -/
structure Frames (page : Nat) where
  frame : Nat → Nat
  inj : ∀ i j, frame i = frame j → i = j
  pos : 0 < page

namespace Frames

variable (F : Frames page)

/-- The physical address of the cell `i` of the buffer. -/
def addr (i : Nat) : Nat := page*F.frame (i/page)+i%page

/-- What lies in physical memory, when the buffer holds `xs` and `m` is the rest. -/
def overlay (xs : List β) (m : Nat → β) (x : Nat) : β :=
  match (List.range xs.length).find? (fun i => F.addr i == x) with
  | some i => xs[i]?.getD (m x)
  | none => m x

/-- The first `n` cells of the buffer as they lie in physical memory. -/
def gather (n : Nat) (m : Nat → β) : List β := (List.range n).map (fun i => m (F.addr i))

/-- The first `n` cells of the buffer fill the `n` addresses from its first one on. -/
def Compact (n : Nat) : Prop := ∀ i, i < n → Within (F.addr 0) n (F.addr i)

theorem addr_inj {i j : Nat} (h : F.addr i = F.addr j) : i = j := by
  unfold addr at h
  have hi := Nat.mod_lt i F.pos
  have hj := Nat.mod_lt j F.pos
  have hdiv : F.frame (i/page) = F.frame (j/page) := by
    have h' := congrArg (· / page) h
    simp only [Nat.mul_add_div F.pos,Nat.div_eq_of_lt hi,Nat.div_eq_of_lt hj] at h'
    exact h'
  have hmod : i%page = j%page := by
    rw [hdiv] at h
    exact Nat.add_left_cancel h
  rw [← Nat.div_add_mod i page,← Nat.div_add_mod j page,F.inj _ _ hdiv,hmod]

theorem overlay_addr (xs : List β) (m : Nat → β) {i : Nat} (hi : i < xs.length) :
    F.overlay xs m (F.addr i) = xs[i] := by
  have hfind : (List.range xs.length).find? (fun j => F.addr j == F.addr i) = some i := by
    rw [List.find?_range_eq_some]
    refine ⟨by simp,List.mem_range.mpr hi,fun j hj => ?_⟩
    simp only [Bool.not_eq_true',beq_eq_false_iff_ne]
    exact fun h => Nat.ne_of_lt hj (F.addr_inj h)
  rw [overlay,hfind]
  simp [hi]

@[simp] theorem gather_length (n : Nat) (m : Nat → β) : (F.gather n m).length = n := by
  simp [gather]

/-- As many addresses as cells: the cells lie among them when these are all taken. -/
theorem compact_iff (n : Nat) :
    (∀ x, Within (F.addr 0) n x → ∃ i, i < n ∧ F.addr i = x) ↔ F.Compact n := by
  let cells := (Finset.range n).image F.addr
  let bus := Finset.Ico (F.addr 0) (F.addr 0+n)
  have hcells : cells.card = n := by
    rw [Finset.card_image_of_injective _ (fun _ _ h => F.addr_inj h),Finset.card_range]
  have hbus : bus.card = n := by simp [bus]
  have mem_cells (x : Nat) : x ∈ cells ↔ ∃ i, i < n ∧ F.addr i = x := by simp [cells]
  have mem_bus (x : Nat) : x ∈ bus ↔ Within (F.addr 0) n x := Finset.mem_Ico
  constructor
  · intro h i hi
    have hsub : bus ⊆ cells := fun x hx => (mem_cells x).mpr (h x ((mem_bus x).mp hx))
    have heq := Finset.eq_of_subset_of_card_le hsub (by rw [hcells,hbus])
    rw [← mem_bus,heq]
    exact (mem_cells _).mpr ⟨i,hi,rfl⟩
  · intro h x hx
    have hsub : cells ⊆ bus := by
      intro y hy
      obtain ⟨i,hi,rfl⟩ := (mem_cells y).mp hy
      exact (mem_bus _).mpr (h i hi)
    have heq := Finset.eq_of_subset_of_card_le hsub (by rw [hcells,hbus])
    rw [← mem_cells,heq]
    exact (mem_bus x).mpr hx

end Frames

end Memory
