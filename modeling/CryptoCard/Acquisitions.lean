import Mathlib.Data.List.Basic
import Mathlib.Tactic.Common
set_option autoImplicit false

/-! Logs of acquired and released resources, last event first, and the discipline
that releases them in the reverse order of their acquisition. -/
namespace Acquisitions

variable {ρ μ : Type}

/-- A `mark` is anything else that a log remembers. -/
inductive Event (ρ μ : Type) where
  | acquire (r : ρ)
  | release (r : ρ)
  | mark (m : μ)
  deriving DecidableEq, Repr

variable [DecidableEq ρ]

/-- What has not been released yet, last acquisition first. -/
def held : List (Event ρ μ) → List ρ
  | [] => []
  | .acquire r :: l => r :: held l
  | .release r :: l => (held l).erase r
  | .mark _ :: l => held l

/-- Every release is one of the last resource acquired among those held. -/
def Lifo : List (Event ρ μ) → Prop
  | [] => True
  | .acquire _ :: l => Lifo l
  | .release r :: l => (held l).head? = some r ∧ Lifo l
  | .mark _ :: l => Lifo l

@[simp] theorem held_acquire (r : ρ) (l : List (Event ρ μ)) :
    held (.acquire r :: l) = r :: held l := rfl

@[simp] theorem held_release (r : ρ) (l : List (Event ρ μ)) :
    held (.release r :: l) = (held l).erase r := rfl

theorem lifo_nil : Lifo ([] : List (Event ρ μ)) := trivial

theorem mem_held_release {r r' : ρ} {l : List (Event ρ μ)} (h : r' ∈ held l) (hne : r' ≠ r) :
    r' ∈ held (.release r :: l) :=
  (List.mem_erase_of_ne hne).mpr h

theorem mem_of_held_release {r r' : ρ} {l : List (Event ρ μ)}
    (h : r' ∈ held (.release r :: l)) : r' ∈ held l :=
  List.mem_of_mem_erase h

/-- Releasing the last resource acquired leaves the others. -/
theorem held_pop {r : ρ} {rs : List ρ} {l : List (Event ρ μ)} (h : held l = r :: rs) :
    held (.release r :: l) = rs := by
  rw [held_release,h,List.erase_cons_head]

theorem Lifo.pop {r : ρ} {rs : List ρ} {l : List (Event ρ μ)} (hl : Lifo l)
    (h : held l = r :: rs) : Lifo (.release r :: l) :=
  ⟨by rw [h]; rfl,hl⟩

def acquisitions (r : ρ) : List (Event ρ μ) → Nat
  | [] => 0
  | .acquire r' :: l => acquisitions r l + if r' = r then 1 else 0
  | .release _ :: l | .mark _ :: l => acquisitions r l

def releases (r : ρ) : List (Event ρ μ) → Nat
  | [] => 0
  | .release r' :: l => releases r l + if r' = r then 1 else 0
  | .acquire _ :: l | .mark _ :: l => releases r l

/-- How often `r` is held. -/
def holdings (r : ρ) (l : List (Event ρ μ)) : Nat := (held l).count r

/-- Every acquisition is released once or still held. -/
theorem Lifo.balance {l : List (Event ρ μ)} (h : Lifo l) (r : ρ) :
    releases r l + holdings r l = acquisitions r l := by
  unfold holdings
  induction l with
  | nil => rfl
  | cons e l ih =>
    cases e with
    | acquire r' =>
      have ih := ih h
      simp only [releases,held_acquire,acquisitions,List.count_cons,beq_iff_eq]
      omega
    | release r' =>
      have ih := ih h.2
      simp only [releases,held_release,acquisitions,List.count_erase,beq_iff_eq]
      by_cases hr : r' = r
      · subst r'
        have hpos := List.count_pos_iff.mpr (List.mem_of_mem_head? h.1)
        simp only [if_true]
        omega
      · simp only [if_neg hr]
        omega
    | mark m => exact ih h

/-- The log after the resources `rs` have been released one after the other. -/
def releasing (rs : List ρ) (l : List (Event ρ μ)) : List (Event ρ μ) :=
  rs.foldl (fun l r => .release r :: l) l

/-- Releasing what is held from the top on is in order and leaves the rest. -/
theorem Lifo.releasing {rs rest : List ρ} {l : List (Event ρ μ)} (h : Lifo l)
    (hl : held l = rs ++ rest) :
    Lifo (releasing rs l) ∧ held (Acquisitions.releasing rs l) = rest := by
  induction rs generalizing l with
  | nil => exact ⟨h,hl⟩
  | cons r rs ih => exact ih (h.pop hl) (held_pop hl)

end Acquisitions
