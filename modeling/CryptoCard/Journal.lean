import CryptoCard.Turns
set_option autoImplicit false

/-! Runs together with the calls that have come to an end, in the order in which they did,
whoever made them. -/
namespace Interleave
open Program

variable {A : Type} {R : A → Type} {W C E X V : Type}

/-- The call that a thread is in, and the world it was made in. -/
def Thread.turn : Thread A R W C V → Option (C × W)
  | .run c w _ => some (c,w)
  | _ => none

/-- Only the thread that moves gets into another call or out of its own. -/
theorem turn_update {s : Sys A R W C V} {t : Nat} {θ : Thread A R W C V} {w : W}
    {hist : Nat → List (C × V)} :
    (⟨w,Function.update s.thr t θ,hist⟩ : Sys A R W C V).turn =
      Function.update s.turn t θ.turn := by
  funext u
  by_cases hu : u = t
  · subst u
    cases θ <;> simp [Sys.turn,Thread.turn]
  · simp [Sys.turn,hu]

theorem of_update_none {α : Type} {F : Nat → Option α} {t u : Nat} {x : α}
    (h : Function.update F t none u = some x) : F u = some x := by
  by_cases hu : u = t
  · subst u
    rw [Function.update_self] at h
    cases h
  · rwa [Function.update_of_ne hu] at h

/-- The call that a step brings to an end, with its result. -/
def Sys.ended (s : Sys A R W C V) : Label C E X → List (C × V)
  | .ret t => (s.returns t).toList
  | _ => []

namespace Machine

variable (M : Machine A R W C E X V)

/-- Runs whose every step is admitted by `P` and in which the calls of the list have ended,
last one first. -/
inductive Logs (P : Sys A R W C V → Label C E X → Prop) (s : Sys A R W C V) :
    List (C × V) → Sys A R W C V → Prop where
  | refl : Logs P s [] s
  | tail {hs : List (C × V)} {s' s'' : Sys A R W C V} {l : Label C E X} :
      Logs P s hs s' → P s' l → M.step s' l = some s'' → Logs P s (s'.ended l ++ hs) s''

/-- The calls that end when the labels are followed, after those in `hs`. -/
def log (hs : List (C × V)) : Sys A R W C V → List (Label C E X) → List (C × V)
  | _, [] => hs
  | s, l :: ls =>
    match M.step s l with
    | some s' => log (s.ended l ++ hs) s' ls
    | none => hs

variable {M} {P : Sys A R W C V → Label C E X → Prop}

/-- A list of labels of threads below `n` that is followed to its end. -/
theorem logs_of_runIf {n : Nat} {b : Sys A R W C V → Label C E X → Bool}
    (hb : ∀ s l, s.Quiet n → b s l = true → P s l) (ls : List (Label C E X))
    {s₀ s s' : Sys A R W C V} {hs : List (C × V)} (hq : s.Quiet n) (h₀ : M.Logs P s₀ hs s)
    (h : M.runIf n b s ls = some s') : M.Logs P s₀ (M.log hs s ls) s' := by
  induction ls generalizing s hs with
  | nil =>
    cases h
    exact h₀
  | cons l ls ih =>
    simp only [runIf] at h
    split at h
    · rename_i hl
      have hl := Bool.and_eq_true_iff.mp hl
      split at h
      · rename_i s₁ hstep
        rw [log,hstep]
        exact ih (quiet_step hq hl.1 hstep) (.tail h₀ (hb _ _ hq hl.2) hstep) h
      · cases h
    · cases h

end Machine

/-- What a step keeps of the calls that have ended, where a proof outline holds, every run
keeps. -/
theorem Outline.logs {M : Machine A R W C E X V} {P : Sys A R W C V → Label C E X → Prop}
    {D : Discipline A R} {Γ : Assertions D W C V} (O : Outline M P Γ)
    {L : List (C × V) → Sys A R W C V → Prop}
    (hL : ∀ {hs s g l s'}, Γ.Holds s g → L hs s → P s l → M.step s l = some s' →
      L (s.ended l ++ hs) s')
    {s s' : Sys A R W C V} {g : Nat → D.Ghost} {hs : List (C × V)} (h : Γ.Holds s g)
    (h₀ : L [] s) (hr : M.Logs P s hs s') : L hs s' ∧ ∃ g', Γ.Holds s' g' := by
  induction hr with
  | refl => exact ⟨h₀,g,h⟩
  | tail _ hp hs ih =>
    obtain ⟨hl,g',hg⟩ := ih
    exact ⟨hL hg hl hp hs,O.step hg hp hs⟩

end Interleave
