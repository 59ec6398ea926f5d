import CryptoCard.Interleave
set_option autoImplicit false

/-! A machine seen through a projection of its world: the runs of both correspond step by
step. -/
namespace Interleave
open Program

variable {A : Type} {R : A → Type} {W W' C E X V ρ : Type}

def Out.map (π : W → W') : Out W ρ → Out W' ρ
  | .stay w => .stay (π w)
  | .done r w => .done r (π w)
  | .oops w => .oops (π w)

def Thread.map (π : W → W') : Thread A R W C V → Thread A R W' C V
  | .idle => .idle
  | .run c w p => .run c (π w) p
  | .dead => .dead

@[simp] theorem Thread.map_idle (π : W → W') :
    (Thread.idle : Thread A R W C V).map π = .idle := rfl

@[simp] theorem Thread.map_run (π : W → W') (c : C) (w : W) (p : Prog A R V) :
    (Thread.run c w p : Thread A R W C V).map π = .run c (π w) p := rfl

@[simp] theorem Thread.map_dead (π : W → W') :
    (Thread.dead : Thread A R W C V).map π = .dead := rfl

def Sys.map (π : W → W') (s : Sys A R W C V) : Sys A R W' C V :=
  ⟨π s.world,fun t => (s.thr t).map π,s.hist⟩

@[simp] theorem Sys.map_set (π : W → W') (w : W) (thr : Nat → Thread A R W C V) (t : Nat)
    (θ : Thread A R W C V) (hist : Nat → List (C × V)) :
    Sys.map π ⟨w,Function.update thr t θ,hist⟩ =
      ⟨π w,Function.update (fun u => (thr u).map π) t (θ.map π),hist⟩ := by
  simp only [Sys.map,Sys.mk.injEq,true_and,and_true]
  funext u
  by_cases hu : u = t
  · subst u
    simp
  · simp [hu]

/-- What `M` does to a world, `N` does to its projection; of the environment this is asked
for worlds with `I` only. -/
structure Mimics (M : Machine A R W C E X V) (N : Machine A R W' C E X V) (π : W → W')
    (I : W' → Prop) : Prop where
  code : ∀ c, N.code c = M.code c
  exec : ∀ t a x w, N.exec t a x (π w) = (M.exec t a x w).map (Out.map π)
  env : ∀ e w, I (π w) → N.env e (π w) = (M.env e w).map π

namespace Mimics

variable {M : Machine A R W C E X V} {N : Machine A R W' C E X V} {π : W → W'} {I : W' → Prop}
variable {P : Sys A R W' C V → Label C E X → Prop} {s₀ : Sys A R W C V}

theorem step (h : Mimics M N π I) (s : Sys A R W C V) (l : Label C E X) (hI : I (π s.world)) :
    N.step (s.map π) l = (M.step s l).map (Sys.map π) := by
  have hthr (t : Nat) : (s.map π).thr t = (s.thr t).map π := rfl
  cases l with
  | call t c =>
    simp only [Machine.step,hthr]
    cases s.thr t with
    | idle =>
      simp only [Thread.map_idle,Option.map_some,Sys.map_set,Thread.map_run,h.code]
      rfl
    | run c w p => rfl
    | dead => rfl
  | act t x =>
    simp only [Machine.step,Machine.actStep,hthr]
    cases s.thr t with
    | idle => rfl
    | dead => rfl
    | run c w p =>
      cases p with
      | ret v => rfl
      | act a k =>
        simp only [Thread.map_run]
        rw [show (s.map π).world = π s.world from rfl,h.exec t a x s.world]
        rcases M.exec t a x s.world with _ | (w' | ⟨r,w'⟩ | w')
        · rfl
        · rfl
        · simp only [Option.map_some,Out.map,Sys.map_set,Thread.map_run]
          rfl
        · simp only [Option.map_some,Out.map,Sys.map_set,Thread.map_dead]
          rfl
  | ret t =>
    simp only [Machine.step,hthr]
    cases s.thr t with
    | idle => rfl
    | dead => rfl
    | run c w p =>
      cases p with
      | ret v =>
        simp only [Thread.map_run,Option.map_some,Sys.map_set,Thread.map_idle]
        rfl
      | act a k => rfl
  | env e =>
    simp only [Machine.step]
    rw [show (s.map π).world = π s.world from rfl,h.env e s.world hI,Option.map_map,Option.map_map]
    rfl

/-- The projection of a run is a run. -/
theorem down (h : Mimics M N π I) (hI : ∀ s, N.Reaches P (s₀.map π) s → I s.world)
    {s : Sys A R W C V} (hr : M.Reaches (fun s l => P (s.map π) l) s₀ s) :
    N.Reaches P (s₀.map π) (s.map π) := by
  induction hr with
  | refl => exact .refl
  | tail _ hp hs ih =>
    refine .tail ih hp ?_
    rw [h.step _ _ (hI _ ih),hs]
    rfl

/-- Every run is the projection of one. -/
theorem up (h : Mimics M N π I) (hI : ∀ s, N.Reaches P (s₀.map π) s → I s.world)
    {s' : Sys A R W' C V} (hr : N.Reaches P (s₀.map π) s') :
    ∃ s, s.map π = s' ∧ M.Reaches (fun s l => P (s.map π) l) s₀ s := by
  induction hr with
  | refl => exact ⟨s₀,rfl,.refl⟩
  | @tail s₁ s₂ l hr' hp hs ih =>
    obtain ⟨s,rfl,hreach⟩ := ih
    rw [h.step s l (hI _ hr'),Option.map_eq_some_iff] at hs
    obtain ⟨s',hs',rfl⟩ := hs
    exact ⟨s',rfl,.tail hreach hp hs'⟩

end Mimics

end Interleave
