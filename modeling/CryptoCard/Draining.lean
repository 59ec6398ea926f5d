import CryptoCard.Interleave
import Mathlib.Data.Finset.Card
import Mathlib.Data.Finset.Range
set_option autoImplicit false

/-! Bringing to an end what is in progress: runs of one thread that leave the others where
they are, and the rule that drains a system of its calls one after the other. -/
namespace Interleave
open Program

variable {A : Type} {R : A → Type} {W C E X V : Type}

theorem Sys.next_of_ne {s : Sys A R W C V} {w : W} {hist : Nat → List (C × V)} {t u : Nat}
    {θ : Thread A R W C V} (h : u ≠ t) :
    Sys.next ⟨w,Function.update s.thr t θ,hist⟩ u = s.next u := by
  simp only [Sys.next,Function.update_of_ne h]

theorem Sys.Quiet.mono {s : Sys A R W C V} {n m : Nat} (h : s.Quiet n) (hm : n ≤ m) :
    s.Quiet m := fun t ht => h t (Nat.le_trans hm ht)

namespace Machine

variable {M : Machine A R W C E X V} {P : Sys A R W C V → Label C E X → Prop}

/-- What holds wherever a run comes may be asked of its steps. -/
theorem Reaches.strengthen {Q : Sys A R W C V → Label C E X → Prop} {s s' : Sys A R W C V}
    (hr : M.Reaches P s s') (hQ : ∀ s₁ l, M.Reaches P s s₁ → P s₁ l → Q s₁ l) :
    M.Reaches Q s s' := by
  induction hr with
  | refl => exact .refl
  | tail hr hp hs ih => exact .tail ih (hQ _ _ hr hp) hs

/-- What the program of a call keeps to, what is left of it keeps to at any time. -/
theorem Reaches.always {ok : C → A → Prop} (hok : ∀ c, Always (ok c) (M.code c))
    {s s' : Sys A R W C V} (hr : M.Reaches P s s')
    (h : ∀ t c w₀ p, s.thr t = .run c w₀ p → Always (ok c) p) :
    ∀ t c w₀ p, s'.thr t = .run c w₀ p → Always (ok c) p := by
  induction hr with
  | refl => exact h
  | @tail s' s'' l _ _ hs ih =>
    have moved {u : Nat} {θ : Thread A R W C V} (hθ : ∀ c w₀ p, θ = .run c w₀ p → Always (ok c) p)
        (t : Nat) (c : C) (w₀ : W) (p : Prog A R V)
        (ht : Function.update s'.thr u θ t = .run c w₀ p) : Always (ok c) p := by
      by_cases hut : t = u
      · subst t
        rw [Function.update_self] at ht
        exact hθ c w₀ p ht
      · rw [Function.update_of_ne hut] at ht
        exact ih t c w₀ p ht
    cases l with
    | call u c =>
      simp only [step] at hs
      split at hs
      · cases hs
        exact moved (fun c' w₀ p e => by cases e; exact hok c)
      · cases hs
    | act u x =>
      obtain ⟨c,w₀,a,k,hu,⟨w,_,rfl⟩ | ⟨r,w,_,rfl⟩ | ⟨w,_,rfl⟩⟩ := actStep_cases hs
      · exact ih
      · exact moved (fun c' w₀' p e => by cases e; exact (ih u c w₀ _ hu).2 r)
      · exact moved (fun c' w₀' p e => by cases e)
    | ret u =>
      simp only [step] at hs
      split at hs
      · cases hs
        exact moved (fun c' w₀ p e => by cases e)
      · cases hs
    | env e =>
      simp only [step,Option.map_eq_some_iff] at hs
      obtain ⟨w,_,rfl⟩ := hs
      exact ih

variable (M) in
/-- Steps of the environment and of nobody else. -/
inductive Settles : W → W → Prop where
  | refl {w : W} : Settles w w
  | head {w w' w'' : W} (e : E) : M.env e w = some w' → Settles w' w'' → Settles w w''

theorem Settles.reaches {w w' : W} (h : M.Settles w w') (henv : ∀ s e, P s (.env e))
    {s : Sys A R W C V} (hw : s.world = w) : M.Reaches P s { s with world := w' } := by
  induction h generalizing s with
  | refl =>
    rw [← hw]
    exact .refl
  | @head w w₁ w₂ e he _ ih =>
    have hs : M.step s (.env e) = some { s with world := w₁ } := by
      simp only [Machine.step,hw,he,Option.map_some]
    exact .head (henv _ _) hs (ih (s := { s with world := w₁ }) rfl)

/-- A thread that can come to the end of its program does so while the others stand still. -/
theorem Can.runs {t : Nat} {ok : X → Prop} {Q : V → W → Prop} {p : Prog A R V} {w : W}
    (h : M.Can t ok Q p w) (hact : ∀ s x, ok x → P s (.act t x)) (henv : ∀ s e, P s (.env e))
    {s : Sys A R W C V} {c : C} {w₀ : W} (ht : s.thr t = .run c w₀ p) (hw : s.world = w) :
    ∃ v w', Q v w' ∧ M.Reaches P s
      { s with world := w', thr := Function.update s.thr t (.run c w₀ (.ret v)) } := by
  induction h generalizing s with
  | @ret v w h =>
    refine ⟨v,w,h,?_⟩
    rw [← ht,Function.update_eq_self,← hw]
    exact .refl
  | @act a k w w' r x hx he _ ih =>
    have hs : M.step s (.act t x) = some { s with
        world := w', thr := Function.update s.thr t (.run c w₀ (k r)) } := by
      simp only [Machine.step,actStep,ht,hw,he]
    obtain ⟨v,w'',hq,hr⟩ := ih (s := { s with
      world := w', thr := Function.update s.thr t (.run c w₀ (k r)) })
      (Function.update_self _ _ _) rfl
    refine ⟨v,w'',hq,.head (hact _ _ hx) hs ?_⟩
    simpa only [Function.update_idem] using hr
  | @env p w w' e he _ ih =>
    have hs : M.step s (.env e) = some { s with world := w' } := by
      simp only [Machine.step,hw,he,Option.map_some]
    obtain ⟨v,w'',hq,hr⟩ := ih (s := { s with world := w' }) ht rfl
    exact ⟨v,w'',hq,.head (henv _ _) hs hr⟩

/-- A thread that can come to the end of its program returns from its call. -/
theorem Can.returns {t : Nat} {ok : X → Prop} {Q : V → W → Prop} {p : Prog A R V}
    {s : Sys A R W C V} (h : M.Can t ok Q p s.world) (hact : ∀ s x, ok x → P s (.act t x))
    (henv : ∀ s e, P s (.env e)) (hret : ∀ s, P s (.ret t)) {c : C} {w₀ : W}
    (ht : s.thr t = .run c w₀ p) :
    ∃ v w', Q v w' ∧ M.Reaches P s { s with
      world := w', thr := Function.update s.thr t .idle
      hist := Function.update s.hist t ((c,v) :: s.hist t) } := by
  obtain ⟨v,w',hq,hr⟩ := h.runs hact henv ht rfl
  refine ⟨v,w',hq,.tail hr (hret _) ?_⟩
  simp only [Machine.step,Function.update_self,Function.update_idem]

end Machine

end Interleave
