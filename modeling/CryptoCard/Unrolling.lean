import CryptoCard.Interleave
set_option autoImplicit false

/-! Calls that are made of other calls: what a run with them does to the world, a run of
these other calls does as well. -/
namespace Interleave
open Program

variable {A : Type} {R : A → Type} {W C E X V B : Type}

/-- A thread in a call that is made of the calls `sub b` with `b` in `ok`, and one that makes
these by themselves. -/
inductive Thread.Unrolls (M : Machine A R W C E X V) (sub : B → C) (ok : B → Prop) :
    Thread A R W C V → Thread A R W C V → Prop where
  | same (θ : Thread A R W C V) : Unrolls M sub ok θ θ
  | returned (c : C) (w : W) (v : V) : Unrolls M sub ok (.run c w (.ret v)) .idle
  | inside {c : C} {w w' : W} {b : B} {a : A} {k : R a → Prog A R V}
      {q : V → Prog B (fun _ => V) V} : (∀ v, Always ok (q v)) →
      Unrolls M sub ok
        (.run c w (.act a (fun r => (k r).bind (fun v => (q v).inline (fun b => M.code (sub b))))))
        (.run (sub b) w' (.act a k))

/-- `z` has the world of `s` and unrolls its calls. -/
structure Sys.Unrolls (M : Machine A R W C E X V) (sub : B → C) (ok : Nat → B → Prop)
    (s z : Sys A R W C V) : Prop where
  world : z.world = s.world
  thr : ∀ t, (s.thr t).Unrolls M sub (ok t) (z.thr t)

/-- The calls of the steps in `P` are steps in `P'` themselves or made of such; otherwise a
step in `P` is one in `P'` wherever the world and the thread's next action are the same. -/
structure Unrolling (M : Machine A R W C E X V) (sub : B → C) (ok : Nat → B → Prop)
    (P P' : Sys A R W C V → Label C E X → Prop) : Prop where
  acts : ∀ b, ∃ a k, M.code (sub b) = .act a k
  part : ∀ {z t b}, ok t b → P' z (.call t (sub b))
  call : ∀ {s z t c}, P s (.call t c) → P' z (.call t c) ∨
    ∃ q : Prog B (fun _ => V) V, Always (ok t) q ∧ M.code c = q.inline (fun b => M.code (sub b))
  act : ∀ {s z t x}, P s (.act t x) → z.world = s.world → z.next t = s.next t → P' z (.act t x)
  ret : ∀ {z t}, P' z (.ret t)
  env : ∀ {s z e}, P s (.env e) → z.world = s.world → P' z (.env e)

section
variable {M : Machine A R W C E X V} {sub : B → C} {ok : Nat → B → Prop}
variable {P P' : Sys A R W C V → Label C E X → Prop} {s s' z : Sys A R W C V}

theorem Thread.Unrolls.idle {ok : B → Prop} {θ : Thread A R W C V}
    (h : Thread.Unrolls M sub ok .idle θ) : θ = .idle := by
  cases h
  rfl

theorem Sys.Unrolls.update (h : s.Unrolls M sub ok z) {t : Nat} (w : W)
    (hs hs' : Nat → List (C × V)) {θ θ' : Thread A R W C V} (ht : θ.Unrolls M sub (ok t) θ') :
    Sys.Unrolls M sub ok ⟨w,Function.update s.thr t θ,hs⟩ ⟨w,Function.update z.thr t θ',hs'⟩ := by
  refine ⟨rfl,fun u => ?_⟩
  simp only
  by_cases hu : u = t
  · subst u
    rwa [Function.update_self,Function.update_self]
  · rw [Function.update_of_ne hu,Function.update_of_ne hu]
    exact h.thr u

namespace Unrolling

/-- Between two calls, thread `t` goes on to the next one that its call is made of. -/
theorem next (H : Unrolling M sub ok P P') (h : s.Unrolls M sub ok z) {t : Nat} (c : C)
    (w₀ w : W) (hs hs' : Nat → List (C × V)) {q : Prog B (fun _ => V) V} (hq : Always (ok t) q) :
    ∃ z', M.Reaches P' ⟨w,Function.update z.thr t .idle,hs'⟩ z' ∧ Sys.Unrolls M sub ok
      ⟨w,Function.update s.thr t (.run c w₀ (q.inline (fun b => M.code (sub b)))),hs⟩ z' := by
  cases q with
  | ret v => exact ⟨_,.refl,h.update _ _ _ (.returned c w₀ v)⟩
  | act b k =>
    obtain ⟨a,k',hb⟩ := H.acts b
    refine ⟨_,.tail .refl (H.part hq.1) (Machine.step_call (Function.update_self _ _ _)),?_⟩
    simp only [Function.update_idem,Prog.inline,hb,act_bind]
    exact h.update _ _ _ (.inside hq.2)

/-- An action is answered by the same action, and by a return and the next call if it is the
last one of a call. -/
theorem act_step (H : Unrolling M sub ok P P') (h : s.Unrolls M sub ok z) {t : Nat} {x : X}
    (hp : P s (.act t x)) (hs : M.actStep t x s = some s') :
    ∃ z', M.Reaches P' z z' ∧ s'.Unrolls M sub ok z' := by
  obtain ⟨w,thr,hist⟩ := z
  obtain rfl : w = s.world := h.world
  obtain ⟨c,w₀,a,k,ht,hcase⟩ := Machine.actStep_cases hs
  have hu : (s.thr t).Unrolls M sub (ok t) (thr t) := h.thr t
  rw [ht] at hu
  -- the thread on the other side stands before the same action
  have hact {c' : C} {w' : W} {k' : R a → Prog A R V} (hz : thr t = .run c' w' (.act a k')) :
      P' ⟨s.world,thr,hist⟩ (.act t x) :=
    H.act hp rfl (by simp only [Sys.next,ht,hz])
  generalize hθ : thr t = θ at hu
  cases hu with
  | same =>
    obtain ⟨w,he,rfl⟩ | ⟨r,w,he,rfl⟩ | ⟨w,he,rfl⟩ := hcase
    · exact ⟨_,.tail .refl (hact hθ) (Machine.step_stay hθ he),rfl,h.thr⟩
    · exact ⟨_,.tail .refl (hact hθ) (Machine.step_done hθ he),h.update _ _ _ (.same _)⟩
    · exact ⟨_,.tail .refl (hact hθ) (Machine.step_oops hθ he),h.update _ _ _ (.same _)⟩
  | @inside _ _ w' b _ k' q hq =>
    obtain ⟨w,he,rfl⟩ | ⟨r,w,he,rfl⟩ | ⟨w,he,rfl⟩ := hcase
    · exact ⟨_,.tail .refl (hact hθ) (Machine.step_stay hθ he),rfl,h.thr⟩
    · have hdone := Machine.step_done (M := M) (s := ⟨s.world,thr,hist⟩) hθ he
      cases hk : k' r with
      | ret v =>
        rw [hk] at hdone
        have hret := Machine.step_ret (M := M) (s := ⟨w,Function.update thr t
          (.run (sub b) w' (.ret v)),hist⟩) (Function.update_self _ _ _)
        obtain ⟨z',hr,hu⟩ := H.next h c w₀ w s.hist
          (Function.update hist t ((sub b,v) :: hist t)) (hq v)
        simp only [Function.update_idem] at hret
        refine ⟨z',.head (hact hθ) hdone (.head H.ret hret hr),?_⟩
        simpa only [hk,ret_bind] using hu
      | act a' k'' =>
        rw [hk] at hdone
        refine ⟨_,.tail .refl (hact hθ) hdone,h.update _ _ _ ?_⟩
        simp only [hk,act_bind]
        exact .inside hq
    · exact ⟨_,.tail .refl (hact hθ) (Machine.step_oops hθ he),h.update _ _ _ (.same _)⟩

theorem step (H : Unrolling M sub ok P P') {l : Label C E X} (h : s.Unrolls M sub ok z)
    (hp : P s l) (hs : M.step s l = some s') :
    ∃ z', M.Reaches P' z z' ∧ s'.Unrolls M sub ok z' := by
  obtain ⟨w,thr,hist⟩ := z
  obtain rfl : w = s.world := h.world
  cases l with
  | call t c =>
    simp only [Machine.step] at hs
    split at hs
    · rename_i ht
      cases hs
      have hz : thr t = .idle := Thread.Unrolls.idle (ht ▸ h.thr t)
      obtain hp' | ⟨q,hq,hc⟩ := H.call hp
      · exact ⟨_,.tail .refl hp' (Machine.step_call hz),h.update _ _ _ (.same _)⟩
      · rw [hc]
        have hn := H.next h c s.world s.world s.hist hist hq
        rwa [← hz,Function.update_eq_self] at hn
    · cases hs
  | act t x => exact H.act_step h hp hs
  | ret t =>
    simp only [Machine.step] at hs
    split at hs
    · rename_i c w₀ v ht
      cases hs
      have hu : (s.thr t).Unrolls M sub (ok t) (thr t) := h.thr t
      rw [ht] at hu
      generalize hθ : thr t = θ at hu
      cases hu with
      | same => exact ⟨_,.tail .refl H.ret (Machine.step_ret hθ),h.update _ _ _ (.same _)⟩
      | returned =>
        have hz : Function.update thr t .idle = thr := by rw [← hθ,Function.update_eq_self]
        have hu := h.update s.world (Function.update s.hist t ((c,v) :: s.hist t)) hist
          (t := t) (.same .idle)
        simp only [hz] at hu
        exact ⟨_,.refl,hu⟩
    · cases hs
  | env e =>
    simp only [Machine.step,Option.map_eq_some_iff] at hs
    obtain ⟨w,he,rfl⟩ := hs
    exact ⟨_,.tail .refl (H.env hp rfl) (Machine.step_env he),rfl,h.thr⟩

/-- A run of the calls reaches no world that the calls they are made of do not reach. -/
theorem reaches (H : Unrolling M sub ok P P') (hr : M.Reaches P s s') :
    ∃ z, M.Reaches P' s z ∧ s'.Unrolls M sub ok z :=
  Machine.Reaches.mimicked (fun _ _ _ _ h hp hs => H.step h hp hs) ⟨rfl,fun _ => .same _⟩ hr

end Unrolling
end

end Interleave
