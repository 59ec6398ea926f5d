import CryptoCard.Interleave
set_option autoImplicit false

/-! Two runs of one machine that follow the same schedule, and the rule by which what
relates their worlds lasts to the end of both. -/
namespace Interleave
open Program

variable {A : Type} {R : A → Type} {W C E X V : Type}

/-- The same step of the schedule, but for the calls that `like` takes for one. -/
inductive Label.Like (like : Nat → C → C → Prop) : Label C E X → Label C E X → Prop where
  | call {t : Nat} {c c' : C} : like t c c' → Like like (.call t c) (.call t c')
  | act (t : Nat) (x : X) : Like like (.act t x) (.act t x)
  | ret (t : Nat) : Like like (.ret t) (.ret t)
  | env (e : E) : Like like (.env e) (.env e)

/-- The states that two runs reach side by side; the steps of the first are in `P`. -/
inductive Machine.Both (M : Machine A R W C E X V) (like : Nat → C → C → Prop)
    (P : Sys A R W C V → Label C E X → Prop) (s s' : Sys A R W C V) :
    Sys A R W C V → Sys A R W C V → Prop where
  | refl : Both M like P s s' s s'
  | tail {u u' v v' : Sys A R W C V} {l l' : Label C E X} :
      Both M like P s s' u u' → P u l → l.Like like l' → M.step u l = some v →
      M.step u' l' = some v' → Both M like P s s' v v'

/-- The first of the two runs. -/
theorem Machine.Both.first {M : Machine A R W C E X V} {like : Nat → C → C → Prop}
    {P Q : Sys A R W C V → Label C E X → Prop} (hPQ : ∀ s l, P s l → Q s l)
    {s s' u u' : Sys A R W C V} (h : M.Both like P s s' u u') : M.Reaches Q s u := by
  induction h with
  | refl => exact .refl
  | tail _ hp _ hs _ ih => exact .tail ih (hPQ _ _ hp) hs

/-- Two threads in programs that `near` takes for one. -/
inductive Thread.Near (near : Prog A R V → Prog A R V → Prop) :
    Thread A R W C V → Thread A R W C V → Prop where
  | idle : Near near .idle .idle
  | run {c c' : C} {w w' : W} {p p' : Prog A R V} :
      near p p' → Near near (.run c w p) (.run c' w' p')
  | dead : Near near .dead .dead

/-- The outcomes of two actions are of one kind, leave worlds with `Q`, and go on with
programs that `near` takes for one. -/
inductive Out.Near {a a' : A} (near : Prog A R V → Prog A R V → Prop) (Q : W → W → Prop)
    (Qr : R a → W → W → Prop) (k : R a → Prog A R V) (k' : R a' → Prog A R V) :
    Out W (R a) → Out W (R a') → Prop where
  | stay {v v' : W} : Q v v' → Near near Q Qr k k' (.stay v) (.stay v')
  | done {r : R a} {r' : R a'} {v v' : W} :
      near (k r) (k' r') → Qr r v v' → Near near Q Qr k k' (.done r v) (.done r' v')
  | oops {v v' : W} : Q v v' → Near near Q Qr k k' (.oops v) (.oops v')

theorem Out.Near.imp {a a' : A} {near : Prog A R V → Prog A R V → Prop} {Q : W → W → Prop}
    {Qr Qr' : R a → W → W → Prop} {k : R a → Prog A R V} {k' : R a' → Prog A R V}
    {o : Out W (R a)} {o' : Out W (R a')} (h : Out.Near near Q Qr k k' o o')
    (hQ : ∀ r v v', Qr r v v' → Qr' r v v') : Out.Near near Q Qr' k k' o o' := by
  cases h with
  | stay h => exact .stay h
  | done hk h => exact .done hk (hQ _ _ _ h)
  | oops h => exact .oops h

/-- What `Θ` says of two worlds lasts through steps that are alike; the first run keeps to
the outline `Γ`, and `Θ` may speak of its accounts. -/
structure Relates {D : Discipline A R} (M : Machine A R W C E X V)
    (P : Sys A R W C V → Label C E X → Prop) (Γ : Assertions D W C V)
    (like : Nat → C → C → Prop) (near : Nat → Prog A R V → Prog A R V → Prop)
    (Θ : (Nat → D.Ghost) → W → W → Prop) : Prop where
  code : ∀ {t c c'}, like t c c' → near t (M.code c) (M.code c')
  begins : ∀ {s g t c w' γ}, Γ.Holds s g → Θ g s.world w' → s.thr t = .idle →
    Γ.Began t c (s.hist t) s.world γ → Θ (Function.update g t γ) s.world w'
  acts : ∀ {s g t x c w₀ a k a' k' w' o o'}, Γ.Holds s g → P s (.act t x) →
    s.thr t = .run c w₀ (.act a k) → near t (.act a k) (.act a' k') → Θ g s.world w' →
    M.exec t a x s.world = some o → M.exec t a' x w' = some o' →
    Out.Near (near t) (Θ g) (fun r v v' => ∀ γ, D.next (g t) a r γ →
      Θ (Function.update g t γ) v v') k k' o o'
  env : ∀ {s g e w' v v'}, Γ.Holds s g → P s (.env e) → Θ g s.world w' →
    M.env e s.world = some v → M.env e w' = some v' → Θ g v v'

section
variable {D : Discipline A R} {M : Machine A R W C E X V}
variable {P : Sys A R W C V → Label C E X → Prop} {Γ : Assertions D W C V}
variable {like : Nat → C → C → Prop} {near : Nat → Prog A R V → Prog A R V → Prop}
variable {Θ : (Nat → D.Ghost) → W → W → Prop} {s s' u u' : Sys A R W C V} {g : Nat → D.Ghost}

/-- The two systems at the same point of the schedule. -/
structure Beside (Γ : Assertions D W C V) (near : Nat → Prog A R V → Prog A R V → Prop)
    (Θ : (Nat → D.Ghost) → W → W → Prop) (g : Nat → D.Ghost) (s s' : Sys A R W C V) : Prop where
  holds : Γ.Holds s g
  world : Θ g s.world s'.world
  thr : ∀ t, (s.thr t).Near (near t) (s'.thr t)

theorem near_update {thr thr' : Nat → Thread A R W C V} {t : Nat} {θ θ' : Thread A R W C V}
    (h : ∀ u, (thr u).Near (near u) (thr' u)) (ht : θ.Near (near t) θ') (u : Nat) :
    (Function.update thr t θ u).Near (near u) (Function.update thr' t θ' u) := by
  by_cases hu : u = t
  · subst u
    rwa [Function.update_self,Function.update_self]
  · rw [Function.update_of_ne hu,Function.update_of_ne hu]
    exact h u

namespace Relates

theorem step (H : Relates M P Γ like near Θ) (O : Outline M P Γ) {l l' : Label C E X}
    (h : Beside Γ near Θ g s s') (hp : P s l) (hl : l.Like like l') (hs : M.step s l = some u)
    (hs' : M.step s' l' = some u') : ∃ g', Beside Γ near Θ g' u u' := by
  cases hl with
  | @call t c c' hc =>
    simp only [Machine.step] at hs hs'
    split at hs
    · rename_i ht
      split at hs'
      · cases hs
        cases hs'
        obtain ⟨γ,hb,hH⟩ := O.called h.holds hp ht
        exact ⟨_,hH,H.begins (s := s) h.holds h.world ht hb,near_update h.thr (.run (H.code hc))⟩
      · cases hs'
    · cases hs
  | act t x =>
    obtain ⟨c,w₀,a,k,ht,hout⟩ := Machine.actStep_cases hs
    obtain ⟨c',w₀',a',k',ht',hout'⟩ := Machine.actStep_cases hs'
    have hnear : near t (.act a k) (.act a' k') := by
      have hthr := h.thr t
      rw [ht,ht'] at hthr
      cases hthr
      assumption
    have hacts {o : Out W (R a)} {o' : Out W (R a')} (he : M.exec t a x s.world = some o)
        (he' : M.exec t a' x s'.world = some o') := H.acts h.holds hp ht hnear h.world he he'
    obtain ⟨w,he,rfl⟩ | ⟨r,w,he,rfl⟩ | ⟨w,he,rfl⟩ := hout
    · obtain ⟨w',he',rfl⟩ | ⟨r',w',he',rfl⟩ | ⟨w',he',rfl⟩ := hout' <;> cases hacts he he'
      exact ⟨g,⟨O.stay h.holds hp ht he,h.holds.2⟩,‹_›,h.thr⟩
    · obtain ⟨w',he',rfl⟩ | ⟨r',w',he',rfl⟩ | ⟨w',he',rfl⟩ := hout' <;> cases hacts he he'
      rename_i hk hQ
      obtain ⟨γ,hn,hH⟩ := O.did h.holds hp ht he
      exact ⟨_,hH,hQ γ hn,near_update h.thr (.run hk)⟩
    · obtain ⟨w',he',rfl⟩ | ⟨r',w',he',rfl⟩ | ⟨w',he',rfl⟩ := hout' <;> cases hacts he he'
      exact ⟨g,O.died h.holds hp ht he,‹_›,near_update h.thr .dead⟩
  | ret t =>
    simp only [Machine.step] at hs hs'
    split at hs
    · rename_i ht
      split at hs'
      · cases hs
        cases hs'
        exact ⟨g,O.returned h.holds ht,h.world,near_update h.thr .idle⟩
      · cases hs'
    · cases hs
  | env e =>
    simp only [Machine.step,Option.map_eq_some_iff] at hs hs'
    obtain ⟨w,he,rfl⟩ := hs
    obtain ⟨w',he',rfl⟩ := hs'
    exact ⟨g,⟨O.env h.holds hp he,h.holds.2⟩,H.env h.holds hp h.world he he',h.thr⟩

end Relates

end

end Interleave
