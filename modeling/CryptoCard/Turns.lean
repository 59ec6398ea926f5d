import CryptoCard.Interleave
set_option autoImplicit false

/-! Threads that take turns: at most one call in front at a time, next to any number of
background calls that disturb it in known ways only. Runs of this kind are accounted for
call by call. -/
namespace Interleave
open Program

variable {A : Type} {R : A → Type} {W C E X V : Type}

/-- The call that a thread has in progress and the world it was made in. -/
def Sys.turn (s : Sys A R W C V) (t : Nat) : Option (C × W) :=
  match s.thr t with
  | .run c w _ => some (c,w)
  | _ => none

theorem Sys.turn_eq {s : Sys A R W C V} {t : Nat} {c : C} {w : W}
    (h : s.turn t = some (c,w)) : ∃ p, s.thr t = .run c w p := by
  unfold Sys.turn at h
  split at h
  · rename_i c' w' p ht
    cases h
    exact ⟨p,ht⟩
  · cases h

theorem Sys.turn_run {s : Sys A R W C V} {t : Nat} {c : C} {w : W} {p : Prog A R V}
    (h : s.thr t = .run c w p) : s.turn t = some (c,w) := by
  simp [Sys.turn,h]

/-- `front` are the calls that take turns and `meek` the actions of all others, which
change a world to one in `Rely`, as the environment does. `Allows` are the answers
that the runs in question give to the calls in front, and `Good` is what these calls keep
up with each of their actions. -/
structure Turns (A : Type) (R : A → Type) (W C : Type) where
  front : C → Bool
  meek : A → Prop
  Rely : W → W → Prop
  Allows : W → (a : A) → R a → Prop
  Good : W → Prop

namespace Turns

variable (T : Turns A R W C) (M : Machine A R W C E X V)

/-- Nobody has a call in front in progress. -/
def Still (s : Sys A R W C V) : Prop := ∀ t c w, s.turn t = some (c,w) → T.front c = false

/-- The finished calls in front, thread by thread, last one first. -/
def deeds (s : Sys A R W C V) (t : Nat) : List (C × V) :=
  (s.hist t).filter (fun e => T.front e.1)

/-- A thread in front remembers the world as it was after its last own action. -/
@[reducible] def watching : Discipline A R where
  Ghost := Option (Nat × W)
  ok
    | none,a => T.meek a
    | some (t,w),a => ∀ x w₁, T.Rely w w₁ → (∀ w₂, M.exec t a x w₁ ≠ some (.oops w₂)) ∧
        ∀ r w₂, T.Allows w₁ a r → M.exec t a x w₁ = some (.done r w₂) → T.Good w₂
  next
    | none,_,_,γ' => γ' = none
    | some (t,w),a,r,γ' => ∃ x w₁ w₂, T.Rely w w₁ ∧ T.Allows w₁ a r ∧
        M.exec t a x w₁ = some (.done r w₂) ∧ γ' = some (t,w₂)

/-- What the rule needs of the machine. -/
structure Bears : Prop where
  refl : ∀ w, T.Rely w w
  trans : ∀ {w w₁ w₂}, T.Rely w w₁ → T.Rely w₁ w₂ → T.Rely w w₂
  env : ∀ {e w w'}, M.env e w = some w' → T.Rely w w'
  stay : ∀ {t a x w w'}, M.exec t a x w = some (.stay w') → T.Rely w w'
  meek : ∀ {t a x r w w'}, T.meek a → M.exec t a x w = some (.done r w') → T.Rely w w'
  whole : ∀ {t a x w w'}, T.meek a → M.exec t a x w ≠ some (.oops w')
  good : ∀ {w w'}, T.Good w → T.Rely w w' → T.Good w'

/-- `Rest` holds between calls in front, `Open` of a call when it is made and `Spec`
relates the worlds at its begin and its end. -/
structure Protocol (W C V : Type) where
  Rest : (Nat → List (C × V)) → W → Prop
  Open : (Nat → List (C × V)) → W → Nat → C → Prop
  Spec : Nat → C → W → V → W → Prop

/-- The obligations, call by call, of a protocol along the runs admitted by `P`. -/
structure Follows (P : Sys A R W C V → Label C E X → Prop) (Ω : Protocol W C V) : Prop where
  bears : T.Bears M
  alone : ∀ {s t c}, P s (.call t c) → T.front c = true → s.thr t = .idle →
    (∀ u d w, s.turn u = some (d,w) → T.front d = true → Ω.Open (T.deeds s) w u d) → T.Still s
  begins : ∀ {s t c}, P s (.call t c) → T.front c = true → Ω.Rest (T.deeds s) s.world →
    Ω.Open (T.deeds s) s.world t c
  good : ∀ {hs w t c}, T.front c = true → Ω.Open hs w t c → T.Good w
  code : ∀ {hs w t c}, T.front c = true → Ω.Open hs w t c → wp (T.watching M) (M.code c)
    (fun v γ => ∃ w', γ = some (t,w') ∧ Ω.Spec t c w v w') (some (t,w))
  back : ∀ {s t c}, P s (.call t c) → T.front c = false → Always T.meek (M.code c)
  allows : ∀ {s t x c w₀ a k r w}, P s (.act t x) → s.thr t = .run c w₀ (.act a k) →
    T.front c = true → M.exec t a x s.world = some (.done r w) → T.Allows s.world a r
  rely : ∀ {hs w w'}, Ω.Rest hs w → T.Rely w w' → Ω.Rest hs w'
  closes : ∀ {hs w t c v w₁ w₂}, T.front c = true → Ω.Open hs w t c → Ω.Spec t c w v w₁ →
    T.Good w₁ → T.Rely w₁ w₂ → Ω.Rest (Function.update hs t ((c,v) :: hs t)) w₂

variable {T M} {P : Sys A R W C V → Label C E X → Prop} {Ω : Protocol W C V}

theorem deeds_ret {s s' : Sys A R W C V} {t : Nat} {c : C} {v : V}
    (h : s'.hist = Function.update s.hist t ((c,v) :: s.hist t)) :
    T.deeds s' = if T.front c then Function.update (T.deeds s) t ((c,v) :: T.deeds s t)
      else T.deeds s := by
  funext u
  by_cases hu : u = t
  · subst u
    cases hf : T.front c <;> simp [deeds,h,hf]
  · cases hf : T.front c <;> simp [deeds,h,hu]

theorem meek_wp {α : Type} {p : Prog A R α} (h : Always T.meek p) :
    wp (T.watching M) p (fun _ _ => True) none :=
  h.wp (fun _ ha => ha) (fun _ _ _ _ hn => hn)

/-- How the accounts of the threads relate to the system. -/
structure Kept (T : Turns A R W C) (Ω : Protocol W C V) (g : Nat → Option (Nat × W))
    (s : Sys A R W C V) : Prop where
  front : ∀ t c w₀, s.turn t = some (c,w₀) → T.front c = true →
    Ω.Open (T.deeds s) w₀ t c ∧ ∃ w, g t = some (t,w) ∧ T.Good w ∧ T.Rely w s.world
  back : ∀ t c w₀, s.turn t = some (c,w₀) → T.front c = false → g t = none
  one : ∀ t u c d w₀ w₁, s.turn t = some (c,w₀) → s.turn u = some (d,w₁) → T.front c = true →
    T.front d = true → t = u
  rest : T.Still s → Ω.Rest (T.deeds s) s.world

/-- Steps that begin and end no call, and that leave the world where it may be left. -/
theorem Kept.move (hT : T.Bears M) (hrest : ∀ {hs w w'}, Ω.Rest hs w → T.Rely w w' → Ω.Rest hs w')
    {g : Nat → Option (Nat × W)} {s s' : Sys A R W C V} (h : Kept T Ω g s)
    (hturn : s'.turn = s.turn) (hhist : s'.hist = s.hist) (hw : T.Rely s.world s'.world) :
    Kept T Ω g s' := by
  have hdeeds : T.deeds s' = T.deeds s := by
    funext u
    simp [deeds,hhist]
  refine ⟨fun t c w₀ ht hc => ?_,fun t c w₀ ht => ?_,fun t u c d w₀ w₁ ht hu => ?_,fun hs => ?_⟩
  · rw [hturn] at ht
    obtain ⟨ho,w,hg,hgood,hr⟩ := h.front t c w₀ ht hc
    exact ⟨hdeeds ▸ ho,w,hg,hgood,hT.trans hr hw⟩
  · rw [hturn] at ht
    exact h.back t c w₀ ht
  · rw [hturn] at ht hu
    exact h.one t u c d w₀ w₁ ht hu
  · rw [hdeeds]
    refine hrest (h.rest (fun t c w ht => hs t c w ?_)) hw
    rw [hturn]
    exact ht

@[reducible] def keeping (T : Turns A R W C) (M : Machine A R W C E X V) (Ω : Protocol W C V) :
    Assertions (T.watching M) W C V where
  J := Kept T Ω
  Idle _ _ _ := True
  Began t c _ w₀ γ := T.front c = true → γ = some (t,w₀)
  Post t c γ₀ v γ := T.front c = true → ∀ w₀, γ₀ = some (t,w₀) →
    ∃ w, γ = some (t,w) ∧ Ω.Spec t c w₀ v w
  Dead _ := False
  Link _ _ := True

theorem turn_update_run {s : Sys A R W C V} {t : Nat} {c : C} {w₀ : W} {p q : Prog A R V} {w : W}
    (ht : s.thr t = .run c w₀ p) :
    ({ s with world := w, thr := Function.update s.thr t (.run c w₀ q) } : Sys A R W C V).turn =
      s.turn := by
  funext u
  by_cases hu : u = t
  · subst u
    simp [Sys.turn,ht]
  · simp [Sys.turn,hu]

theorem keepingOutline (F : T.Follows M P Ω) : Outline M P (keeping T M Ω) where
  call := by
    intro s g t c h hp ht
    have hidle : s.turn t = none := by simp [Sys.turn,ht]
    let s' : Sys A R W C V :=
      { s with thr := Function.update s.thr t (.run c s.world (M.code c)) }
    have hself : s'.turn t = some (c,s.world) := by simp [Sys.turn,s']
    have hother {u : Nat} (hu : u ≠ t) : s'.turn u = s.turn u := by simp [Sys.turn,s',hu]
    have hdeeds : T.deeds s' = T.deeds s := rfl
    cases hc : T.front c with
    | true =>
      have hstill := F.alone hp hc ht (fun u d w hu hd => (h.1.front u d w hu hd).1)
      have hrest := h.1.rest hstill
      have hopen := F.begins hp hc hrest
      refine ⟨some (t,s.world),⟨fun u d w₀ hu hd => ?_,fun u d w₀ hu hd => ?_,
        fun u v d e w₀ w₁ hu hv hd he => ?_,fun hs => ?_⟩,fun _ => rfl,?_⟩
      · by_cases hut : u = t
        · subst u
          cases hself.symm.trans hu
          exact ⟨hopen,s.world,by simp,F.good hc hopen,F.bears.refl _⟩
        · rw [hother hut] at hu
          rw [hstill u d w₀ hu] at hd
          cases hd
      · by_cases hut : u = t
        · subst u
          cases hself.symm.trans hu
          rw [hc] at hd
          cases hd
        · rw [hother hut] at hu
          simpa [hut] using h.1.back u d w₀ hu hd
      · have only {u : Nat} {d : C} {w : W} (hu : s'.turn u = some (d,w)) (hd : T.front d = true) :
            u = t := by
          by_contra hut
          rw [hother hut] at hu
          rw [hstill u d w hu] at hd
          cases hd
        rw [only hu hd,only hv he]
      · rw [hs t c s.world hself] at hc
        cases hc
      · refine wp_mono (fun v γ hv => ?_) (F.code hc hopen)
        obtain ⟨w',hγ,hspec⟩ := hv
        intro _ w₀ hw₀
        cases hw₀
        exact ⟨w',hγ,hspec⟩
    | false =>
      refine ⟨none,⟨fun u d w₀ hu hd => ?_,fun u d w₀ hu hd => ?_,
        fun u v d e w₀ w₁ hu hv hd he => ?_,fun hs => ?_⟩,?_,?_⟩
      · have hut : u ≠ t := by
          intro hut
          subst u
          cases hself.symm.trans hu
          rw [hc] at hd
          cases hd
        rw [hother hut] at hu
        obtain ⟨hopen,w,hg,hgood,hrel⟩ := h.1.front u d w₀ hu hd
        exact ⟨hopen,w,by simpa [hut] using hg,hgood,hrel⟩
      · by_cases hut : u = t
        · subst u
          simp
        · rw [hother hut] at hu
          simpa [hut] using h.1.back u d w₀ hu hd
      · have old {u : Nat} {d : C} {w : W} (hu : s'.turn u = some (d,w)) (hd : T.front d = true) :
            s.turn u = some (d,w) := by
          have hut : u ≠ t := by
            intro hut
            subst u
            cases hself.symm.trans hu
            rw [hc] at hd
            cases hd
          rwa [hother hut] at hu
        exact h.1.one u v d e w₀ w₁ (old hu hd) (old hv he) hd he
      · refine h.1.rest (fun u d w hu => ?_)
        have hut : u ≠ t := by
          intro hut
          subst u
          rw [hidle] at hu
          cases hu
        exact hs u d w (by rw [hother hut]; exact hu)
      · intro hf
        rw [hc] at hf
        cases hf
      · refine wp_mono (fun v γ _ hf => ?_) (meek_wp (F.back hp hc))
        rw [hc] at hf
        cases hf
  ret := by
    intro t c hs w₀ γ₀ v γ _ _ _
    trivial
  leave := by
    intro s g t c w₀ v h ht
    have hself := Sys.turn_run ht
    let s' : Sys A R W C V := { s with
      thr := Function.update s.thr t .idle
      hist := Function.update s.hist t ((c,v) :: s.hist t) }
    have hnone : s'.turn t = none := by simp [Sys.turn,s']
    have old {u : Nat} {d : C} {w : W} (hu : s'.turn u = some (d,w)) :
        u ≠ t ∧ s.turn u = some (d,w) := by
      have hut : u ≠ t := by
        intro hut
        subst u
        rw [hnone] at hu
        cases hu
      exact ⟨hut,by simpa [Sys.turn,s',hut] using hu⟩
    have hdeeds : T.deeds s' = if T.front c then Function.update (T.deeds s) t ((c,v) :: T.deeds s t)
        else T.deeds s := deeds_ret rfl
    have hone : ∀ u v d e w₀ w₁, s'.turn u = some (d,w₀) → s'.turn v = some (e,w₁) →
        T.front d = true → T.front e = true → u = v := fun u v d e w₀ w₁ hu hv =>
      h.1.one u v d e w₀ w₁ (old hu).2 (old hv).2
    cases hc : T.front c with
    | true =>
      rw [hc,if_pos rfl] at hdeeds
      obtain ⟨hopen,w,hg,hgood,hrel⟩ := h.1.front t c w₀ hself hc
      refine ⟨fun u d w₁ hu hd => ?_,fun u d w₁ hu => h.1.back u d w₁ (old hu).2,hone,fun _ => ?_⟩
      · exact absurd (h.1.one u t d c w₁ w₀ (old hu).2 hself hd hc) (old hu).1
      · obtain ⟨γ₀,hb,_,hpost⟩ := h.post ht
        obtain ⟨w',hw',hspec⟩ := hpost hc w₀ (hb hc)
        cases hg.symm.trans hw'
        rw [hdeeds]
        exact F.closes hc hopen hspec hgood hrel
    | false =>
      rw [hc,if_neg Bool.false_ne_true] at hdeeds
      refine ⟨fun u d w₁ hu hd => ?_,fun u d w₁ hu => h.1.back u d w₁ (old hu).2,hone,fun hs => ?_⟩
      · rw [hdeeds]
        exact h.1.front u d w₁ (old hu).2 hd
      · rw [hdeeds]
        refine h.1.rest (fun u d w hu => ?_)
        by_cases hut : u = t
        · subst u
          cases hself.symm.trans hu
          exact hc
        · exact hs u d w (by simpa [Sys.turn,s',hut] using hu)
  link_refl _ := trivial
  link _ _ := trivial
  done := by
    intro s g t x c w₀ a k r w h hp ht he
    have hself := Sys.turn_run ht
    cases hc : T.front c with
    | true =>
      obtain ⟨hopen,w₁,hg,_,hrel⟩ := h.1.front t c w₀ hself hc
      have hallows := F.allows hp ht hc he
      have hok := h.ok ht
      rw [hg] at hok
      have hgood := (hok x _ hrel).2 r w hallows he
      refine ⟨some (t,w),?_,?_⟩
      · rw [hg]
        exact ⟨x,s.world,w,hrel,hallows,he,rfl⟩
      · have hturn := turn_update_run (w := w) (q := k r) ht
        refine ⟨fun u d w₂ hu hd => ?_,fun u d w₂ hu hd => ?_,fun u v d e w₂ w₃ hu hv => ?_,
          fun hs => ?_⟩
        · rw [hturn] at hu
          cases h.1.one u t d c w₂ w₀ hu hself hd hc
          cases hself.symm.trans hu
          exact ⟨hopen,w,by simp,hgood,F.bears.refl _⟩
        · rw [hturn] at hu
          have hut : u ≠ t := by
            intro hut
            subst u
            cases hself.symm.trans hu
            rw [hc] at hd
            cases hd
          simpa [hut] using h.1.back u d w₂ hu hd
        · rw [hturn] at hu hv
          exact h.1.one u v d e w₂ w₃ hu hv
        · have hcf := hs t c w₀ (by rw [hturn]; exact hself)
          rw [hc] at hcf
          cases hcf
    | false =>
      have hg := h.1.back t c w₀ hself hc
      have hmeek : T.meek a := by
        have hok := h.ok ht
        rw [hg] at hok
        exact hok
      refine ⟨none,by rw [hg],?_⟩
      rw [← hg,Function.update_eq_self]
      exact h.1.move F.bears F.rely (turn_update_run ht) rfl (F.bears.meek hmeek he)
  stay := by
    intro s g t x c w₀ a k w h _ _ he
    exact h.1.move F.bears F.rely rfl rfl (F.bears.stay he)
  oops := by
    intro s g t x c w₀ a k w h _ ht he
    have hself := Sys.turn_run ht
    have hok := h.ok ht
    cases hc : T.front c with
    | true =>
      obtain ⟨_,w₁,hg,_,hrel⟩ := h.1.front t c w₀ hself hc
      rw [hg] at hok
      exact absurd he ((hok x _ hrel).1 _)
    | false =>
      rw [h.1.back t c w₀ hself hc] at hok
      exact absurd he (F.bears.whole hok)
  env := by
    intro s g e w h _ he
    exact h.1.move F.bears F.rely rfl rfl (F.bears.env he)

/-- A protocol that is kept call by call is kept by every run. -/
theorem Follows.reaches (F : T.Follows M P Ω) {w : W} (h₀ : Ω.Rest (fun _ => []) w)
    {s : Sys A R W C V} (hr : M.Reaches P ⟨w,fun _ => .idle,fun _ => []⟩ s) :
    (T.Still s → Ω.Rest (T.deeds s) s.world) ∧
    (∀ t c w₀, s.turn t = some (c,w₀) → T.front c = true → Ω.Open (T.deeds s) w₀ t c) ∧
    (∀ t c w₀ v, s.thr t = .run c w₀ (.ret v) → T.front c = true →
      ∃ w', Ω.Spec t c w₀ v w' ∧ T.Rely w' s.world) ∧
    ∀ t c w₀, s.turn t = some (c,w₀) → T.front c = true → T.Good s.world := by
  have hstart : (keeping T M Ω).Holds ⟨w,fun _ => .idle,fun _ => []⟩ (fun _ => none) := by
    refine ⟨⟨fun t c w₀ ht => ?_,fun t c w₀ ht => ?_,fun t u c d w₀ w₁ ht => ?_,fun _ => ?_⟩,
      fun _ => trivial⟩
    · cases ht
    · cases ht
    · cases ht
    · exact h₀
  obtain ⟨g,hg⟩ := (keepingOutline F).reaches hstart hr
  refine ⟨hg.1.rest,fun t c w₀ ht hc => (hg.1.front t c w₀ ht hc).1,fun t c w₀ v ht hc => ?_,
    fun t c w₀ ht hc => ?_⟩
  · obtain ⟨_,w₁,hgt,_,hrel⟩ := hg.1.front t c w₀ (Sys.turn_run ht) hc
    obtain ⟨γ₀,hb,_,hpost⟩ := hg.post ht
    obtain ⟨w',hw',hspec⟩ := hpost hc w₀ (hb hc)
    cases hgt.symm.trans hw'
    exact ⟨w₁,hspec,hrel⟩
  · obtain ⟨_,w₁,_,hgood,hrel⟩ := hg.1.front t c w₀ ht hc
    exact F.bears.good hgood hrel

end Turns

end Interleave
