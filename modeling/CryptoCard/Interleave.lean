import CryptoCard.Program
import Mathlib.Logic.Function.Basic
set_option autoImplicit false

/-! Any number of threads that run programs over one shared world, one atomic
action at a time, and the rule that turns proofs about single programs into
invariants of all interleavings. -/
namespace Interleave
open Program

variable {A : Type} {R : A → Type} {W C E X V : Type}

/-- One atomic action may leave the thread where it is (a busy loop, a sleep),
finish with an answer, or kill the thread. -/
inductive Out (W ρ : Type) where
  | stay : W → Out W ρ
  | done : ρ → W → Out W ρ
  | oops : W → Out W ρ

/-- `exec t a x w` performs `a` for thread `t`, with `x` deciding what the action
leaves open; `none` means that it cannot go ahead. `env` are the steps nobody's
program takes, and `code` the program of each call a thread can make. -/
structure Machine (A : Type) (R : A → Type) (W C E X V : Type) where
  exec : Nat → (a : A) → X → W → Option (Out W (R a))
  env : E → W → Option W
  code : C → Prog A R V

/-- A running thread remembers its call and the world it was made in; neither is
read by any step. -/
inductive Thread (A : Type) (R : A → Type) (W C V : Type) where
  | idle : Thread A R W C V
  | run : C → W → Prog A R V → Thread A R W C V
  | dead : Thread A R W C V

/-- `hist t` lists the finished calls of `t` with their results, last one first. -/
structure Sys (A : Type) (R : A → Type) (W C V : Type) where
  world : W
  thr : Nat → Thread A R W C V
  hist : Nat → List (C × V)

inductive Label (C E X : Type) where
  | call : Nat → C → Label C E X
  | act : Nat → X → Label C E X
  | ret : Nat → Label C E X
  | env : E → Label C E X

def Label.below (n : Nat) : Label C E X → Bool
  | .call t _ | .act t _ | .ret t => t < n
  | .env _ => true

/-- The action a thread is about to perform. -/
def Sys.next (s : Sys A R W C V) (t : Nat) : Option A :=
  match s.thr t with
  | .run _ _ (.act a _) => some a
  | _ => none

theorem Sys.next_eq {s : Sys A R W C V} {t : Nat} {a : A} (h : s.next t = some a) :
    ∃ c w₀ k, s.thr t = .run c w₀ (.act a k) := by
  unfold Sys.next at h
  split at h
  · rename_i c w₀ a' k ht
    cases h
    exact ⟨c,w₀,k,ht⟩
  · cases h

/-- The call that is over but for its return, with its result. -/
def Sys.returns (s : Sys A R W C V) (t : Nat) : Option (C × V) :=
  match s.thr t with
  | .run c _ (.ret v) => some (c,v)
  | _ => none

theorem Sys.returns_eq {s : Sys A R W C V} {t : Nat} {c : C} {v : V}
    (h : s.returns t = some (c,v)) : ∃ w₀, s.thr t = .run c w₀ (.ret v) := by
  unfold Sys.returns at h
  split at h
  · rename_i c' w₀ v' ht
    cases h
    exact ⟨w₀,ht⟩
  · cases h

def Sys.isIdle (s : Sys A R W C V) (t : Nat) : Bool :=
  match s.thr t with
  | .idle => true
  | _ => false

theorem Sys.idle_of_isIdle {s : Sys A R W C V} {t : Nat} (h : s.isIdle t = true) :
    s.thr t = .idle := by
  unfold Sys.isIdle at h
  split at h
  · assumption
  · cases h

/-- The threads from `n` on have no call in progress. -/
def Sys.Quiet (s : Sys A R W C V) (n : Nat) : Prop := ∀ t, n ≤ t → s.thr t = .idle

theorem Sys.Quiet.lt {s : Sys A R W C V} {n t : Nat} {a : A} (hq : s.Quiet n)
    (h : s.next t = some a) : t < n := by
  by_contra ht
  simp [Sys.next,hq t (by omega)] at h

namespace Machine

variable (M : Machine A R W C E X V)

def actStep (t : Nat) (x : X) (s : Sys A R W C V) : Option (Sys A R W C V) :=
  match s.thr t with
  | .run c w₀ (.act a k) =>
    match M.exec t a x s.world with
    | some (.stay w) => some { s with world := w }
    | some (.done r w) =>
      some { s with world := w, thr := Function.update s.thr t (.run c w₀ (k r)) }
    | some (.oops w) => some { s with world := w, thr := Function.update s.thr t .dead }
    | none => none
  | _ => none

def step (s : Sys A R W C V) : Label C E X → Option (Sys A R W C V)
  | .call t c =>
    match s.thr t with
    | .idle => some { s with thr := Function.update s.thr t (.run c s.world (M.code c)) }
    | _ => none
  | .act t x => M.actStep t x s
  | .ret t =>
    match s.thr t with
    | .run c _ (.ret v) =>
      some { s with thr := Function.update s.thr t .idle
                    hist := Function.update s.hist t ((c,v) :: s.hist t) }
    | _ => none
  | .env e => (M.env e s.world).map (fun w => { s with world := w })

/-- Runs whose every step is admitted by `P`. -/
inductive Reaches (P : Sys A R W C V → Label C E X → Prop) (s : Sys A R W C V) :
    Sys A R W C V → Prop where
  | refl : Reaches P s s
  | tail {s' s'' : Sys A R W C V} {l : Label C E X} :
      Reaches P s s' → P s' l → M.step s' l = some s'' → Reaches P s s''

/-- Follow a list of labels of threads below `n` as long as `b` admits them. -/
def runIf (n : Nat) (b : Sys A R W C V → Label C E X → Bool) :
    Sys A R W C V → List (Label C E X) → Option (Sys A R W C V)
  | s, [] => some s
  | s, l :: ls =>
    if l.below n && b s l then
      match M.step s l with
      | some s' => runIf n b s' ls
      | none => none
    else none

variable {M} {P : Sys A R W C V → Label C E X → Prop}

theorem Reaches.trans {s s' s'' : Sys A R W C V} (h : M.Reaches P s s')
    (h' : M.Reaches P s' s'') : M.Reaches P s s'' := by
  induction h' with
  | refl => exact h
  | tail _ hp hs ih => exact .tail ih hp hs

theorem Reaches.head {s s' s'' : Sys A R W C V} {l : Label C E X} (hp : P s l)
    (hs : M.step s l = some s') (h : M.Reaches P s' s'') : M.Reaches P s s'' :=
  Reaches.trans (.tail .refl hp hs) h

/-- An invariant of the steps of a run holds before and after each of them. -/
theorem Reaches.along {I : Sys A R W C V → Prop}
    (hI : ∀ s l s', I s → P s l → M.step s l = some s' → I s') {s s' : Sys A R W C V}
    (h : I s) (hr : M.Reaches P s s') :
    I s' ∧ M.Reaches (fun s l => P s l ∧ I s ∧ ∀ s', M.step s l = some s' → I s') s s' := by
  induction hr with
  | refl => exact ⟨h,.refl⟩
  | @tail s₁ s₂ l _ hp hs ih =>
    have hnext (s' : Sys A R W C V) (hs : M.step s₁ l = some s') : I s' := hI _ _ _ ih.1 hp hs
    exact ⟨hnext _ hs,.tail ih.2 ⟨hp,ih.1,hnext⟩ hs⟩

/-- A relation that every step of a run keeps, with some steps of another machine in
answer, relates the run to one of the other machine. -/
theorem Reaches.mimicked {B : Type} {S : B → Type} {W' C' E' X' V' : Type}
    {M' : Machine B S W' C' E' X' V'} {P' : Sys B S W' C' V' → Label C' E' X' → Prop}
    {Sim : Sys A R W C V → Sys B S W' C' V' → Prop}
    (hsim : ∀ s z l s', Sim s z → P s l → M.step s l = some s' →
      ∃ z', M'.Reaches P' z z' ∧ Sim s' z')
    {s s' : Sys A R W C V} {z : Sys B S W' C' V'} (h : Sim s z) (hr : M.Reaches P s s') :
    ∃ z', M'.Reaches P' z z' ∧ Sim s' z' := by
  induction hr with
  | refl => exact ⟨z,.refl,h⟩
  | tail _ hp hs ih =>
    obtain ⟨z₁,hr₁,h₁⟩ := ih
    obtain ⟨z₂,hr₂,h₂⟩ := hsim _ _ _ _ h₁ hp hs
    exact ⟨z₂,hr₁.trans hr₂,h₂⟩

/-- What the action of a running thread can do to the system. -/
theorem actStep_cases {t : Nat} {x : X} {s s' : Sys A R W C V}
    (h : M.actStep t x s = some s') :
    ∃ c w₀ a k, s.thr t = .run c w₀ (.act a k) ∧
      ((∃ w, M.exec t a x s.world = some (.stay w) ∧ s' = { s with world := w }) ∨
       (∃ r w, M.exec t a x s.world = some (.done r w) ∧
          s' = { s with world := w, thr := Function.update s.thr t (.run c w₀ (k r)) }) ∨
       (∃ w, M.exec t a x s.world = some (.oops w) ∧
          s' = { s with world := w, thr := Function.update s.thr t .dead })) := by
  unfold actStep at h
  split at h
  · rename_i c w₀ a k ht
    refine ⟨c,w₀,a,k,ht,?_⟩
    split at h
    · rename_i w he
      exact .inl ⟨w,he,(Option.some.inj h).symm⟩
    · rename_i r w he
      exact .inr (.inl ⟨r,w,he,(Option.some.inj h).symm⟩)
    · rename_i w he
      exact .inr (.inr ⟨w,he,(Option.some.inj h).symm⟩)
    · cases h
  · cases h

section
variable {s : Sys A R W C V} {t : Nat} {x : X} {c : C} {w₀ w : W} {a : A} {k : R a → Prog A R V}

theorem step_call (ht : s.thr t = .idle) : M.step s (.call t c) =
    some { s with thr := Function.update s.thr t (.run c s.world (M.code c)) } := by
  simp only [step,ht]

theorem step_done {r : R a} (ht : s.thr t = .run c w₀ (.act a k))
    (he : M.exec t a x s.world = some (.done r w)) : M.step s (.act t x) =
    some { s with world := w, thr := Function.update s.thr t (.run c w₀ (k r)) } := by
  simp only [step,actStep,ht,he]

theorem step_stay (ht : s.thr t = .run c w₀ (.act a k))
    (he : M.exec t a x s.world = some (.stay w)) :
    M.step s (.act t x) = some { s with world := w } := by
  simp only [step,actStep,ht,he]

theorem step_oops (ht : s.thr t = .run c w₀ (.act a k))
    (he : M.exec t a x s.world = some (.oops w)) : M.step s (.act t x) =
    some { s with world := w, thr := Function.update s.thr t .dead } := by
  simp only [step,actStep,ht,he]

theorem step_ret {v : V} (ht : s.thr t = .run c w₀ (.ret v)) : M.step s (.ret t) =
    some { s with thr := Function.update s.thr t .idle
                  hist := Function.update s.hist t ((c,v) :: s.hist t) } := by
  simp only [step,ht]

theorem step_env {e : E} (he : M.env e s.world = some w) :
    M.step s (.env e) = some { s with world := w } := by
  simp only [step,he,Option.map_some]

end

theorem quiet_step {n : Nat} {s s' : Sys A R W C V} {l : Label C E X}
    (hq : s.Quiet n) (hl : l.below n = true) (hs : M.step s l = some s') : s'.Quiet n := by
  intro t ht
  have other {u : Nat} {θ : Thread A R W C V} (hu : decide (u < n) = true) :
      Function.update s.thr u θ t = .idle := by
    have hu := of_decide_eq_true hu
    rw [Function.update_of_ne (by omega)]
    exact hq t ht
  cases l with
  | call u c =>
    simp only [step] at hs
    split at hs
    · cases hs
      exact other hl
    · cases hs
  | act u x =>
    obtain ⟨c,w₀,a,k,_,⟨w,_,rfl⟩ | ⟨r,w,_,rfl⟩ | ⟨w,_,rfl⟩⟩ := actStep_cases hs
    · exact hq t ht
    · exact other hl
    · exact other hl
  | ret u =>
    simp only [step] at hs
    split at hs
    · cases hs
      exact other hl
    · cases hs
  | env e =>
    simp only [step,Option.map_eq_some_iff] at hs
    obtain ⟨w,_,rfl⟩ := hs
    exact hq t ht

theorem reaches_of_runIf {n : Nat} {b : Sys A R W C V → Label C E X → Bool}
    (hb : ∀ s l, s.Quiet n → b s l = true → P s l) (ls : List (Label C E X))
    {s s' : Sys A R W C V} (hq : s.Quiet n) (h : M.runIf n b s ls = some s') :
    M.Reaches P s s' ∧ s'.Quiet n := by
  induction ls generalizing s with
  | nil =>
    cases h
    exact ⟨.refl,hq⟩
  | cons l ls ih =>
    simp only [runIf] at h
    split at h
    · rename_i hl
      have hl := Bool.and_eq_true_iff.mp hl
      split at h
      · rename_i s₁ hs
        obtain ⟨hr,hq'⟩ := ih (quiet_step hq hl.1 hs) h
        exact ⟨Reaches.head (hb _ _ hq hl.2) hs hr,hq'⟩
      · cases h
    · cases h

/-- A list of labels that leads to a state with `p` shows such a run. -/
theorem exists_reaches {n : Nat} {b : Sys A R W C V → Label C E X → Bool}
    (hb : ∀ s l, s.Quiet n → b s l = true → P s l) (ls : List (Label C E X))
    {s : Sys A R W C V} (hq : s.Quiet n) {p : Sys A R W C V → Bool}
    (h : (M.runIf n b s ls).any p = true) :
    ∃ s', M.Reaches P s s' ∧ s'.Quiet n ∧ p s' = true := by
  obtain ⟨s',hs,hp⟩ := Option.any_eq_true _ _ |>.mp h
  obtain ⟨hr,hq'⟩ := reaches_of_runIf hb ls hq hs
  exact ⟨s',hr,hq',hp⟩

variable (M) in
/-- Some choices that are `ok`, with steps of the environment in between, take thread
`t` through `p` from `w` to an answer with `Q`. -/
inductive Can (t : Nat) (ok : X → Prop) {α : Type} (Q : α → W → Prop) :
    Prog A R α → W → Prop where
  | ret {x : α} {w : W} : Q x w → Can t ok Q (.ret x) w
  | act {a : A} {k : R a → Prog A R α} {w w' : W} {r : R a} (x : X) :
      ok x → M.exec t a x w = some (.done r w') → Can t ok Q (k r) w' → Can t ok Q (.act a k) w
  | env {p : Prog A R α} {w w' : W} (e : E) :
      M.env e w = some w' → Can t ok Q p w' → Can t ok Q p w

namespace Can

variable {t : Nat} {ok : X → Prop} {α β : Type} {Q : β → W → Prop}

theorem bind {p : Prog A R α} {f : α → Prog A R β} {w : W}
    (h : M.Can t ok (fun x w => M.Can t ok Q (f x) w) p w) : M.Can t ok Q (p >>= f) w := by
  induction h with
  | ret h => exact h
  | act x hx he _ ih => exact .act x hx he ih
  | env e he _ ih => exact .env e he ih

theorem step {a : A} {k : R a → Prog A R β} {w w' : W} {r : R a} (x : X) (hx : ok x)
    (he : M.exec t a x w = some (.done r w')) (h : M.Can t ok Q (k r) w') :
    M.Can t ok Q (perform a >>= k) w := .act x hx he h

/-- What `I` says of a world that the environment has its way with holds until the next
action, which has an answer. -/
theorem act_inv {I : W → Prop} (hI : ∀ e w w', I w → M.env e w = some w' → I w') {a : A}
    {k : R a → Prog A R β} {w : W} (h : M.Can t ok Q (.act a k) w) (hw : I w) :
    ∃ x r w₁ w₂, I w₁ ∧ M.exec t a x w₁ = some (.done r w₂) ∧ M.Can t ok Q (k r) w₂ := by
  generalize hp : Prog.act a k = p at h
  induction h with
  | ret _ => cases hp
  | act x _ he hk _ =>
    cases hp
    exact ⟨x,_,_,_,hw,he,hk⟩
  | env e he _ ih => exact ih (hI e _ _ hw he) hp

theorem step_inv {I : W → Prop} (hI : ∀ e w w', I w → M.env e w = some w' → I w') {a : A}
    {k : R a → Prog A R β} {w : W} (h : M.Can t ok Q (perform a >>= k) w) (hw : I w) :
    ∃ x r w₁ w₂, I w₁ ∧ M.exec t a x w₁ = some (.done r w₂) ∧ M.Can t ok Q (k r) w₂ :=
  act_inv hI (k := k) h hw

theorem ret_inv {I : W → Prop} (hI : ∀ e w w', I w → M.env e w = some w' → I w') {v : β} {w : W}
    (h : M.Can t ok Q (.ret v) w) (hw : I w) : ∃ w', I w' ∧ Q v w' := by
  generalize hp : Prog.ret v = p at h
  induction h with
  | ret hq =>
    cases hp
    exact ⟨_,hw,hq⟩
  | act x _ he hk _ => cases hp
  | env e he _ ih => exact ih (hI e _ _ hw he) hp

/-- A thread that can return does so in a run in which no other thread moves. -/
theorem reaches {Q : V → W → Prop} {p : Prog A R V} {w : W} (h : M.Can t ok Q p w)
    (hact : ∀ s x, ok x → P s (.act t x)) (henv : ∀ s e, P s (.env e))
    {s : Sys A R W C V} {c : C} {w₀ : W} (ht : s.thr t = .run c w₀ p) (hw : s.world = w) :
    ∃ s' v, M.Reaches P s s' ∧ s'.thr t = .run c w₀ (.ret v) ∧ s'.hist = s.hist ∧
      Q v s'.world := by
  induction h generalizing s with
  | ret h => exact ⟨s,_,.refl,ht,rfl,hw ▸ h⟩
  | @act a k w w' r x hx he _ ih =>
    have hs : M.step s (.act t x) = some { s with
        world := w', thr := Function.update s.thr t (.run c w₀ (k r)) } := by
      simp only [Machine.step,actStep,ht,hw,he]
    obtain ⟨s',v,hr,hdone⟩ := ih (s := { s with
      world := w', thr := Function.update s.thr t (.run c w₀ (k r)) })
      (Function.update_self _ _ _) rfl
    exact ⟨s',v,.head (hact _ _ hx) hs hr,hdone⟩
  | @env p w w' e he _ ih =>
    have hs : M.step s (.env e) = some { s with world := w' } := by
      simp only [Machine.step,hw,he,Option.map_some]
    obtain ⟨s',v,hr,hdone⟩ := ih (s := { s with world := w' }) ht rfl
    exact ⟨s',v,.head (henv _ _) hs hr,hdone⟩

/-- A call that can return does so from its beginning to its end. -/
theorem called {Q : V → W → Prop} {s : Sys A R W C V} {c : C} (h : M.Can t ok Q (M.code c) s.world)
    (ht : s.thr t = .idle) (hcall : P s (.call t c)) (hact : ∀ s x, ok x → P s (.act t x))
    (hret : ∀ s, P s (.ret t)) (henv : ∀ s e, P s (.env e)) :
    ∃ s' v, M.Reaches P s s' ∧ s'.thr t = .idle ∧
      s'.hist = Function.update s.hist t ((c,v) :: s.hist t) ∧ Q v s'.world := by
  obtain ⟨s₁,v,hr,ht₁,hh,hq⟩ := h.reaches hact henv
    (s := { s with thr := Function.update s.thr t (.run c s.world (M.code c)) })
    (Function.update_self _ _ _) rfl
  refine ⟨_,v,.tail (.head hcall (step_call ht) hr) (hret _) (step_ret ht₁),
    Function.update_self _ _ _,?_,hq⟩
  rw [hh]

end Can

variable (M) in
/-- Some choices that are `ok`, with steps of the environment in between, take thread
`t` from `p` and `w` to a world with `Q`. -/
inductive Hits (t : Nat) (ok : X → Prop) {α : Type} (Q : W → Prop) : Prog A R α → W → Prop where
  | here {p : Prog A R α} {w : W} : Q w → Hits t ok Q p w
  | act {a : A} {k : R a → Prog A R α} {w w' : W} {r : R a} (x : X) :
      ok x → M.exec t a x w = some (.done r w') → Hits t ok Q (k r) w' → Hits t ok Q (.act a k) w
  | env {p : Prog A R α} {w w' : W} (e : E) :
      M.env e w = some w' → Hits t ok Q p w' → Hits t ok Q p w

namespace Hits

variable {t : Nat} {ok : X → Prop} {α β : Type} {Q : W → Prop}

/-- In the first part of a program. -/
theorem left {p : Prog A R α} {f : α → Prog A R β} {w : W} (h : M.Hits t ok Q p w) :
    M.Hits t ok Q (p >>= f) w := by
  induction h with
  | here h => exact .here h
  | act x hx he _ ih => exact .act x hx he ih
  | env e he _ ih => exact .env e he ih

/-- After the first part of a program. -/
theorem after {S : α → W → Prop} {p : Prog A R α} {f : α → Prog A R β} {w : W}
    (h : M.Can t ok S p w) (hf : ∀ x w, S x w → M.Hits t ok Q (f x) w) :
    M.Hits t ok Q (p >>= f) w := by
  induction h with
  | ret h => exact hf _ _ h
  | act x hx he _ ih => exact .act x hx he ih
  | env e he _ ih => exact .env e he ih

theorem step {a : A} {k : R a → Prog A R β} {w w' : W} {r : R a} (x : X) (hx : ok x)
    (he : M.exec t a x w = some (.done r w')) (h : M.Hits t ok Q (k r) w') :
    M.Hits t ok Q (perform a >>= k) w := .act x hx he h

theorem reaches {p : Prog A R V} {w : W} (h : M.Hits t ok Q p w)
    (hact : ∀ s x, ok x → P s (.act t x)) (henv : ∀ s e, P s (.env e))
    {s : Sys A R W C V} {c : C} {w₀ : W} (ht : s.thr t = .run c w₀ p) (hw : s.world = w) :
    ∃ s', M.Reaches P s s' ∧ Q s'.world := by
  induction h generalizing s with
  | here h => exact ⟨s,.refl,hw ▸ h⟩
  | @act a k w w' r x hx he _ ih =>
    have hs : M.step s (.act t x) = some { s with
        world := w', thr := Function.update s.thr t (.run c w₀ (k r)) } := by
      simp only [Machine.step,actStep,ht,hw,he]
    obtain ⟨s',hr,hq⟩ := ih (s := { s with
      world := w', thr := Function.update s.thr t (.run c w₀ (k r)) })
      (Function.update_self _ _ _) rfl
    exact ⟨s',.head (hact _ _ hx) hs hr,hq⟩
  | @env p w w' e he _ ih =>
    have hs : M.step s (.env e) = some { s with world := w' } := by
      simp only [Machine.step,hw,he,Option.map_some]
    obtain ⟨s',hr,hq⟩ := ih (s := { s with world := w' }) ht rfl
    exact ⟨s',.head (henv _ _) hs hr,hq⟩

end Hits

end Machine

/-- The assertions of a proof outline over the discipline `D`: `J` ties the
accounts of all threads to the system; `Idle`, `Began`, `Post` and `Dead` say what
the account of a thread is worth between calls, when a call was made, when it
has returned and after a crash; `Link` is what stays of an account during a call. -/
structure Assertions (D : Discipline A R) (W C V : Type) where
  J : (Nat → D.Ghost) → Sys A R W C V → Prop
  Idle : Nat → List (C × V) → D.Ghost → Prop
  Began : Nat → C → List (C × V) → W → D.Ghost → Prop
  Post : Nat → C → D.Ghost → V → D.Ghost → Prop
  Dead : D.Ghost → Prop
  Link : D.Ghost → D.Ghost → Prop

namespace Assertions

variable {D : Discipline A R} (Γ : Assertions D W C V)

def ThreadOk (t : Nat) (hs : List (C × V)) : Thread A R W C V → D.Ghost → Prop
  | .idle, γ => Γ.Idle t hs γ
  | .run c w₀ p, γ => ∃ γ₀, Γ.Began t c hs w₀ γ₀ ∧ Γ.Link γ₀ γ ∧ wp D p (Γ.Post t c γ₀) γ
  | .dead, γ => Γ.Dead γ

def Holds (s : Sys A R W C V) (g : Nat → D.Ghost) : Prop :=
  Γ.J g s ∧ ∀ t, Γ.ThreadOk t (s.hist t) (s.thr t) (g t)

/-- A running thread is about to perform an action that is in order. -/
theorem Holds.ok {Γ : Assertions D W C V} {s : Sys A R W C V} {g : Nat → D.Ghost}
    (h : Γ.Holds s g) {t : Nat} {c : C} {w₀ : W} {a : A} {k : R a → Prog A R V}
    (ht : s.thr t = .run c w₀ (.act a k)) : D.ok (g t) a := by
  have h := h.2 t
  rw [ht] at h
  obtain ⟨γ₀,_,_,hw⟩ := h
  exact hw.1

theorem Holds.next {Γ : Assertions D W C V} {s : Sys A R W C V} {g : Nat → D.Ghost}
    (h : Γ.Holds s g) {t : Nat} {a : A} (ht : s.next t = some a) : D.ok (g t) a := by
  obtain ⟨c,w₀,k,ht⟩ := Sys.next_eq ht
  exact h.ok ht

/-- What a running thread knows since its call. -/
theorem Holds.began {Γ : Assertions D W C V} {s : Sys A R W C V} {g : Nat → D.Ghost}
    (h : Γ.Holds s g) {t : Nat} {c : C} {w₀ : W} {p : Prog A R V}
    (ht : s.thr t = .run c w₀ p) : ∃ γ₀, Γ.Began t c (s.hist t) w₀ γ₀ ∧ Γ.Link γ₀ (g t) := by
  have h := h.2 t
  rw [ht] at h
  obtain ⟨γ₀,hb,hl,_⟩ := h
  exact ⟨γ₀,hb,hl⟩

/-- A thread whose call is over has its postcondition. -/
theorem Holds.post {Γ : Assertions D W C V} {s : Sys A R W C V} {g : Nat → D.Ghost}
    (h : Γ.Holds s g) {t : Nat} {c : C} {w₀ : W} {v : V}
    (ht : s.thr t = .run c w₀ (.ret v)) :
    ∃ γ₀, Γ.Began t c (s.hist t) w₀ γ₀ ∧ Γ.Link γ₀ (g t) ∧ Γ.Post t c γ₀ v (g t) := by
  have h := h.2 t
  rw [ht] at h
  obtain ⟨γ₀,hb,hl,hp⟩ := h
  exact ⟨γ₀,hb,hl,hp⟩

end Assertions

/-- The obligations that make the assertions hold along every run whose steps
are admitted by `P`: one for each way a step can change the world. -/
structure Outline (M : Machine A R W C E X V) (P : Sys A R W C V → Label C E X → Prop)
    {D : Discipline A R} (Γ : Assertions D W C V) : Prop where
  call : ∀ {s g t c}, Γ.Holds s g → P s (.call t c) → s.thr t = .idle →
    ∃ γ, Γ.J (Function.update g t γ)
        { s with thr := Function.update s.thr t (.run c s.world (M.code c)) } ∧
      Γ.Began t c (s.hist t) s.world γ ∧ wp D (M.code c) (Γ.Post t c γ) γ
  ret : ∀ {t c hs w₀ γ₀ v γ}, Γ.Began t c hs w₀ γ₀ → Γ.Link γ₀ γ → Γ.Post t c γ₀ v γ →
    Γ.Idle t ((c,v) :: hs) γ
  leave : ∀ {s g t c w₀ v}, Γ.Holds s g → s.thr t = .run c w₀ (.ret v) →
    Γ.J g { s with thr := Function.update s.thr t .idle
                   hist := Function.update s.hist t ((c,v) :: s.hist t) }
  link_refl : ∀ γ, Γ.Link γ γ
  link : ∀ {γ₀ γ a r γ'}, Γ.Link γ₀ γ → D.next γ a r γ' → Γ.Link γ₀ γ'
  done : ∀ {s g t x c w₀ a k r w}, Γ.Holds s g → P s (.act t x) →
    s.thr t = .run c w₀ (.act a k) → M.exec t a x s.world = some (.done r w) →
    ∃ γ, D.next (g t) a r γ ∧ Γ.J (Function.update g t γ)
      { s with world := w, thr := Function.update s.thr t (.run c w₀ (k r)) }
  stay : ∀ {s g t x c w₀ a k w}, Γ.Holds s g → P s (.act t x) →
    s.thr t = .run c w₀ (.act a k) → M.exec t a x s.world = some (.stay w) →
    Γ.J g { s with world := w }
  oops : ∀ {s g t x c w₀ a k w}, Γ.Holds s g → P s (.act t x) →
    s.thr t = .run c w₀ (.act a k) → M.exec t a x s.world = some (.oops w) →
    Γ.Dead (g t) ∧ Γ.J g { s with world := w, thr := Function.update s.thr t .dead }
  env : ∀ {s g e w}, Γ.Holds s g → P s (.env e) → M.env e s.world = some w →
    Γ.J g { s with world := w }

namespace Outline

variable {M : Machine A R W C E X V} {P : Sys A R W C V → Label C E X → Prop}
variable {D : Discipline A R} {Γ : Assertions D W C V}

/-- Replacing one thread and its account keeps the accounts of the others. -/
theorem threads_update {s : Sys A R W C V} {g : Nat → D.Ghost} (t : Nat)
    (θ : Thread A R W C V) (γ : D.Ghost) (hist : Nat → List (C × V))
    (h : ∀ u, Γ.ThreadOk u (s.hist u) (s.thr u) (g u))
    (hist_eq : ∀ u, u ≠ t → hist u = s.hist u) (ht : Γ.ThreadOk t (hist t) θ γ) :
    ∀ u, Γ.ThreadOk u (hist u) (Function.update s.thr t θ u) (Function.update g t γ u) := by
  intro u
  by_cases hu : u = t
  · subst u
    simpa using ht
  · simpa [hu,hist_eq u hu] using h u

theorem called (O : Outline M P Γ) {s : Sys A R W C V} {g : Nat → D.Ghost} {t : Nat} {c : C}
    (h : Γ.Holds s g) (hp : P s (.call t c)) (ht : s.thr t = .idle) :
    ∃ γ, Γ.Began t c (s.hist t) s.world γ ∧
      Γ.Holds { s with thr := Function.update s.thr t (.run c s.world (M.code c)) }
        (Function.update g t γ) := by
  obtain ⟨γ,hJ,hb,hw⟩ := O.call h hp ht
  exact ⟨γ,hb,hJ,threads_update t _ γ s.hist h.2 (fun _ _ => rfl) ⟨γ,hb,O.link_refl γ,hw⟩⟩

theorem did (O : Outline M P Γ) {s : Sys A R W C V} {g : Nat → D.Ghost} {t : Nat} {x : X} {c : C}
    {w₀ w : W} {a : A} {k : R a → Prog A R V} {r : R a} (h : Γ.Holds s g) (hp : P s (.act t x))
    (ht : s.thr t = .run c w₀ (.act a k)) (he : M.exec t a x s.world = some (.done r w)) :
    ∃ γ, D.next (g t) a r γ ∧
      Γ.Holds { s with world := w, thr := Function.update s.thr t (.run c w₀ (k r)) }
        (Function.update g t γ) := by
  obtain ⟨γ,hn,hJ⟩ := O.done h hp ht he
  have hw := h.2 t
  rw [ht] at hw
  obtain ⟨γ₀,hb,hl,hw⟩ := hw
  exact ⟨γ,hn,hJ,threads_update t _ γ s.hist h.2 (fun _ _ => rfl)
    ⟨γ₀,hb,O.link hl hn,hw.2 r γ hn⟩⟩

theorem died (O : Outline M P Γ) {s : Sys A R W C V} {g : Nat → D.Ghost} {t : Nat} {x : X} {c : C}
    {w₀ w : W} {a : A} {k : R a → Prog A R V} (h : Γ.Holds s g) (hp : P s (.act t x))
    (ht : s.thr t = .run c w₀ (.act a k)) (he : M.exec t a x s.world = some (.oops w)) :
    Γ.Holds { s with world := w, thr := Function.update s.thr t .dead } g := by
  obtain ⟨hd,hJ⟩ := O.oops h hp ht he
  have hu := threads_update t .dead (g t) s.hist h.2 (fun _ _ => rfl) hd
  exact ⟨hJ,by simpa using hu⟩

theorem returned (O : Outline M P Γ) {s : Sys A R W C V} {g : Nat → D.Ghost} {t : Nat} {c : C}
    {w₀ : W} {v : V} (h : Γ.Holds s g) (ht : s.thr t = .run c w₀ (.ret v)) :
    Γ.Holds { s with thr := Function.update s.thr t .idle
                     hist := Function.update s.hist t ((c,v) :: s.hist t) } g := by
  obtain ⟨γ₀,hb,hl,hpost⟩ := h.post ht
  have hu := threads_update t .idle (g t)
    (Function.update s.hist t ((c,v) :: s.hist t)) h.2
    (fun u hu => by simp [hu]) (by simpa [Assertions.ThreadOk] using O.ret hb hl hpost)
  exact ⟨O.leave h ht,by simpa using hu⟩

theorem step (O : Outline M P Γ) {s s' : Sys A R W C V} {g : Nat → D.Ghost}
    {l : Label C E X} (h : Γ.Holds s g) (hp : P s l) (hs : M.step s l = some s') :
    ∃ g', Γ.Holds s' g' := by
  cases l with
  | call t c =>
    simp only [Machine.step] at hs
    split at hs
    · rename_i ht
      cases hs
      obtain ⟨γ,_,hH⟩ := O.called h hp ht
      exact ⟨_,hH⟩
    · cases hs
  | act t x =>
    obtain ⟨c,w₀,a,k,ht,⟨w,he,rfl⟩ | ⟨r,w,he,rfl⟩ | ⟨w,he,rfl⟩⟩ := Machine.actStep_cases hs
    · exact ⟨g,O.stay h hp ht he,h.2⟩
    · obtain ⟨γ,_,hH⟩ := O.did h hp ht he
      exact ⟨_,hH⟩
    · exact ⟨g,O.died h hp ht he⟩
  | ret t =>
    simp only [Machine.step] at hs
    split at hs
    · rename_i c w₀ v ht
      cases hs
      exact ⟨g,O.returned h ht⟩
    · cases hs
  | env e =>
    simp only [Machine.step,Option.map_eq_some_iff] at hs
    obtain ⟨w,he,rfl⟩ := hs
    exact ⟨g,O.env h hp he,h.2⟩

/-- The assertions hold in every state of every admitted run. -/
theorem reaches (O : Outline M P Γ) {s s' : Sys A R W C V} {g : Nat → D.Ghost}
    (h : Γ.Holds s g) (hr : M.Reaches P s s') : ∃ g', Γ.Holds s' g' := by
  induction hr with
  | refl => exact ⟨g,h⟩
  | tail _ hp hs ih =>
    obtain ⟨g',hg'⟩ := ih
    exact O.step hg' hp hs

end Outline

/-- Assertions with more to say about single threads: `I` between calls, `B` when a call
is made, and `Q` when it is over. -/
@[reducible] def Assertions.also {D : Discipline A R} (Γ : Assertions D W C V)
    (I : Nat → List (C × V) → D.Ghost → Prop) (B : Nat → C → List (C × V) → W → D.Ghost → Prop)
    (Q : Nat → C → D.Ghost → V → D.Ghost → Prop) : Assertions D W C V :=
  { Γ with
    Idle := fun t hs γ => Γ.Idle t hs γ ∧ I t hs γ
    Began := fun t c hs w₀ γ => Γ.Began t c hs w₀ γ ∧ B t c hs w₀ γ
    Post := fun t c γ₀ v γ => Γ.Post t c γ₀ v γ ∧ Q t c γ₀ v γ }

section
variable {M : Machine A R W C E X V} {P : Sys A R W C V → Label C E X → Prop}
variable {D : Discipline A R} {Γ : Assertions D W C V} {I : Nat → List (C × V) → D.Ghost → Prop}
variable {B : Nat → C → List (C × V) → W → D.Ghost → Prop}
variable {Q : Nat → C → D.Ghost → V → D.Ghost → Prop}

theorem Assertions.Holds.of_also {s : Sys A R W C V} {g : Nat → D.Ghost}
    (h : (Γ.also I B Q).Holds s g) : Γ.Holds s g := by
  refine ⟨h.1,fun t => ?_⟩
  have ht := h.2 t
  cases hθ : s.thr t with
  | idle =>
    rw [hθ] at ht
    exact ht.1
  | run c w₀ p =>
    rw [hθ] at ht
    obtain ⟨γ₀,hb,hl,hw⟩ := ht
    exact ⟨γ₀,hb.1,hl,wp_mono (fun _ _ hq => hq.1) hw⟩
  | dead =>
    rw [hθ] at ht
    exact ht

/-- What the programs of an outline do beyond its postconditions may be added to it. -/
theorem Outline.also (O : Outline M P Γ)
    (hcall : ∀ {s g t c γ}, Γ.Holds s g → I t (s.hist t) (g t) → P s (.call t c) →
      s.thr t = .idle → Γ.Began t c (s.hist t) s.world γ →
      B t c (s.hist t) s.world γ ∧ wp D (M.code c) (Q t c γ) γ)
    (hret : ∀ {t c hs w₀ γ₀ v γ}, Γ.Began t c hs w₀ γ₀ → B t c hs w₀ γ₀ → Γ.Link γ₀ γ →
      Γ.Post t c γ₀ v γ → Q t c γ₀ v γ → I t ((c,v) :: hs) γ) :
    Outline M P (Γ.also I B Q) where
  call {s g t c} h hp ht := by
    have hi := h.2 t
    rw [ht] at hi
    obtain ⟨γ,hJ,hb,hw⟩ := O.call h.of_also hp ht
    obtain ⟨hb',hw'⟩ := hcall h.of_also hi.2 hp ht hb
    exact ⟨γ,hJ,⟨hb,hb'⟩,wp_and hw hw'⟩
  ret hb hl hq := ⟨O.ret hb.1 hl hq.1,hret hb.1 hb.2 hl hq.1 hq.2⟩
  leave h ht := O.leave h.of_also ht
  link_refl := O.link_refl
  link := O.link
  done h hp ht he := O.done h.of_also hp ht he
  stay h hp ht he := O.stay h.of_also hp ht he
  oops h hp ht he := O.oops h.of_also hp ht he
  env h hp he := O.env h.of_also hp he

end

end Interleave
