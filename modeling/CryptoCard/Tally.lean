import CryptoCard.Interleave
set_option autoImplicit false

/-! Counting actions: how many of a kind a program performs, whatever the answers, and how
many the threads of a run have performed, added up from their calls. -/
namespace Program

variable {A : Type} {R : A → Type} {α β : Type}

/-- Whatever the answers, the program returns `v` after `n` actions in `f` with `Q v n`. -/
def Counts (f : A → Bool) : Prog A R α → (α → Nat → Prop) → Prop
  | .ret v, Q => Q v 0
  | .act a k, Q => ∀ r, Counts f (k r) (fun v n => Q v (n + (f a).toNat))

variable {f : A → Bool} {Q Q' : α → Nat → Prop} {p : Prog A R α}

theorem Counts.mono (h : Counts f p Q) (hQ : ∀ v n, Q v n → Q' v n) : Counts f p Q' := by
  induction p generalizing Q Q' with
  | ret v => exact hQ v 0 h
  | act a k ih => exact fun r => ih r (h r) (fun v n => hQ v _)

theorem Counts.bind {g : α → Prog A R β} {S : β → Nat → Prop}
    (h : Counts f p (fun x n => Counts f (g x) (fun v m => S v (m + n)))) :
    Counts f (p >>= g) S := by
  induction p generalizing S with
  | ret x => exact h
  | act a k ih =>
    refine fun r => ih r ((h r).mono (fun x n hx => hx.mono (fun v m hv => ?_)))
    rwa [Nat.add_assoc]

end Program

namespace Interleave
open Program

variable {A : Type} {R : A → Type} {W C E X V : Type}

/-- One entry of a tally: an action of a thread, or a step of the environment. -/
inductive Stroke where
  | act (t : Nat)
  | env
  deriving DecidableEq

/-- Every action is answered by a step of the environment before the next one; `b` is the
thread that still waits for its answer. -/
inductive Alternates : Option Nat → List Stroke → Prop where
  | nil : Alternates none []
  | act {t : Nat} {es : List Stroke} : Alternates none es → Alternates (some t) (.act t :: es)
  | env {t : Nat} {es : List Stroke} : Alternates (some t) es → Alternates none (.env :: es)

namespace Machine

/-- What a step adds to the tally of the actions in `f` and the environment's steps in `e`. -/
def strokes (M : Machine A R W C E X V) (f : A → Bool) (e : E → Bool) (s : Sys A R W C V) :
    Label C E X → List Stroke
  | .act t x =>
    match s.thr t with
    | .run _ _ (.act a _) =>
      match M.exec t a x s.world with
      | some (.done _ _) => if f a then [.act t] else []
      | _ => []
    | _ => []
  | .env i => if e i then [.env] else []
  | _ => []

/-- Runs whose every step is admitted by `P`, with their tally, last stroke first. -/
inductive Tallies (M : Machine A R W C E X V) (f : A → Bool) (e : E → Bool)
    (P : Sys A R W C V → Label C E X → Prop) (s : Sys A R W C V) :
    List Stroke → Sys A R W C V → Prop where
  | refl : Tallies M f e P s [] s
  | tail {es : List Stroke} {s' s'' : Sys A R W C V} {l : Label C E X} :
      Tallies M f e P s es s' → P s' l → M.step s' l = some s'' →
      Tallies M f e P s (M.strokes f e s' l ++ es) s''

variable {M : Machine A R W C E X V} {f : A → Bool} {e : E → Bool}
variable {P : Sys A R W C V → Label C E X → Prop} {Q : C → V → Nat → Prop}
variable {s s' : Sys A R W C V} {es : List Stroke}

theorem strokes_done {t : Nat} {x : X} {c : C} {w₀ w : W} {a : A} {k : R a → Prog A R V}
    {r : R a} (ht : s.thr t = .run c w₀ (.act a k))
    (he : M.exec t a x s.world = some (.done r w)) :
    M.strokes f e s (.act t x) = if f a then [.act t] else [] := by
  simp only [strokes,ht,he]

theorem strokes_stay {t : Nat} {x : X} {c : C} {w₀ w : W} {a : A} {k : R a → Prog A R V}
    (ht : s.thr t = .run c w₀ (.act a k)) (he : M.exec t a x s.world = some (.stay w)) :
    M.strokes f e s (.act t x) = [] := by
  simp only [strokes,ht,he]

theorem strokes_oops {t : Nat} {x : X} {c : C} {w₀ w : W} {a : A} {k : R a → Prog A R V}
    (ht : s.thr t = .run c w₀ (.act a k)) (he : M.exec t a x s.world = some (.oops w)) :
    M.strokes f e s (.act t x) = [] := by
  simp only [strokes,ht,he]

/-- Every run has its tally. -/
theorem Reaches.tallies (f : A → Bool) (e : E → Bool) (h : M.Reaches P s s') :
    ∃ es, M.Tallies f e P s es s' := by
  induction h with
  | refl => exact ⟨[],.refl⟩
  | tail _ hp hs ih =>
    obtain ⟨es,h⟩ := ih
    exact ⟨_,h.tail hp hs⟩

end Machine

/-- What a step keeps of the tally, where a proof outline holds, every run keeps. -/
theorem Outline.tallies {M : Machine A R W C E X V} {P : Sys A R W C V → Label C E X → Prop}
    {f : A → Bool} {e : E → Bool} {D : Discipline A R} {Γ : Assertions D W C V}
    (O : Outline M P Γ) {L : List Stroke → Sys A R W C V → Prop}
    (hL : ∀ {es s g l s'}, Γ.Holds s g → L es s → P s l → M.step s l = some s' →
      L (M.strokes f e s l ++ es) s')
    {s s' : Sys A R W C V} {g : Nat → D.Ghost} {es : List Stroke} (h : Γ.Holds s g)
    (h₀ : L [] s) (hr : M.Tallies f e P s es s') : L es s' ∧ ∃ g', Γ.Holds s' g' := by
  induction hr with
  | refl => exact ⟨h₀,g,h⟩
  | tail _ hp hs ih =>
    obtain ⟨hl,g',hg⟩ := ih
    exact ⟨hL hg hl hp hs,O.step hg hp hs⟩

end Interleave
