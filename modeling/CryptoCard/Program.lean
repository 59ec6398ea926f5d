import Mathlib.Tactic.Common
set_option autoImplicit false

/-! Sequential programs over a set of atomic actions, and the rule for proving
facts about them against a discipline: a private account the program keeps of
what its own actions have done so far. -/
namespace Program

variable {A : Type} {R : A → Type} {α β γ : Type}

/-- A program either returns or performs an action and continues with its answer. -/
inductive Prog (A : Type) (R : A → Type) (α : Type) where
  | ret : α → Prog A R α
  | act : (a : A) → (R a → Prog A R α) → Prog A R α

def Prog.bind : Prog A R α → (α → Prog A R β) → Prog A R β
  | .ret x, f => f x
  | .act a k, f => .act a (fun r => (k r).bind f)

instance : Monad (Prog A R) where
  pure := .ret
  bind := .bind

/-- The program that performs one action and returns the answer. -/
def perform (a : A) : Prog A R (R a) := .act a .ret

@[simp] theorem ret_bind (x : α) (f : α → Prog A R β) : (Prog.ret x).bind f = f x := rfl

@[simp] theorem act_bind (a : A) (k : R a → Prog A R α) (f : α → Prog A R β) :
    (Prog.act a k).bind f = .act a (fun r => (k r).bind f) := rfl

theorem bind_bind (p : Prog A R α) (f : α → Prog A R β) (g : β → Prog A R γ) :
    (p.bind f).bind g = p.bind (fun x => (f x).bind g) := by
  induction p with
  | ret x => rfl
  | act a k ih => exact congrArg (Prog.act a) (funext ih)

theorem bind_ret (p : Prog A R α) : p.bind .ret = p := by
  induction p with
  | ret x => rfl
  | act a k ih => exact congrArg (Prog.act a) (funext ih)

/-- Replace every action by a program for it. -/
def Prog.inline {B : Type} {S : B → Type} (code : (a : A) → Prog B S (R a)) :
    Prog A R α → Prog B S α
  | .ret x => .ret x
  | .act a k => (code a).bind (fun r => (k r).inline code)

section
variable {B : Type} {S : B → Type} (code : (a : A) → Prog B S (R a))

end

/-- What a program may assume of the answers to its actions and what it owes
before it performs one, both in terms of a ghost account. -/
structure Discipline (A : Type) (R : A → Type) where
  Ghost : Type
  ok : Ghost → A → Prop
  next : Ghost → (a : A) → R a → Ghost → Prop

variable (D : Discipline A R)

/-- Along every admitted sequence of answers `p` only performs actions that are
in order, and returns with `Q`. -/
def wp : Prog A R α → (α → D.Ghost → Prop) → D.Ghost → Prop
  | .ret x, Q, g => Q x g
  | .act a k, Q, g => D.ok g a ∧ ∀ r g', D.next g a r g' → wp (k r) Q g'

@[simp] theorem wp_act (a : A) (k : R a → Prog A R α) (Q : α → D.Ghost → Prop) (g : D.Ghost) :
    wp D (.act a k) Q g ↔ D.ok g a ∧ ∀ r g', D.next g a r g' → wp D (k r) Q g' := Iff.rfl

@[simp] theorem wp_pure (x : α) (Q : α → D.Ghost → Prop) (g : D.Ghost) :
    wp D (pure x : Prog A R α) Q g ↔ Q x g := Iff.rfl

@[simp] theorem wp_perform (a : A) (Q : R a → D.Ghost → Prop) (g : D.Ghost) :
    wp D (perform a) Q g ↔ D.ok g a ∧ ∀ r g', D.next g a r g' → Q r g' := Iff.rfl

variable {D}

theorem wp_mono {p : Prog A R α} {Q Q' : α → D.Ghost → Prop} {g : D.Ghost}
    (h : ∀ x g, Q x g → Q' x g) (hp : wp D p Q g) : wp D p Q' g := by
  induction p generalizing g with
  | ret x => exact h x g hp
  | act a k ih => exact ⟨hp.1,fun r g' hg => ih r (hp.2 r g' hg)⟩

theorem wp_and {p : Prog A R α} {Q Q' : α → D.Ghost → Prop} {g : D.Ghost} (h : wp D p Q g)
    (h' : wp D p Q' g) : wp D p (fun x g => Q x g ∧ Q' x g) g := by
  induction p generalizing g with
  | ret x => exact ⟨h,h'⟩
  | act a k ih => exact ⟨h.1,fun r g' hg => ih r (h.2 r g' hg) (h'.2 r g' hg)⟩

theorem wp_bind' (p : Prog A R α) (f : α → Prog A R β) (Q : β → D.Ghost → Prop)
    (g : D.Ghost) : wp D (p.bind f) Q g ↔ wp D p (fun x g => wp D (f x) Q g) g := by
  induction p generalizing g with
  | ret x => rfl
  | act a k ih =>
    simp only [act_bind,wp_act]
    exact and_congr_right (fun _ => forall_congr' (fun r => forall_congr' (fun g' =>
      imp_congr_right (fun _ => ih r g'))))

@[simp] theorem wp_bind (p : Prog A R α) (f : α → Prog A R β) (Q : β → D.Ghost → Prop)
    (g : D.Ghost) : wp D (p >>= f) Q g ↔ wp D p (fun x g => wp D (f x) Q g) g :=
  wp_bind' p f Q g

theorem wp_step {a : A} {k : R a → Prog A R α} {Q : α → D.Ghost → Prop} {g : D.Ghost} :
    wp D (perform a >>= k) Q g ↔
      D.ok g a ∧ ∀ r g', D.next g a r g' → wp D (k r) Q g' := Iff.rfl

@[simp] theorem wp_ite {c : Prop} [Decidable c] (p q : Prog A R α) (Q : α → D.Ghost → Prop)
    (g : D.Ghost) :
    wp D (if c then p else q) Q g ↔ (c → wp D p Q g) ∧ (¬ c → wp D q Q g) := by
  split <;> simp_all

/-- Every action that the program can come to is in `ok`. -/
def Always (ok : A → Prop) : Prog A R α → Prop
  | .ret _ => True
  | .act a k => ok a ∧ ∀ r, Always ok (k r)

theorem Always.mono {ok ok' : A → Prop} {p : Prog A R α} (h : Always ok p)
    (hok : ∀ a, ok a → ok' a) : Always ok' p := by
  induction p with
  | ret x => trivial
  | act a k ih => exact ⟨hok a h.1,fun r => ih r (h.2 r)⟩

theorem always_of_forall {ok : A → Prop} (hok : ∀ a, ok a) (p : Prog A R α) : Always ok p := by
  induction p with
  | ret x => trivial
  | act a k ih => exact ⟨hok a,ih⟩

theorem Always.bind {ok : A → Prop} {p : Prog A R α} {f : α → Prog A R β} (hp : Always ok p)
    (hf : ∀ x, Always ok (f x)) : Always ok (p >>= f) := by
  induction p with
  | ret x => exact hf x
  | act a k ih => exact ⟨hp.1,fun r => ih r (hp.2 r)⟩

@[simp] theorem always_pure (ok : A → Prop) (x : α) : Always ok (pure x : Prog A R α) := trivial

@[simp] theorem always_perform (ok : A → Prop) (a : A) :
    Always ok (perform a : Prog A R (R a)) ↔ ok a := by
  simp [perform,Always]

@[simp] theorem always_step (ok : A → Prop) (a : A) (k : R a → Prog A R α) :
    Always ok (perform a >>= k) ↔ ok a ∧ ∀ r, Always ok (k r) := Iff.rfl

@[simp] theorem always_ite {c : Prop} [Decidable c] (ok : A → Prop) (p q : Prog A R α) :
    Always ok (if c then p else q) ↔ (c → Always ok p) ∧ (¬ c → Always ok q) := by
  split <;> simp_all

/-- A program all of whose actions are in order and leave the account alone. -/
theorem Always.wp {ok : A → Prop} {p : Prog A R α} {g : D.Ghost} (h : Always ok p)
    (hok : ∀ a, ok a → D.ok g a) (hnext : ∀ a r g', ok a → D.next g a r g' → g' = g) :
    wp D p (fun _ _ => True) g := by
  induction p with
  | ret x => trivial
  | act a k ih =>
    refine ⟨hok a h.1,fun r g' hg => ?_⟩
    rw [hnext a r g' h.1 hg]
    exact ih r (h.2 r)

/-- What a program may leave as it is to its end, its postcondition allows for now. -/
theorem Always.now {ι : Type} {f : D.Ghost → ι} {ok : A → Prop} {p : Prog A R α}
    {Q : α → D.Ghost → Prop} {g : D.Ghost} (h : Always ok p)
    (hkeep : ∀ g a, ok a → ∃ r g', D.next g a r g' ∧ f g' = f g) (hp : Program.wp D p Q g) :
    ∃ x g', Q x g' ∧ f g' = f g := by
  induction p generalizing g with
  | ret x => exact ⟨x,g,hp,rfl⟩
  | act a k ih =>
    obtain ⟨r,g',hn,hf⟩ := hkeep g a h.1
    obtain ⟨x,g'',hq,hf'⟩ := ih r (h.2 r) (hp.2 r g' hn)
    exact ⟨x,g'',hq,hf'.trans hf⟩

/-- The discipline with no actions in order but those in `ok`. -/
@[reducible] def Discipline.only (D : Discipline A R) (ok : A → Prop) : Discipline A R :=
  { D with ok := fun g a => D.ok g a ∧ ok a }

theorem Always.only {ok : A → Prop} {p : Prog A R α} {Q : α → D.Ghost → Prop} {g : D.Ghost}
    (h : Always ok p) (hp : Program.wp D p Q g) : Program.wp (D.only ok) p Q g := by
  induction p generalizing g with
  | ret x => exact hp
  | act a k ih => exact ⟨⟨hp.1,h.1⟩,fun r g' hg => ih r (h.2 r) (hp.2 r g' hg)⟩

/-- With answers in `ans`, the program can come to an action in `rd` before it has
performed one in `wr`. -/
inductive Needs (ans : (a : A) → R a → Prop) (rd wr : A → Prop) : Prog A R α → Prop where
  | here {a : A} {k : R a → Prog A R α} : rd a → Needs ans rd wr (.act a k)
  | later {a : A} {k : R a → Prog A R α} (r : R a) :
      ¬ wr a → ans a r → Needs ans rd wr (k r) → Needs ans rd wr (.act a k)

/-- Answers to actions that the program does not come to do not matter. -/
theorem Needs.congr {ans ans' : (a : A) → R a → Prop} {rd wr q wr' : A → Prop}
    {p : Prog A R α} (h : Needs ans rd wr p) (hans : ∀ a r, ¬ q a → ans a r → ans' a r)
    (hwr : ∀ a, ¬ wr' a) (hq : ¬ Needs ans' q wr' p) : Needs ans' rd wr p := by
  induction h with
  | here h => exact .here h
  | @later a k r hw ha _ ih =>
    have ha' := hans a r (fun h => hq (.here h)) ha
    exact .later r hw ha' (ih (fun h => hq (.later r (hwr a) ha' h)))

theorem Needs.mono {ans : (a : A) → R a → Prop} {rd rd' wr : A → Prop} {p : Prog A R α}
    (h : Needs ans rd wr p) (hrd : ∀ a, rd a → rd' a) : Needs ans rd' wr p := by
  induction h with
  | here h => exact .here (hrd _ h)
  | later r hw ha _ ih => exact .later r hw ha ih

/-- What a program cannot come to it cannot come to after an admitted answer. -/
theorem Needs.past {ans : (a : A) → R a → Prop} {rd : A → Prop} {a : A} {k : R a → Prog A R α}
    {r : R a} (h : ¬ Needs ans rd (fun _ => False) (.act a k)) (hr : ans a r) :
    ¬ Needs ans rd (fun _ => False) (k r) :=
  fun hn => h (.later r id hr hn)

theorem Always.not_needs {ok : A → Prop} {ans : (a : A) → R a → Prop} {rd wr : A → Prop}
    {p : Prog A R α} (h : Always ok p) (hok : ∀ a, ok a → ¬ rd a) : ¬ Needs ans rd wr p := by
  intro hn
  induction hn with
  | here hr => exact hok _ h.1 hr
  | later r _ _ _ ih => exact ih (h.2 r)

end Program
