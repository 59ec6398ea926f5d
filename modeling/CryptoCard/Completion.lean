import CryptoCard.Draining
import CryptoCard.WakeUp
import CryptoCard.Discipline
import CryptoCard.Lifetimes
set_option autoImplicit false

/-! Bringing every call in progress to its end: when this can be done, and when a writer
sleeps for good. -/
namespace CryptoCard
open Program Interleave

/-- Threads leave the processor only in a wait for an operation of their own. -/
def Dozes (φ : Nat → Phase) (w : World) : Prop := ∀ t, w.task t ≠ .awake → ∃ k, φ t = .busy k true

namespace World

/-- Nobody but a thread in a wait for the card leaves the processor. -/
theorem exec_task {w w' : World} {t : Nat} {a : Act} {x : Choice} {r : a.Res}
    (he : exec t a x w = some (.done r w')) (u : Nat) :
    (w'.task u ≠ .awake → w.task u ≠ .awake) ∧
      ((∃ k, a = .waitEvent k) → w'.task t = .awake) := by
  by_cases hq : a.Quiet = true
  · rw [(exec_quiet hq he).task]
    refine ⟨id,?_⟩
    rintro ⟨k,rfl⟩
    cases hq
  · have hno {b : Act} (hb : ∀ k, b ≠ .waitEvent k) (h : ∃ k, b = .waitEvent k) :
        w'.task t = .awake := by
      obtain ⟨k,h⟩ := h
      exact absurd h (hb k)
    cases a with
    | waitEvent k =>
      obtain ⟨⟨rfl,ht⟩ | rfl,_⟩ := waitStep_done he
      · exact ⟨id,fun _ => ht⟩
      · refine ⟨fun hu => ?_,fun _ => by simp [setTask]⟩
        by_cases hut : u = t
        · simp [setTask,hut] at hu
        · simpa [setTask,hut] using hu
    | downInterruptible =>
      obtain ⟨_,rfl,_⟩ | ⟨_,_,rfl⟩ := downInterruptible_done he
      · exact ⟨id,hno (by simp)⟩
      · exact ⟨id,hno (by simp)⟩
    | ioread reg =>
      obtain ⟨rfl,_⟩ := ioread_done he
      exact ⟨id,hno (by simp)⟩
    | pollBusy k =>
      simp only [exec] at he
      split at he <;> cases he
      exact ⟨id,hno (by simp)⟩
    | wakeUp =>
      cases he
      refine ⟨fun hu hw => hu ?_,hno (by simp)⟩
      simp only [hw,wake]
    | up =>
      cases he
      exact ⟨id,hno (by simp)⟩
    | iowrite reg v =>
      cases he
      exact ⟨id,hno (by simp)⟩
    | _ => exact absurd rfl hq

end World

section
variable {φ : Nat → Phase} {w w' : World} {t : Nat}

theorem Dozes.done (h : Dozes φ w) {a : Act} {x : Choice} {r : a.Res} (hok : (φ t).Ok a)
    (he : World.exec t a x w = some (.done r w')) :
    Dozes (Function.update φ t ((φ t).after a r)) w' := by
  intro u hu
  obtain ⟨hback,hawake⟩ := World.exec_task he u
  obtain ⟨k,hk⟩ := h u (hback hu)
  have hut : u ≠ t := by
    intro e
    subst u
    rw [hk] at hok
    exact hu (hawake ⟨k,Phase.wait_of_ok hok⟩)
  exact ⟨k,by rw [Function.update_of_ne hut]; exact hk⟩

theorem Dozes.stay (h : Dozes φ w) {a : Act} {x : Choice} (hok : (φ t).Ok a)
    (he : World.exec t a x w = some (.stay w')) : Dozes φ w' := by
  obtain ⟨k,rfl,rfl⟩ | ⟨k,rfl,he⟩ := World.exec_stay he
  · exact h
  · obtain ⟨q,rfl,_⟩ := World.waitStep_stay he
    intro u hu
    by_cases hut : u = t
    · subst u
      exact ⟨k,hok⟩
    · exact h u (by simpa [World.setTask,hut] using hu)

theorem Dozes.env (h : Dozes φ w) {c : Cipher} {e : World.Env}
    (he : World.env c e w = some w') : Dozes φ w' := by
  obtain ⟨_,o,_,_,rfl⟩ | ⟨_,k,_,rfl⟩ := World.env_cases he
  · intro u hu
    exact h u (by simpa [World.settle,(World.transform_control c w o).task] using hu)
  · exact h

end

/-- What is known of the semaphore and the card goes along with an action in order. -/
structure Carried (c : Cipher) (P : System → Step → Prop) (J : (Nat → Phase) → World → Prop) :
    Prop where
  sem : ∀ {φ w}, J φ w → Sem (fun t => (φ t).Holds) w
  done : ∀ {s φ t x cl w₀ a k r w}, P s (.act t x) → s.thr t = .run cl w₀ (.act a k) →
    J φ s.world → (φ t).Ok a → World.exec t a x s.world = some (.done r w) →
    J (Function.update φ t ((φ t).after a r)) w
  stay : ∀ {φ w t a x w'}, J φ w → World.exec t a x w = some (.stay w') → J φ w'
  env : ∀ {φ w e w'}, J φ w → World.env c e w = some w' → J φ w'

def dozeAssertions (J : (Nat → Phase) → World → Prop) : Assertions locking World Call Int :=
  { lockAssertions with J := fun φ s => J φ s.world ∧ Dozes φ s.world }

theorem Carried.outline {c : Cipher} {P : System → Step → Prop}
    {J : (Nat → Phase) → World → Prop} (hJ : Carried c P J) :
    Outline (machine c) P (dozeAssertions J) where
  call {s g t call} h _ ht := by
    have hi := h.2 t
    rw [ht] at hi
    have hi : g t = .out := hi
    refine ⟨.out,?_,rfl,code_locking call⟩
    rw [← hi,Function.update_eq_self]
    exact h.1
  ret _ _ hp := hp
  leave h _ := h.1
  link_refl _ := trivial
  link _ _ := trivial
  done h hp ht he := ⟨_,rfl,hJ.done hp ht h.1.1 (h.ok ht) he,h.1.2.done (h.ok ht) he⟩
  stay h _ ht he := ⟨hJ.stay h.1.1 he,h.1.2.stay (h.ok ht) he⟩
  oops h _ ht he := by
    obtain ⟨rfl,p,n,hb,_⟩ := World.exec_oops he
    exact ⟨Phase.calm_of_buffer (h.ok ht) hb,h.1⟩
  env h _ he := ⟨hJ.env h.1.1 he,h.1.2.env he⟩

theorem carried_lock (c : Cipher) {P : System → Step → Prop}
    (hP : ∀ s l, P s l → cutsShort s l = false) : Carried c P LockInv where
  sem h := h.sem
  done hp ht h hok he := h.done hok (cut_eq_false (hP _ _ hp) ht he) he
  stay h he := h.stay he
  env h he := h.env he

/-- The steps by which the calls in progress go on. -/
structure Proceeds (P : System → Step → Prop) : Prop where
  act : ∀ s t x, x ≠ .signal → P s (.act t x)
  ret : ∀ s t, P s (.ret t)
  env : ∀ s e, P s (.env e)

section
variable {c : Cipher} {P : System → Step → Prop} {J : (Nat → Phase) → World → Prop}
variable {s : System} {φ : Nat → Phase} {t : Nat}

/-- Whoever is at something other than nothing is in a call, with what is left of it. -/
theorem running_of_phase (h : (dozeAssertions J).Holds s φ) (hd : s.thr t ≠ .dead)
    (ht : φ t ≠ .out) : ∃ cl w₀ a k, s.thr t = .run cl w₀ (.act a k) ∧ (φ t).Ok a := by
  have hok := h.2 t
  rcases hθ : s.thr t with _ | ⟨cl,w₀,p⟩ | _
  · rw [hθ] at hok
    exact absurd hok ht
  · cases p with
    | ret v =>
      obtain ⟨_,_,_,hout⟩ := h.post hθ
      exact absurd hout ht
    | act a k => exact ⟨cl,w₀,a,k,rfl,h.ok hθ⟩
  · exact absurd hθ hd

end

section
variable {c : Cipher} {allow : Nat → Call → Prop} {P Q : System → Step → Prop} {s s' : System}

end

/-- Thread 0 turns interrupts on and writes one mapped byte, up to the sleep. -/
def asleep : List Step :=
  configure 0 0 [(SET_CONFIG,INTERRUPT)] ++ .call 0 (.write 0 0 1) :: ticks 0 5 ++
  .act 0 (.value 0) :: ticks 0 16

end CryptoCard
