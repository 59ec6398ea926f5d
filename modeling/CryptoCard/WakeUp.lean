import CryptoCard.Semaphore
set_option autoImplicit false

/-! Completion interrupts: who sleeps on the wait queue and who still owes it a
wake-up. -/
namespace CryptoCard
open Program Interleave

/-- A sleeper on an operation of kind `k` that is over is still served: a handler
is about to wake the queue, the completion bit is on its way, or there is a bit
that no handler acknowledges without waking anybody. -/
def Served (φ : Nat → Phase) (w : World) (k : Kind) : Prop :=
  (∃ h v, φ h = .irqWake v) ∨ w.card.raising = some k ∨
  ∃ k', w.card.pending k' = true ∧ ∀ h v, φ h = .irqAck v → v.testBit k'.bit = false

structure WakeInv (φ : Nat → Phase) (w : World) : Prop where
  waiting : ∀ t, w.task t ≠ .awake → ∃ k, φ t = .busy k true
  served : ∀ t k, w.task t = .asleep → φ t = .busy k true → w.card.busy k = false → Served φ w k

/-- A writer sleeps although its operation is over, and nobody is about to wake it. -/
structure Stranded (s : System) (k : Kind) : Prop where
  asleep : ∃ t, s.next t = some (.waitEvent k) ∧ s.world.task t = .asleep
  complete : s.world.card.busy k = false
  nobody : ∀ u, s.next u ≠ some .wakeUp

/-- Nor will a handler that runs from now on wake it: no bit is pending or on its way. -/
def Lost (s : System) : Prop :=
  ∃ k, Stranded s k ∧ s.world.card.raising = none ∧ ∀ k', s.world.card.pending k' = false

/-- The two steps by which a handler takes a completion for its own: it reads both
bits at once, or the bit arrives when every bit there is waits for the
acknowledgement of a handler that has read `interrupt_status` before. -/
def Misses (s : System) : Step → Prop
  | .act t _ => s.next t = some (.ioread .interruptStatus) ∧
      (∀ k, s.world.card.pending k = true) ∧ ∃ k, Stranded s k ∧ s.world.card.raising ≠ some k
  | .env .raise => ∃ k, Stranded s k ∧ s.world.card.raising = some k ∧
      ∀ k', (k' = k ∨ s.world.card.pending k' = true) →
        ∃ u v, s.next u = some (.iowrite .interruptAck v) ∧ v.testBit k'.bit = true
  | _ => False

theorem Phase.wakeUp_of_ok {v : Nat} {a : Act} (h : (Phase.irqWake v).Ok a) : a = .wakeUp := by
  cases a with
  | wakeUp => rfl
  | iowrite r _ => cases r <;> simp [Phase.Ok,Phase.Calm,Phase.Idle] at h
  | ioread r => cases r <;> simp [Phase.Ok,Phase.Calm] at h
  | _ => simp [Phase.Ok,Phase.Calm,Phase.Idle] at h

theorem Phase.ack_of_ok {v : Nat} {a : Act} (h : (Phase.irqAck v).Ok a) :
    a = .iowrite .interruptAck v := by
  cases a with
  | wakeUp => simp [Phase.Ok] at h
  | iowrite r _ => cases r <;> simp_all [Phase.Ok,Phase.Calm,Phase.Idle]
  | ioread r => cases r <;> simp [Phase.Ok,Phase.Calm] at h
  | _ => simp [Phase.Ok,Phase.Calm,Phase.Idle] at h

theorem Phase.wait_of_ok {k : Kind} {a : Act} (h : (Phase.busy k true).Ok a) :
    a = .waitEvent k := by
  cases a with
  | waitEvent k' => simp_all [Phase.Ok]
  | iowrite r _ => cases r <;> simp [Phase.Ok,Phase.Calm,Phase.Idle] at h
  | ioread r => cases r <;> simp [Phase.Ok,Phase.Calm] at h
  | _ => simp [Phase.Ok,Phase.Calm,Phase.Idle] at h

def wakeAssertions : Assertions locking World Call Int :=
  { lockAssertions with J := fun φ s => LockInv φ s.world ∧ WakeInv φ s.world }

/-- A thread that waits for the card or runs the handler has an action ahead of it. -/
theorem next_of_phase {s : System} {φ : Nat → Phase} (h : wakeAssertions.Holds s φ) {t : Nat}
    (ht : ¬ (φ t).Calm) : ∃ a, s.next t = some a ∧ (φ t).Ok a := by
  have hφ := h.2 t
  unfold Sys.next
  split
  · rename_i c w₀ a k hs
    exact ⟨a,rfl,h.ok hs⟩
  · rename_i hs
    rcases hθ : s.thr t with _ | ⟨c,w₀,p⟩ | _
    · rw [hθ] at hφ
      have hφ : φ t = .out := hφ
      exact absurd (by rw [hφ]; trivial) ht
    · rw [hθ] at hφ
      cases p with
      | ret v =>
        obtain ⟨_,_,_,hφ⟩ := hφ
        have hφ : φ t = .out := hφ
        exact absurd (by rw [hφ]; trivial) ht
      | act a k => exact absurd hθ (hs c w₀ a k)
    · rw [hθ] at hφ
      exact absurd hφ ht

namespace WakeInv

variable {φ : Nat → Phase} {w w' : World} {t : Nat}

theorem awake_of_calm (h : WakeInv φ w) (ht : (φ t).Calm) : w.task t = .awake := by
  by_contra hw
  obtain ⟨k,hk⟩ := h.waiting t hw
  rw [hk] at ht
  exact ht

/-- Starting an operation leaves nobody stranded. -/
theorem congr (h : WakeInv φ w) (ht : w'.task = w.task)
    (hb : ∀ k, w'.card.busy k = false → w.card.busy k = false)
    (hr : w'.card.raising = w.card.raising) (hp : w'.card.pending = w.card.pending) :
    WakeInv φ w' where
  waiting t := by rw [ht]; exact h.waiting t
  served t k := by
    rw [ht]
    unfold Served
    rw [hr,hp]
    exact fun hs hk hb' => h.served t k hs hk (hb k hb')

/-- The phase of a thread that is not in the queue moves outside of the handler. -/
theorem rephase (h : WakeInv φ w) {ψ : Phase} (ht : w.task t = .awake)
    (hw : ∀ v, φ t ≠ .irqWake v) (ha : ∀ v, ψ ≠ .irqAck v) :
    WakeInv (Function.update φ t ψ) w where
  waiting u hu := by
    have hut : u ≠ t := fun e => hu (e ▸ ht)
    rw [Function.update_of_ne hut]
    exact h.waiting u hu
  served u k hu hk hb := by
    have hut : u ≠ t := fun e => by rw [e,ht] at hu; cases hu
    rw [Function.update_of_ne hut] at hk
    obtain ⟨x,v,hx⟩ | hr | ⟨k',hk',hx⟩ := h.served u k hu hk hb
    · have hxt : x ≠ t := fun e => hw v (e ▸ hx)
      exact .inl ⟨x,v,by rw [Function.update_of_ne hxt]; exact hx⟩
    · exact .inr (.inl hr)
    · refine .inr (.inr ⟨k',hk',fun x v => ?_⟩)
      by_cases hxt : x = t
      · subst x
        rw [Function.update_self]
        exact fun e => absurd e (ha v)
      · rw [Function.update_of_ne hxt]
        exact hx x v

theorem iowrite (h : WakeInv φ w) {r : Reg} {v : Nat} (hok : (φ t).Ok (.iowrite r v)) :
    WakeInv (Function.update φ t ((φ t).after (.iowrite r v) ()))
      { w with card := w.card.iowrite r v } := by
  by_cases hr : r = .interruptAck
  · subst r
    simp only [Phase.Ok] at hok
    constructor
    · intro u hu
      obtain ⟨k,hk⟩ := h.waiting u hu
      have hut : u ≠ t := fun e => by rw [e,hok] at hk; cases hk
      exact ⟨k,by rw [Function.update_of_ne hut]; exact hk⟩
    · intro u k hu hk hb
      have hut : u ≠ t := fun e => by simp [e,Phase.after] at hk
      rw [Function.update_of_ne hut] at hk
      obtain ⟨x,v',hx⟩ | hr | ⟨k',hk',hx⟩ := h.served u k hu hk hb
      · have hxt : x ≠ t := fun e => by rw [e,hok] at hx; cases hx
        exact .inl ⟨x,v',by rw [Function.update_of_ne hxt]; exact hx⟩
      · exact .inr (.inl hr)
      · have hv := hx t v hok
        refine .inr (.inr ⟨k',by simp [Card.iowrite,hk',hv],fun x v' => ?_⟩)
        by_cases hxt : x = t
        · subst x
          simp [Phase.after]
        · rw [Function.update_of_ne hxt]
          exact hx x v'
  · have hc : (φ t).Calm := by
      revert hok
      cases φ t <;> cases r <;> simp [Phase.Ok,Phase.Calm,Phase.Idle] at hr ⊢
    have hw : WakeInv φ { w with card := w.card.iowrite r v } :=
      h.congr rfl (fun k hb => by
        cases hk : w.card.busy k with
        | false => rfl
        | true => rw [Card.busy_iowrite r v hk] at hb; cases hb)
        (Card.iowrite_raising _ _ _) (Card.iowrite_pending _ _ hr)
    refine hw.rephase (h.awake_of_calm hc) ?_ ?_
    · intro v' e
      rw [e] at hc
      exact hc
    · intro v'
      revert hc
      cases φ t <;> cases r <;> simp [Phase.after,Phase.Calm] at hr ⊢ <;> split <;> simp

/-- A handler reads a status that makes it wake the queue, or that misses nobody. -/
theorem readStatus (h : WakeInv φ w) (ht : φ t = .out)
    (hm : (∀ k, w.card.pending k = true) → ∀ u k, w.task u = .asleep → φ u = .busy k true →
      w.card.busy k = false → (∃ x v, φ x = .irqWake v) ∨ w.card.raising = some k) :
    WakeInv (Function.update φ t
      ((φ t).after (.ioread .interruptStatus) w.card.interruptStatus)) w := by
  have hne {u : Nat} {k : Kind} (hk : φ u = .busy k true) : u ≠ t := fun e => by
    rw [e,ht] at hk
    cases hk
  have hother {x : Nat} {v : Nat} (hx : φ x = .irqWake v) (ψ : Phase) :
      Function.update φ t ψ x = .irqWake v := by
    have hxt : x ≠ t := fun e => by rw [e,ht] at hx; cases hx
    rw [Function.update_of_ne hxt]
    exact hx
  constructor
  · intro u hu
    obtain ⟨k,hk⟩ := h.waiting u hu
    exact ⟨k,by rw [Function.update_of_ne (hne hk)]; exact hk⟩
  · intro u k hu hk hb
    have hut : u ≠ t := fun e => by
      simp only [e,Function.update_self,Phase.after] at hk
      split at hk <;> cases hk
    rw [Function.update_of_ne hut] at hk
    obtain hv | ⟨hv,hp⟩ | hp := w.card.interruptStatus_cases
    · exact .inl ⟨t,w.card.interruptStatus,by simp [Phase.after,hv]⟩
    · obtain ⟨x,v,hx⟩ | hr | ⟨k',hk',_⟩ := h.served u k hu hk hb
      · exact .inl ⟨x,v,hother hx _⟩
      · exact .inr (.inl hr)
      · rw [hp k'] at hk'
        cases hk'
    · obtain ⟨x,v,hx⟩ | hr := hm hp u k hu hk hb
      · exact .inl ⟨x,v,hother hx _⟩
      · exact .inr (.inl hr)

theorem wakeUp (h : WakeInv φ w) {v : Nat} (ht : φ t = .irqWake v) :
    WakeInv (Function.update φ t (.irqAck v)) { w with task := fun u => World.wake (w.task u) } := by
  constructor
  · intro u hu
    have hu' : w.task u ≠ .awake := fun e => hu (by simp [e,World.wake])
    obtain ⟨k,hk⟩ := h.waiting u hu'
    have hut : u ≠ t := fun e => by rw [e,ht] at hk; cases hk
    exact ⟨k,by rw [Function.update_of_ne hut]; exact hk⟩
  · intro u k hu
    cases hq : w.task u <;> simp [hq,World.wake] at hu

theorem done (h : WakeInv φ w) {a : Act} {x : Choice} {r : a.Res} (hok : (φ t).Ok a)
    (hm : a = .ioread .interruptStatus → (∀ k, w.card.pending k = true) →
      ∀ u k, w.task u = .asleep → φ u = .busy k true → w.card.busy k = false →
        (∃ x v, φ x = .irqWake v) ∨ w.card.raising = some k)
    (he : World.exec t a x w = some (.done r w')) :
    WakeInv (Function.update φ t ((φ t).after a r)) w' := by
  by_cases hq : a.Quiet = true
  · rw [Phase.after_quiet hq,Function.update_eq_self]
    have hc := World.exec_quiet hq he
    exact h.congr hc.task (fun k => by simp [Card.busy,hc.op]) hc.raising hc.pending
  · cases a with
    | downInterruptible =>
      simp only [Phase.Ok] at hok
      have ht := h.awake_of_calm (t := t) (by rw [hok]; trivial)
      have hr : WakeInv (Function.update φ t ((φ t).after .downInterruptible r)) w := by
        refine h.rephase ht (fun v => by rw [hok]; simp) (fun v => ?_)
        simp only [Phase.after]
        split <;> simp
      obtain ⟨_,rfl,_⟩ | ⟨_,_,rfl⟩ := World.downInterruptible_done he
      · exact hr
      · exact hr.congr rfl (fun _ => id) rfl rfl
    | up =>
      cases he
      have hcalm : (φ t).Calm := by revert hok; cases φ t <;> simp [Phase.Ok,Phase.Idle,Phase.Calm]
      have hr : WakeInv (Function.update φ t .out) w := by
        refine h.rephase (h.awake_of_calm hcalm) (fun v e => ?_) (fun v => by simp)
        rw [e] at hcalm
        exact hcalm
      exact hr.congr rfl (fun _ => id) rfl rfl
    | iowrite r v =>
      cases he
      exact h.iowrite hok
    | pollBusy k =>
      simp only [Phase.Ok] at hok
      simp only [World.exec] at he
      split at he
      · cases he
      · cases he
        refine h.rephase ?_ (fun v => by rw [hok]; simp) (fun v => by simp [Phase.after])
        by_contra hw
        obtain ⟨k',hk'⟩ := h.waiting t hw
        rw [hok] at hk'
        cases hk'
    | waitEvent k =>
      simp only [Phase.Ok] at hok
      have hw : w' = w.setTask t .awake := by
        obtain ⟨⟨rfl,ht⟩ | h,_⟩ := World.waitStep_done he
        · simp [World.setTask,← ht]
        · exact h
      subst hw
      have hs : WakeInv φ (w.setTask t .awake) := by
        refine ⟨fun u hu => h.waiting u (fun e => hu ?_),fun u k' hu => h.served u k' ?_⟩
        · by_cases hut : u = t <;> simp [World.setTask,hut,← e]
        · by_cases hut : u = t
          · simp [World.setTask,hut] at hu
          · simpa [World.setTask,hut] using hu
      exact hs.rephase (by simp [World.setTask]) (fun v => by rw [hok]; simp)
        (fun v => by simp [Phase.after])
    | wakeUp =>
      obtain ⟨v,hv⟩ := hok
      cases he
      rw [hv]
      exact h.wakeUp hv
    | ioread reg =>
      cases reg with
      | interruptStatus =>
        simp only [Phase.Ok] at hok
        obtain ⟨rfl,hr⟩ := World.ioread_done (r := .interruptStatus) (x := x) he
        rw [hr rfl]
        exact h.readStatus hok (hm rfl)
      | _ => exact absurd rfl hq
    | _ => exact absurd rfl hq

theorem stay (h : WakeInv φ w) {a : Act} {x : Choice} (hok : (φ t).Ok a)
    (he : World.exec t a x w = some (.stay w')) : WakeInv φ w' := by
  obtain ⟨k,rfl,rfl⟩ | ⟨k,rfl,he⟩ := World.exec_stay he
  · exact h
  · obtain ⟨q,rfl,hq⟩ := World.waitStep_stay he
    simp only [Phase.Ok] at hok
    constructor
    · intro u hu
      by_cases hut : u = t
      · subst u
        exact ⟨k,hok⟩
      · exact h.waiting u (by simpa [World.setTask,hut] using hu)
    · intro u k' hu hk' hb
      by_cases hut : u = t
      · subst u
        have hkk : k' = k := by rw [hok] at hk'; cases hk'; rfl
        have hbusy := hq (by simpa [World.setTask] using hu)
        rw [hkk] at hb
        exact absurd hbusy (by simpa [World.setTask] using hb)
      · exact h.served u k' (by simpa [World.setTask,hut] using hu) hk' hb

theorem env (hl : LockInv φ w) (h : WakeInv φ w) {c : Cipher} {e : World.Env}
    (hm : e = .raise → ∀ u k, w.task u = .asleep → φ u = .busy k true → w.card.busy k = false →
      w.card.raising = some k → (∃ x v, φ x = .irqWake v) ∨
        ∃ k', (k' = k ∨ w.card.pending k' = true) ∧
          ∀ x v, φ x = .irqAck v → v.testBit k'.bit = false)
    (he : World.env c e w = some w') : WakeInv φ w' := by
  obtain ⟨_,o,ho,_,rfl⟩ | ⟨rfl,k₀,hk₀,rfl⟩ := World.env_cases he
  · have ht : (w.transform c o).task = w.task := (World.transform_control c w o).task
    refine ⟨fun u hu => h.waiting u (by simpa [World.settle,ht] using hu),fun u k hu hk _ => ?_⟩
    -- the sleeper holds the semaphore, so the operation was its own
    have hb := hl.busy_of_running ho (t := u) (by rw [hk]; trivial)
    rw [hk] at hb
    injection hb with hk' hi
    exact .inr (.inl (by simp [World.settle,← hi,hk']))
  · refine ⟨h.waiting,fun u k hu hk hb => ?_⟩
    obtain hx | hr | ⟨k',hk',hx⟩ := h.served u k hu hk hb
    · exact .inl hx
    · obtain hx | ⟨k',hk',hx⟩ := hm rfl u k hu hk hb hr
      · exact .inl hx
      · have hk₀k : k₀ = k := by rw [hk₀] at hr; cases hr; rfl
        refine .inr (.inr ⟨k',?_,hx⟩)
        by_cases e : k' = k₀ <;> simp_all
    · refine .inr (.inr ⟨k',?_,hx⟩)
      by_cases e : k' = k₀ <;> simp_all

end WakeInv

/-- A sleeper on a completed operation of kind `k`, unless a handler will wake it. -/
theorem stranded_of_sleeping {s : System} {φ : Nat → Phase} (h : wakeAssertions.Holds s φ)
    {t : Nat} {k : Kind} (ht : s.world.task t = .asleep) (hφ : φ t = .busy k true)
    (hb : s.world.card.busy k = false) : (∃ x v, φ x = .irqWake v) ∨ Stranded s k := by
  by_cases hx : ∃ x v, φ x = .irqWake v
  · exact .inl hx
  · obtain ⟨a,ha,hok⟩ := next_of_phase h (t := t) (by rw [hφ]; exact id)
    rw [hφ] at hok
    rw [Phase.wait_of_ok hok] at ha
    refine .inr ⟨⟨t,ha,ht⟩,hb,fun u hu => hx ?_⟩
    obtain ⟨v,hv⟩ := h.next hu
    exact ⟨u,v,hv⟩

theorem next_of_ack {s : System} {φ : Nat → Phase} (h : wakeAssertions.Holds s φ) {t v : Nat}
    (ht : φ t = .irqAck v) : s.next t = some (.iowrite .interruptAck v) := by
  obtain ⟨a,ha,hok⟩ := next_of_phase h (t := t) (by rw [ht]; exact id)
  rw [ht] at hok
  rw [ha,Phase.ack_of_ok hok]

theorem wakeOutline (c : Cipher) {P : System → Step → Prop}
    (hP : ∀ s l, P s l → unsignalled l = true ∧ ¬ Misses s l) :
    Outline (machine c) P wakeAssertions where
  call {s g t call} h _ ht := by
    have hi := h.2 t
    rw [ht] at hi
    have hi : g t = .out := hi
    refine ⟨.out,?_,rfl,code_locking call⟩
    rw [← hi,Function.update_eq_self]
    exact h.1
  ret _ _ hp := hp
  leave h _ := h.1
  link_refl _ := trivial
  link _ _ := trivial
  done {s g t x c w₀ a k r w} h hp ht he := by
    obtain ⟨hs,hm⟩ := hP _ _ hp
    refine ⟨_,rfl,LockInv.done h.1.1 (h.ok ht) (cut_eq_false (cutsShort_of_unsignalled hs) ht he) he,
      WakeInv.done h.1.2 (h.ok ht) ?_ he⟩
    intro ha hpend u k' hu hk hb
    refine (stranded_of_sleeping h hu hk hb).imp_right (fun hst => ?_)
    by_contra hr
    exact hm ⟨by simp [Sys.next,ht,ha],hpend,k',hst,hr⟩
  stay h _ ht he := ⟨LockInv.stay h.1.1 he,WakeInv.stay h.1.2 (h.ok ht) he⟩
  oops h _ ht he := by
    obtain ⟨rfl,p,n,hb,_⟩ := World.exec_oops he
    exact ⟨Phase.calm_of_buffer (h.ok ht) hb,h.1⟩
  env {s g e w} h hp he := by
    refine ⟨LockInv.env h.1.1 he,WakeInv.env h.1.1 h.1.2 ?_ he⟩
    rintro rfl u k hu hk hb hr
    refine (stranded_of_sleeping h hu hk hb).imp_right (fun hst => ?_)
    by_contra hno
    refine (hP _ _ hp).2 ⟨k,hst,hr,fun k' hk' => ?_⟩
    by_contra hx
    refine hno ⟨k',hk',fun x v hv => ?_⟩
    by_contra hbit
    exact hx ⟨x,v,next_of_ack h hv,by simpa using hbit⟩

theorem wake_start (umem mem : Nat → Byte) :
    wakeAssertions.Holds (start (World.boot umem mem)) (fun _ => .out) :=
  ⟨⟨LockInv.boot umem mem,⟨fun _ h => absurd rfl h,fun _ _ h => by cases h⟩⟩,fun _ => rfl⟩

/-- Unless a handler takes a completion for its own, no sleeper is ever lost. -/
theorem wakeup_never_lost (c : Cipher) (umem mem : Nat → Byte) {s : System}
    (hr : (machine c).Reaches (fun s l => unsignalled l = true ∧ ¬ Misses s l)
      (start (World.boot umem mem)) s) : ¬ Lost s := by
  obtain ⟨g,hg⟩ := (wakeOutline c (fun _ _ h => h)).reaches (wake_start umem mem) hr
  rintro ⟨k,⟨⟨t,ht,htask⟩,hb,hno⟩,hraise,hpend⟩
  have hk : g t = .busy k true := hg.next ht
  obtain ⟨x,v,hx⟩ | hr | ⟨k',hk',_⟩ := hg.1.2.served t k htask hk hb
  · obtain ⟨a,ha,hok⟩ := next_of_phase hg (t := x) (by rw [hx]; exact id)
    rw [hx] at hok
    rw [Phase.wakeUp_of_ok hok] at ha
    exact hno x ha
  · rw [hraise] at hr
    cases hr
  · rw [hpend k'] at hk'
    cases hk'

/-- A step in which a handler can only read one bit, and no acknowledgement is due
when a bit arrives. -/
def plainlyServed (s : System) : Step → Bool
  | .act _ _ => !s.world.card.pending .dma
  | .env .raise => (List.range 2).all (fun u => match s.next u with
    | some (.iowrite .interruptAck _) => false
    | _ => true)
  | _ => true

theorem not_misses_of_plainlyServed {s : System} {l : Step} (hq : s.Quiet 2)
    (h : plainlyServed s l = true) : ¬ Misses s l := by
  intro hm
  cases l with
  | act t x => simp [plainlyServed,hm.2.1 .dma] at h
  | call t c => exact hm
  | ret t => exact hm
  | env e =>
    cases e with
    | finish => exact hm
    | raise =>
      obtain ⟨k,_,_,hall⟩ := hm
      obtain ⟨u,v,hu,_⟩ := hall k (.inl rfl)
      have hb := List.all_eq_true.mp h u (List.mem_range.mpr (hq.lt hu))
      simp [hu] at hb

/-- A sleep that the handler ends. -/
theorem wakeup_never_lost_after_irq :
    ∃ s, (machine (.bytewise fun _ _ x => x)).Reaches
      (fun s l => unsignalled l = true ∧ ¬ Misses s l)
      (start (World.boot (fun _ => 0) (fun _ => 0))) s ∧
      s.world.task 0 = .prep ∧ ¬ Lost s := by
  obtain ⟨s,hr,_,hp⟩ := Machine.exists_reaches (M := machine (.bytewise fun _ _ x => x))
    (P := fun s l => unsignalled l = true ∧ ¬ Misses s l) (n := 2)
    (b := fun s l => unsignalled l && plainlyServed s l)
    (p := fun s => s.world.task 0 == .prep)
    (fun s l hq hb => ⟨(Bool.and_eq_true_iff.mp hb).1,
      not_misses_of_plainlyServed hq (Bool.and_eq_true_iff.mp hb).2⟩)
    (sleepingWrite ++ [.act 0 .ok,.env .finish,.env .raise,.call 1 (.irq true)] ++
      List.replicate 3 (.act 1 .ok))
    (start_quiet (World.boot (fun _ => 0) (fun _ => 0)) 2) (by decide +kernel)
  exact ⟨s,hr,by simpa using hp,wakeup_never_lost _ _ _ hr⟩

/-- A writer that never slept leaves its bit to a handler, which acknowledges it
after the next operation has ended and its writer has gone to sleep. -/
def lateAcknowledgement : List Step :=
  sleepingWrite ++ .env .finish :: List.replicate 5 (.act 0 .ok) ++ .ret 0 :: .env .raise ::
  .call 1 (.irq true) :: List.replicate 3 (.act 1 .ok) ++
  .call 0 (.write 0 0 1) :: List.replicate 5 (.act 0 .ok) ++ .act 0 (.value 0) ::
  List.replicate 16 (.act 0 .ok) ++ [.env .finish,.env .raise,.act 1 .ok]

theorem wakeup_never_lost_fails :
    ¬ ∀ (c : Cipher) (umem mem : Nat → Byte) (s : System),
      (machine c).Reaches (fun _ l => unsignalled l = true) (start (World.boot umem mem)) s →
      ¬ Lost s := by
  intro h
  obtain ⟨s,hr,hq,hp⟩ := Machine.exists_reaches (M := machine (.bytewise fun _ _ x => x))
    (P := fun _ l => unsignalled l = true) (n := 2) (b := fun _ l => unsignalled l)
    (p := fun s => s.next 0 == some (.waitEvent .mmio) && s.world.task 0 == .asleep &&
      !s.world.card.busy .mmio && s.world.card.raising.isNone &&
      !s.world.card.pending .mmio && !s.world.card.pending .dma && s.next 1 == none)
    (fun _ _ _ h => h) lateAcknowledgement
    (start_quiet (World.boot (fun _ => 0) (fun _ => 0)) 2) (by decide +kernel)
  simp only [Bool.and_eq_true,beq_iff_eq,Bool.not_eq_true',Option.isNone_iff_eq_none] at hp
  obtain ⟨⟨⟨⟨⟨⟨hnext,htask⟩,hbusy⟩,hraise⟩,hm⟩,hd⟩,hirq⟩ := hp
  refine h _ _ _ s hr ⟨.mmio,⟨⟨0,hnext,htask⟩,hbusy,fun u hu => ?_⟩,hraise,?_⟩
  · have hlt := hq.lt hu
    obtain rfl | rfl : u = 0 ∨ u = 1 := by omega
    · rw [hnext] at hu
      cases hu
    · rw [hirq] at hu
      cases hu
  · intro k
    cases k <;> assumption

end CryptoCard
