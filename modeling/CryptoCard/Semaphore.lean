import CryptoCard.Steps
set_option autoImplicit false

/-! The semaphore and the card: who holds the one and who may program the other. -/
namespace CryptoCard
open Program Interleave

/-- The semaphore counts the threads between down and up, and an operation in
progress is the one its holder waits for. -/
structure LockInv (φ : Nat → Phase) (w : World) : Prop where
  sem : Sem (fun t => (φ t).Holds) w
  running : ∀ o, w.card.op = some o → ∃ t, φ t = .busy o.kind o.intr
  status : ∀ t i, φ t = .idle (some i) → w.card.regs.status.testBit 7 = i

theorem Phase.Idle.holds {ψ : Phase} (h : ψ.Idle) : ψ.Holds := by
  cases ψ <;> trivial

namespace LockInv

variable {φ : Nat → Phase} {w w' : World} {t u : Nat}

/-- While its holder is not waiting, and while nobody holds the semaphore, the
card is idle. -/
theorem card_idle (h : LockInv φ w) (hi : (φ t).Idle) : w.card.op = none := by
  cases ho : w.card.op with
  | none => rfl
  | some o =>
    obtain ⟨u,hu⟩ := h.running o ho
    have htu : t = u := h.sem.unique hi.holds (by rw [hu]; trivial)
    subst u
    rw [hu] at hi
    exact hi.elim

theorem card_idle_of_free (h : LockInv φ w) (hw : 0 < w.wsem) : w.card.op = none := by
  cases ho : w.card.op with
  | none => rfl
  | some o =>
    obtain ⟨u,hu⟩ := h.running o ho
    exact (h.sem.free hw u (by rw [hu]; trivial)).elim

theorem busy_of_running (h : LockInv φ w) {o : Op} (ho : w.card.op = some o)
    (ht : (φ t).Holds) : φ t = .busy o.kind o.intr := by
  obtain ⟨u,hu⟩ := h.running o ho
  rw [h.sem.unique ht (by rw [hu]; trivial : (φ u).Holds)]
  exact hu

theorem congr (h : LockInv φ w) (hc : SameControl w w') : LockInv φ w' where
  sem := h.sem.congr hc.wsem hc.holders (fun _ => Iff.rfl)
  running := by rw [hc.op]; exact h.running
  status := by rw [hc.regs]; exact h.status

theorem rephase (h : LockInv φ w) {ψ : Phase} (hh : ψ.Holds ↔ (φ t).Holds)
    (hb : ∀ o, w.card.op = some o → φ t = .busy o.kind o.intr → ψ = .busy o.kind o.intr)
    (hs : ∀ i, ψ = .idle (some i) → w.card.regs.status.testBit 7 = i) :
    LockInv (Function.update φ t ψ) w where
  sem := h.sem.congr rfl rfl (fun u => by by_cases hu : u = t <;> simp [hu,hh])
  running o ho := by
    obtain ⟨u,hu⟩ := h.running o ho
    by_cases hut : u = t
    · subst u
      exact ⟨t,by rw [Function.update_self]; exact hb o ho hu⟩
    · exact ⟨u,by rw [Function.update_of_ne hut]; exact hu⟩
  status u i hu := by
    by_cases hut : u = t
    · subst u
      rw [Function.update_self] at hu
      exact hs i hu
    · rw [Function.update_of_ne hut] at hu
      exact h.status u i hu

theorem acquire (h : LockInv φ w) (hw : 0 < w.wsem) :
    LockInv (Function.update φ t (.idle none))
      { w with wsem := w.wsem-1, holders := t :: w.holders } where
  sem := h.sem.acquire hw (fun u => by by_cases hu : u = t <;> simp [hu,Phase.Holds])
  running o ho := by
    rw [h.card_idle_of_free hw] at ho
    cases ho
  status u i hu := by
    by_cases hut : u = t
    · subst u
      simp at hu
    · rw [Function.update_of_ne hut] at hu
      exact h.status u i hu

theorem release (h : LockInv φ w) (ht : (φ t).Idle) :
    LockInv (Function.update φ t .out) (w.up t) where
  sem := h.sem.release ht.holds (fun u hu => by
    by_cases hut : u = t
    · simp [hut,Phase.Holds] at hu
    · rw [Function.update_of_ne hut] at hu
      exact hut (h.sem.unique hu ht.holds))
  running o ho := by
    rw [show (w.up t).card = w.card from rfl,h.card_idle ht] at ho
    cases ho
  status u i hu := by
    by_cases hut : u = t
    · subst u
      simp at hu
    · rw [Function.update_of_ne hut] at hu
      exact h.status u i hu

/-- A register write of the holder, which may start an operation. -/
theorem program (h : LockInv φ w) {ψ : Phase} (ht : (φ t).Idle) (hψ : ψ.Holds) (c : Card)
    (hop : ∀ o, c.op = some o → ψ = .busy o.kind o.intr)
    (hs : ∀ i, ψ = .idle (some i) → c.regs.status.testBit 7 = i) :
    LockInv (Function.update φ t ψ) { w with card := c } := by
  have hh := ht.holds
  refine ⟨h.sem.congr rfl rfl (fun u => by by_cases hu : u = t <;> simp [hu,hψ,hh]),?_,?_⟩
  · intro o ho
    exact ⟨t,by simpa using hop o ho⟩
  · intro u i hu
    by_cases hut : u = t
    · subst u
      exact hs i (by simpa using hu)
    · rw [Function.update_of_ne hut] at hu
      exact absurd (h.sem.unique (by rw [hu]; trivial : (φ u).Holds) hh) hut

/-- The holder sees that its operation is over. -/
theorem settled (h : LockInv φ w) {k : Kind} {i : Bool} (ht : φ t = .busy k i)
    (hb : w.card.busy k = false) : LockInv (Function.update φ t (.idle none)) w := by
  refine h.rephase (by simp [ht,Phase.Holds]) ?_ (fun i hi => by cases hi)
  intro o ho hphase
  rw [ht] at hphase
  cases hphase
  have := (w.card.busy_iff o.kind).mpr ⟨o,ho,rfl⟩
  simp [hb] at this

theorem iowrite (h : LockInv φ w) {r : Reg} {v : Nat} (hok : (φ t).Ok (.iowrite r v)) :
    LockInv (Function.update φ t ((φ t).after (.iowrite r v) ()))
      { w with card := w.card.iowrite r v } := by
  -- a register that is neither status nor starts anything
  have plain (c : Card) (ht : (φ t).Idle) (hop : c.op = none)
      (hst : c.regs.status = w.card.regs.status) :
      LockInv (Function.update φ t (φ t)) { w with card := c } := by
    refine h.program ht ht.holds c (fun o ho => by rw [hop] at ho; cases ho) (fun i hi => ?_)
    rw [hst]
    exact h.status t i hi
  have idle (ht : (φ t).Idle) := h.card_idle ht
  cases r with
  | keys => exact plain _ hok (idle hok) rfl
  | lenMsg => exact plain _ hok (idle hok) rfl
  | addrOp => exact plain _ hok (idle hok) rfl
  | dlenMsg => exact plain _ hok (idle hok) rfl
  | id => exact plain _ hok (idle hok) rfl
  | interruptStatus => exact plain _ hok (idle hok) rfl
  | interruptRaise => exact plain _ hok (idle hok) rfl
  | live =>
    simp only [Phase.after,Function.update_eq_self]
    exact h.congr ⟨rfl,rfl,rfl,rfl,rfl,rfl,rfl⟩
  | interruptAck =>
    simp only [Phase.Ok] at hok
    have hc : LockInv φ { w with card := w.card.iowrite .interruptAck v } :=
      ⟨h.sem.congr rfl rfl (fun _ => Iff.rfl),h.running,h.status⟩
    refine hc.rephase (by simp [Phase.after,hok,Phase.Holds]) ?_ ?_
    · intro o _ hb
      rw [hok] at hb
      cases hb
    · intro i hi
      cases hi
  | status =>
    have hop := idle hok
    refine h.program hok (by trivial) _ (fun o ho => ?_) (fun i hi => ?_)
    · simp [Card.iowrite,hop] at ho
    · simpa [Phase.after,Card.iowrite,Regs.set] using hi
  | dataAddr =>
    obtain ⟨i,hi⟩ := hok
    have ht : (φ t).Idle := by rw [hi]; trivial
    have hop := idle ht
    have hs := h.status t i hi
    simp only [Phase.after,hi]
    refine h.program ht (by trivial) _ (fun o ho => ?_) (fun i hi => by cases hi)
    simp only [Card.iowrite,Card.start,hop,Option.some.injEq] at ho
    subst ho
    simp [Regs.operation,Regs.set,hs]
  | cmd =>
    have hop := idle hok
    by_cases hv : v.testBit 0 = true
    · simp only [Phase.after,hv,if_true]
      refine h.program hok (by trivial) _ (fun o ho => ?_) (fun i hi => by cases hi)
      simp only [Card.iowrite,hv,if_true,Card.start,hop,Option.some.injEq] at ho
      subst ho
      simp [Regs.operation,Regs.set]
    · simp only [Phase.after,hv,Bool.false_eq_true,if_false]
      exact plain _ hok (by simpa [Card.iowrite,hv] using hop) (by simp [Card.iowrite,hv,Regs.set])

end LockInv

theorem Phase.after_quiet {φ : Phase} {a : Act} {r : a.Res} (h : a.Quiet = true) :
    φ.after a r = φ := by
  cases a with
  | ioread r' => cases r' <;> first | rfl | cases h
  | _ => first | rfl | cases h

/-- An action in order keeps the invariant, unless a signal cuts a wait short. -/
theorem LockInv.done {φ : Nat → Phase} {w w' : World} {t : Nat} {a : Act} {x : Choice}
    {r : a.Res} (h : LockInv φ w) (hok : (φ t).Ok a) (hcut : a.cut r = false)
    (he : World.exec t a x w = some (.done r w')) :
    LockInv (Function.update φ t ((φ t).after a r)) w' := by
  by_cases hq : a.Quiet = true
  · rw [Phase.after_quiet hq,Function.update_eq_self]
    exact h.congr (World.exec_quiet hq he)
  · cases a with
    | downInterruptible =>
      simp only [Phase.Ok] at hok
      obtain ⟨rfl,rfl,_⟩ | ⟨rfl,hw,rfl⟩ := World.downInterruptible_done he
      · have hid : (φ t).after .downInterruptible true = φ t := by simp [Phase.after,hok]
        rw [hid,Function.update_eq_self]
        exact h
      · exact h.acquire hw
    | up =>
      cases he
      exact h.release hok
    | iowrite r v =>
      cases he
      exact h.iowrite hok
    | pollBusy k =>
      simp only [World.exec] at he
      split at he
      · cases he
      · rename_i hb
        cases he
        exact h.settled hok (by simpa using hb)
    | waitEvent k =>
      obtain ⟨hw,⟨rfl,hb⟩ | ⟨rfl,_⟩⟩ := World.waitStep_done he
      · have hs := h.settled hok hb
        obtain ⟨rfl,_⟩ | rfl := hw
        · exact hs
        · exact ⟨hs.sem.congr rfl rfl (fun _ => Iff.rfl),hs.running,hs.status⟩
      · cases hcut
    | wakeUp =>
      obtain ⟨v,hv⟩ := hok
      cases he
      have hc : LockInv φ { w with task := fun u => World.wake (w.task u) } :=
        ⟨h.sem.congr rfl rfl (fun _ => Iff.rfl),h.running,h.status⟩
      refine hc.rephase (by simp [Phase.after,hv,Phase.Holds]) ?_ ?_
      · intro o _ hb
        rw [hv] at hb
        cases hb
      · intro i hi
        simp [Phase.after,hv] at hi
    | ioread reg =>
      cases reg with
      | interruptStatus =>
        simp only [Phase.Ok] at hok
        obtain ⟨rfl,_⟩ := World.ioread_done (r := .interruptStatus) (x := x) he
        refine h.rephase ?_ ?_ ?_
        · simp only [Phase.after,hok]
          split <;> simp [Phase.Holds]
        · intro o _ hb
          rw [hok] at hb
          cases hb
        · intro i hi
          simp only [Phase.after] at hi
          split at hi <;> cases hi
      | _ => exact absurd rfl hq
    | _ => exact absurd rfl hq

theorem LockInv.stay {φ : Nat → Phase} {w w' : World} {t : Nat} {a : Act} {x : Choice}
    (h : LockInv φ w) (he : World.exec t a x w = some (.stay w')) : LockInv φ w' := by
  have hsem := h.sem.stay he
  obtain ⟨_,rfl⟩ := World.stay_task he
  exact ⟨hsem,h.running,h.status⟩

theorem Phase.calm_of_buffer {φ : Phase} {a : Act} {p : Option Nat} {n : Nat} (h : φ.Ok a)
    (ha : a.buffer = some (p,n)) : φ.Calm := by
  cases a with
  | copyFromUser p ptr n => exact h
  | copyToUser ptr p n => exact h
  | memcpyToio p n => cases φ <;> trivial
  | memcpyFromio p n => cases φ <;> trivial
  | _ => cases ha

theorem LockInv.env {φ : Nat → Phase} {c : Cipher} {e : World.Env} {w w' : World}
    (h : LockInv φ w) (he : World.env c e w = some w') : LockInv φ w' := by
  have hsem := h.sem.env he
  obtain ⟨_,o,_,_,rfl⟩ | ⟨_,k,_,rfl⟩ := World.env_cases he
  · refine ⟨hsem,(fun o' ho' => by cases ho'),?_⟩
    simpa [World.settle,(World.transform_control c w o).regs] using h.status
  · exact ⟨hsem,h.running,h.status⟩

def lockAssertions : Assertions locking World Call Int where
  J φ s := LockInv φ s.world
  Idle _ _ φ := φ = .out
  Began _ _ _ _ φ := φ = .out
  Post _ _ _ _ φ := φ = .out
  Dead φ := φ.Calm
  Link _ _ := True

/-- The step is the exit of a wait_event_interruptible that a signal cuts short;
the operation it waits for is still running. -/
def cutsShort (s : System) : Step → Bool
  | .act t .signal =>
    match s.next t,s.world.task t with
    | some (.waitEvent k),.queued _ => s.world.card.busy k
    | _,_ => false
  | _ => false

/-- No signal is pending in this step. -/
def unsignalled : Step → Bool
  | .act _ .signal => false
  | _ => true

theorem cutsShort_of_unsignalled {s : System} {l : Step} (h : unsignalled l = true) :
    cutsShort s l = false := by
  cases l with
  | act t x => cases x <;> first | rfl | cases h
  | _ => rfl

theorem cut_eq_false {s : System} {t : Nat} {x : Choice} {c : Call} {w₀ w : World} {a : Act}
    {k : a.Res → Code Int} {r : a.Res} (hs : cutsShort s (.act t x) = false)
    (ht : s.thr t = .run c w₀ (.act a k)) (he : World.exec t a x s.world = some (.done r w)) :
    a.cut r = false := by
  cases a with
  | waitEvent k =>
    obtain ⟨_,⟨rfl,_⟩ | ⟨_,hb,rfl,q,hq⟩⟩ := World.waitStep_done he
    · rfl
    · simp [cutsShort,Sys.next,ht,hq,hb] at hs
  | _ => rfl

/-- The locking invariant along every run in which no wait is cut short. -/
theorem lockOutline (c : Cipher) {P : System → Step → Prop}
    (hP : ∀ s l, P s l → cutsShort s l = false) : Outline (machine c) P lockAssertions where
  call {s g t call} h _ ht := by
    have hi := h.2 t
    rw [ht] at hi
    have hi : g t = .out := hi
    refine ⟨.out,?_,rfl,code_locking call⟩
    rw [← hi,Function.update_eq_self]
    exact h.1
  ret _ _ hp := hp
  leave h _ := h.1
  link_refl _ := trivial
  link _ _ := trivial
  done h hp ht he := ⟨_,rfl,LockInv.done h.1 (h.ok ht) (cut_eq_false (hP _ _ hp) ht he) he⟩
  stay h _ _ he := LockInv.stay h.1 he
  oops h _ ht he := by
    obtain ⟨rfl,p,n,hb,_⟩ := World.exec_oops he
    exact ⟨Phase.calm_of_buffer (h.ok ht) hb,h.1⟩
  env h _ he := LockInv.env h.1 he

theorem LockInv.boot (umem mem : Nat → Byte) :
    LockInv (fun _ => .out) (World.boot umem mem) :=
  ⟨⟨rfl,fun t => by simp [World.boot,Phase.Holds]⟩,(fun o ho => by cases ho),
    (fun t i hi => by cases hi)⟩

theorem lock_start (umem mem : Nat → Byte) :
    lockAssertions.Holds (start (World.boot umem mem)) (fun _ => .out) :=
  ⟨LockInv.boot umem mem,fun _ => rfl⟩

/-- The registers and the window that an operation is programmed through. -/
def Act.Programs : Act → Bool
  | .iowrite .keys _ | .iowrite .lenMsg _ | .iowrite .status _ | .iowrite .dataAddr _
  | .iowrite .addrOp _ | .iowrite .dlenMsg _ | .iowrite .cmd _ | .memcpyToio _ _ => true
  | _ => false

theorem Phase.idle_of_programs {φ : Phase} {a : Act} (h : φ.Ok a) (ha : a.Programs = true) :
    φ.Idle := by
  cases a with
  | iowrite r v =>
    cases r with
    | dataAddr =>
      obtain ⟨i,hi⟩ := h
      rw [hi]
      trivial
    | _ => first | exact h | cases ha
  | memcpyToio p n => exact h
  | _ => cases ha

/-- As long as no wait is cut short, a free semaphore means an idle card, and the
card is idle whenever a writer is about to program it. -/
theorem programmed_when_idle (c : Cipher) (umem mem : Nat → Byte) {s : System}
    (hr : (machine c).Reaches (fun s l => cutsShort s l = false)
      (start (World.boot umem mem)) s) :
    (0 < s.world.wsem → ∀ k, s.world.card.busy k = false) ∧
    ∀ t a, s.next t = some a → a.Programs = true → ∀ k, s.world.card.busy k = false := by
  obtain ⟨g,hg⟩ := (lockOutline c (fun _ _ h => h)).reaches (lock_start umem mem) hr
  have hJ : LockInv g s.world := hg.1
  refine ⟨fun hw k => Card.not_busy_of_idle (hJ.card_idle_of_free hw) k,?_⟩
  intro t a ht ha k
  exact Card.not_busy_of_idle (hJ.card_idle (Phase.idle_of_programs (hg.next ht) ha)) k

/-- A client turns interrupts on and writes one mapped byte, up to the sleep. -/
def sleepingWrite : List Step :=
  .call 0 (.setConfig 0 configINTERRUPT SET) :: List.replicate 2 (.act 0 .ok) ++ .ret 0 ::
  .call 0 (.write 0 0 1) :: List.replicate 5 (.act 0 .ok) ++ .act 0 (.value 0) ::
  List.replicate 15 (.act 0 .ok)

/-- The card finishes and the write leaves the wait and raises the semaphore. -/
theorem programmed_when_idle_after_write :
    ∃ s, (machine (.bytewise fun _ _ x => x)).Reaches (fun s l => cutsShort s l = false)
      (start (World.boot (fun _ => 0) (fun _ => 0))) s ∧
      s.world.wsem = 1 ∧ ∀ k, s.world.card.busy k = false := by
  obtain ⟨s,hr,_,hp⟩ := Machine.exists_reaches (M := machine (.bytewise fun _ _ x => x))
    (P := fun s l => cutsShort s l = false) (n := 1) (b := fun s l => !cutsShort s l)
    (p := fun s => s.world.wsem == 1)
    (by simp) (sleepingWrite ++ [.env .finish,.act 0 .ok,.act 0 .ok,.act 0 .ok])
    (start_quiet (World.boot (fun _ => 0) (fun _ => 0)) 1) (by decide +kernel)
  have hw : s.world.wsem = 1 := by simpa using hp
  exact ⟨s,hr,hw,(programmed_when_idle _ _ _ hr).1 (by omega)⟩

/-- A signal in the wait raises the semaphore over a running operation. -/
theorem programmed_when_idle_fails :
    ¬ ∀ (c : Cipher) (umem mem : Nat → Byte) (s : System),
      (machine c).Reaches (fun _ _ => True) (start (World.boot umem mem)) s →
      0 < s.world.wsem → ∀ k, s.world.card.busy k = false := by
  intro h
  obtain ⟨s,hr,_,hp⟩ := Machine.exists_reaches (M := machine (.bytewise fun _ _ x => x))
    (P := fun _ _ => True) (n := 1) (b := fun _ _ => true)
    (p := fun s => s.world.wsem == 1 && s.world.card.busy .mmio)
    (fun _ _ _ _ => trivial) (sleepingWrite ++ [.act 0 .signal,.act 0 .ok])
    (start_quiet (World.boot (fun _ => 0) (fun _ => 0)) 1) (by decide +kernel)
  simp only [Bool.and_eq_true,beq_iff_eq] at hp
  have hb := h _ _ _ s hr (by omega) .mmio
  rw [hp.2] at hb
  cases hb

end CryptoCard
