import CryptoCard.Semaphore
set_option autoImplicit false

/-! The discipline of the semaphore: whatever fails or is interrupted, one call at most is
between its down and its up, and only that call has to do with the card. -/
namespace CryptoCard
open Program Interleave

/-- The registers that an operation is programmed and started with. -/
def Reg.guarded : Reg → Bool
  | .keys | .lenMsg | .status | .dataAddr | .addrOp | .dlenMsg | .cmd => true
  | _ => false

/-- What the driver does with these registers and the data window; waiting reads the busy
bit of `status` or `cmd`. -/
def Act.guarded : Act → Bool
  | .ioread r | .iowrite r _ => r.guarded
  | .memcpyToio _ _ | .memcpyFromio _ _ | .pollBusy _ | .waitEvent _ => true
  | _ => false

/-- The thread crashes on a bad pointer in this step. -/
def crashes (s : System) : Step → Bool
  | .act t x =>
    match s.next t with
    | some a =>
      match World.exec t a x s.world with
      | some (.oops _) => true
      | _ => false
    | none => false
  | _ => false

/-- The semaphore is 1 less the calls between their down and their up, of which there is
one at most; that call alone uses the card, and it gives the semaphore back once. -/
structure Disciplined (s : System) : Prop where
  count : s.world.wsem = 1 - s.world.holders.length
  one : s.world.holders.length ≤ 1
  calls : ∀ t ∈ s.world.holders, ∃ cl w p, s.thr t = .run cl w p
  access : ∀ t a, s.next t = some a → a.guarded = true → t ∈ s.world.holders
  returns : ∀ t cl r, s.returns t = some (cl,r) → t ∉ s.world.holders
  raises : ∀ t, s.next t = some .up → t ∈ s.world.holders

/-- The driver reads no register that an operation is programmed with. -/
def Act.Unread : Act → Prop
  | .ioread r => r.guarded = false
  | _ => True

section
attribute [local simp] Act.Unread Reg.guarded
variable {f ptr len : Nat}

theorem Act.OfWrite.unread {a : Act} (h : a.OfWrite f) : a.Unread := by
  cases a with
  | ioread r =>
    obtain rfl := h
    rfl
  | _ => trivial

theorem sysWrite_unread : Always Act.Unread (sysWrite f ptr len) :=
  sysWrite_ofWrite.mono (fun _ h => h.unread)

theorem pciUnlockedIoctl_unread {cmd : Nat} {arg : List Byte} :
    Always Act.Unread (pciUnlockedIoctl f cmd arg) := by
  unfold pciUnlockedIoctl
  cases ioctlByte arg <;> simp

theorem cryptLoop_unread {cdev addr length : Nat} (fuel : Nat) :
    Always Act.Unread (cryptLoop cdev fuel addr length) := by
  induction fuel generalizing addr length with
  | zero => trivial
  | succ fuel ih =>
    rw [cryptLoop_succ]
    refine sysWrite_unread.bind (fun r => ?_)
    simp only [always_ite,always_pure,implies_true,true_and]
    exact fun _ => ⟨fun _ => ih,trivial⟩

theorem crypt_unread {value isMapped : Byte} {cdev addr length : Nat} :
    Always Act.Unread (crypt value cdev addr length isMapped) := by
  refine pciUnlockedIoctl_unread.bind (fun r => ?_)
  simp only [always_ite,always_pure,implies_true,true_and]
  refine fun _ => pciUnlockedIoctl_unread.bind (fun r => ?_)
  simp only [always_ite,always_pure,implies_true,true_and]
  exact fun _ => cryptLoop_unread _

theorem code_unread (cl : Call) : Always Act.Unread cl.code := by
  have hioctl (cdev cmd : Nat) (arg : List Byte) : Always Act.Unread (do
      let r ← pciUnlockedIoctl cdev cmd arg
      if r ≠ 0 then return ERROR else return 0) :=
    pciUnlockedIoctl_unread.bind (fun r => by simp)
  cases cl with
  | write f ptr len => exact sysWrite_unread
  | ioctl f cmd arg => exact pciUnlockedIoctl_unread
  | setKey cdev a b => exact hioctl _ _ _
  | setConfig cdev type value => exact hioctl _ _ _
  | encrypt cdev addr length isMapped => exact crypt_unread
  | decrypt cdev addr length isMapped => exact crypt_unread
  | irq dev => simp [Call.code,pciIrqHandle]
  | store addr xs => simp [Call.code]
  | mapStore off xs => simp [Call.code]

end

namespace Phase

variable {φ : Phase} {a : Act} {r : a.Res}

/-- Of the actions that are in order, only down and up change who holds the semaphore. -/
theorem after_holds (hok : φ.Ok a) (hu : a ≠ .up) :
    (φ.after a r).Holds ↔ a.takes r = true ∨ φ.Holds := by
  have same {ψ : Phase} (h : ψ.Holds ↔ φ.Holds) : ψ.Holds ↔ false = true ∨ φ.Holds := by
    simpa using h
  cases a with
  | downInterruptible =>
    obtain rfl := hok
    cases r <;> decide
  | up => exact absurd rfl hu
  | iowrite reg v =>
    cases reg with
    | status => exact same ⟨fun _ => Idle.holds hok,fun _ => trivial⟩
    | dataAddr =>
      obtain ⟨i,rfl⟩ := hok
      exact same Iff.rfl
    | cmd =>
      have hh := Idle.holds hok
      refine same ?_
      simp only [after]
      split
      · exact ⟨fun _ => hh,fun _ => trivial⟩
      · exact Iff.rfl
    | interruptAck =>
      obtain rfl := hok
      exact same Iff.rfl
    | _ => exact same Iff.rfl
  | pollBusy k =>
    obtain rfl := hok
    exact same Iff.rfl
  | waitEvent k =>
    obtain rfl := hok
    exact same Iff.rfl
  | wakeUp =>
    obtain ⟨v,rfl⟩ := hok
    exact same Iff.rfl
  | ioread reg =>
    cases reg with
    | interruptStatus =>
      obtain rfl := hok
      refine same ?_
      simp only [after]
      split <;> exact Iff.rfl
    | _ => exact same Iff.rfl
  | _ => exact same Iff.rfl

/-- Whoever uses the card holds the semaphore. -/
theorem holds_of_guarded (hok : φ.Ok a) (hr : a.Unread) (ha : a.guarded = true) : φ.Holds := by
  cases a with
  | ioread reg => exact absurd (ha.symm.trans hr) (by decide)
  | iowrite reg v =>
    cases reg with
    | dataAddr =>
      obtain ⟨i,rfl⟩ := hok
      trivial
    | _ => first | exact Idle.holds hok | cases ha
  | memcpyToio p n => exact Idle.holds hok
  | memcpyFromio p n => exact Idle.holds hok
  | pollBusy k =>
    obtain rfl := hok
    trivial
  | waitEvent k =>
    obtain rfl := hok
    trivial
  | _ => cases ha

end Phase

section
variable {φ : Nat → Phase} {w w' : World} {t : Nat} {a : Act} {x : Choice}

/-- The account of the semaphore, whatever an action is answered. -/
theorem Sem.locked {r : a.Res} (h : Sem (fun u => (φ u).Holds) w) (hok : (φ t).Ok a)
    (he : World.exec t a x w = some (.done r w')) :
    Sem (fun u => (Function.update φ t ((φ t).after a r) u).Holds) w' := by
  refine Sem.next (H := Phase.Holds) h he (Phase.after_holds hok) (fun hu => ?_)
  subst hu
  exact ⟨Phase.Idle.holds hok,id⟩

end

/-- The locking discipline without its claims on the card: the waits may be cut short. -/
def semAssertions : Assertions (locking.only Act.Unread) World Call Int where
  J φ s := Sem (fun t => (φ t).Holds) s.world
  Idle _ _ φ := φ = .out
  Began _ _ _ _ φ := φ = .out
  Post _ _ _ _ φ := φ = .out
  Dead _ := False
  Link _ _ := True

theorem crashes_of_oops {s : System} {t : Nat} {x : Choice} {cl : Call} {w₀ w : World} {a : Act}
    {k : a.Res → Code Int} (ht : s.thr t = .run cl w₀ (.act a k))
    (he : World.exec t a x s.world = some (.oops w)) : crashes s (.act t x) = true := by
  have hn : s.next t = some a := by simp [Sys.next,ht]
  simp only [crashes,hn,he]

theorem semOutline (c : Cipher) :
    Outline (machine c) (fun s l => crashes s l = false) semAssertions where
  call {s g t cl} h _ ht := by
    have hi := h.2 t
    rw [ht] at hi
    have hi : g t = .out := hi
    refine ⟨.out,?_,rfl,(code_unread cl).only (code_locking cl)⟩
    rw [← hi,Function.update_eq_self]
    exact h.1
  ret _ _ hp := hp
  leave h _ := h.1
  link_refl _ := trivial
  link _ _ := trivial
  done h _ ht he := ⟨_,rfl,Sem.locked h.1 (h.ok ht).1 he⟩
  stay h _ _ he := Sem.stay h.1 he
  oops h hp ht he := by
    rw [crashes_of_oops ht he] at hp
    cases hp
  env h _ he := Sem.env h.1 he

theorem sem_start (umem mem : Nat → Byte) :
    semAssertions.Holds (start (World.boot umem mem)) (fun _ => .out) :=
  ⟨(LockInv.boot umem mem).sem,fun _ => rfl⟩

/-- The discipline of the semaphore in every run without a crash, whatever signals, faults,
failures and changes of the flags it has. -/
theorem semaphore_discipline (c : Cipher) (umem mem : Nat → Byte) {s : System}
    (hr : (machine c).Reaches (fun s l => crashes s l = false)
      (start (World.boot umem mem)) s) : Disciplined s := by
  obtain ⟨φ,hφ⟩ := (semOutline c).reaches (sem_start umem mem) hr
  have hsem : Sem (fun t => (φ t).Holds) s.world := hφ.1
  have hcount := hsem.count
  refine ⟨by omega,by omega,fun t ht => ?_,fun t a hn ha => ?_,fun t cl r hret ht => ?_,
    fun t hn => ?_⟩
  · have hh := (hsem.held t).mp ht
    have hok := hφ.2 t
    cases hthr : s.thr t with
    | run cl w p => exact ⟨cl,w,p,rfl⟩
    | idle =>
      rw [hthr] at hok
      have hout : φ t = .out := hok
      rw [hout] at hh
      exact hh.elim
    | dead =>
      rw [hthr] at hok
      exact hok.elim
  · obtain ⟨hok,hun⟩ := hφ.next hn
    exact (hsem.held t).mpr (Phase.holds_of_guarded hok hun ha)
  · obtain ⟨w,hthr⟩ := Sys.returns_eq hret
    obtain ⟨_,_,_,hout⟩ := hφ.post hthr
    have hh := (hsem.held t).mp ht
    have hout : φ t = .out := hout
    rw [hout] at hh
    exact hh
  · have hok := (hφ.next hn).1
    exact (hsem.held t).mpr (Phase.Idle.holds hok)

/-- A writer of the same handle comes to its down while the first one is asleep; a signal
ends the wait of the first. -/
def secondWrite : List Step :=
  sleepingWrite ++ .call 1 (.write 0 0 1) :: List.replicate 5 (.act 1 .ok) ++
  .act 1 (.value 0) :: List.replicate 2 (.act 1 .ok) ++ [.act 0 .signal]

theorem semaphore_discipline_contended :
    ∃ s, (machine (.bytewise fun _ _ x => x)).Reaches (fun s l => crashes s l = false)
      (start (World.boot (fun _ => 0) (fun _ => 0))) s ∧
      s.next 1 = some .downInterruptible ∧ s.world.holders = [0] ∧ Disciplined s := by
  obtain ⟨s,hr,_,hp⟩ := Machine.exists_reaches (M := machine (.bytewise fun _ _ x => x))
    (P := fun s l => crashes s l = false) (n := 2) (b := fun s l => !crashes s l)
    (p := fun s => s.next 1 == some .downInterruptible && s.world.holders == [0])
    (by simp) secondWrite (start_quiet (World.boot (fun _ => 0) (fun _ => 0)) 2)
    (by decide +kernel)
  obtain ⟨hn,hh⟩ := Bool.and_eq_true_iff.mp hp
  exact ⟨s,hr,eq_of_beq hn,eq_of_beq hh,semaphore_discipline _ _ _ hr⟩

end CryptoCard
