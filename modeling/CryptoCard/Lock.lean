import CryptoCard.Crypter
set_option autoImplicit false

/-! The locking discipline of the driver: which actions lie between down and up,
and what lies between the start of an operation and the end of the wait for it. -/
namespace CryptoCard
open Program Interleave

/-- Where a thread stands: outside; holding the semaphore with no operation of
its own in progress, the interrupt bit it wrote to `status` noted; waiting for an
operation; or inside the interrupt handler with the status it has read. -/
inductive Phase where
  | out
  | idle (intr : Option Bool)
  | busy (k : Kind) (intr : Bool)
  | irqWake (v : Nat)
  | irqAck (v : Nat)
  deriving DecidableEq, Repr

namespace Phase

/-- The thread is neither waiting for the card nor inside the handler. -/
def Calm : Phase → Prop
  | .out | .idle _ => True
  | _ => False

def Idle : Phase → Prop
  | .idle _ => True
  | _ => False

/-- The thread is between its down and its up. -/
def Holds : Phase → Prop
  | .idle _ | .busy _ _ => True
  | _ => False

instance : DecidablePred Calm := fun φ => by cases φ <;> unfold Calm <;> infer_instance
instance : DecidablePred Idle := fun φ => by cases φ <;> unfold Idle <;> infer_instance
instance : DecidablePred Holds := fun φ => by cases φ <;> unfold Holds <;> infer_instance

def Ok (φ : Phase) : Act → Prop
  | .downInterruptible => φ = .out
  | .up => φ.Idle
  | .iowrite .dataAddr _ => ∃ i, φ = .idle (some i)
  | .iowrite .interruptAck v => φ = .irqAck v
  | .iowrite .live _ => φ.Calm
  | .iowrite _ _ => φ.Idle
  | .memcpyToio _ _ | .memcpyFromio _ _ => φ.Idle
  | .pollBusy k => φ = .busy k false
  | .waitEvent k => φ = .busy k true
  | .ioread .interruptStatus => φ = .out
  | .wakeUp => ∃ v, φ = .irqWake v
  | _ => φ.Calm

def after (φ : Phase) : (a : Act) → a.Res → Phase
  | .downInterruptible, cut => if cut then .out else .idle none
  | .up, _ => .out
  | .iowrite .status v, _ => .idle (some (v.testBit 7))
  | .iowrite .dataAddr _, _ =>
    match φ with
    | .idle (some i) => .busy .mmio i
    | φ => φ
  | .iowrite .cmd v, _ => if v.testBit 0 then .busy .dma (v.testBit 2) else φ
  | .iowrite .interruptAck _, _ => .out
  | .pollBusy _, _ => .idle none
  | .waitEvent _, _ => .idle none
  | .ioread .interruptStatus, v => if v = 0x001 ∨ v = 0x100 then .irqWake v else .irqAck v
  | .wakeUp, _ =>
    match φ with
    | .irqWake v => .irqAck v
    | φ => φ
  | _, _ => φ

end Phase

@[reducible] def locking : Discipline Act Act.Res where
  Ghost := Phase
  ok := Phase.Ok
  next φ a r φ' := φ' = φ.after a r

section
attribute [local simp] Phase.Ok Phase.after
variable {f ptr len : Nat} {err : Int} {i : Option Bool}

/-- The postcondition of every call: the semaphore is not held. -/
abbrev Left (_ : Int) (φ : Phase) : Prop := φ = .out

theorem releaseMsg_locking {Q : Unit → Phase → Prop} (h : Q () .out) :
    wp locking (releaseMsg f) Q .out := by
  simp [releaseMsg,Phase.Ok,Phase.after,Phase.Calm,h]

theorem outFree_locking : wp locking (outFree f err) Left .out := by
  rw [outFree,wp_bind]
  exact releaseMsg_locking rfl

theorem outUp_locking : wp locking (outUp f err) Left (.idle i) := by
  simp only [outUp,wp_bind,wp_perform,Phase.Ok,Phase.Idle,Phase.after,forall_eq,true_and]
  exact fun _ => outFree_locking

theorem writeDone_locking : wp locking (writeDone f) Left (.idle i) := by
  simp only [writeDone,wp_bind,wp_perform,Phase.Ok,Phase.Idle,Phase.after,forall_eq,true_and]
  exact fun _ => releaseMsg_locking rfl

theorem copyBack_locking : wp locking (copyBack f ptr) Left (.idle i) := by
  simp only [copyBack,wp_bind,wp_perform,wp_ite,Phase.Ok,Phase.Calm,Phase.after,forall_eq,
    true_and]
  exact fun _ _ _ => ⟨fun _ => outUp_locking,fun _ => writeDone_locking⟩

theorem mmioCopyIn_locking {Q : Unit → Phase → Prop} (h : Q () (.idle i)) :
    wp locking (mmioCopyIn f) Q (.idle i) := by
  simp [mmioCopyIn,Phase.Ok,Phase.after,Phase.Calm,Phase.Idle,h]

theorem mmioCopyOut_locking : wp locking (mmioCopyOut f ptr) Left (.idle i) := by
  simp only [mmioCopyOut,wp_bind,wp_perform,wp_ite,Phase.Ok,Phase.Calm,Phase.Idle,Phase.after,
    forall_eq,true_and]
  exact fun _ => ⟨fun _ _ _ _ => copyBack_locking,fun _ => writeDone_locking⟩

/-- Whatever ends the wait, it was for the operation just started. -/
theorem mmioWait_locking {Q : Bool → Phase → Prop} (h : ∀ b, Q b (.idle none)) :
    wp locking (mmioWait f) Q (.idle i) := by
  simp [mmioWait,mmioStart,Phase.Ok,Phase.after,Phase.Calm,Phase.Idle,h]
  decide

theorem mmioBranch_locking : wp locking (mmioBranch f ptr) Left (.idle i) := by
  simp only [mmioBranch,wp_bind,wp_perform,wp_ite,Phase.Ok,Phase.Calm,Phase.Idle,Phase.after,
    forall_eq,true_and]
  intro _ _
  refine mmioCopyIn_locking (mmioWait_locking ?_)
  exact fun b => ⟨fun _ => outUp_locking,fun _ => mmioCopyOut_locking⟩

theorem dmaWait_locking {Q : Bool → Phase → Prop} (h : ∀ b, Q b (.idle none)) :
    wp locking (dmaWait f) Q (.idle i) := by
  simp [dmaWait,dmaStart,Phase.Ok,Phase.after,Phase.Calm,Phase.Idle,h]
  decide

theorem dmaBranch_locking : wp locking (dmaBranch f ptr) Left (.idle i) := by
  simp only [dmaBranch,wp_bind,wp_perform,Phase.Ok,Phase.Calm,Phase.after,forall_eq,true_and]
  intro _ _ handle
  cases handle with
  | none => exact outUp_locking
  | some handle =>
    simp only [dmaMapped,wp_bind,wp_perform,wp_ite,Phase.Ok,Phase.Calm,Phase.Idle,Phase.after,
      forall_eq,true_and]
    intro _ _ _
    refine dmaWait_locking ?_
    exact fun b => ⟨fun _ => outUp_locking,
      fun _ => ⟨trivial,fun _ => ⟨trivial,fun _ => copyBack_locking⟩⟩⟩

theorem writeLocked_locking : wp locking (writeLocked f ptr) Left .out := by
  simp only [writeLocked,wp_bind,wp_perform,wp_ite,Phase.Ok,Phase.after,forall_eq,true_and]
  intro cut
  cases cut with
  | true => exact ⟨fun _ => outFree_locking,fun h => absurd rfl h⟩
  | false =>
    refine ⟨fun h => absurd h Bool.false_ne_true,fun _ => ⟨trivial,fun _ => ⟨trivial,fun _ => ?_⟩⟩⟩
    exact ⟨trivial,fun _ => ⟨fun _ => mmioBranch_locking,fun _ => dmaBranch_locking⟩⟩

theorem writeCopyIn_locking : wp locking (writeCopyIn f ptr len) Left .out := by
  simp only [writeCopyIn,wp_bind,wp_perform,wp_ite,wp_pure,Phase.Ok,Phase.Calm,Phase.after,
    forall_eq,true_and,implies_true]
  exact fun _ _ _ _ _ _ _ => ⟨fun _ => outFree_locking,fun _ => writeLocked_locking⟩

theorem writeBody_locking : wp locking (writeBody f ptr len) Left .out := by
  simp only [writeBody,wp_bind,wp_perform,wp_ite,Phase.Ok,Phase.Calm,Phase.after,forall_eq,
    true_and]
  exact fun _ _ => ⟨fun _ => writeCopyIn_locking,fun _ => writeLocked_locking⟩

theorem writeLive_locking : wp locking (writeLive f ptr len) Left .out := by
  simp only [writeLive,isNotLive,wp_bind,wp_perform,wp_ite,wp_pure,Phase.Ok,Phase.Calm,
    Phase.after,forall_eq,true_and,implies_true]
  exact fun _ _ _ => writeBody_locking

theorem pciWrite_locking : wp locking (pciWrite f ptr len) Left .out := by
  simp only [pciWrite,wp_bind,wp_perform,wp_ite,wp_pure,Phase.Ok,Phase.Calm,Phase.after,
    forall_eq,true_and,implies_true]
  exact fun _ _ _ _ _ => ⟨fun _ => writeLive_locking,fun _ _ => ⟨fun _ => writeLive_locking,trivial⟩⟩

theorem pciUnlockedIoctl_locking {cmd : Nat} {arg : List Byte} :
    wp locking (pciUnlockedIoctl f cmd arg) Left .out := by
  unfold pciUnlockedIoctl
  cases ioctlByte arg <;> simp [Phase.Ok,Phase.Calm,Phase.after]

theorem pciIrqHandle_locking {dev : Bool} : wp locking (pciIrqHandle dev) Left .out := by
  simp only [pciIrqHandle,wp_bind,wp_perform,wp_ite,wp_pure,Phase.Ok,Phase.Calm,Phase.after,
    forall_eq,true_and,implies_true]
  intro _ _ _ status
  by_cases h1 : status = 0x001
  · simp [h1]
  · by_cases h2 : status = 0x100 <;> simp [h1,h2]

theorem cryptLoop_locking {cdev addr length : Nat} (fuel : Nat) :
    wp locking (cryptLoop cdev fuel addr length) Left .out := by
  induction fuel generalizing addr length with
  | zero => rfl
  | succ fuel ih =>
    rw [cryptLoop_succ]
    refine (wp_bind _ _ _ _).mpr (wp_mono ?_ pciWrite_locking)
    rintro r φ rfl
    simp only [wp_ite,wp_pure,implies_true,true_and]
    exact fun _ => ⟨fun _ => ih,trivial⟩

theorem crypt_locking {value isMapped : Byte} {cdev addr length : Nat} :
    wp locking (crypt value cdev addr length isMapped) Left .out := by
  refine (wp_bind _ _ _ _).mpr (wp_mono ?_ pciUnlockedIoctl_locking)
  rintro r φ rfl
  simp only [wp_ite,wp_pure,implies_true,true_and]
  refine fun _ => (wp_bind _ _ _ _).mpr (wp_mono ?_ pciUnlockedIoctl_locking)
  rintro r φ rfl
  simp only [wp_ite,wp_pure,implies_true,true_and]
  exact fun _ => cryptLoop_locking _

/-- Every call keeps to the locking discipline, whatever it is answered. -/
theorem code_locking (c : Call) : wp locking c.code Left .out := by
  have hioctl (cdev cmd : Nat) (arg : List Byte) : wp locking (do
      let r ← pciUnlockedIoctl cdev cmd arg
      if r ≠ 0 then return ERROR else return 0) Left .out := by
    refine (wp_bind _ _ _ _).mpr (wp_mono ?_ pciUnlockedIoctl_locking)
    rintro r φ rfl
    simp
  cases c with
  | write f ptr len => exact pciWrite_locking
  | ioctl f cmd arg => exact pciUnlockedIoctl_locking
  | setKey cdev a b => exact hioctl _ _ _
  | setConfig cdev type value => exact hioctl _ _ _
  | encrypt cdev addr length isMapped => exact crypt_locking
  | decrypt cdev addr length isMapped => exact crypt_locking
  | irq dev => exact pciIrqHandle_locking
  | store addr xs => simp [Call.code,Phase.Ok,Phase.Calm,Phase.after]
  | mapStore off xs => simp [Call.code,Phase.Ok,Phase.Calm,Phase.after]

end

/-- The actions that a write on `f` is made of. -/
def Act.OfWrite (f : Nat) : Act → Prop
  | .privateData g | .flag g _ | .len g | .msg g | .keyab g | .setLen g _ | .setMsg g _ => g = f
  | .setFlag _ _ _ | .copyKey _ _ | .wakeUp | .userStore _ _ | .mapStore _ _ => False
  | .ioread r => r = .live
  | _ => True

section
variable {f ptr len : Nat} {err : Int} {mode : Nat}

attribute [local simp] Act.OfWrite

theorem releaseMsg_ofWrite : Always (Act.OfWrite f) (releaseMsg f) :=
  ⟨by simp,fun b => by cases b <;> simp⟩

theorem outFree_ofWrite : Always (Act.OfWrite f) (outFree f err) :=
  releaseMsg_ofWrite.bind (fun _ => trivial)

theorem outUp_ofWrite : Always (Act.OfWrite f) (outUp f err) :=
  ⟨trivial,fun _ => outFree_ofWrite⟩

theorem writeDone_ofWrite : Always (Act.OfWrite f) (writeDone f) :=
  ⟨trivial,fun _ => releaseMsg_ofWrite.bind (fun _ => trivial)⟩

theorem copyBack_ofWrite : Always (Act.OfWrite f) (copyBack f ptr) := by
  simp [copyBack,outUp_ofWrite,writeDone_ofWrite]

theorem mmioCopyIn_ofWrite : Always (Act.OfWrite f) (mmioCopyIn f) := by
  simp [mmioCopyIn]

theorem mmioCopyOut_ofWrite : Always (Act.OfWrite f) (mmioCopyOut f ptr) := by
  simp [mmioCopyOut,copyBack_ofWrite,writeDone_ofWrite]

theorem mmioStart_ofWrite : Always (Act.OfWrite f) (mmioStart f mode) := by
  simp [mmioStart]

theorem mmioWait_ofWrite : Always (Act.OfWrite f) (mmioWait f) := by
  simp only [mmioWait,always_step,always_ite]
  exact ⟨by simp,fun _ => ⟨fun _ => mmioStart_ofWrite.bind (by simp),
    fun _ => mmioStart_ofWrite.bind (by simp)⟩⟩

theorem mmioBranch_ofWrite : Always (Act.OfWrite f) (mmioBranch f ptr) := by
  refine ⟨by simp,fun _ => ⟨trivial,fun _ => mmioCopyIn_ofWrite.bind (fun _ => ?_)⟩⟩
  refine mmioWait_ofWrite.bind (fun cut => ?_)
  cases cut with
  | true => exact outUp_ofWrite
  | false => exact mmioCopyOut_ofWrite

theorem dmaStart_ofWrite : Always (Act.OfWrite f) (dmaStart f mode) := by
  simp [dmaStart]

theorem dmaWait_ofWrite : Always (Act.OfWrite f) (dmaWait f) := by
  simp only [dmaWait,always_step,always_ite]
  exact ⟨by simp,fun _ => ⟨fun _ => dmaStart_ofWrite.bind (by simp),
    fun _ => dmaStart_ofWrite.bind (by simp)⟩⟩

theorem dmaBranch_ofWrite : Always (Act.OfWrite f) (dmaBranch f ptr) := by
  refine ⟨by simp,fun _ => ⟨by simp,fun _ => ⟨trivial,fun handle => ?_⟩⟩⟩
  cases handle with
  | none => exact outUp_ofWrite
  | some handle =>
    refine ⟨trivial,fun _ => ⟨by simp,fun _ => ⟨trivial,fun _ => dmaWait_ofWrite.bind (fun cut => ?_)⟩⟩⟩
    cases cut with
    | true => exact outUp_ofWrite
    | false => exact ⟨by simp,fun _ => ⟨trivial,fun _ => copyBack_ofWrite⟩⟩

theorem writeLocked_ofWrite : Always (Act.OfWrite f) (writeLocked f ptr) := by
  simp [writeLocked,outFree_ofWrite,mmioBranch_ofWrite,dmaBranch_ofWrite]

theorem writeBody_ofWrite : Always (Act.OfWrite f) (writeBody f ptr len) := by
  simp [writeBody,writeCopyIn,outFree_ofWrite,writeLocked_ofWrite]

theorem writeLive_ofWrite : Always (Act.OfWrite f) (writeLive f ptr len) := by
  have hlive : Always (Act.OfWrite f) (isNotLive 0x0fffffff) := by simp [isNotLive]
  exact hlive.bind (fun b => by cases b <;> simp [writeBody_ofWrite])

/-- A write is made of nothing else. -/
theorem sysWrite_ofWrite : Always (Act.OfWrite f) (sysWrite f ptr len) := by
  simp [sysWrite,pciWrite,writeLive_ofWrite]

end

end CryptoCard
