import CryptoCard.Library
set_option autoImplicit false

/-! What a system call has taken and not given back yet: its buffer, its mapping,
the semaphore and the card's DMA engine, however its handle is shared. -/
namespace CryptoCard
open Program Interleave

/-- `size` is the length that a write was called with; `notMM`, `isM`, `len` and `msg` are
the fields of the job as the call last knew them. `bar` are the registers while the
semaphore is held, and `op` the DMA operation that may still run. -/
structure Ledger where
  file : Option Nat
  writes : Bool
  size : Nat
  notMM : Bool
  isM : Bool
  len : Nat
  msg : Option Nat
  buf : Option Nat
  map : Option Nat
  bar : Option Regs
  op : Option Op

/-- The pointer and length of whatever goes through the kernel heap. -/
def Act.through : Act → Option (Option Nat × Nat)
  | .dmaMapSingle p n => some (p,n)
  | a => a.buffer

namespace Ledger

/-- `p` and `n` are the buffer and the length of the call itself. -/
def Copies (v : Ledger) (p : Option Nat) (n : Nat) : Prop :=
  v.buf ≠ none ∧ p = v.buf ∧ n = v.size

/-- Only the call's own length is programmed, and a DMA operation is started on the
call's own mapping. -/
def OkWrite (v : Ledger) : Reg → Nat → Prop
  | .live, _ | .interruptAck, _ => True
  | .lenMsg, a | .dlenMsg, a => v.bar ≠ none ∧ a = v.size
  | .cmd, a => a.testBit 0 = true ∧ v.op = none ∧
      ∃ R, v.bar = some R ∧ v.map = some R.addrOp ∧ R.dlenMsg = v.size
  | _, _ => v.bar ≠ none

def Ok (v : Ledger) : Act → Prop
  | .flag f _ | .len f | .msg f | .keyab f => v.file = some f ∧ v.writes = true
  | .setLen f _ | .setMsg f _ => v.file = some f ∧ v.writes = true
  | .setFlag f _ _ | .copyKey f _ => v.file = some f ∧ v.writes = false
  | .vmalloc n => v.buf = none ∧ v.map = none ∧ n = v.size
  | .vfree p => p = v.buf ∧ v.map = none
  | .copyFromUser p _ n | .copyToUser _ p n => v.Copies p n
  | .memcpyToio p n | .memcpyFromio p n => v.Copies p n
  | .downInterruptible => v.bar = none
  | .up => v.bar ≠ none ∧ v.op = none
  | .iowrite r a => v.OkWrite r a
  | .dmaMapSingle p n => v.Copies p n ∧ v.map = none
  | .dmaUnmapSingle h _ => v.map = some h ∧ v.op = none
  | _ => True

def Next (v : Ledger) : (a : Act) → a.Res → Ledger → Prop
  | .flag _ .isNotMM, r, v' => v' = v ∧ r = v.notMM
  | .flag _ .isM, r, v' =>
      v' = { v with isM := r } ∧ (v.notMM = false → v.isM = true → r = true)
  | .len _, r, v' => v' = v ∧ r = v.len
  | .msg _, r, v' => v' = v ∧ r = v.msg
  | .setLen _ n, _, v' => v' = { v with len := n }
  | .setMsg _ p, _, v' => v' = { v with msg := p }
  | .vmalloc _, r, v' => v' = { v with buf := r }
  | .vfree _, _, v' => v' = { v with buf := none }
  | .downInterruptible, r, v' =>
      (r = true ∧ v' = v) ∨ (r = false ∧ ∃ R, v' = { v with bar := some R })
  | .up, _, v' => v' = { v with bar := none }
  | .iowrite .cmd a, _, v' => v' = { v with
      bar := v.bar.map (fun R => R.set .cmd a)
      op := v.bar.map (fun R => (R.set .cmd a).operation .dma) }
  | .iowrite r a, _, v' => v' = { v with bar := v.bar.map (fun R => R.set r a) }
  | .pollBusy .dma, _, v' => v' = { v with op := none }
  | .waitEvent .dma, r, v' => v' = { v with op := none } ∧ r = false
  | .dmaMapSingle _ _, r, v' => v' = { v with map := r }
  | .dmaUnmapSingle _ _, _, v' => v' = { v with map := none }
  | _, _, v' => v' = v

end Ledger

@[reducible] def bookkeeping : Discipline Act Act.Res where
  Ghost := Ledger
  ok := Ledger.Ok
  next := Ledger.Next

namespace Ledger

section
attribute [local simp] Ok Next OkWrite
variable {f ptr n : Nat} {err : Int} {v : Ledger} {R : Regs}

/-- The call holds nothing. -/
structure Cleared (v : Ledger) : Prop where
  buf : v.buf = none
  map : v.map = none
  bar : v.bar = none
  op : v.op = none

/-- A write whose buffer is the one that the exits free. -/
structure Owing (f : Nat) (v : Ledger) : Prop where
  file : v.file = some f
  writes : v.writes = true
  owns : v.buf = if v.notMM then v.msg else none
  op : v.op = none

/-- Past the allocation. -/
structure Loaded (f n : Nat) (v : Ledger) : Prop extends Owing f v where
  size : v.size = n
  len : v.len = n
  isM : v.notMM = false → v.isM = true
  full : v.notMM = true → v.buf ≠ none

theorem Owing.withBar (h : Owing f v) (bar : Option Regs) : Owing f { v with bar := bar } :=
  ⟨h.file,h.writes,h.owns,h.op⟩

theorem Loaded.withBar (h : Loaded f n v) (bar : Option Regs) :
    Loaded f n { v with bar := bar } :=
  ⟨h.toOwing.withBar bar,h.size,h.len,h.isM,h.full⟩

theorem Loaded.withMap (h : Loaded f n v) (m : Option Nat) : Loaded f n { v with map := m } :=
  ⟨⟨h.file,h.writes,h.owns,h.op⟩,h.size,h.len,h.isM,h.full⟩

/-- The postcondition of every call. -/
abbrev Left (_ : Int) (v : Ledger) : Prop := v.Cleared

theorem releaseMsg_ledger {Q : Unit → Ledger → Prop} (h : Owing f v) (hmap : v.map = none)
    (hQ : Q () { v with buf := none, msg := none }) :
    wp bookkeeping (releaseMsg f) Q v := by
  have hj : v.file = some f ∧ v.writes = true := ⟨h.file,h.writes⟩
  have hown := h.owns
  simp only [releaseMsg,wp_bind,wp_perform,wp_ite,Ok,Next,and_imp,forall_eq]
  refine ⟨hj,fun hN => ?_,fun hN => ?_⟩
  · rw [hN,if_pos rfl] at hown
    exact ⟨hj,⟨hown.symm,hmap⟩,fun _ => ⟨hj,fun _ => hQ⟩⟩
  · rw [if_neg hN] at hown
    refine ⟨hj,fun _ => ?_⟩
    rw [hown]
    exact hQ

theorem outFree_ledger (h : Owing f v) (hmap : v.map = none) (hbar : v.bar = none) :
    wp bookkeeping (outFree f err) Left v := by
  rw [outFree,wp_bind]
  exact releaseMsg_ledger h hmap ⟨rfl,hmap,hbar,h.op⟩

theorem outUp_ledger (h : Owing f v) (hmap : v.map = none) (hbar : v.bar ≠ none) :
    wp bookkeeping (outUp f err) Left v := by
  simp only [outUp,wp_bind,wp_perform,Ok,Next,forall_eq,forall_const]
  exact ⟨⟨hbar,h.op⟩,outFree_ledger (h.withBar none) hmap rfl⟩

theorem writeDone_ledger (h : Owing f v) (hmap : v.map = none) (hbar : v.bar ≠ none) :
    wp bookkeeping (writeDone f) Left v := by
  simp only [writeDone,wp_bind,wp_perform,Ok,Next,forall_eq,forall_const]
  exact ⟨⟨hbar,h.op⟩,releaseMsg_ledger (h.withBar none) hmap ⟨rfl,hmap,rfl,h.op⟩⟩

theorem Loaded.copies (h : Loaded f n v) (hN : v.notMM = true) : v.Copies v.msg v.len := by
  have hown := h.owns
  rw [hN,if_pos rfl] at hown
  exact ⟨h.full hN,hown.symm,h.len.trans h.size.symm⟩

theorem copyBack_ledger (h : Loaded f n v) (hN : v.notMM = true) (hmap : v.map = none)
    (hbar : v.bar ≠ none) : wp bookkeeping (copyBack f ptr) Left v := by
  have hj : v.file = some f ∧ v.writes = true := ⟨h.file,h.writes⟩
  simp only [copyBack,wp_bind,wp_perform,wp_ite,Ok,Next,and_imp,forall_eq]
  refine ⟨hj,hj,h.copies hN,fun r => ⟨fun _ => ?_,fun _ => ?_⟩⟩
  · exact outUp_ledger h.toOwing hmap hbar
  · exact writeDone_ledger h.toOwing hmap hbar

theorem mmioCopyIn_ledger {Q : Unit → Ledger → Prop} (h : Loaded f n v) (hQ : Q () v) :
    wp bookkeeping (mmioCopyIn f) Q v := by
  have hj : v.file = some f ∧ v.writes = true := ⟨h.file,h.writes⟩
  simp only [mmioCopyIn,wp_bind,wp_perform,wp_ite,wp_pure,Ok,Next,and_imp,forall_eq]
  exact ⟨hj,fun hN => ⟨hj,hj,h.copies hN,fun _ => hQ⟩,fun _ => hQ⟩

theorem mmioCopyOut_ledger (h : Loaded f n v) (hmap : v.map = none) (hbar : v.bar ≠ none) :
    wp bookkeeping (mmioCopyOut f ptr) Left v := by
  have hj : v.file = some f ∧ v.writes = true := ⟨h.file,h.writes⟩
  simp only [mmioCopyOut,wp_bind,wp_perform,wp_ite,Ok,Next,and_imp,forall_eq]
  exact ⟨hj,fun hN => ⟨hj,hj,h.copies hN,fun _ => copyBack_ledger h hN hmap hbar⟩,
    fun _ => writeDone_ledger h.toOwing hmap hbar⟩

/-- Whatever ends the wait for an MMIO operation, it is no DMA operation. -/
theorem mmioWait_ledger {Q : Bool → Ledger → Prop} (h : Loaded f n v) (hbar : v.bar = some R)
    (hQ : ∀ b R, Q b { v with bar := some R }) : wp bookkeeping (mmioWait f) Q v := by
  have hj : v.file = some f ∧ v.writes = true := ⟨h.file,h.writes⟩
  simp only [mmioWait,mmioStart,wp_bind,wp_perform,wp_ite,wp_pure,Ok,Next,OkWrite,forall_eq,
    forall_const,hbar,Option.map_some,ne_eq,reduceCtorEq,not_false_eq_true,true_and]
  refine ⟨hj,fun I => ⟨fun _ => ⟨hj,fun E => ⟨fun _ b => ?_,fun _ b => ?_⟩⟩,
    fun _ => ⟨hj,fun E => ⟨fun _ => ?_,fun _ => ?_⟩⟩⟩⟩ <;> exact hQ _ _

theorem mmioBranch_ledger (h : Loaded f n v) (hmap : v.map = none) (hbar : v.bar = some R) :
    wp bookkeeping (mmioBranch f ptr) Left v := by
  have hj : v.file = some f ∧ v.writes = true := ⟨h.file,h.writes⟩
  simp only [mmioBranch,wp_bind,wp_perform,wp_ite,Ok,Next,OkWrite,and_imp,forall_eq,forall_const,
    hbar,Option.map_some,ne_eq,reduceCtorEq,not_false_eq_true,true_and]
  refine ⟨hj,h.len.trans h.size.symm,mmioCopyIn_ledger (h.withBar _) ?_⟩
  refine mmioWait_ledger (h.withBar _) rfl (fun b R => ⟨fun _ => ?_,fun _ => ?_⟩)
  · exact outUp_ledger (h.withBar _).toOwing hmap (Option.some_ne_none R)
  · exact mmioCopyOut_ledger (h.withBar _) hmap (Option.some_ne_none R)

theorem dmaWait_ledger {Q : Bool → Ledger → Prop} (h : Loaded f n v) (hbar : v.bar = some R)
    (hmap : v.map = some R.addrOp) (hn : R.dlenMsg = v.size)
    (hQ : ∀ R, Q false { v with bar := some R }) : wp bookkeeping (dmaWait f) Q v := by
  have hj : v.file = some f ∧ v.writes = true := ⟨h.file,h.writes⟩
  have hstart : v.op = none ∧ ∃ R', some R = some R' ∧ v.map = some R'.addrOp ∧
      R'.dlenMsg = v.size := ⟨h.op,R,rfl,hmap,hn⟩
  have hlast (a : Nat) : Q false { v with bar := some (R.set .cmd a), op := none } := by
    rw [← h.op]
    exact hQ _
  simp only [dmaWait,dmaStart,wp_bind,wp_perform,wp_ite,wp_pure,Ok,Next,OkWrite,and_imp,forall_eq,
    forall_const,hbar,Option.map_some]
  refine ⟨hj,fun I => ⟨fun _ => ⟨hj,fun E => ⟨fun _ => ?_,fun _ => ?_⟩⟩,
    fun _ => ⟨hj,fun E => ⟨fun _ => ?_,fun _ => ?_⟩⟩⟩⟩
  all_goals refine ⟨⟨by decide,hstart⟩,?_⟩
  · exact ⟨trivial,hlast _⟩
  · exact ⟨trivial,hlast _⟩
  · exact ⟨trivial,hlast _⟩
  · exact ⟨trivial,hlast _⟩

theorem dmaBranch_ledger (h : Loaded f n v) (hN : v.notMM = true) (hmap : v.map = none)
    (hbar : v.bar = some R) : wp bookkeeping (dmaBranch f ptr) Left v := by
  have hj : v.file = some f ∧ v.writes = true := ⟨h.file,h.writes⟩
  have hsome := Option.some_ne_none R
  simp only [dmaBranch,wp_bind,wp_perform,Ok,Next,and_imp,forall_eq]
  refine ⟨hj,hj,⟨h.copies hN,hmap⟩,fun handle => ?_⟩
  cases handle with
  | none => exact outUp_ledger (h.withMap none).toOwing rfl (by rw [hbar]; exact hsome)
  | some handle =>
    have hw := h.withMap (some handle)
    simp only [dmaMapped,wp_bind,wp_perform,wp_ite,Ok,Next,OkWrite,and_imp,forall_eq,forall_const,
      hbar,Option.map_some,ne_eq,reduceCtorEq,not_false_eq_true,true_and]
    have hlen := h.len.trans h.size.symm
    refine ⟨hj,hlen,dmaWait_ledger (hw.withBar _) rfl rfl hlen (fun R' => ?_)⟩
    refine ⟨fun hcut => absurd hcut (by decide),fun _ => ⟨hj,⟨rfl,h.op⟩,?_⟩⟩
    exact copyBack_ledger ((h.withMap none).withBar _) hN rfl (Option.some_ne_none R')

theorem writeLocked_ledger (h : Loaded f n v) (hmap : v.map = none) (hbar : v.bar = none) :
    wp bookkeeping (writeLocked f ptr) Left v := by
  have hj : v.file = some f ∧ v.writes = true := ⟨h.file,h.writes⟩
  simp only [writeLocked,wp_bind,wp_perform,wp_ite,Ok,Next]
  refine ⟨hbar,?_⟩
  rintro cut _ (⟨rfl,rfl⟩ | ⟨rfl,R,rfl⟩)
  · exact ⟨fun _ => outFree_ledger h.toOwing hmap hbar,fun hcut => absurd rfl hcut⟩
  refine ⟨fun hcut => absurd hcut (by decide),fun _ => ?_⟩
  simp only [OkWrite,and_imp,forall_eq,forall_const,Option.map_some,ne_eq,reduceCtorEq,
    not_false_eq_true,true_and]
  refine ⟨hj,fun k => ⟨hj,fun M hM => ⟨fun _ => ?_,fun hd => ?_⟩⟩⟩
  · exact mmioBranch_ledger ⟨⟨h.file,h.writes,h.owns,h.op⟩,h.size,h.len,
      fun hN => hM hN (h.isM hN),h.full⟩ hmap rfl
  · -- a memory mapped job does not get here
    have hN : v.notMM = true := by
      by_contra hN
      exact hd (hM (by simpa using hN) (h.isM (by simpa using hN)))
    exact dmaBranch_ledger ⟨⟨h.file,h.writes,h.owns,h.op⟩,h.size,h.len,
      fun hN' => by simp [hN] at hN',h.full⟩ hN hmap rfl

/-- On the way to the allocation. -/
structure Entered (f n : Nat) (v : Ledger) : Prop extends Cleared v where
  file : v.file = some f
  writes : v.writes = true
  size : v.size = n
  isM : v.notMM = false → v.isM = true

theorem writeCopyIn_ledger (h : Entered f n v) (hN : v.notMM = true) (hlen : v.len = n) :
    wp bookkeeping (writeCopyIn f ptr n) Left v := by
  have hj : v.file = some f ∧ v.writes = true := ⟨h.file,h.writes⟩
  simp only [writeCopyIn,wp_bind,wp_perform,wp_ite,wp_pure,Ok,Next,and_imp,forall_eq,forall_const]
  refine ⟨⟨h.buf,h.map,h.size.symm⟩,fun p => ⟨hj,hj,fun hp => ?_,fun hp => ?_⟩⟩
  · exact ⟨hp,h.map,h.bar,h.op⟩
  · have hL : Loaded f n { v with buf := p, msg := p } :=
      ⟨⟨h.file,h.writes,by simp [hN],h.op⟩,h.size,hlen,h.isM,fun _ => hp⟩
    refine ⟨hj,hj,hL.copies hN,fun r => ⟨fun _ => ?_,fun _ => ?_⟩⟩
    · exact outFree_ledger hL.toOwing h.map h.bar
    · exact writeLocked_ledger hL h.map h.bar

theorem writeBody_ledger (h : Entered f n v) (hn : n < 2^32) :
    wp bookkeeping (writeBody f ptr n) Left v := by
  have hj : v.file = some f ∧ v.writes = true := ⟨h.file,h.writes⟩
  have hE : Entered f n { v with len := n } :=
    ⟨⟨h.buf,h.map,h.bar,h.op⟩,h.file,h.writes,h.size,h.isM⟩
  simp only [writeBody,wp_bind,wp_perform,wp_ite,Ok,Next,and_imp,forall_eq,forall_const,
    Nat.mod_eq_of_lt hn]
  refine ⟨hj,hj,fun hN => writeCopyIn_ledger hE hN rfl,fun hN => ?_⟩
  have hL : Loaded f n { v with len := n } :=
    ⟨⟨h.file,h.writes,by rw [h.buf,if_neg hN],h.op⟩,h.size,rfl,h.isM,fun hN' => absurd hN' hN⟩
  exact writeLocked_ledger hL h.map h.bar

theorem writeLive_ledger (h : Entered f n v) (hn : n < 2^32) :
    wp bookkeeping (writeLive f ptr n) Left v := by
  have hv : ({ v with bar := v.bar.map (fun R => R.set .live 0x0fffffff) } : Ledger) = v := by
    have hbar := h.bar
    cases v
    simp_all
  simp only [writeLive,isNotLive,wp_bind,wp_perform,wp_ite,wp_pure,Ok,Next,OkWrite,forall_eq,
    forall_const,true_and,hv]
  exact fun _ => ⟨fun _ => h.toCleared,fun _ => writeBody_ledger h hn⟩

/-- A write gives back what it takes on every way out, whatever it is answered. -/
theorem pciWrite_ledger (h : v.Cleared) (hf : v.file = some f) (hw : v.writes = true)
    (hs : v.size = n) (hn : n < 2^32) : wp bookkeeping (pciWrite f ptr n) Left v := by
  have hj : v.file = some f ∧ v.writes = true := ⟨hf,hw⟩
  simp only [pciWrite,wp_bind,wp_perform,wp_ite,wp_pure,Ok,Next,and_imp,forall_eq,true_and]
  refine fun _ => ⟨fun _ => h,fun _ _ => ⟨fun _ => h,fun _ => ⟨hj,fun hN => ?_,fun hN => ⟨hj,?_⟩⟩⟩⟩
  · exact writeLive_ledger ⟨h,hf,hw,hs,fun hN' => by simp [hN] at hN'⟩ hn
  · refine fun M _ => ⟨fun hM => ?_,fun _ => ⟨h.buf,h.map,h.bar,h.op⟩⟩
    exact writeLive_ledger ⟨⟨h.buf,h.map,h.bar,h.op⟩,hf,hw,hs,fun _ => hM⟩ hn

theorem pciUnlockedIoctl_ledger {cmd : Nat} {arg : List Byte} (h : v.Cleared)
    (hf : v.file = some f) (hw : v.writes = false) :
    wp bookkeeping (pciUnlockedIoctl f cmd arg) Left v := by
  unfold pciUnlockedIoctl
  cases ioctlByte arg <;> simp [hf,hw,h]

theorem pciIrqHandle_ledger {dev : Bool} (h : v.Cleared) :
    wp bookkeeping (pciIrqHandle dev) Left v := by
  have hv (a : Nat) : ({ v with bar := v.bar.map (fun R => R.set .interruptAck a) } : Ledger) = v := by
    have hbar := h.bar
    cases v
    simp_all
  simp only [pciIrqHandle,wp_bind,wp_perform,wp_ite,wp_pure,Ok,Next,OkWrite,forall_eq,forall_const,
    true_and,hv]
  exact ⟨fun _ => h,fun _ _ => ⟨fun _ => h,fun _ _ => ⟨fun _ => h,fun _ => ⟨fun _ => h,fun _ => h⟩⟩⟩⟩

end

end Ledger

end CryptoCard
