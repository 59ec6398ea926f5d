import CryptoCard.World
set_option autoImplicit false

/-! `cryptocard_mod.c`: the write, ioctl and interrupt entry points, action by
action. Every use of a field of the job is a read of its own. -/
namespace CryptoCard
open Program

abbrev Code (α : Type) := Prog Act Act.Res α

/-- The program that performs one action. -/
abbrev atom (a : Act) : Code a.Res := perform a

def eAGAIN : Int := 11
def eNOMEM : Int := 12
def eBUSY : Int := 16
def eNODEV : Int := 19
def eINVAL : Int := 22
def eRESTARTSYS : Int := 512
def irqHANDLED : Int := 1

/-- `_IOW(type, nr, size)`. -/
def iow (type nr size : Nat) : Nat := 2^30 + size * 2^16 + type * 2^8 + nr

def SET_KEY : Nat := iow 248 101 8
def SET_CONFIG : Nat := iow 248 102 8
def SET_ENCRYP : Nat := iow 248 103 8
def SET_MMAP : Nat := iow 248 104 8

/-- The bytes by which ioctl arguments name a setting. -/
def INTERRUPT : Byte := 10
def NOINTERRUPT : Byte := 20
def MMIO : Byte := 30
def DMA : Byte := 40
def ENCRYPT : Byte := 50
def DECRYPT : Byte := 60
def MMAP : Byte := 70
def UNMMAP : Byte := 80

abbrev isE (f : Nat) : Code Bool := atom (.flag f .isE)
abbrev isM (f : Nat) : Code Bool := atom (.flag f .isM)
abbrev isI (f : Nat) : Code Bool := atom (.flag f .isI)
abbrev isNotMM (f : Nat) : Code Bool := atom (.flag f .isNotMM)
abbrev jobLen (f : Nat) : Code Nat := atom (.len f)
abbrev jobMsg (f : Nat) : Code (Option Nat) := atom (.msg f)
abbrev iowrite (v : Nat) (r : Reg) : Code Unit := atom (.iowrite r v)
abbrev setFlag (f : Nat) (x : Flag) (b : Bool) : Code Unit := atom (.setFlag f x b)

def isNotLive (value : Nat) : Code Bool := do
  iowrite value .live
  let v ← atom (.ioread .live)
  return v &&& value != 0

/-- What every exit does to the buffer of the job. -/
def releaseMsg (f : Nat) : Code Unit := do
  if ← isNotMM f then
    let p ← jobMsg f
    atom (.vfree p)
  atom (.setMsg f none)

/-- Label `out_free`. -/
def outFree (f : Nat) (err : Int) : Code Int := do
  releaseMsg f
  return err

/-- Label `out_up`. -/
def outUp (f : Nat) (err : Int) : Code Int := do
  atom .up
  outFree f err

/-- The way out after the last copy. -/
def writeDone (f : Nat) : Code Int := do
  atom .up
  releaseMsg f
  return 0

/-- The copy to the user that ends both branches. -/
def copyBack (f ptr : Nat) : Code Int := do
  let p ← jobMsg f
  let n ← jobLen f
  let r ← atom (.copyToUser ptr p n)
  if r ≠ 0 then outUp f (-eAGAIN) else writeDone f

/-- The job's bytes go to the data window unless the window is mapped. -/
def mmioCopyIn (f : Nat) : Code Unit := do
  if ← isNotMM f then
    let p ← jobMsg f
    let n ← jobLen f
    atom (.memcpyToio p n)

def mmioCopyOut (f ptr : Nat) : Code Int := do
  if ← isNotMM f then
    let p ← jobMsg f
    let n ← jobLen f
    atom (.memcpyFromio p n)
    copyBack f ptr
  else writeDone f

/-- `mode` is 0x80 with interrupts and 0x00 without. -/
def mmioStart (f mode : Nat) : Code Unit := do
  if ← isE f then iowrite (mode ||| 0x00) .status
  else iowrite (mode ||| 0x02) .status
  iowrite r1Start .dataAddr

/-- Start an MMIO operation and wait for it; `true` when a signal cut the wait short. -/
def mmioWait (f : Nat) : Code Bool := do
  if ← isI f then
    mmioStart f 0x80
    atom (.waitEvent .mmio)
  else
    mmioStart f 0x00
    atom (.pollBusy .mmio)
    return false

def mmioBranch (f ptr : Nat) : Code Int := do
  let n ← jobLen f
  iowrite n .lenMsg
  mmioCopyIn f
  let cut ← mmioWait f
  if cut then outUp f (-eRESTARTSYS) else mmioCopyOut f ptr

/-- `mode` is 0x4 with interrupts and 0x0 without. -/
def dmaStart (f mode : Nat) : Code Unit := do
  if ← isE f then iowrite (mode ||| 0x0 ||| 0x1) .cmd
  else iowrite (mode ||| 0x2 ||| 0x1) .cmd

def dmaWait (f : Nat) : Code Bool := do
  if ← isI f then
    dmaStart f 0x4
    atom (.waitEvent .dma)
  else
    dmaStart f 0x0
    atom (.pollBusy .dma)
    return false

/-- The DMA branch once the buffer is mapped at `handle`. -/
def dmaMapped (f ptr handle : Nat) : Code Int := do
  iowrite handle .addrOp
  let n ← jobLen f
  iowrite n .dlenMsg
  let cut ← dmaWait f
  if cut then outUp f (-eRESTARTSYS)
  else
    let n ← jobLen f
    atom (.dmaUnmapSingle handle n)
    copyBack f ptr

def dmaBranch (f ptr : Nat) : Code Int := do
  let p ← jobMsg f
  let n ← jobLen f
  let handle ← atom (.dmaMapSingle p n)
  match handle with
  | none => outUp f (-1)
  | some handle => dmaMapped f ptr handle

/-- From `down_interruptible` on. -/
def writeLocked (f ptr : Nat) : Code Int := do
  if ← atom .downInterruptible then outFree f (-eRESTARTSYS)
  else
    let k ← atom (.keyab f)
    iowrite k .keys
    if ← isM f then mmioBranch f ptr else dmaBranch f ptr

/-- A job that is not memory mapped gets a buffer with the user's bytes. -/
def writeCopyIn (f ptr len : Nat) : Code Int := do
  let p ← atom (.vmalloc len)
  atom (.setMsg f p)
  let p ← jobMsg f
  if p = none then return -eNOMEM
  else
    let p ← jobMsg f
    let n ← jobLen f
    let r ← atom (.copyFromUser p ptr n)
    if r ≠ 0 then outFree f (-eAGAIN) else writeLocked f ptr

/-- From the store of `myjob->len`, an `unsigned int`, on. -/
def writeBody (f ptr len : Nat) : Code Int := do
  atom (.setLen f (len % 2^32))
  if ← isNotMM f then writeCopyIn f ptr len else writeLocked f ptr

/-- The liveness check and the write proper. -/
def writeLive (f ptr len : Nat) : Code Int := do
  if ← isNotLive 0x0fffffff then return -eNODEV
  else writeBody f ptr len

def pciWrite (f ptr len : Nat) : Code Int := do
  if !(← atom (.privateData f)) then return -eNOMEM
  else if !(← atom .configspace) then return -eNOMEM
  else if ← isNotMM f then writeLive f ptr len
  else if ← isM f then writeLive f ptr len
  else return -eINVAL

/-- A one-byte ioctl argument; `none` when it cannot be read. -/
def ioctlByte (arg : List Byte) : Option Byte := arg.head?

/-- `arg` are the bytes that can be read behind the argument pointer. -/
def pciUnlockedIoctl (f cmd : Nat) (arg : List Byte) : Code Int := do
  if !(← atom (.privateData f)) then return -eNOMEM
  else if cmd = SET_KEY then
    let r ← atom (.copyKey f arg)
    if r ≠ 0 then return -eAGAIN else return 0
  else if cmd = SET_CONFIG then
    match ioctlByte arg with
    | none => return -eAGAIN
    | some myval =>
      if myval = DMA then setFlag f .isM false; return 0
      else if myval = MMIO then setFlag f .isM true; return 0
      else if myval = INTERRUPT then setFlag f .isI true; return 0
      else if myval = NOINTERRUPT then setFlag f .isI false; return 0
      else return -eINVAL
  else if cmd = SET_ENCRYP then
    match ioctlByte arg with
    | none => return -eAGAIN
    | some myval =>
      if myval = ENCRYPT then setFlag f .isE true; return 0
      else if myval = DECRYPT then setFlag f .isE false; return 0
      else return -eINVAL
  else if cmd = SET_MMAP then
    match ioctlByte arg with
    | none => return -eAGAIN
    | some myval =>
      if myval = MMAP then setFlag f .isNotMM false; return 0
      else if myval = UNMMAP then setFlag f .isNotMM true; return 0
      else return -eINVAL
  else return -eINVAL

/-- `dev` tells whether `devid` is the card itself. -/
def pciIrqHandle (dev : Bool) : Code Int := do
  if !dev then return -eBUSY
  else if !(← atom .configspace) then return -eBUSY
  else
    let status ← atom (.ioread .interruptStatus)
    if status = 0x001 then
      atom .wakeUp
      iowrite status .interruptAck
      return irqHANDLED
    else if status = 0x100 then
      atom .wakeUp
      iowrite status .interruptAck
      return irqHANDLED
    else
      iowrite status .interruptAck
      return -eINVAL

end CryptoCard
