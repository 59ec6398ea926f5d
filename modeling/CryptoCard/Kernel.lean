import CryptoCard.Acquisitions
import CryptoCard.Mmap
import CryptoCard.Crypter
set_option autoImplicit false

/-! The kernel around the driver: what probe acquires and remove gives back, the
globals that the file operations go by, and the pointers behind a register access. -/
namespace CryptoCard
open Memory Program Interleave Acquisitions

/-- What a probe acquires. `p` is the address of an allocation, `w` that of an I/O
mapping and `n` a device number. -/
inductive Resource where
  | space (p : Nat)
  | cdev (p : Nat)
  | enabled
  | regions
  | window (w : Nat)
  | irq
  | chrdev (n : Nat)
  | added (p : Nat)
  deriving DecidableEq, Repr

/-- The pointers in `mycryptodev`. -/
inductive Global where
  | cdev | pdev | configspace
  deriving DecidableEq, Repr

/-- The wait queue head has been initialised. -/
inductive Mark where
  | initWaitqueueHead
  deriving DecidableEq, Repr

/-- What is left open of a `struct config_mem`: the registers lie at fixed offsets
from `start`. -/
structure ConfigMem where
  start : Option Nat
  size : Nat
  deriving DecidableEq, Repr

/-- `card` is the one that probe or remove was last called for. The log says for which
card a resource was acquired or released: the one that the call names, or else the one
that the probe was called for. -/
structure Core where
  card : Nat
  log : List (Event (Nat × Resource) Mark)
  mycryptodev : Global → Option Nat
  devno : Nat
  spaces : Nat → ConfigMem
  bars : Nat → Bar

/-- `drv` is the world of the file operations. -/
structure Kern extends Core where
  drv : World

/-- What probe, remove and the entry points do to the kernel. `dev` is a card; the
answer of a call that returns an error code is `true` for an error. `file space a` is
an action of the driver whose register accesses go through `space`. -/
inductive KAct where
  | enter (dev : Nat)
  | kzallocSpace
  | kzallocCdev
  | kfreeSpace (p : Option Nat)
  | kfreeCdev (p : Option Nat)
  | pciEnableDevice (dev : Nat)
  | pciDisableDevice (dev : Nat)
  | pciRequestRegions (dev : Nat)
  | pciReleaseRegions (dev : Nat)
  | pciIoremapBar (dev : Nat)
  | iounmap (w : Option Nat)
  | pciResourceLen (dev : Nat)
  | setStart (p : Nat) (w : Option Nat)
  | setupConfigspace (p size : Nat)
  | start (p : Option Nat)
  | dmaSetMask (dev : Nat)
  | requestIrq (dev : Nat)
  | freeIrq (dev : Nat)
  | allocChrdevRegion
  | devno
  | unregisterChrdevRegion (n : Nat)
  | testGlobal (x : Global)
  | getGlobal (x : Global)
  | setGlobal (x : Global) (p : Option Nat)
  | initWaitqueueHead
  | semaInit (n : Nat)
  | cdevInit (p : Nat)
  | cdevAdd (p n : Nat)
  | cdevDel (p : Option Nat)
  | kzallocJob (f : Nat)
  | pciResourceStart
  | ioRemapPfnRange
  | file (space : Option Nat) (a : Act)
  deriving DecidableEq, Repr

@[reducible] def KAct.Res : KAct → Type
  | .kzallocSpace | .kzallocCdev | .pciIoremapBar _ | .start _ | .getGlobal _ => Option Nat
  | .pciEnableDevice _ | .pciRequestRegions _ | .dmaSetMask _ | .requestIrq _ => Bool
  | .allocChrdevRegion | .cdevAdd _ _ | .testGlobal _ | .kzallocJob _ | .ioRemapPfnRange => Bool
  | .pciResourceLen _ | .devno => Nat
  | .pciResourceStart => Bar
  | .file _ a => a.Res
  | _ => Unit

/-- The action reads or writes the card's registers or its data window. -/
def Act.touchesCard : Act → Bool
  | .ioread _ | .iowrite _ _ | .memcpyToio _ _ | .memcpyFromio _ _ => true
  | .pollBusy _ | .waitEvent _ => true
  | _ => false

/-- The action goes through `mycryptodev.pdev`. -/
def Act.usesPdev : Act → Bool
  | .dmaMapSingle _ _ | .dmaUnmapSingle _ _ => true
  | _ => false

namespace Core

def Holds (κ : Core) (r : Resource) : Prop := r ∈ (held κ.log).map Prod.snd

instance (κ : Core) (r : Resource) : Decidable (κ.Holds r) :=
  inferInstanceAs (Decidable (_ ∈ _))

/-- `p` is an allocated configspace whose window is mapped. -/
def Maps (κ : Core) (p : Option Nat) : Prop :=
  ∃ s ∈ p, κ.Holds (.space s) ∧ ∃ w ∈ (κ.spaces s).start, κ.Holds (.window w)

instance (κ : Core) (p : Option Nat) : Decidable (κ.Maps p) :=
  inferInstanceAs (Decidable (∃ s ∈ p, _ ∧ ∃ w ∈ _, _))

/-- What was acquired at an address or a number, and for which card: that is what a
release by address or number gives back. -/
def acquired (κ : Core) (r : Resource) : Nat × Resource :=
  ((held κ.log).find? (fun e => e.2 = r)).getD (κ.card,r)

def acquire (κ : Core) (e : Nat × Resource) : Core := { κ with log := .acquire e :: κ.log }

def release (κ : Core) (e : Nat × Resource) : Core := { κ with log := .release e :: κ.log }

def setGlobal (κ : Core) (x : Global) (p : Option Nat) : Core :=
  { κ with mycryptodev := Function.update κ.mycryptodev x p }

def setSpace (κ : Core) (p : Nat) (s : ConfigMem) : Core :=
  { κ with spaces := Function.update κ.spaces p s }

end Core

namespace Kern

def acquire (k : Kern) (e : Nat × Resource) : Kern := { k with toCore := k.toCore.acquire e }

def release (k : Kern) (e : Nat × Resource) : Kern := { k with toCore := k.toCore.release e }

/-- A call that acquires `e` unless it fails. -/
def tryAcquire (k : Kern) (e : Nat × Resource) (x : Choice) : Option (Out Kern Bool) :=
  match x with
  | .ok => some (.done false (k.acquire e))
  | .fail => some (.done true k)
  | _ => none

/-- An allocation for card `d` at any address that is not in use. -/
def allocate (k : Kern) (d : Nat) (r : Nat → Resource) (x : Choice) :
    Option (Out Kern (Option Nat)) :=
  match x with
  | .value p => if k.Holds (r p) then none else some (.done (some p) (k.acquire (d,r p)))
  | .fail => some (.done none k)
  | _ => none

/-- What an action of the file operations does, given the world's part in it. -/
def ofDrv {ρ : Type} (k : Kern) : Out World ρ → Out Kern ρ
  | .stay w => .stay { k with drv := w }
  | .done r w => .done r { k with drv := w }
  | .oops w => .oops { k with drv := w }

/-- An access without a mapped window, or to a device that is NULL, crashes. A
register reads as anything. -/
def file (k : Kern) (t : Nat) (space : Option Nat) (a : Act) (x : Choice) :
    Option (Out Kern a.Res) :=
  if a.touchesCard ∧ ¬ k.Maps space then some (.oops k)
  else if a.usesPdev ∧ k.mycryptodev .pdev = none then some (.oops k)
  else
    match a, x with
    | .ioread _, .value v => some (.done v k)
    | a, x => (World.exec t a x k.drv).map k.ofDrv

/-- Perform action `a` for thread `t`. -/
def exec (t : Nat) (a : KAct) (x : Choice) (k : Kern) : Option (Out Kern a.Res) :=
  match a with
  | .enter dev => some (.done () { k with card := dev })
  | .kzallocSpace => k.allocate k.card .space x
  | .kzallocCdev => k.allocate k.card .cdev x
  | .kfreeSpace none | .kfreeCdev none | .iounmap none => some (.done () k)
  | .kfreeSpace (some p) => some (.done () (k.release (k.acquired (.space p))))
  | .kfreeCdev (some p) => some (.done () (k.release (k.acquired (.cdev p))))
  | .pciEnableDevice dev => k.tryAcquire (dev,.enabled) x
  | .pciDisableDevice dev => some (.done () (k.release (dev,.enabled)))
  | .pciRequestRegions dev => k.tryAcquire (dev,.regions) x
  | .pciReleaseRegions dev => some (.done () (k.release (dev,.regions)))
  | .pciIoremapBar dev => k.allocate dev .window x
  | .iounmap (some w) => some (.done () (k.release (k.acquired (.window w))))
  | .pciResourceLen dev => some (.done (k.bars dev).len.toNat k)
  | .setStart p w =>
    some (.done () { k with toCore := k.toCore.setSpace p { k.spaces p with start := w } })
  | .setupConfigspace p size =>
    some (.done () { k with toCore := k.toCore.setSpace p { k.spaces p with size := size } })
  | .start none => some (.oops k)
  | .start (some p) =>
    if k.Holds (.space p) then some (.done (k.spaces p).start k) else some (.oops k)
  | .dmaSetMask _ =>
    match x with
    | .ok => some (.done false k)
    | .fail => some (.done true k)
    | _ => none
  | .requestIrq dev => k.tryAcquire (dev,.irq) x
  | .freeIrq dev => some (.done () (k.release (dev,.irq)))
  | .allocChrdevRegion =>
    match x with
    | .value n =>
      if k.Holds (.chrdev n) then none
      else
        some (.done false { k with
          toCore := { k.toCore.acquire (k.card,.chrdev n) with devno := n } })
    | .fail => some (.done true k)
    | _ => none
  | .devno => some (.done k.devno k)
  | .unregisterChrdevRegion n => some (.done () (k.release (k.acquired (.chrdev n))))
  | .testGlobal y => some (.done (k.mycryptodev y).isSome k)
  | .getGlobal y => some (.done (k.mycryptodev y) k)
  | .setGlobal y p => some (.done () { k with toCore := k.toCore.setGlobal y p })
  | .initWaitqueueHead => some (.done () { k with log := .mark .initWaitqueueHead :: k.log })
  | .semaInit n => some (.done () { k with drv := { k.drv with wsem := n } })
  | .cdevInit _ => some (.done () k)
  | .cdevAdd p _ => k.tryAcquire (k.card,.added p) x
  | .cdevDel none => some (.oops k)
  | .cdevDel (some p) => some (.done () (k.release (k.acquired (.added p))))
  | .kzallocJob f =>
    match x with
    | .ok => some (.done true { k with drv := k.drv.setJob f pciOpen })
    | .fail => some (.done false k)
    | _ => none
  | .pciResourceStart =>
    match k.mycryptodev .pdev with
    | some dev => some (.done (k.bars dev) k)
    | none => some (.oops k)
  | .ioRemapPfnRange =>
    match x with
    | .ok => some (.done false k)
    | .fail => some (.done true k)
    | _ => none
  | .file space a => k.file t space a x

def env (c : Cipher) (e : World.Env) (k : Kern) : Option Kern :=
  (World.env c e k.drv).map (fun w => { k with drv := w })

end Kern

abbrev KCode (α : Type) := Prog KAct KAct.Res α

abbrev katom (a : KAct) : KCode a.Res := perform a

/-- Driver code at the level of pointers: a test of `mycryptodev.configspace` is
followed by the load of the pointer that later accesses go through. -/
def attach {α : Type} : Option Nat → Code α → KCode α
  | _, .ret v => .ret v
  | space, .act .configspace k => do
    if ← katom (.testGlobal .configspace) then
      let space ← katom (.getGlobal .configspace)
      attach space (k true)
    else attach space (k false)
  | space, .act a k => .act (.file space a) (fun r => attach space (k r))

/-- Labels `out_err` to `out_chrdev_unreg_region`; each falls through to the one above. -/
def outErr (space cdev : Nat) : KCode Int := do
  katom (.kfreeCdev (some cdev))
  katom (.kfreeSpace (some space))
  return -eNODEV

def outDisable (dev space cdev : Nat) : KCode Int := do
  katom (.pciDisableDevice dev)
  outErr space cdev

def outUnrequest (dev space cdev : Nat) : KCode Int := do
  katom (.pciReleaseRegions dev)
  outDisable dev space cdev

def outIounmap (dev space cdev : Nat) : KCode Int := do
  let w ← katom (.start (some space))
  katom (.iounmap w)
  outUnrequest dev space cdev

def outIrqfree (dev space cdev : Nat) : KCode Int := do
  katom (.freeIrq dev)
  outIounmap dev space cdev

def outChrdevUnregRegion (dev space cdev : Nat) : KCode Int := do
  katom (.setGlobal .cdev none)
  katom (.setGlobal .configspace none)
  katom (.setGlobal .pdev none)
  let n ← katom .devno
  katom (.unregisterChrdevRegion n)
  outIrqfree dev space cdev

def PCI_CryptoCard_IDFIER : Nat := 0x010C5730

/-- From the publication of the globals on. -/
def probePublish (dev space cdev : Nat) : KCode Int := do
  katom (.setGlobal .cdev (some cdev))
  katom (.setGlobal .configspace (some space))
  katom (.setGlobal .pdev (some dev))
  katom .initWaitqueueHead
  katom (.semaInit 1)
  katom (.cdevInit cdev)
  let n ← katom .devno
  if ← katom (.cdevAdd cdev n) then outChrdevUnregRegion dev space cdev
  else return 0

/-- From the DMA mask, whose result is only logged, on. -/
def probeLive (dev space cdev : Nat) : KCode Int := do
  let _ ← katom (.dmaSetMask dev)
  if ← katom (.requestIrq dev) then outIounmap dev space cdev
  else if ← katom .allocChrdevRegion then outIrqfree dev space cdev
  else probePublish dev space cdev

/-- The registers are mapped: check the id and that the card answers. -/
def probeMapped (dev space cdev : Nat) : KCode Int := do
  let size ← katom (.pciResourceLen dev)
  katom (.setupConfigspace space size)
  let id ← attach (some space) (atom (.ioread .id))
  if id ≠ PCI_CryptoCard_IDFIER then outIounmap dev space cdev
  else if ← attach (some space) (isNotLive 0x0fffffff) then outIounmap dev space cdev
  else probeLive dev space cdev

def probeEnable (dev space cdev : Nat) : KCode Int := do
  if ← katom (.pciEnableDevice dev) then outErr space cdev
  else if ← katom (.pciRequestRegions dev) then outDisable dev space cdev
  else
    let w ← katom (.pciIoremapBar dev)
    katom (.setStart space w)
    if w = none then outUnrequest dev space cdev
    else probeMapped dev space cdev

def cryptocardProbe (dev : Nat) : KCode Int := do
  match ← katom .kzallocSpace with
  | none => return -eNOMEM
  | some space =>
    match ← katom .kzallocCdev with
    | none =>
      katom (.kfreeSpace (some space))
      return -eNOMEM
    | some cdev => probeEnable dev space cdev

def cryptocardRemove (dev : Nat) : KCode Int := do
  let cdev ← katom (.getGlobal .cdev)
  katom (.cdevDel cdev)
  let n ← katom .devno
  katom (.unregisterChrdevRegion n)
  katom (.freeIrq dev)
  let space ← katom (.getGlobal .configspace)
  let w ← katom (.start space)
  katom (.iounmap w)
  katom (.pciReleaseRegions dev)
  katom (.pciDisableDevice dev)
  let cdev ← katom (.getGlobal .cdev)
  katom (.kfreeCdev cdev)
  let space ← katom (.getGlobal .configspace)
  katom (.kfreeSpace space)
  katom (.setGlobal .configspace none)
  katom (.setGlobal .cdev none)
  katom (.setGlobal .pdev none)
  return 0

/-- `pci_open`; a new job is filled in before anybody else can see it. -/
def openFile (f : Nat) : KCode Int := do
  if ← katom (.kzallocJob f) then return 0 else return -eNOMEM

/-- `pci_mmap`, which loads `mycryptodev.pdev` a second time. -/
def mmapFile (vmas : Vma Unit) : KCode Int := do
  if ← katom (.testGlobal .pdev) then
    let b ← katom .pciResourceStart
    let failed ← katom .ioRemapPfnRange
    return (pciMmap id (fun _ => if failed then 1 else 0) (some b) vmas).ret
  else return (pciMmap id (fun _ => 0) none vmas).ret

/-- What the PCI core, the kernel's file layer and the interrupt controller call. -/
inductive KCall where
  | probe (dev : Nat)
  | remove (dev : Nat)
  | irq (ours : Bool)
  | openFile (f : Nat)
  | write (f ptr len : Nat)
  | ioctl (f cmd : Nat) (arg : List Byte)
  | mmap (vmas : Vma Unit)

def KCall.code : KCall → KCode Int
  | .probe dev => do katom (.enter dev); cryptocardProbe dev
  | .remove dev => do katom (.enter dev); cryptocardRemove dev
  | .irq ours => attach none (pciIrqHandle ours)
  | .openFile f => CryptoCard.openFile f
  | .write f ptr len => attach none (sysWrite f ptr len)
  | .ioctl f cmd arg => attach none (pciUnlockedIoctl f cmd arg)
  | .mmap vmas => mmapFile vmas

abbrev KSystem := Sys KAct KAct.Res Kern KCall Int

abbrev KStep := Label KCall World.Env Choice

/-- Probes, removes, interrupts and file operations over one kernel. -/
def kernel (c : Cipher) : Machine KAct KAct.Res Kern KCall World.Env Choice Int where
  exec := Kern.exec
  env := Kern.env c
  code := KCall.code

/-- The module has just been loaded. -/
def Kern.init (bars : Nat → Bar) (w : World) : Kern :=
  ⟨⟨0,[],fun _ => none,0,fun _ => ⟨none,0⟩,bars⟩,w⟩

/-- Nobody is in a call yet. -/
def loaded (bars : Nat → Bar) (w : World) : KSystem :=
  ⟨.init bars w,fun _ => .idle,fun _ => []⟩

theorem loaded_quiet (bars : Nat → Bar) (w : World) (n : Nat) : (loaded bars w).Quiet n :=
  fun _ _ => rfl

end CryptoCard
