import CryptoCard.LibCalls
import CryptoCard.MapCard
set_option autoImplicit false

/-! Handles between create_handle and close_handle: descriptors and mappings, the open files
behind them, and the job that a file carries from `pci_open` to `pci_release`. -/
namespace CryptoCard
open Program Interleave

def eBADF : Int := 9
def eMFILE : Int := 24

/-- Where a process has a file: at a descriptor, or at a page of its memory. -/
inductive Site where
  | fd (n : Nat)
  | page (p : Nat)
  deriving DecidableEq, Repr

/-- The pages of a mapping of the card that starts with page `p`. -/
def cardPages (p : Nat) : List Site :=
  (List.range (mapLength.toNat / PAGE_SIZE)).map (fun i => .page (p+i))

/-- What keeps an open file: a site of it, or a thread in a system call on it. -/
inductive Ref where
  | site (k : Site)
  | thread (t : Nat)
  deriving DecidableEq, Repr

/-- `refs` are those that `f_count` counts, where a mapping counts once for each of its pages:
it keeps the file up to its last page. `live` tells whether the job is allocated, and `frees`
how often it has been freed. -/
structure File where
  refs : List Ref
  privateData : Bool
  live : Bool
  frees : Nat
  deriving DecidableEq, Repr

/-- `drv` is the world of the driver, where the job of file `f` is `jobs f`. -/
structure Vfs where
  drv : World
  files : Nat → File
  nfile : Nat
  sites : Site → Option Nat

/-- What the kernel does with files around the driver. `putRef` drops the thread's own
reference and tells whether it was the last; `fdInstall` and `takeSite` hand one over from the
thread to a new descriptor and back from a site; `vmaAlloc` tells whether there is room for a
mapping, `ioRemapPfnRange` whether it fails, and `vmaLink` puts the file into free pages. -/
inductive FAct where
  | getFile
  | dropFile (f : Nat)
  | fdInstall (f : Nat)
  | fdget (n : Nat)
  | takeSite (k : Site)
  | putRef (f : Nat)
  | vmaAlloc
  | ioRemapPfnRange
  | vmaLink (f : Nat)
  | kzallocJob (f : Nat)
  | kfreeJob (f : Nat)
  | clearPrivateData (f : Nat)
  | drv (a : Act)
  deriving DecidableEq, Repr

@[reducible] def FAct.Res : FAct → Type
  | .getFile | .fdget _ | .takeSite _ => Option Nat
  | .fdInstall _ | .vmaLink _ => Nat
  | .putRef _ | .kzallocJob _ | .vmaAlloc | .ioRemapPfnRange => Bool
  | .drv a => a.Res
  | _ => Unit

/-- The file through which an action gets to a job. -/
def Act.job : Act → Option Nat
  | .privateData f | .flag f _ | .len f | .msg f | .keyab f => some f
  | .setFlag f _ _ | .setLen f _ | .setMsg f _ | .copyKey f _ => some f
  | _ => none

namespace Vfs

def setFile (v : Vfs) (f : Nat) (F : File) : Vfs :=
  { v with files := Function.update v.files f F }

def setSite (v : Vfs) (k : Site) (f : Option Nat) : Vfs :=
  { v with sites := Function.update v.sites k f }

/-- The file is at these sites, too. -/
def fill (v : Vfs) (ks : List Site) (f : Nat) : Vfs :=
  { v with sites := fun k => if k ∈ ks then some f else v.sites k }

def setRefs (v : Vfs) (f : Nat) (refs : List Ref) : Vfs :=
  v.setFile f { v.files f with refs := refs }

/-- A new file is the thread's. -/
def getFile (v : Vfs) (t : Nat) : Vfs :=
  { v.setFile v.nfile ⟨[.thread t],false,false,0⟩ with nfile := v.nfile+1 }

/-- `pci_open` fills in a new job and hangs it on the file. -/
def openJob (v : Vfs) (f : Nat) : Vfs :=
  { v.setFile f { v.files f with privateData := true, live := true } with
    drv := v.drv.setJob f pciOpen }

def freeJob (v : Vfs) (f : Nat) : Vfs :=
  v.setFile f { v.files f with live := false, frees := (v.files f).frees+1 }

/-- What an action of the driver does, given the world's part in it. -/
def ofDrv {ρ : Type} (v : Vfs) : Out World ρ → Out Vfs ρ
  | .stay w => .stay { v with drv := w }
  | .done r w => .done r { v with drv := w }
  | .oops w => .oops { v with drv := w }

/-- An action of the driver; what goes through a job that has been freed crashes. -/
def drvExec (v : Vfs) (t : Nat) (a : Act) (x : Choice) : Option (Out Vfs a.Res) :=
  match a with
  | .privateData f => some (.done (v.files f).privateData v)
  | a =>
    if a.job.all (fun f => (v.files f).live) then (World.exec t a x v.drv).map v.ofDrv
    else some (.oops v)

/-- Perform action `a` for thread `t`. -/
def exec (t : Nat) (a : FAct) (x : Choice) (v : Vfs) : Option (Out Vfs a.Res) :=
  match a with
  | .getFile =>
    match x with
    | .ok => some (.done (some v.nfile) (v.getFile t))
    | .fail => some (.done none v)
    | _ => none
  | .dropFile f => some (.done () (v.setRefs f []))
  | .fdInstall f =>
    match x with
    | .value n =>
      if v.sites (.fd n) = none then
        some (.done n ((v.setSite (.fd n) (some f)).setRefs f
          (.site (.fd n) :: (v.files f).refs.erase (.thread t))))
      else none
    | _ => none
  | .fdget n =>
    match v.sites (.fd n) with
    | some f => some (.done (some f) (v.setRefs f (.thread t :: (v.files f).refs)))
    | none => some (.done none v)
  | .takeSite k =>
    match v.sites k with
    | some f => some (.done (some f) ((v.setSite k none).setRefs f
        (.thread t :: (v.files f).refs.erase (.site k))))
    | none => some (.done none v)
  | .putRef f =>
    let refs := (v.files f).refs.erase (.thread t)
    some (.done refs.isEmpty (v.setRefs f refs))
  | .vmaAlloc =>
    match x with
    | .ok => some (.done true v)
    | .fail => some (.done false v)
    | _ => none
  | .ioRemapPfnRange =>
    match x with
    | .ok => some (.done false v)
    | .fail => some (.done true v)
    | _ => none
  | .vmaLink f =>
    match x with
    | .value p =>
      if p * PAGE_SIZE + mapLength.toNat ≤ 2^64 ∧ ∀ k ∈ cardPages p, v.sites k = none then
        some (.done p ((v.fill (cardPages p) f).setRefs f
          ((cardPages p).map .site ++ (v.files f).refs)))
      else none
    | _ => none
  | .kzallocJob f =>
    match x with
    | .ok => some (.done true (v.openJob f))
    | .fail => some (.done false v)
    | _ => none
  | .kfreeJob f => some (.done () (v.freeJob f))
  | .clearPrivateData f => some (.done () (v.setFile f { v.files f with privateData := false }))
  | .drv a => v.drvExec t a x

def env (c : Cipher) (e : World.Env) (v : Vfs) : Option Vfs :=
  (World.env c e v.drv).map (fun w => { v with drv := w })

/-- Nothing is open. -/
def closed (w : World) : Vfs := ⟨w,fun _ => ⟨[],false,false,0⟩,0,fun _ => none⟩

end Vfs

abbrev FCode (α : Type) := Prog FAct FAct.Res α

abbrev fatom (a : FAct) : FCode a.Res := perform a

/-- A program of the driver, run for a file. -/
def onFile {α : Type} (p : Code α) : FCode α := p.inline (fun a => fatom (.drv a))

def pciRelease (f : Nat) : FCode Int := do
  fatom (.kfreeJob f)
  fatom (.clearPrivateData f)
  return 0

/-- The last reference to go takes the file with it. -/
def putFile (f : Nat) : FCode Unit := do
  if ← fatom (.putRef f) then
    let _ ← pciRelease f

/-- `pci_open` with its error code, and the file that it leaves when it fails. -/
def openWith (f : Nat) : FCode Int := do
  if ← fatom (.kzallocJob f) then
    let n ← fatom (.fdInstall f)
    return n
  else
    fatom (.dropFile f)
    return -eNOMEM

def sysOpen : FCode Int := do
  match ← fatom .getFile with
  | none => return -eMFILE
  | some f => openWith f

def sysClose (fd : Nat) : FCode Int := do
  match ← fatom (.takeSite (.fd fd)) with
  | none => return -eBADF
  | some f =>
    putFile f
    return 0

/-- `dup`, which is also what a fork does to every descriptor. -/
def sysDup (fd : Nat) : FCode Int := do
  match ← fatom (.fdget fd) with
  | none => return -eBADF
  | some f =>
    let n ← fatom (.fdInstall f)
    return n

/-- The descriptor of a system call, and the call on the file behind it. -/
def Sysc.fd : Sysc → Nat
  | .ioctl cdev _ _ | .write cdev _ _ => cdev

def Sysc.at : Sysc → Nat → Sysc
  | .ioctl _ cmd arg, f => .ioctl f cmd arg
  | .write _ addr count, f => .write f addr count

def Sysc.onFd (a : Sysc) : FCode Int := do
  match ← fatom (.fdget a.fd) with
  | none => return -eBADF
  | some f =>
    let r ← onFile (a.at f).code
    putFile f
    return r

def createHandle : FCode Int := do
  let cdev ← sysOpen
  if cdev < 0 then return ERROR else return cdev

/-- close_handle, which prints a message when close fails. -/
def closeHandle (cdev : Nat) : FCode Int := do
  let _ ← sysClose cdev
  return 0

/-- `pci_mmap` for a card in service. -/
def pciMmapFile : FCode Int := do
  if ← fatom .ioRemapPfnRange then return -eAGAIN else return 0

/-- A mapping gets its pages when the driver has made it. -/
def mmapRegion (f : Nat) : FCode UInt64 := do
  if ← fatom .vmaAlloc then
    let r ← pciMmapFile
    if r ≠ 0 then return MAP_FAILED
    else
      let p ← fatom (.vmaLink f)
      return UInt64.ofNat (p * PAGE_SIZE)
  else return MAP_FAILED

def sysMmap (fd : Nat) : FCode UInt64 := do
  match ← fatom (.fdget fd) with
  | none => return MAP_FAILED
  | some f =>
    let addr ← mmapRegion f
    putFile f
    return addr

/-- Page after page is taken out, and with the last page of a file its reference. -/
def unmapPages (p : Nat) : Nat → FCode Unit
  | 0 => return ()
  | n+1 => do
    match ← fatom (.takeSite (.page p)) with
    | none => unmapPages (p+1) n
    | some f =>
      putFile f
      unmapPages (p+1) n

/-- The range is checked as in `munmap`. -/
def sysMunmap (addr len : UInt64) : FCode Int :=
  let n := (len.toNat + (PAGE_SIZE-1)) / PAGE_SIZE
  if addr.toNat % PAGE_SIZE = 0 ∧ 0 < n ∧ addr.toNat + n * PAGE_SIZE ≤ 2^64 then do
    unmapPages (addr.toNat / PAGE_SIZE) n
    return 0
  else return -eINVAL

/-- map_card, as in `mapCard`; the pointer is the result. -/
def sysMapCard (cdev : Nat) (size : UInt64) : FCode Int :=
  if size > 1024*1024 then return 0
  else do
    let addr ← sysMmap cdev
    if addr = 0 then return 0 else return (addr+0xA8).toNat

/-- unmap_card, which prints a message when munmap fails. -/
def sysUnmapCard (_cdev : Nat) (addr : UInt64) : FCode Int := do
  let _ ← sysMunmap (addr-0xA8) (1024*1024)
  return 0

/-- What threads do with handles. `calls` is any program of system calls, such as those of
the library's functions, and `irq` an invocation of the interrupt handler. -/
inductive FCall where
  | createHandle
  | closeHandle (cdev : Nat)
  | dup (fd : Nat)
  | mapCard (cdev : Nat) (size : UInt64)
  | unmapCard (cdev : Nat) (addr : UInt64)
  | calls (p : LibCode)
  | irq (dev : Bool)

def FCall.code : FCall → FCode Int
  | .createHandle => CryptoCard.createHandle
  | .closeHandle cdev => CryptoCard.closeHandle cdev
  | .dup fd => sysDup fd
  | .mapCard cdev size => sysMapCard cdev size
  | .unmapCard cdev addr => sysUnmapCard cdev addr
  | .calls p => p.inline Sysc.onFd
  | .irq dev => onFile (pciIrqHandle dev)

abbrev FSystem := Sys FAct FAct.Res Vfs FCall Int

/-- Threads with descriptors over one card that is bound throughout. -/
def fileSystem (c : Cipher) : Machine FAct FAct.Res Vfs FCall World.Env Choice Int where
  exec := Vfs.exec
  env := Vfs.env c
  code := FCall.code

/-- Nothing is open and nobody is in a call yet. -/
def unopened (w : World) : FSystem := ⟨.closed w,fun _ => .idle,fun _ => []⟩

/-- What a write must still do about the `msg` of its job: `true` when it has stored a
buffer there and not yet taken it out again. -/
@[reducible] def owing (f : Nat) : Discipline Act Act.Res where
  Ghost := Bool
  ok _ a := a.job = none ∨ a.job = some f
  next
    | _, .setMsg _ p, _, b' => b' = p.isSome
    | b, .msg _, r, b' => b' = (b && r.isSome)
    | b, _, _, b' => b' = b

/-- Whatever it has owed before, the program owes nothing at its end. -/
def Settled (f : Nat) {α : Type} (p : Code α) : Prop :=
  ∀ b, wp (owing f) p (fun _ b' => b' = false) b

section
variable {α β : Type} {f ptr len : Nat} {err : Int}

theorem Settled.step {a : Act} {k : a.Res → Code α} (ha : a.job = none ∨ a.job = some f)
    (h : ∀ r, Settled f (k r)) : Settled f (atom a >>= k) :=
  fun _ => ⟨ha,fun r b' _ => h r b'⟩

theorem Settled.bind {p : Code β} {k : β → Code α}
    (hp : Always (fun a => a.job = none ∨ a.job = some f) p) (h : ∀ x, Settled f (k x)) :
    Settled f (p >>= k) := by
  induction p with
  | ret x => exact h x
  | act a k' ih => exact fun _ => ⟨hp.1,fun r b' _ => ih r (hp.2 r) b'⟩

theorem Settled.ite {c : Prop} [Decidable c] {p q : Code α} (hp : Settled f p)
    (hq : Settled f q) : Settled f (if c then p else q) := by
  split
  · exact hp
  · exact hq

theorem releaseMsg_settled : Settled f (releaseMsg f) := by
  have last : Settled f (atom (.setMsg f none)) := fun _ => ⟨.inr rfl,fun _ b' h => h⟩
  refine .step (.inr rfl) (fun b => ?_)
  cases b with
  | true => exact .step (.inr rfl) (fun _ => .step (.inl rfl) (fun _ => last))
  | false => exact last

theorem Settled.done {p : Code β} {v : α} (h : Settled f p) :
    Settled f (p >>= fun _ => pure v) :=
  fun b => (wp_bind _ _ _ _).mpr (wp_mono (fun _ _ hb => hb) (h b))

theorem outFree_settled : Settled f (outFree f err) := releaseMsg_settled.done

theorem outUp_settled : Settled f (outUp f err) :=
  .step (.inl rfl) (fun _ => outFree_settled)

theorem writeDone_settled : Settled f (writeDone f) :=
  .step (.inl rfl) (fun _ => releaseMsg_settled.done)

theorem copyBack_settled : Settled f (copyBack f ptr) :=
  .step (.inr rfl) (fun _ => .step (.inr rfl) (fun _ => .step (.inl rfl) (fun _ =>
    .ite outUp_settled writeDone_settled)))

theorem Act.OfWrite.job {a : Act} (h : a.OfWrite f) : a.job = none ∨ a.job = some f := by
  cases a with
  | privateData g | flag g y | len g | msg g | keyab g | setLen g n | setMsg g p =>
    exact .inr (congrArg some h)
  | setFlag g y b | copyKey g arg => exact h.elim
  | _ => exact .inl rfl

theorem mmioCopyOut_settled : Settled f (mmioCopyOut f ptr) := by
  refine .step (.inr rfl) (fun b => .ite ?_ writeDone_settled)
  exact .step (.inr rfl) (fun _ => .step (.inr rfl) (fun _ => .step (.inl rfl) (fun _ =>
    copyBack_settled)))

theorem mmioBranch_settled : Settled f (mmioBranch f ptr) := by
  refine .step (.inr rfl) (fun _ => .step (.inl rfl) (fun _ => ?_))
  refine .bind (mmioCopyIn_ofWrite.mono (fun _ h => h.job)) (fun _ => ?_)
  refine .bind (mmioWait_ofWrite.mono (fun _ h => h.job)) (fun cut => ?_)
  exact .ite outUp_settled mmioCopyOut_settled

theorem dmaBranch_settled : Settled f (dmaBranch f ptr) := by
  refine .step (.inr rfl) (fun _ => .step (.inr rfl) (fun _ => .step (.inl rfl) (fun handle => ?_)))
  cases handle with
  | none => exact outUp_settled
  | some handle =>
    refine .step (.inl rfl) (fun _ => .step (.inr rfl) (fun _ => .step (.inl rfl) (fun _ => ?_)))
    refine .bind (dmaWait_ofWrite.mono (fun _ h => h.job)) (fun cut => .ite outUp_settled ?_)
    exact .step (.inr rfl) (fun _ => .step (.inl rfl) (fun _ => copyBack_settled))

theorem writeLocked_settled : Settled f (writeLocked f ptr) := by
  refine .step (.inl rfl) (fun cut => .ite outFree_settled ?_)
  refine .step (.inr rfl) (fun _ => .step (.inl rfl) (fun _ => .step (.inr rfl) (fun _ => ?_)))
  exact .ite mmioBranch_settled dmaBranch_settled

/-- With no buffer to be found in the job there is nothing left to take out of it. -/
theorem writeCopyIn_settled : Settled f (writeCopyIn f ptr len) := by
  refine .step (.inl rfl) (fun p => .step (.inr rfl) (fun _ b => ⟨.inr rfl,fun p b' hb => ?_⟩))
  cases p with
  | none =>
    have hb : b' = (b && false) := hb
    rwa [Bool.and_false] at hb
  | some p =>
    have rest : Settled f (do
        let p ← jobMsg f
        let n ← jobLen f
        let r ← atom (.copyFromUser p ptr n)
        if r ≠ 0 then outFree f (-eAGAIN) else writeLocked f ptr) :=
      .step (.inr rfl) (fun _ => .step (.inr rfl) (fun _ => .step (.inl rfl) (fun _ =>
        .ite outFree_settled writeLocked_settled)))
    exact rest b'

theorem writeBody_settled : Settled f (writeBody f ptr len) :=
  .step (.inr rfl) (fun _ => .step (.inr rfl) (fun _ =>
    .ite writeCopyIn_settled writeLocked_settled))

/-- An action that stores no buffer and looks for none. -/
theorem owing_keep {a : Act} {k : a.Res → Code α} {Q : α → Bool → Prop} {b : Bool}
    (ha : a.job = none ∨ a.job = some f) (hk : ∀ r b', (owing f).next b a r b' → b' = b)
    (h : ∀ r, wp (owing f) (k r) Q b) : wp (owing f) (atom a >>= k) Q b :=
  ⟨ha,fun r b' hb => hk r b' hb ▸ h r⟩

theorem writeLive_owing :
    wp (owing f) (writeLive f ptr len) (fun _ b => b = false) false := by
  refine owing_keep (.inl rfl) (fun _ _ h => h) (fun _ => ?_)
  refine owing_keep (.inl rfl) (fun _ _ h => h) (fun v => ?_)
  exact (wp_ite _ _ _ _).mpr ⟨fun _ => rfl,fun _ => writeBody_settled false⟩

theorem pciWrite_owing : wp (owing f) (pciWrite f ptr len) (fun _ b => b = false) false := by
  refine owing_keep (.inr rfl) (fun _ _ h => h) (fun b => ?_)
  refine (wp_ite _ _ _ _).mpr ⟨fun _ => rfl,fun _ => ?_⟩
  refine owing_keep (.inl rfl) (fun _ _ h => h) (fun b => ?_)
  refine (wp_ite _ _ _ _).mpr ⟨fun _ => rfl,fun _ => ?_⟩
  refine owing_keep (.inr rfl) (fun _ _ h => h) (fun b => ?_)
  refine (wp_ite _ _ _ _).mpr ⟨fun _ => writeLive_owing,fun _ => ?_⟩
  refine owing_keep (.inr rfl) (fun _ _ h => h) (fun b => ?_)
  exact (wp_ite _ _ _ _).mpr ⟨fun _ => writeLive_owing,fun _ => rfl⟩

theorem pciUnlockedIoctl_owing {cmd : Nat} {arg : List Byte} :
    wp (owing f) (pciUnlockedIoctl f cmd arg) (fun _ b => b = false) false := by
  unfold pciUnlockedIoctl
  cases ioctlByte arg <;> simp [Act.job]

theorem Sysc.owing (a : Sysc) (f : Nat) :
    wp (owing f) (a.at f).code (fun _ b => b = false) false := by
  cases a with
  | ioctl cdev cmd arg => exact pciUnlockedIoctl_owing
  | write cdev addr count => exact pciWrite_owing

end

end CryptoCard
