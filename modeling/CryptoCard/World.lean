import CryptoCard.Card
import CryptoCard.Interleave
set_option autoImplicit false

/-! What driver and library code can do to the world in one step: the job of an
open file, the kernel heap, DMA mappings, user memory, the semaphore, the wait
queue and the card. -/
namespace CryptoCard
open Memory Program Interleave

/-- `struct job`. `msg` names a buffer of the kernel heap, `none` is NULL. -/
structure Job where
  isE : Bool
  isM : Bool
  isI : Bool
  isNotMM : Bool
  len : Nat
  msg : Option Nat
  keyab : Nat
  deriving DecidableEq, Repr

inductive Flag where
  | isE | isM | isI | isNotMM
  deriving DecidableEq, Repr

def Job.flag (j : Job) : Flag → Bool
  | .isE => j.isE
  | .isM => j.isM
  | .isI => j.isI
  | .isNotMM => j.isNotMM

def Job.setFlag (j : Job) : Flag → Bool → Job
  | .isE, b => { j with isE := b }
  | .isM, b => { j with isM := b }
  | .isI, b => { j with isI := b }
  | .isNotMM, b => { j with isNotMM := b }

/-- The job of a file that has just been opened. -/
def pciOpen : Job := ⟨true,true,false,false,0,none,0⟩

/-- A vmalloc'ed buffer; `owner` is the thread that asked for it and `frees`
counts the calls of vfree on it. -/
structure Buf where
  owner : Nat
  data : List Byte
  live : Bool
  frees : Nat

/-- A DMA mapping of `len` bytes of `buf`; its number is its bus address. -/
structure Mapping where
  owner : Nat
  buf : Option Nat
  len : Nat
  live : Bool
  unmaps : Nat

/-- A thread outside of the wait queue, inside wait_event_interruptible but not
queued, queued (and woken since or not) with its condition still to be checked
again, or asleep. -/
inductive Wait where
  | awake | prep | queued (woken : Bool) | asleep
  deriving DecidableEq, Repr

/-- `jobs` goes by open file, `task` by thread; `holders` lists the threads
between their down and their up. -/
structure World where
  jobs : Nat → Job
  heap : Nat → Buf
  nbuf : Nat
  maps : Nat → Mapping
  nmap : Nat
  umem : Nat → Byte
  card : Card
  wsem : Nat
  holders : List Nat
  task : Nat → Wait

/-- The atomic actions of driver, handler and library code. `n` is always a
number of bytes, `p` a kernel pointer and `ptr` a user address. -/
inductive Act where
  | privateData (f : Nat)
  | configspace
  | flag (f : Nat) (x : Flag)
  | len (f : Nat)
  | msg (f : Nat)
  | keyab (f : Nat)
  | setFlag (f : Nat) (x : Flag) (b : Bool)
  | setLen (f n : Nat)
  | setMsg (f : Nat) (p : Option Nat)
  | copyKey (f : Nat) (arg : List Byte)
  | vmalloc (n : Nat)
  | vfree (p : Option Nat)
  | copyFromUser (p : Option Nat) (ptr n : Nat)
  | copyToUser (ptr : Nat) (p : Option Nat) (n : Nat)
  | downInterruptible
  | up
  | ioread (r : Reg)
  | iowrite (r : Reg) (v : Nat)
  | memcpyToio (p : Option Nat) (n : Nat)
  | memcpyFromio (p : Option Nat) (n : Nat)
  | pollBusy (k : Kind)
  | waitEvent (k : Kind)
  | wakeUp
  | dmaMapSingle (p : Option Nat) (n : Nat)
  | dmaUnmapSingle (h n : Nat)
  | userStore (addr : Nat) (xs : List Byte)
  | mapStore (off : Nat) (xs : List Byte)
  deriving DecidableEq, Repr

@[reducible] def Act.Res : Act → Type
  | .privateData _ | .configspace | .flag _ _ => Bool
  | .len _ | .keyab _ | .ioread _ => Nat
  | .msg _ | .vmalloc _ | .dmaMapSingle _ _ => Option Nat
  | .copyKey _ _ | .copyFromUser _ _ _ | .copyToUser _ _ _ => Nat
  | .downInterruptible | .waitEvent _ => Bool
  | _ => Unit

/-- How an action's outcome is settled where the code leaves it open: an
allocation or a mapping fails, a signal is pending, a user copy stops after `m`
bytes, the card answers `v`, memory nobody has written holds `junk`. -/
inductive Choice where
  | ok
  | fail
  | signal
  | fault (m : Nat)
  | value (v : Nat)
  | junk (g : Nat → Byte)

/-- The value of four bytes as they lie in memory, missing ones read as zero. -/
def le32 (bs : List Byte) : Nat :=
  let b (i : Nat) : Nat := (bs[i]?.getD 0).toNat
  b 0 + 256 * (b 1 + 256 * (b 2 + 256 * b 3))

namespace World

def setJob (w : World) (f : Nat) (j : Job) : World :=
  { w with jobs := Function.update w.jobs f j }

def setTask (w : World) (t : Nat) (q : Wait) : World :=
  { w with task := Function.update w.task t q }

/-- The buffer behind `p`, when it is allocated and holds at least `n` bytes. -/
def usable (w : World) (p : Option Nat) (n : Nat) : Option Nat :=
  p.filter (fun b => (w.heap b).live && decide (n ≤ (w.heap b).data.length))

def setBuf (w : World) (b : Nat) (B : Buf) : World :=
  { w with heap := Function.update w.heap b B }

/-- Overwrite the first bytes of a buffer. -/
def fill (w : World) (b : Nat) (xs : List Byte) : World :=
  w.setBuf b { w.heap b with data := xs ++ (w.heap b).data.drop xs.length }

def allocate (w : World) (t n : Nat) (g : Nat → Byte) : World :=
  { w.setBuf w.nbuf ⟨t,load g 0 n,true,0⟩ with nbuf := w.nbuf+1 }

def release (w : World) : Option Nat → World
  | none => w
  | some b => w.setBuf b { w.heap b with live := false, frees := (w.heap b).frees+1 }

def setMap (w : World) (h : Nat) (m : Mapping) : World :=
  { w with maps := Function.update w.maps h m }

def mapSingle (w : World) (t : Nat) (p : Option Nat) (n : Nat) : World :=
  { w.setMap w.nmap ⟨t,p,n,true,0⟩ with nmap := w.nmap+1 }

def unmapSingle (w : World) (h : Nat) : World :=
  w.setMap h { w.maps h with live := false, unmaps := (w.maps h).unmaps+1 }

def setUmem (w : World) (addr : Nat) (xs : List Byte) : World :=
  { w with umem := store w.umem addr xs }

def setMem (w : World) (off : Nat) (xs : List Byte) : World :=
  { w with card := { w.card with mem := store w.card.mem off xs } }

/-- A buffer gets a number that no buffer had before; its pages hold anything. -/
def vmalloc (w : World) (t n : Nat) (x : Choice) : Option (Out World (Option Nat)) :=
  match x with
  | .fail => some (.done none w)
  | .junk g => if n = 0 then some (.done none w) else some (.done (some w.nbuf) (w.allocate t n g))
  | _ => none

/-- The answer is the number of bytes that were not copied; those read as zero
in the buffer. -/
def copyFromUser (w : World) (p : Option Nat) (ptr n : Nat) (x : Choice) :
    Option (Out World Nat) :=
  match w.usable p n, x with
  | some b, .ok => some (.done 0 (w.fill b (load w.umem ptr n)))
  | some b, .fault m =>
    if m < n then some (.done (n-m) (w.fill b (load w.umem ptr m ++ List.replicate (n-m) 0)))
    else none
  | none, .ok => some (.oops w)
  | none, .junk _ => some (.done 0 w)
  | _, _ => none

def copyToUser (w : World) (ptr : Nat) (p : Option Nat) (n : Nat) (x : Choice) :
    Option (Out World Nat) :=
  match w.usable p n, x with
  | some b, .ok => some (.done 0 (w.setUmem ptr ((w.heap b).data.take n)))
  | some b, .fault m =>
    if m < n then some (.done (n-m) (w.setUmem ptr ((w.heap b).data.take m))) else none
  | none, .ok => some (.oops w)
  | none, .junk g => some (.done 0 (w.setUmem ptr (load g 0 n)))
  | _, _ => none

def memcpyToio (w : World) (p : Option Nat) (n : Nat) (x : Choice) : Option (Out World Unit) :=
  match w.usable p n, x with
  | some b, .ok => some (.done () (w.setMem r1Start ((w.heap b).data.take n)))
  | none, .ok => some (.oops w)
  | none, .junk g => some (.done () (w.setMem r1Start (load g 0 n)))
  | _, _ => none

def memcpyFromio (w : World) (p : Option Nat) (n : Nat) (x : Choice) :
    Option (Out World Unit) :=
  match w.usable p n, x with
  | some b, .ok => some (.done () (w.fill b (load w.card.mem r1Start n)))
  | none, .ok => some (.oops w)
  | none, .junk _ => some (.done () w)
  | _, _ => none

def downInterruptible (w : World) (t : Nat) (x : Choice) : Option (Out World Bool) :=
  match x with
  | .signal => some (.done true w)
  | .ok =>
    if w.wsem = 0 then none
    else some (.done false { w with wsem := w.wsem-1, holders := t :: w.holders })
  | _ => none

def up (w : World) (t : Nat) : World :=
  { w with wsem := w.wsem+1, holders := w.holders.erase t }

/-- `interrupt_status` reads as the pending bits; what the card answers elsewhere
is left open. -/
def ioread (w : World) (r : Reg) (x : Choice) : Option (Out World Nat) :=
  match r, x with
  | .interruptStatus, _ => some (.done w.card.interruptStatus w)
  | _, .value v => some (.done v w)
  | _, _ => none

def dmaMapSingle (w : World) (t : Nat) (p : Option Nat) (n : Nat) (x : Choice) :
    Option (Out World (Option Nat)) :=
  match x with
  | .ok => some (.done (some w.nmap) (w.mapSingle t p n))
  | .fail => some (.done none w)
  | _ => none

def wake (q : Wait) : Wait :=
  match q with
  | .queued _ => .queued true
  | .asleep => .prep
  | q => q

/-- One step of wait_event_interruptible for the busy bit of `k`: the check
before queueing, the queueing, and the check after it, which is followed by an
early return on a signal or by the sleep, unless a wake-up came in between. -/
def waitStep (w : World) (t : Nat) (k : Kind) (x : Choice) : Option (Out World Bool) :=
  match w.task t with
  | .awake =>
    if w.card.busy k then some (.stay (w.setTask t .prep)) else some (.done false w)
  | .prep => some (.stay (w.setTask t (.queued false)))
  | .queued woken =>
    if w.card.busy k then
      match x with
      | .signal => some (.done true (w.setTask t .awake))
      | _ => some (.stay (w.setTask t (if woken then .prep else .asleep)))
    else some (.done false (w.setTask t .awake))
  | .asleep =>
    match x with
    | .signal => some (.stay (w.setTask t .prep))
    | _ => none

/-- Perform action `a` for thread `t`. A copy through a NULL or freed pointer, or
past the end of a buffer, crashes or goes on with junk. -/
def exec (t : Nat) (a : Act) (x : Choice) (w : World) : Option (Out World a.Res) :=
  match a with
  | .privateData _ => some (.done true w)
  | .configspace => some (.done true w)
  | .flag f y => some (.done ((w.jobs f).flag y) w)
  | .len f => some (.done (w.jobs f).len w)
  | .msg f => some (.done (w.jobs f).msg w)
  | .keyab f => some (.done (w.jobs f).keyab w)
  | .setFlag f y b => some (.done () (w.setJob f ((w.jobs f).setFlag y b)))
  | .setLen f n => some (.done () (w.setJob f { w.jobs f with len := n }))
  | .setMsg f p => some (.done () (w.setJob f { w.jobs f with msg := p }))
  | .copyKey f arg =>
    some (.done (4-arg.length : Nat) (w.setJob f { w.jobs f with keyab := le32 arg }))
  | .vmalloc n => w.vmalloc t n x
  | .vfree p => some (.done () (w.release p))
  | .copyFromUser p ptr n => w.copyFromUser p ptr n x
  | .copyToUser ptr p n => w.copyToUser ptr p n x
  | .downInterruptible => w.downInterruptible t x
  | .up => some (.done () (w.up t))
  | .ioread r => w.ioread r x
  | .iowrite r v => some (.done () { w with card := w.card.iowrite r v })
  | .memcpyToio p n => w.memcpyToio p n x
  | .memcpyFromio p n => w.memcpyFromio p n x
  | .pollBusy k => if w.card.busy k then some (.stay w) else some (.done () w)
  | .waitEvent k => w.waitStep t k x
  | .wakeUp => some (.done () { w with task := fun u => wake (w.task u) })
  | .dmaMapSingle p n => w.dmaMapSingle t p n x
  | .dmaUnmapSingle h _ => some (.done () (w.unmapSingle h))
  | .userStore addr xs => some (.done () (w.setUmem addr xs))
  | .mapStore off xs => some (.done () (w.setMem off xs))

/-- The buffer the card reaches at bus address `h`; none once it has been unmapped or freed.
What the card does to pages that were freed under it is left out, as is who gets them next,
so what is said of memory takes the buffer to be there for as long as the operation runs. -/
def dmaTarget (w : World) (h n : Nat) : Option Nat :=
  if (w.maps h).live then w.usable (w.maps h).buf n else none

/-- The card replaces the bytes of the operation by their transformation. -/
def transform (c : Cipher) (w : World) (o : Op) : World :=
  match o.kind with
  | .mmio => { w with card := { w.card with
      mem := store w.card.mem o.addr (c.run o.decrypt o.key (load w.card.mem o.addr o.len)) } }
  | .dma =>
    match w.dmaTarget o.addr o.len with
    | some b => w.fill b (c.run o.decrypt o.key ((w.heap b).data.take o.len))
    | none => w

/-- Clear the busy bit; an operation that asked for an interrupt goes on to raise it. -/
def settle (w : World) (o : Op) : World :=
  { w with card := { w.card with
      op := none, raising := if o.intr then some o.kind else w.card.raising } }

/-- The card finishes the operation in progress, or brings a completion bit into
`interrupt_status`. -/
inductive Env where
  | finish | raise
  deriving DecidableEq, Repr

def env (c : Cipher) : Env → World → Option World
  | .finish, w =>
    match w.card.op with
    | some o =>
      if o.intr && w.card.raising.isSome then none else some ((w.transform c o).settle o)
    | none => none
  | .raise, w =>
    match w.card.raising with
    | some k => some { w with card := { w.card with
        raising := none, pending := Function.update w.card.pending k true } }
    | none => none

/-- One bound card, idle, with no buffer allocated and every file just opened. -/
def boot (umem mem : Nat → Byte) : World where
  jobs _ := pciOpen
  heap _ := ⟨0,[],false,0⟩
  nbuf := 0
  maps _ := ⟨0,none,0,false,0⟩
  nmap := 0
  umem := umem
  card := ⟨⟨0,0,0,0,0,0,0⟩,mem,none,none,fun _ => false⟩
  wsem := 1
  holders := []
  task _ := .awake

end World

end CryptoCard
