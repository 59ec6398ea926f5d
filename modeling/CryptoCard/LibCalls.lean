import CryptoCard.Chunks
import CryptoCard.Syscalls
set_option autoImplicit false

/-! The library as programs of system calls, and where a thread stands that runs its
functions one after the other. -/
namespace CryptoCard
open Memory Chunks Program Interleave

/-- The system calls that the library makes. -/
inductive Sysc where
  | ioctl (cdev cmd : Nat) (arg : List Byte)
  | write (cdev addr count : Nat)
  deriving DecidableEq, Repr

abbrev LibCode := Prog Sysc (fun _ => Int) Int

def Sysc.code : Sysc → Code Int
  | .ioctl cdev cmd arg => pciUnlockedIoctl cdev cmd arg
  | .write cdev addr count => sysWrite cdev addr count

/-- The chunk loop of encrypt and decrypt, as in `cryptLoop`. -/
def sysLoop (cdev : Nat) : Nat → Nat → Nat → LibCode
  | 0, _, length => return length
  | fuel+1, addr, length => do
    let count := if length > BUFFERSIZE then BUFFERSIZE else length
    let rest := if length > BUFFERSIZE then length-BUFFERSIZE else 0
    let r ← perform (.write cdev addr count)
    if r ≠ 0 then return ERROR
    else if rest > 0 then sysLoop cdev fuel (addr+count) rest
    else return rest

/-- What follows the first ioctl of `sysCrypt`. -/
def sysAimed (cdev addr length : Nat) (isMapped : Byte) : LibCode := do
  let r ← perform (.ioctl cdev SET_MMAP [if isMapped ≠ 0 then 70 else 80])
  if r ≠ 0 then return ERROR
  else sysLoop cdev (length / BUFFERSIZE + 1) addr length

/-- encrypt and decrypt, as in `crypt`. -/
def sysCrypt (value : Byte) (cdev addr length : Nat) (isMapped : Byte) : LibCode := do
  let r ← perform (.ioctl cdev SET_ENCRYP [value])
  if r ≠ 0 then return ERROR else sysAimed cdev addr length isMapped

def sysSetKey (cdev : Nat) (a b : Byte) : LibCode := do
  let r ← perform (.ioctl cdev SET_KEY (bytes32 (packKey a b)))
  if r ≠ 0 then return ERROR else return 0

/-- A library call on a handle, in memory that is not the card's. -/
inductive LibCall where
  | crypt (decrypt : Bool) (addr length : Nat)
  | setKey (a b : Byte)
  deriving DecidableEq, Repr

def LibCall.code (f : Nat) : LibCall → LibCode
  | .crypt d addr length => sysCrypt (if d then 60 else 50) f addr length 0
  | .setKey a b => sysSetKey f a b

/-- The finished calls of a thread with their results, last one first, the one it is in
with what is left of it, and those it has still to make. -/
structure Place where
  done : List (LibCall × Int)
  cur : Option (LibCall × LibCode)
  todo : List LibCall

/-- The library call that a thread goes on with. -/
def Place.ahead (f : Nat) (p : Place) : Option (LibCall × LibCode × List LibCall) :=
  match p.cur,p.todo with
  | some (l,q),ls => some (l,q,ls)
  | none,l :: ls => some (l,l.code f,ls)
  | none,[] => none

/-- The system call `cl` is the one that the library makes next. An argument may be cut
short: the rest of it cannot be read. -/
def Call.issues : Call → Sysc → Bool
  | .write f ptr n,.write cdev addr count => f == cdev && ptr == addr && n == count
  | .ioctl f cmd arg,.ioctl cdev cmd' arg' => f == cdev && cmd == cmd' && arg.isPrefixOf arg'
  | _,_ => false

def Place.admits (f : Nat) (p : Place) (cl : Call) : Bool :=
  match p.ahead f with
  | some (_,.act a _,_) => cl.issues a
  | _ => false

/-- Where the answer to a system call leads. -/
def Place.took (f : Nat) (p : Place) (v : Int) : Place :=
  match p.ahead f with
  | some (l,.act _ k,ls) =>
    match k v with
    | .ret r => ⟨(l,r) :: p.done,none,ls⟩
    | q => ⟨p.done,some (l,q),ls⟩
  | _ => p

/-- Where a thread stands that runs the calls `ls`, by its finished system calls. -/
def place (f : Nat) (ls : List LibCall) (hs : List (Call × Int)) : Place :=
  hs.foldr (fun e p => p.took f e.2) ⟨[],none,ls⟩

@[simp] theorem place_cons (f : Nat) (ls : List LibCall) (e : Call × Int)
    (hs : List (Call × Int)) : place f ls (e :: hs) = (place f ls hs).took f e.2 := rfl

/-- The finished system calls of a thread, last one first. -/
def syscalls (s : System) (t : Nat) : List (Call × Int) := (s.hist t).filter (fun e => e.1.front)

/-- Every thread runs its library calls; besides there are only interrupts. -/
def Serves (f : Nat) (prog : Nat → List LibCall) (s : System) : Step → Prop
  | .call t cl => cl.front = true → (place f (prog t) (syscalls s t)).admits f cl = true
  | _ => True

instance (f : Nat) (prog : Nat → List LibCall) (s : System) (l : Step) :
    Decidable (Serves f prog s l) :=
  match l with
  | .call t cl => inferInstanceAs (Decidable (cl.front = true →
      (place f (prog t) (syscalls s t)).admits f cl = true))
  | .act _ _ | .ret _ | .env _ => isTrue trivial

theorem Place.admits_eq {f : Nat} {p : Place} {cl : Call} (h : p.admits f cl = true) :
    ∃ l a k ls, p.ahead f = some (l,.act a k,ls) ∧ cl.issues a = true := by
  unfold admits at h
  split at h
  · rename_i l a k ls ha
    exact ⟨l,a,k,ls,ha,h⟩
  · cases h

/-- The answer ends the library call. -/
theorem Place.took_ret {f : Nat} {p : Place} {l : LibCall} {a : Sysc} {k : Int → LibCode}
    {ls : List LibCall} {v r : Int} (h : p.ahead f = some (l,.act a k,ls)) (hk : k v = .ret r) :
    p.took f v = ⟨(l,r) :: p.done,none,ls⟩ := by
  simp only [took,h,hk]

/-- The library call goes on. -/
theorem Place.took_act {f : Nat} {p : Place} {l : LibCall} {a b : Sysc} {k k' : Int → LibCode}
    {ls : List LibCall} {v : Int} (h : p.ahead f = some (l,.act a k,ls)) (hk : k v = .act b k') :
    p.took f v = ⟨p.done,some (l,.act b k'),ls⟩ := by
  simp only [took,h,hk]

theorem Place.admits_ahead {f : Nat} {p : Place} {cl : Call} {l : LibCall} {a : Sysc}
    {k : Int → LibCode} {ls : List LibCall} (h : p.ahead f = some (l,.act a k,ls))
    (ha : p.admits f cl = true) : cl.issues a = true := by
  simpa only [admits,h] using ha

/-- The thread `t` runs the calls `ls`, and no other thread runs any. -/
def only (t : Nat) (ls : List LibCall) (u : Nat) : List LibCall := if u = t then ls else []

/-- A thread with nothing to run makes no system call. -/
theorem place_nothing (f : Nat) (hs : List (Call × Int)) : place f [] hs = ⟨[],none,[]⟩ := by
  induction hs with
  | nil => rfl
  | cons e hs ih => rw [place_cons,ih]; rfl

theorem Serves.thread {f t u : Nat} {ls : List LibCall} {s : System} {cl : Call}
    (h : Serves f (only t ls) s (.call u cl)) (hcl : cl.front = true) : u = t := by
  by_contra hu
  have ha := h hcl
  rw [only,if_neg hu,place_nothing] at ha
  cases ha

end CryptoCard
