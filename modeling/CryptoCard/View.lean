import CryptoCard.Steps
set_option autoImplicit false

/-! One client's view of the world: its jobs, its memory, the buffer and the
mapping of its call, and the card while it holds the semaphore. -/
namespace CryptoCard
open Memory Program Interleave

/-- How a library call means to use the card. -/
structure Setting where
  decrypt : Bool
  key : Nat
  dma : Bool
  intr : Bool
  mapped : Bool
  deriving DecidableEq, Repr

/-- The operation does what was asked for. -/
def Op.Follows (o : Op) (s : Setting) : Prop :=
  o.decrypt = s.decrypt ∧ o.key = s.key ∧ o.kind = (if s.dma then .dma else .mmio) ∧
  o.intr = s.intr

/-- What a thread does: handle interrupts, call the library, or store to the mapped
window. -/
inductive Role where
  | handler | client | mapper
  deriving DecidableEq, Repr

/-- `role`, `file`, `lo`, `size` and `want` are those of the call in progress: what
kind it is, its handle, its range of user memory and its setting. `buf` is the buffer of the call, `map` the mapping of
it, `bar` the card while the semaphore is held, and `own` the card's memory
between two such times, for a client that nobody else disturbs. -/
structure View where
  role : Role
  file : Option Nat
  lo : Nat
  size : Nat
  want : Setting
  jobs : Nat → Job
  um : Nat → Byte
  buf : Option (Nat × List Byte)
  map : Option Nat
  bar : Option Card
  own : Option (Nat → Byte)

/-- A job without its length and its buffer. -/
def Job.mode (j : Job) : Bool × Bool × Bool × Bool × Nat :=
  (j.isE,j.isM,j.isI,j.isNotMM,j.keyab)

/-- The bytes of the card's memory that an operation replaces. -/
def Card.finish (c : Cipher) (B : Card) (o : Op) : Card :=
  match o.kind with
  | .mmio => { B with op := none
                      mem := store B.mem o.addr (c.run o.decrypt o.key (load B.mem o.addr o.len)) }
  | .dma => { B with op := none }

namespace View

def bytes (v : View) : List Byte := (v.buf.map Prod.snd).getD []

def mem (v : View) : Nat → Byte := (v.bar.map Card.mem).getD (fun _ => 0)

def setJob (v : View) (f : Nat) (j : Job) : View :=
  { v with jobs := Function.update v.jobs f j }

/-- No operation of the client itself is in progress. -/
def Free (v : View) : Prop := ∀ B, v.bar = some B → B.op = none

/-- The client holds the semaphore and the card is idle. -/
def Idle (v : View) : Prop := ∃ B, v.bar = some B ∧ B.op = none

/-- `p` is the client's buffer and has room for `n` bytes. -/
def Copies (v : View) (p : Option Nat) (n : Nat) : Prop :=
  ∃ b xs, v.buf = some (b,xs) ∧ p = some b ∧ n ≤ xs.length

/-- The `n` bytes of user memory from `ptr` on belong to the call. -/
def Covers (v : View) (ptr n : Nat) : Prop := v.lo ≤ ptr ∧ ptr+n ≤ v.lo+v.size

/-- The operation is over and its bytes are replaced. -/
def settle (c : Cipher) (v : View) : View :=
  match v.bar with
  | none => v
  | some B =>
    match B.op with
    | none => v
    | some o => { v with
        bar := some (B.finish c o)
        buf := match o.kind with
          | .mmio => v.buf
          | .dma => v.buf.map (fun (b,xs) =>
              (b,c.run o.decrypt o.key (xs.take o.len) ++ xs.drop o.len)) }

/-- What the client may do to a register. A register write that starts an
operation starts the one that was asked for, and a DMA operation runs inside of
the client's buffer. -/
def OkWrite (v : View) : Reg → Nat → Prop
  | .interruptAck, _ => v.role = .handler ∧ v.Free
  | .live, _ => v.Free ∧ (v.want.dma && v.want.mapped) = false
  | .dataAddr, a => (v.want.dma && v.want.mapped) = false ∧ ∃ B, v.bar = some B ∧
      B.op = none ∧ ((B.regs.set .dataAddr a).operation .mmio).Follows v.want
  | .cmd, a => (v.want.dma && v.want.mapped) = false ∧ a.testBit 0 = true ∧
      ∃ B, v.bar = some B ∧ B.op = none ∧
        ((B.regs.set .cmd a).operation .dma).Follows v.want ∧
        ∃ b xs, v.buf = some (b,xs) ∧ v.map = some B.regs.addrOp ∧ B.regs.dlenMsg ≤ xs.length
  | _, _ => v.Idle ∧ (v.want.dma && v.want.mapped) = false

def Ok (v : View) : Act → Prop
  | .privateData f | .flag f _ | .len f | .msg f | .keyab f => v.file = some f ∧ v.Free
  | .setFlag f _ _ | .setLen f _ | .setMsg f _ | .copyKey f _ => v.file = some f ∧ v.Free
  | .configspace => v.Free
  | .vmalloc _ => v.role = .client ∧ v.buf = none ∧ v.map = none ∧ v.Free
  | .vfree p => v.role = .client ∧ p = v.buf.map Prod.fst ∧ v.map = none ∧ v.Free
  | .copyFromUser p ptr n => v.role = .client ∧ v.Copies p n ∧ v.Covers ptr n ∧ v.Free
  | .copyToUser ptr p n => v.role = .client ∧ v.Copies p n ∧ v.Covers ptr n ∧ v.Free
  | .downInterruptible => v.role = .client ∧ v.bar = none
  | .up => v.Idle ∧ v.map = none
  | .ioread _ => v.Free
  | .iowrite r a => v.OkWrite r a
  | .memcpyToio p n | .memcpyFromio p n => v.Idle ∧ v.Copies p n
  | .pollBusy k | .waitEvent k => ∃ B o, v.bar = some B ∧ B.op = some o ∧ o.kind = k
  | .wakeUp => v.Free
  | .dmaMapSingle p n => v.Idle ∧ v.Copies p n ∧ v.map = none
  | .dmaUnmapSingle h _ => v.Idle ∧ v.map = some h
  | .userStore addr xs => v.Covers addr xs.length ∧ v.Free
  | .mapStore _ _ => v.role = .mapper ∧ v.bar = none

def Next (c : Cipher) (v : View) : (a : Act) → a.Res → View → Prop
  | .privateData _, r, v' => v' = v ∧ r = true
  | .configspace, r, v' => v' = v ∧ r = true
  | .flag f x, r, v' => v' = v ∧ r = (v.jobs f).flag x
  | .len f, r, v' => v' = v ∧ r = (v.jobs f).len
  | .msg f, r, v' => v' = v ∧ r = (v.jobs f).msg
  | .keyab f, r, v' => v' = v ∧ r = (v.jobs f).keyab
  | .setFlag f x b, _, v' => v' = v.setJob f ((v.jobs f).setFlag x b)
  | .setLen f n, _, v' => v' = v.setJob f { v.jobs f with len := n }
  | .setMsg f p, _, v' => v' = v.setJob f { v.jobs f with msg := p }
  | .copyKey f arg, r, v' =>
      v' = v.setJob f { v.jobs f with keyab := le32 arg } ∧ r = 4-arg.length
  | .vmalloc n, r, v' => (v' = v ∧ r = none) ∨
      (0 < n ∧ ∃ b xs, xs.length = n ∧ v' = { v with buf := some (b,xs) } ∧ r = some b)
  | .vfree _, _, v' => v' = { v with buf := none }
  | .copyFromUser _ ptr n, r, v' => ∃ ys, ys.length = n ∧ (r = 0 → ys = load v.um ptr n) ∧
      v' = { v with buf := v.buf.map (fun (b,xs) => (b,ys ++ xs.drop ys.length)) }
  | .copyToUser ptr _ n, r, v' => ∃ m, m ≤ n ∧ (r = 0 → m = n) ∧
      v' = { v with um := store v.um ptr (v.bytes.take m) }
  | .downInterruptible, r, v' => (v' = v ∧ r = true) ∨ (r = false ∧ ∃ B : Card, B.op = none ∧
      (∀ m, v.own = some m → B.mem = m) ∧ v' = { v with bar := some B })
  | .up, _, v' => v' = { v with bar := none, own := v.own.map (fun _ => v.mem) }
  | .iowrite r a, _, v' => v' = { v with bar := v.bar.map (fun B => B.iowrite r a) }
  | .memcpyToio _ n, _, v' => v' = { v with
      bar := v.bar.map (fun B => { B with mem := store B.mem r1Start (v.bytes.take n) }) }
  | .memcpyFromio _ n, _, v' => v' = { v with
      buf := v.buf.map (fun (b,xs) => (b,load v.mem r1Start n ++ xs.drop n)) }
  | .pollBusy _, _, v' => v' = v.settle c
  | .waitEvent _, r, v' => v' = v.settle c ∧ r = false
  | .dmaMapSingle _ _, r, v' => (v' = v ∧ r = none) ∨
      ∃ h, v' = { v with map := some h } ∧ r = some h
  | .dmaUnmapSingle _ _, _, v' => v' = { v with map := none }
  | .userStore addr xs, _, v' => v' = { v with um := store v.um addr xs }
  | .mapStore off xs, _, v' => v' = { v with own := v.own.map (fun m => store m off xs) }
  | .ioread _, _, v' => v' = v
  | .wakeUp, _, v' => v' = v

/-- What a call does not change of a view. -/
structure Link (v v' : View) : Prop where
  role : v'.role = v.role
  file : v'.file = v.file
  lo : v'.lo = v.lo
  size : v'.size = v.size
  want : v'.want = v.want

theorem Link.refl (v : View) : v.Link v := ⟨rfl,rfl,rfl,rfl,rfl⟩

theorem Link.trans {v v' v'' : View} (h : v.Link v') (h' : v'.Link v'') : v.Link v'' :=
  ⟨h'.role.trans h.role,h'.file.trans h.file,h'.lo.trans h.lo,h'.size.trans h.size,
    h'.want.trans h.want⟩

theorem mode_eq {j j' : Job} (h : j.mode = j'.mode) :
    j.isE = j'.isE ∧ j.isM = j'.isM ∧ j.isI = j'.isI ∧ j.isNotMM = j'.isNotMM ∧
      j.keyab = j'.keyab := by
  simpa [Job.mode] using h

theorem settle_link (c : Cipher) (v : View) : v.Link (v.settle c) := by
  unfold settle
  split
  · exact .refl v
  · split
    · exact .refl v
    · exact ⟨rfl,rfl,rfl,rfl,rfl⟩

theorem settle_of_free {c : Cipher} {v : View} (h : v.Free) : v.settle c = v := by
  unfold settle
  split
  · rfl
  · rename_i B hB
    simp [h B hB]

theorem next_link {c : Cipher} {v v' : View} {a : Act} {r : a.Res} (h : v.Next c a r v') :
    v.Link v' := by
  cases a with
  | privateData f => obtain ⟨rfl,_⟩ := h; exact .refl _
  | configspace => obtain ⟨rfl,_⟩ := h; exact .refl _
  | flag f x => obtain ⟨rfl,_⟩ := h; exact .refl _
  | len f => obtain ⟨rfl,_⟩ := h; exact .refl _
  | msg f => obtain ⟨rfl,_⟩ := h; exact .refl _
  | keyab f => obtain ⟨rfl,_⟩ := h; exact .refl _
  | copyKey f arg => obtain ⟨rfl,_⟩ := h; exact ⟨rfl,rfl,rfl,rfl,rfl⟩
  | vmalloc n =>
    obtain ⟨rfl,_⟩ | ⟨_,b,xs,_,rfl,_⟩ := h
    · exact .refl _
    · exact ⟨rfl,rfl,rfl,rfl,rfl⟩
  | copyFromUser p ptr n => obtain ⟨ys,_,_,rfl⟩ := h; exact ⟨rfl,rfl,rfl,rfl,rfl⟩
  | copyToUser ptr p n => obtain ⟨m,_,_,rfl⟩ := h; exact ⟨rfl,rfl,rfl,rfl,rfl⟩
  | downInterruptible =>
    obtain ⟨rfl,_⟩ | ⟨_,B,_,_,rfl⟩ := h
    · exact .refl _
    · exact ⟨rfl,rfl,rfl,rfl,rfl⟩
  | pollBusy k => cases h; exact settle_link c v
  | waitEvent k => obtain ⟨rfl,_⟩ := h; exact settle_link c v
  | dmaMapSingle p n =>
    obtain ⟨rfl,_⟩ | ⟨h,rfl,_⟩ := h
    · exact .refl _
    · exact ⟨rfl,rfl,rfl,rfl,rfl⟩
  | _ => cases h; exact ⟨rfl,rfl,rfl,rfl,rfl⟩

theorem settle_bar (c : Cipher) (v : View) : (v.settle c).bar = none ↔ v.bar = none := by
  unfold settle
  split
  · rfl
  · rename_i B hB
    split <;> simp [hB]

theorem settle_own (c : Cipher) (v : View) : (v.settle c).own = v.own := by
  unfold settle
  split
  · rfl
  · split <;> rfl

/-- The semaphore is taken by `down` and given back by `up`. -/
theorem next_bar {c : Cipher} {v v' : View} {a : Act} {r : a.Res} (h : v.Next c a r v')
    (hd : a ≠ .downInterruptible) (hu : a ≠ .up) : v'.bar = none ↔ v.bar = none := by
  cases a with
  | downInterruptible => exact absurd rfl hd
  | up => exact absurd rfl hu
  | privateData f => obtain ⟨rfl,_⟩ := h; rfl
  | configspace => obtain ⟨rfl,_⟩ := h; rfl
  | flag f x => obtain ⟨rfl,_⟩ := h; rfl
  | len f => obtain ⟨rfl,_⟩ := h; rfl
  | msg f => obtain ⟨rfl,_⟩ := h; rfl
  | keyab f => obtain ⟨rfl,_⟩ := h; rfl
  | copyKey f arg => obtain ⟨rfl,_⟩ := h; rfl
  | vmalloc n =>
    obtain ⟨rfl,_⟩ | ⟨_,b,xs,_,rfl,_⟩ := h <;> rfl
  | copyFromUser p ptr n => obtain ⟨ys,_,_,rfl⟩ := h; rfl
  | copyToUser ptr p n => obtain ⟨m,_,_,rfl⟩ := h; rfl
  | iowrite r a => cases h; exact Option.map_eq_none_iff
  | memcpyToio p n => cases h; exact Option.map_eq_none_iff
  | pollBusy k => cases h; exact settle_bar c v
  | waitEvent k => obtain ⟨rfl,_⟩ := h; exact settle_bar c v
  | dmaMapSingle p n => obtain ⟨rfl,_⟩ | ⟨h,rfl,_⟩ := h <;> rfl
  | _ => cases h; rfl

theorem next_own {c : Cipher} {v v' : View} {a : Act} {r : a.Res} (h : v.Next c a r v') :
    v'.own = none ↔ v.own = none := by
  cases a with
  | privateData f => obtain ⟨rfl,_⟩ := h; rfl
  | configspace => obtain ⟨rfl,_⟩ := h; rfl
  | flag f x => obtain ⟨rfl,_⟩ := h; rfl
  | len f => obtain ⟨rfl,_⟩ := h; rfl
  | msg f => obtain ⟨rfl,_⟩ := h; rfl
  | keyab f => obtain ⟨rfl,_⟩ := h; rfl
  | copyKey f arg => obtain ⟨rfl,_⟩ := h; rfl
  | vmalloc n =>
    obtain ⟨rfl,_⟩ | ⟨_,b,xs,_,rfl,_⟩ := h <;> rfl
  | copyFromUser p ptr n => obtain ⟨ys,_,_,rfl⟩ := h; rfl
  | copyToUser ptr p n => obtain ⟨m,_,_,rfl⟩ := h; rfl
  | downInterruptible => obtain ⟨rfl,_⟩ | ⟨_,B,_,_,rfl⟩ := h <;> rfl
  | up => cases h; exact Option.map_eq_none_iff
  | mapStore off xs => cases h; exact Option.map_eq_none_iff
  | pollBusy k => cases h; rw [settle_own]
  | waitEvent k => obtain ⟨rfl,_⟩ := h; rw [settle_own]
  | dmaMapSingle p n => obtain ⟨rfl,_⟩ | ⟨h,rfl,_⟩ := h <;> rfl
  | _ => cases h; rfl

end View

@[reducible] def viewing (c : Cipher) : Discipline Act Act.Res where
  Ghost := View
  ok := View.Ok
  next := View.Next c

end CryptoCard
