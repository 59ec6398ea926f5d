import CryptoCard.Memory
set_option autoImplicit false

/-! The card behind BAR 0: its registers, its data memory and the operation it
has in progress. -/
namespace CryptoCard

abbrev Byte := UInt8

/-- What the card does to a byte string under a direction (`true` decrypts) and a key. -/
structure Cipher where
  run : Bool → Nat → List Byte → List Byte
  run_length : ∀ d k xs, (run d k xs).length = xs.length

attribute [simp] Cipher.run_length

/-- A cipher that treats every byte on its own. -/
def Cipher.bytewise (f : Bool → Nat → Byte → Byte) : Cipher where
  run d k xs := xs.map (f d k)
  run_length _ _ _ := List.length_map _

inductive Kind where
  | mmio | dma
  deriving DecidableEq, Repr

inductive Reg where
  | id | live | keys | lenMsg | status | interruptStatus | interruptRaise
  | interruptAck | dataAddr | addrOp | dlenMsg | cmd
  deriving DecidableEq, Repr

/-- The offsets that `setup_configspace` adds to the start of the BAR. -/
def Reg.offset : Reg → Nat
  | .id => 0x0
  | .live => 0x4
  | .keys => 0x8
  | .lenMsg => 0xC
  | .status => 0x20
  | .interruptStatus => 0x24
  | .interruptRaise => 0x60
  | .interruptAck => 0x64
  | .dataAddr => 0x80
  | .addrOp => 0x90
  | .dlenMsg => 0x98
  | .cmd => 0xA0

/-- The data window `r1` of `setup_configspace`, relative to the start of the BAR. -/
def r1Start : Nat := 0xA8
def r1End : Nat := 0xFFFFF

/-- The registers the driver programs an operation with. -/
structure Regs where
  keys : Nat
  lenMsg : Nat
  status : Nat
  dataAddr : Nat
  addrOp : Nat
  dlenMsg : Nat
  cmd : Nat
  deriving DecidableEq, Repr

def Regs.set (s : Regs) : Reg → Nat → Regs
  | .keys, v => { s with keys := v }
  | .lenMsg, v => { s with lenMsg := v }
  | .status, v => { s with status := v }
  | .dataAddr, v => { s with dataAddr := v }
  | .addrOp, v => { s with addrOp := v }
  | .dlenMsg, v => { s with dlenMsg := v }
  | .cmd, v => { s with cmd := v }
  | _, _ => s

/-- `addr` is an offset in the BAR for an MMIO operation, a bus address for a DMA one. -/
structure Op where
  kind : Kind
  key : Nat
  decrypt : Bool
  addr : Nat
  len : Nat
  intr : Bool
  deriving DecidableEq, Repr

/-- Bit 1 of the status and command registers selects decryption; bit 7 of the
first and bit 2 of the second ask for an interrupt. -/
def Regs.operation (s : Regs) : Kind → Op
  | .mmio => ⟨.mmio,s.keys,s.status.testBit 1,s.dataAddr,s.lenMsg,s.status.testBit 7⟩
  | .dma => ⟨.dma,s.keys,s.cmd.testBit 1,s.addrOp,s.dlenMsg,s.cmd.testBit 2⟩

/-- `op` is the operation in progress, which shows as bit 0 of `status` or `cmd`.
`raising` is a completion whose bit has not reached `interrupt_status` yet, and
`pending` the bits that have. -/
structure Card where
  regs : Regs
  mem : Nat → Byte
  op : Option Op
  raising : Option Kind
  pending : Kind → Bool

/-- The bit of `interrupt_status` that reports a completion: 0x001 or 0x100. -/
def Kind.bit : Kind → Nat
  | .mmio => 0
  | .dma => 8

namespace Card

def busy (c : Card) (k : Kind) : Bool := c.op.any (fun o => o.kind == k)

def interruptStatus (c : Card) : Nat :=
  (if c.pending .mmio then 0x001 else 0) + (if c.pending .dma then 0x100 else 0)

/-- A card that is not idle does not start a second operation. -/
def start (c : Card) (k : Kind) : Card :=
  match c.op with
  | none => { c with op := some (c.regs.operation k) }
  | some _ => c

/-- Writing `data_addr`, or `cmd` with bit 0, starts an operation; writing
`interrupt_ack` clears exactly the bits written. -/
def iowrite (c : Card) (r : Reg) (v : Nat) : Card :=
  let c' := { c with regs := c.regs.set r v }
  match r with
  | .dataAddr => c'.start .mmio
  | .cmd => if v.testBit 0 then c'.start .dma else c'
  | .interruptAck => { c with pending := fun k => c.pending k && !v.testBit k.bit }
  | _ => c'

theorem busy_iff (c : Card) (k : Kind) :
    c.busy k = true ↔ ∃ o, c.op = some o ∧ o.kind = k := by
  simp [busy,Option.any_eq_true]

theorem not_busy_of_idle {c : Card} (h : c.op = none) (k : Kind) : c.busy k = false := by
  simp [busy,h]

@[simp] theorem start_regs (c : Card) (k : Kind) : (c.start k).regs = c.regs := by
  unfold start; split <;> rfl

@[simp] theorem start_mem (c : Card) (k : Kind) : (c.start k).mem = c.mem := by
  unfold start; split <;> rfl

@[simp] theorem start_raising (c : Card) (k : Kind) : (c.start k).raising = c.raising := by
  unfold start; split <;> rfl

@[simp] theorem start_pending (c : Card) (k : Kind) : (c.start k).pending = c.pending := by
  unfold start; split <;> rfl

theorem start_op (c : Card) (k : Kind) (h : c.op = none) :
    (c.start k).op = some (c.regs.operation k) := by
  simp [start,h]

@[simp] theorem iowrite_mem (c : Card) (r : Reg) (v : Nat) : (c.iowrite r v).mem = c.mem := by
  unfold iowrite
  cases r <;> simp only [start_mem]
  split <;> simp

@[simp] theorem iowrite_raising (c : Card) (r : Reg) (v : Nat) :
    (c.iowrite r v).raising = c.raising := by
  unfold iowrite
  cases r <;> simp only [start_raising]
  split <;> simp

theorem iowrite_regs (c : Card) (r : Reg) (v : Nat) :
    (c.iowrite r v).regs = c.regs.set r v := by
  cases r with
  | cmd =>
    simp only [iowrite]
    split <;> simp
  | _ => simp [iowrite,Regs.set]

/-- A card that is started takes up what its registers say, unless it is at work. -/
theorem op_of_start {c : Card} {k : Kind} {o : Op} (h : (c.start k).op = some o) :
    c.op = some o ∨ o = c.regs.operation k := by
  cases hop : c.op with
  | none =>
    simp only [start,hop,Option.some.injEq] at h
    exact .inr h.symm
  | some o' =>
    simp only [start,hop] at h
    exact .inl h

/-- An operation is started by a write to `data_addr` or to `cmd`. -/
theorem iowrite_op {c : Card} {r : Reg} {v : Nat} {o : Op} (h : (c.iowrite r v).op = some o) :
    c.op = some o ∨ (r = .dataAddr ∧ o = (c.regs.set .dataAddr v).operation .mmio) ∨
      (r = .cmd ∧ o = (c.regs.set .cmd v).operation .dma) := by
  cases r with
  | dataAddr => exact (op_of_start h).imp_right (fun ho => .inl ⟨rfl,ho⟩)
  | cmd =>
    simp only [iowrite] at h
    split at h
    · exact (op_of_start h).imp_right (fun ho => .inr ⟨rfl,ho⟩)
    · exact .inl h
  | _ => exact .inl h

/-- A register write only looks at the registers and at the operation. -/
theorem iowrite_congr {c d : Card} (r : Reg) (v : Nat) (hr : c.regs = d.regs) (ho : c.op = d.op) :
    (c.iowrite r v).regs = (d.iowrite r v).regs ∧ (c.iowrite r v).op = (d.iowrite r v).op := by
  cases r with
  | dataAddr => cases hd : d.op <;> simp [iowrite,start,hr,ho,hd]
  | cmd =>
    simp only [iowrite]
    split
    · cases hd : d.op <;> simp [start,hr,ho,hd]
    · exact ⟨by rw [hr],ho⟩
  | _ => exact ⟨by simp [iowrite,hr],ho⟩

theorem iowrite_pending (c : Card) {r : Reg} (v : Nat) (hr : r ≠ .interruptAck) :
    (c.iowrite r v).pending = c.pending := by
  unfold iowrite
  cases r <;> simp only [start_pending,ne_eq,not_true_eq_false] at *
  split <;> simp

theorem busy_start {c : Card} {k : Kind} (k' : Kind) (h : c.busy k = true) :
    (c.start k').busy k = true := by
  obtain ⟨o,ho,hk⟩ := (busy_iff c k).mp h
  exact (busy_iff _ k).mpr ⟨o,by simp [start,ho],hk⟩

/-- No register write ends an operation. -/
theorem busy_iowrite {c : Card} {k : Kind} (r : Reg) (v : Nat) (h : c.busy k = true) :
    (c.iowrite r v).busy k = true := by
  cases r with
  | dataAddr => exact busy_start _ h
  | cmd =>
    simp only [iowrite]
    split
    · exact busy_start _ h
    · exact h
  | _ => exact h

/-- `interrupt_status` names a single completion, none or both. -/
theorem interruptStatus_cases (c : Card) :
    (c.interruptStatus = 0x001 ∨ c.interruptStatus = 0x100) ∨
    (c.interruptStatus = 0 ∧ ∀ k, c.pending k = false) ∨ ∀ k, c.pending k = true := by
  cases hm : c.pending .mmio <;> cases hd : c.pending .dma
  · exact .inr (.inl ⟨by simp [interruptStatus,hm,hd],fun k => by cases k <;> assumption⟩)
  · exact .inl (.inr (by simp [interruptStatus,hm,hd]))
  · exact .inl (.inl (by simp [interruptStatus,hm,hd]))
  · exact .inr (.inr (fun k => by cases k <;> assumption))

end Card

end CryptoCard
