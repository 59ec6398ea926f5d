import CryptoCard.Driver
set_option autoImplicit false

/-! `crypter.c`, and the calls that threads make: library calls, bare system
calls, interrupts and plain stores. -/
namespace CryptoCard
open Program Interleave

def BUFFERSIZE : Nat := 32768

theorem BUFFERSIZE_pos : 0 < BUFFERSIZE := Nat.succ_pos _

/-- The most that write(2) hands down to a driver. -/
def MAX_RW_COUNT : Nat := 0x7ffff000

def ERROR : Int := -1
def SET : Byte := 1
def UNSET : Byte := 0

/-- `config_t`. -/
def configINTERRUPT : Nat := 0
def configDMA : Nat := 1

def sysWrite (f ptr len : Nat) : Code Int := pciWrite f ptr (min len MAX_RW_COUNT)

/-- The four bytes of a `uint32_t` in memory. -/
def bytes32 (v : Nat) : List Byte :=
  [UInt8.ofNat v,UInt8.ofNat (v / 2^8),UInt8.ofNat (v / 2^16),UInt8.ofNat (v / 2^24)]

/-- The chunk loop of encrypt and decrypt: `fuel` bounds the number of chunks. -/
def cryptLoop (cdev : Nat) : Nat → Nat → Nat → Code Int
  | 0, _, length => return length
  | fuel+1, addr, length => do
    let count := if length > BUFFERSIZE then BUFFERSIZE else length
    let rest := if length > BUFFERSIZE then length-BUFFERSIZE else 0
    let r ← sysWrite cdev addr count
    if r ≠ 0 then return ERROR
    else if rest > 0 then cryptLoop cdev fuel (addr+count) rest
    else return rest

/-- The common body of encrypt and decrypt; `value` names the direction. -/
def crypt (value : Byte) (cdev addr length : Nat) (isMapped : Byte) : Code Int := do
  let r ← pciUnlockedIoctl cdev SET_ENCRYP [value]
  if r ≠ 0 then return ERROR
  else
    let r ← pciUnlockedIoctl cdev SET_MMAP [if isMapped ≠ 0 then 70 else 80]
    if r ≠ 0 then return ERROR
    else cryptLoop cdev (length / BUFFERSIZE + 1) addr length

def encrypt (cdev addr length : Nat) (isMapped : Byte) : Code Int :=
  crypt 50 cdev addr length isMapped

def decrypt (cdev addr length : Nat) (isMapped : Byte) : Code Int :=
  crypt 60 cdev addr length isMapped

/-- The `uint32_t` that set_key packs its components into. -/
def packKey (a b : Byte) : Nat := (a.toNat <<< 8) % 2^32 ||| b.toNat

def setKey (cdev : Nat) (a b : Byte) : Code Int := do
  let r ← pciUnlockedIoctl cdev SET_KEY (bytes32 (packKey a b))
  if r ≠ 0 then return ERROR else return 0

theorem packKey_eq (a b : Byte) : packKey a b = 256*a.toNat+b.toNat := by
  have ha := a.toNat_lt
  have hb := b.toNat_lt
  rw [packKey,Nat.shiftLeft_eq,Nat.mod_eq_of_lt (by omega),← Nat.shiftLeft_eq,
    ← Nat.shiftLeft_add_eq_or_of_lt (by omega),Nat.shiftLeft_eq]
  omega

theorem le32_bytes32 {v : Nat} (h : v < 2^32) : le32 (bytes32 v) = v := by
  simp only [le32,bytes32,List.getElem?_cons_zero,List.getElem?_cons_succ,Option.getD_some,
    UInt8.toNat_ofNat']
  omega

/-- The job's key after set_key. -/
theorem le32_packKey (a b : Byte) : le32 (bytes32 (packKey a b)) = 256*a.toNat+b.toNat := by
  have ha := a.toNat_lt
  have hb := b.toNat_lt
  rw [le32_bytes32 (by rw [packKey_eq]; omega),packKey_eq]

/-- The byte that set_config sends for its arguments. -/
def configByte (type : Nat) (value : Byte) : Byte :=
  if type = configDMA ∧ value = SET then 40
  else if type = configDMA ∧ value = UNSET then 30
  else if type = configINTERRUPT ∧ value = SET then 10
  else 20

theorem configByte_cases (type : Nat) (value : Byte) :
    configByte type value = 40 ∨ configByte type value = 30 ∨ configByte type value = 10 ∨
      configByte type value = 20 := by
  unfold configByte
  split <;> [skip; split <;> [skip; split]] <;> simp

def setConfig (cdev type : Nat) (value : Byte) : Code Int := do
  let r ← pciUnlockedIoctl cdev SET_CONFIG [configByte type value]
  if r ≠ 0 then return ERROR else return 0

/-- `store` and `mapStore` are a client's own stores to its memory and to the
mapped BAR, `irq` is an invocation of the interrupt handler. -/
inductive Call where
  | write (f ptr len : Nat)
  | ioctl (f cmd : Nat) (arg : List Byte)
  | setKey (cdev : Nat) (a b : Byte)
  | setConfig (cdev type : Nat) (value : Byte)
  | encrypt (cdev addr length : Nat) (isMapped : Byte)
  | decrypt (cdev addr length : Nat) (isMapped : Byte)
  | irq (dev : Bool)
  | store (addr : Nat) (xs : List Byte)
  | mapStore (off : Nat) (xs : List Byte)
  deriving DecidableEq, Repr

def Call.code : Call → Code Int
  | .write f ptr len => sysWrite f ptr len
  | .ioctl f cmd arg => pciUnlockedIoctl f cmd arg
  | .setKey cdev a b => CryptoCard.setKey cdev a b
  | .setConfig cdev type value => CryptoCard.setConfig cdev type value
  | .encrypt cdev addr length isMapped => CryptoCard.encrypt cdev addr length isMapped
  | .decrypt cdev addr length isMapped => CryptoCard.decrypt cdev addr length isMapped
  | .irq dev => pciIrqHandle dev
  | .store addr xs => do atom (.userStore addr xs); return 0
  | .mapStore off xs => do atom (.mapStore off xs); return 0

abbrev System := Sys Act Act.Res World Call Int

abbrev Step := Label Call World.Env Choice

/-- Threads, interrupts and the card over one world. -/
def machine (c : Cipher) : Machine Act Act.Res World Call World.Env Choice Int where
  exec := World.exec
  env := World.env c
  code := Call.code

/-- Nobody is in a call yet. -/
def start (w : World) : System := ⟨w,fun _ => .idle,fun _ => []⟩

theorem start_quiet (w : World) (n : Nat) : (start w).Quiet n := fun _ _ => rfl

theorem cryptLoop_succ (cdev fuel addr length : Nat) :
    cryptLoop cdev (fuel+1) addr length = (do
      let count := if length > BUFFERSIZE then BUFFERSIZE else length
      let rest := if length > BUFFERSIZE then length-BUFFERSIZE else 0
      let r ← sysWrite cdev addr count
      if r ≠ 0 then return ERROR
      else if rest > 0 then cryptLoop cdev fuel (addr+count) rest
      else return rest) := rfl

theorem div_BUFFERSIZE {length : Nat} (h : length > BUFFERSIZE) :
    length / BUFFERSIZE = (length-BUFFERSIZE) / BUFFERSIZE + 1 := by
  unfold BUFFERSIZE at *
  omega

/-- The do-while loop of the source. -/
theorem cryptLoop_eq (cdev addr length : Nat) :
    cryptLoop cdev (length / BUFFERSIZE + 1) addr length = (do
      let count := if length > BUFFERSIZE then BUFFERSIZE else length
      let rest := if length > BUFFERSIZE then length-BUFFERSIZE else 0
      let r ← sysWrite cdev addr count
      if r ≠ 0 then return ERROR
      else if rest > 0 then cryptLoop cdev (rest / BUFFERSIZE + 1) (addr+count) rest
      else return rest) := by
  rw [cryptLoop_succ]
  by_cases hl : length > BUFFERSIZE
  · have hd := div_BUFFERSIZE hl
    simp only [if_pos hl,hd]
  · simp only [if_neg hl,Nat.lt_irrefl,gt_iff_lt,if_false]

theorem sysWrite_eq (f ptr len : Nat) (h : len ≤ MAX_RW_COUNT) :
    sysWrite f ptr len = pciWrite f ptr len := by
  rw [sysWrite,Nat.min_eq_left h]

/-- encrypt and decrypt are made of ioctls and writes. -/
theorem crypt_always {ok : Act → Prop} (hw : ∀ f ptr len, Always ok (sysWrite f ptr len))
    (hi : ∀ f cmd arg, Always ok (pciUnlockedIoctl f cmd arg)) (value : Byte)
    (cdev addr length : Nat) (isMapped : Byte) :
    Always ok (crypt value cdev addr length isMapped) := by
  have loop (fuel : Nat) : ∀ addr length, Always ok (cryptLoop cdev fuel addr length) := by
    induction fuel with
    | zero => exact fun _ _ => trivial
    | succ fuel ih =>
      intro addr length
      rw [cryptLoop_succ]
      refine (hw _ _ _).bind (fun r => ?_)
      simp only [always_ite,always_pure,implies_true,true_and]
      exact fun _ => ⟨fun _ => ih _ _,trivial⟩
  refine (hi _ _ _).bind (fun r => ?_)
  simp only [always_ite,always_pure,implies_true,true_and]
  refine fun _ => (hi _ _ _).bind (fun r => ?_)
  simp only [always_ite,always_pure,implies_true,true_and]
  exact fun _ => loop _ _ _

end CryptoCard
