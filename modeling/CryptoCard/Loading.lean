import CryptoCard.Kernel
set_option autoImplicit false

/-! Probe and remove against an account of what the kernel has given them. -/
namespace CryptoCard
open Memory Program Interleave Acquisitions

namespace Core

/-- `e` is acquired unless the call fails. -/
def Tries (κ : Core) (e : Nat × Resource) (failed : Bool) (κ' : Core) : Prop :=
  (failed = true ∧ κ' = κ) ∨ (failed = false ∧ κ' = κ.acquire e)

/-- An allocation fails or returns an address that was not in use. -/
def Allocates (κ : Core) (d : Nat) (r : Nat → Resource) (p : Option Nat) (κ' : Core) : Prop :=
  (p = none ∧ κ' = κ) ∨ ∃ q, p = some q ∧ ¬ κ.Holds (r q) ∧ κ' = κ.acquire (d,r q)

/-- What an action of probe, remove or a file operation does to the core. -/
def Next (κ : Core) : (a : KAct) → a.Res → Core → Prop
  | .enter dev, _, κ' => κ' = { κ with card := dev }
  | .kzallocSpace, r, κ' => κ.Allocates κ.card .space r κ'
  | .kzallocCdev, r, κ' => κ.Allocates κ.card .cdev r κ'
  | .pciIoremapBar dev, r, κ' => κ.Allocates dev .window r κ'
  | .kfreeSpace p, _, κ' => κ' = p.elim κ (fun p => κ.release (κ.acquired (.space p)))
  | .kfreeCdev p, _, κ' => κ' = p.elim κ (fun p => κ.release (κ.acquired (.cdev p)))
  | .iounmap w, _, κ' => κ' = w.elim κ (fun w => κ.release (κ.acquired (.window w)))
  | .pciEnableDevice dev, r, κ' => κ.Tries (dev,.enabled) r κ'
  | .pciDisableDevice dev, _, κ' => κ' = κ.release (dev,.enabled)
  | .pciRequestRegions dev, r, κ' => κ.Tries (dev,.regions) r κ'
  | .pciReleaseRegions dev, _, κ' => κ' = κ.release (dev,.regions)
  | .setStart p w, _, κ' => κ' = κ.setSpace p { κ.spaces p with start := w }
  | .setupConfigspace p size, _, κ' => κ' = κ.setSpace p { κ.spaces p with size := size }
  | .start p, r, κ' => κ' = κ ∧ ∃ s ∈ p, r = (κ.spaces s).start
  | .requestIrq dev, r, κ' => κ.Tries (dev,.irq) r κ'
  | .freeIrq dev, _, κ' => κ' = κ.release (dev,.irq)
  | .allocChrdevRegion, r, κ' => (r = true ∧ κ' = κ) ∨ (r = false ∧
      ∃ n, ¬ κ.Holds (.chrdev n) ∧ κ' = { κ.acquire (κ.card,.chrdev n) with devno := n })
  | .devno, r, κ' => κ' = κ ∧ r = κ.devno
  | .unregisterChrdevRegion n, _, κ' => κ' = κ.release (κ.acquired (.chrdev n))
  | .testGlobal x, r, κ' => κ' = κ ∧ r = (κ.mycryptodev x).isSome
  | .getGlobal x, r, κ' => κ' = κ ∧ r = κ.mycryptodev x
  | .setGlobal x p, _, κ' => κ' = κ.setGlobal x p
  | .initWaitqueueHead, _, κ' => κ' = { κ with log := .mark .initWaitqueueHead :: κ.log }
  | .cdevAdd p _, r, κ' => κ.Tries (κ.card,.added p) r κ'
  | .cdevDel p, _, κ' => ∃ q ∈ p, κ' = κ.release (κ.acquired (.added q))
  | .pciResourceLen _, _, κ' | .dmaSetMask _, _, κ' | .semaInit _, _, κ' => κ' = κ
  | .cdevInit _, _, κ' | .kzallocJob _, _, κ' | .pciResourceStart, _, κ' => κ' = κ
  | .ioRemapPfnRange, _, κ' | .file _ _, _, κ' => κ' = κ

end Core

section
variable {t : Nat} {x : Choice} {k k' : Kern}

theorem Kern.tryAcquire_done {e : Nat × Resource} {failed : Bool}
    (h : k.tryAcquire e x = some (.done failed k')) : k.Tries e failed k'.toCore := by
  unfold Kern.tryAcquire at h
  split at h
  · cases h
    exact .inr ⟨rfl,rfl⟩
  · cases h
    exact .inl ⟨rfl,rfl⟩
  · cases h

theorem Kern.allocate_done {d : Nat} {r : Nat → Resource} {p : Option Nat}
    (h : k.allocate d r x = some (.done p k')) : k.Allocates d r p k'.toCore := by
  unfold Kern.allocate at h
  split at h
  · split at h
    · cases h
    · rename_i q hq
      cases h
      exact .inr ⟨q,rfl,hq,rfl⟩
  · cases h
    exact .inl ⟨rfl,rfl⟩
  · cases h

/-- The file operations leave the core alone. -/
theorem Kern.file_core {space : Option Nat} {a : Act} {o : Out Kern a.Res}
    (h : k.file t space a x = some o) :
    (∃ w, o = .stay { k with drv := w }) ∨ (∃ r w, o = .done r { k with drv := w }) ∨
      ∃ w, o = .oops { k with drv := w } := by
  unfold Kern.file at h
  split at h
  · cases h
    exact .inr (.inr ⟨k.drv,rfl⟩)
  · split at h
    · cases h
      exact .inr (.inr ⟨k.drv,rfl⟩)
    · split at h
      · cases h
        exact .inr (.inl ⟨_,k.drv,rfl⟩)
      · obtain ⟨u,_,rfl⟩ := Option.map_eq_some_iff.mp h
        cases u with
        | stay w => exact .inl ⟨w,rfl⟩
        | done r w => exact .inr (.inl ⟨r,w,rfl⟩)
        | oops w => exact .inr (.inr ⟨w,rfl⟩)

theorem Kern.exec_done {a : KAct} {r : a.Res} (h : k.exec t a x = some (.done r k')) :
    k.toCore.Next a r k'.toCore := by
  cases a with
  | kzallocSpace => exact Kern.allocate_done h
  | kzallocCdev => exact Kern.allocate_done h
  | pciIoremapBar dev => exact Kern.allocate_done h
  | pciEnableDevice dev => exact Kern.tryAcquire_done h
  | pciRequestRegions dev => exact Kern.tryAcquire_done h
  | requestIrq dev => exact Kern.tryAcquire_done h
  | cdevAdd p n => exact Kern.tryAcquire_done h
  | kfreeSpace p => cases p <;> cases h <;> rfl
  | kfreeCdev p => cases p <;> cases h <;> rfl
  | iounmap w => cases w <;> cases h <;> rfl
  | cdevDel p =>
    cases p with
    | none => cases h
    | some q =>
      cases h
      exact ⟨q,rfl,rfl⟩
  | start p =>
    cases p with
    | none => cases h
    | some q =>
      simp only [Kern.exec] at h
      split at h <;> cases h
      exact ⟨rfl,q,rfl,rfl⟩
  | allocChrdevRegion =>
    simp only [Kern.exec] at h
    split at h
    · split at h
      · cases h
      · rename_i n hn
        cases h
        exact .inr ⟨rfl,n,hn,rfl⟩
    · cases h
      exact .inl ⟨rfl,rfl⟩
    · cases h
  | dmaSetMask dev =>
    simp only [Kern.exec] at h
    split at h <;> cases h <;> rfl
  | kzallocJob f =>
    simp only [Kern.exec] at h
    split at h <;> cases h <;> rfl
  | ioRemapPfnRange =>
    simp only [Kern.exec] at h
    split at h <;> cases h <;> rfl
  | pciResourceStart =>
    simp only [Kern.exec] at h
    split at h
    · cases h
      rfl
    · cases h
  | file space a =>
    rcases Kern.file_core h with ⟨w,ho⟩ | ⟨r',w,ho⟩ | ⟨w,ho⟩
    · cases ho
    · cases ho
      rfl
    · cases ho
  | devno => cases h; exact ⟨rfl,rfl⟩
  | testGlobal y => cases h; exact ⟨rfl,rfl⟩
  | getGlobal y => cases h; exact ⟨rfl,rfl⟩
  | _ => cases h; rfl

theorem Kern.tryAcquire_out {e : Nat × Resource} {o : Out Kern Bool}
    (h : k.tryAcquire e x = some o) :
    ∃ failed k', o = .done failed k' := by
  unfold Kern.tryAcquire at h
  split at h <;> cases h <;> exact ⟨_,_,rfl⟩

theorem Kern.allocate_out {d : Nat} {r : Nat → Resource} {o : Out Kern (Option Nat)}
    (h : k.allocate d r x = some o) : ∃ p k', o = .done p k' := by
  unfold Kern.allocate at h
  split at h
  · split at h <;> cases h
    exact ⟨_,_,rfl⟩
  · cases h
    exact ⟨_,_,rfl⟩
  · cases h

/-- An action finishes, crashes at once, or is one of the file operations. -/
theorem Kern.exec_out {a : KAct} {o : Out Kern a.Res} (h : k.exec t a x = some o) :
    (∃ r k', o = .done r k') ∨ o = .oops k ∨ ∃ p b w, a = .file p b ∧
      (o = .stay { k with drv := w } ∨ o = .oops { k with drv := w }) := by
  cases a with
  | file space a =>
    rcases Kern.file_core h with ⟨w,rfl⟩ | ⟨r,w,rfl⟩ | ⟨w,rfl⟩
    · exact .inr (.inr ⟨space,a,w,rfl,.inl rfl⟩)
    · exact .inl ⟨_,_,rfl⟩
    · exact .inr (.inr ⟨space,a,w,rfl,.inr rfl⟩)
  | kzallocSpace => exact .inl (Kern.allocate_out h)
  | kzallocCdev => exact .inl (Kern.allocate_out h)
  | pciIoremapBar dev => exact .inl (Kern.allocate_out h)
  | pciEnableDevice dev => exact .inl (Kern.tryAcquire_out h)
  | pciRequestRegions dev => exact .inl (Kern.tryAcquire_out h)
  | requestIrq dev => exact .inl (Kern.tryAcquire_out h)
  | cdevAdd p n => exact .inl (Kern.tryAcquire_out h)
  | start p =>
    cases p with
    | none => cases h; exact .inr (.inl rfl)
    | some q =>
      simp only [Kern.exec] at h
      split at h <;> cases h
      · exact .inl ⟨_,_,rfl⟩
      · exact .inr (.inl rfl)
  | cdevDel p =>
    cases p with
    | none => cases h; exact .inr (.inl rfl)
    | some q => cases h; exact .inl ⟨_,_,rfl⟩
  | pciResourceStart =>
    simp only [Kern.exec] at h
    split at h <;> cases h
    · exact .inl ⟨_,_,rfl⟩
    · exact .inr (.inl rfl)
  | kfreeSpace p => cases p <;> cases h <;> exact .inl ⟨_,_,rfl⟩
  | kfreeCdev p => cases p <;> cases h <;> exact .inl ⟨_,_,rfl⟩
  | iounmap w => cases w <;> cases h <;> exact .inl ⟨_,_,rfl⟩
  | allocChrdevRegion =>
    simp only [Kern.exec] at h
    split at h
    · split at h <;> cases h
      exact .inl ⟨_,_,rfl⟩
    · cases h
      exact .inl ⟨_,_,rfl⟩
    · cases h
  | dmaSetMask dev =>
    simp only [Kern.exec] at h
    split at h <;> cases h <;> exact .inl ⟨_,_,rfl⟩
  | kzallocJob f =>
    simp only [Kern.exec] at h
    split at h <;> cases h <;> exact .inl ⟨_,_,rfl⟩
  | ioRemapPfnRange =>
    simp only [Kern.exec] at h
    split at h <;> cases h <;> exact .inl ⟨_,_,rfl⟩
  | _ => cases h; exact .inl ⟨_,_,rfl⟩

/-- An action that does not finish changes nothing outside of the file operations. -/
theorem Kern.exec_open {a : KAct} {o : Out Kern a.Res} (h : k.exec t a x = some o)
    (ho : o = .stay k' ∨ o = .oops k') :
    k' = k ∨ ∃ p b w, a = .file p b ∧ k' = { k with drv := w } := by
  rcases Kern.exec_out h with ⟨r,k₁,rfl⟩ | rfl | ⟨p,b,w,ha,rfl | rfl⟩
  · rcases ho with ho | ho <;> cases ho
  · rcases ho with ho | ho <;> cases ho
    exact .inl rfl
  · rcases ho with ho | ho <;> cases ho
    exact .inr ⟨p,b,w,ha,rfl⟩
  · rcases ho with ho | ho <;> cases ho
    exact .inr ⟨p,b,w,ha,rfl⟩

theorem Kern.exec_open_core {a : KAct} {o : Out Kern a.Res} (h : k.exec t a x = some o)
    (ho : o = .stay k' ∨ o = .oops k') : k'.toCore = k.toCore := by
  rcases Kern.exec_open h ho with rfl | ⟨p,b,w,_,rfl⟩ <;> rfl

end

/-- Where an invocation of the interrupt handler stands: before the test of
configspace, before the load, with the pointer, or with a completion to report. -/
inductive Visit where
  | entered
  | tested
  | at (space : Option Nat)
  | saw (space : Option Nat)

/-- The driver reacts to these values of `interrupt_status`. -/
def completion (status : Nat) : Prop := status = 0x001 ∨ status = 0x100

instance (status : Nat) : Decidable (completion status) :=
  inferInstanceAs (Decidable (_ ∨ _))

def Visit.Ok : Visit → KAct → Prop
  | .entered, a => a = .testGlobal .configspace
  | .tested, a => a = .getGlobal .configspace
  | .at p, a => a = .file p (.ioread .interruptStatus) ∨ ∃ v, a = .file p (.iowrite .interruptAck v)
  | .saw p, a => a = .file p .wakeUp

def Visit.Next : Visit → (a : KAct) → a.Res → Visit → Prop
  | .entered, .testGlobal .configspace, r, v' => v' = if r then .tested else .entered
  | .tested, .getGlobal .configspace, r, v' => v' = .at r
  | .at p, .file _ (.ioread .interruptStatus), r, v' =>
      v' = if completion r then .saw p else .at p
  | .saw p, _, _, v' => v' = .at p
  | v, _, _, v' => v' = v

/-- Actions of the file operations and of the interrupt handler. -/
def KAct.visits : KAct → Bool
  | .testGlobal _ | .getGlobal _ | .kzallocJob _ => true
  | .pciResourceStart | .ioRemapPfnRange | .file _ _ => true
  | _ => false

/-- Actions of a probe on the registers of its card. -/
def Act.examines : Act → Bool
  | .ioread _ | .iowrite .live _ => true
  | _ => false

/-- What probe and remove owe while no other card is bound: nothing is taken from
under the interrupt handler. -/
def Core.Ok (κ : Core) : KAct → Prop
  | .requestIrq _ => κ.mycryptodev .configspace = none ∧ ¬ κ.Holds .irq
  | .setGlobal .configspace (some p) => κ.Maps (some p)
  | .iounmap _ | .kfreeSpace _ | .setStart _ _ => ¬ κ.Holds .irq
  | .file p a => κ.Maps p ∧ a.examines = true
  | _ => True

/-- What a probe owes while another card is bound: it keeps to itself. -/
def Core.OkBeside (κ : Core) : KAct → Prop
  | .setGlobal _ _ | .initWaitqueueHead | .semaInit _ | .kzallocJob _ => False
  | .setStart p _ | .setupConfigspace p _ => κ.mycryptodev .configspace ≠ some p
  | .kfreeSpace p => κ.mycryptodev .configspace ≠ p
  | .iounmap w => ∀ p ∈ κ.mycryptodev .configspace, (κ.spaces p).start ≠ w
  | .file p a => κ.Maps p ∧ a.examines = true
  | _ => True

/-- The resource that an action gives back, with its card. -/
def Core.gives (κ : Core) : KAct → Option (Nat × Resource)
  | .kfreeSpace p => p.map (fun p => κ.acquired (.space p))
  | .kfreeCdev p => p.map (fun p => κ.acquired (.cdev p))
  | .pciDisableDevice dev => some (dev,.enabled)
  | .pciReleaseRegions dev => some (dev,.regions)
  | .iounmap w => w.map (fun w => κ.acquired (.window w))
  | .freeIrq dev => some (dev,.irq)
  | .unregisterChrdevRegion n => some (κ.acquired (.chrdev n))
  | .cdevDel p => p.map (fun p => κ.acquired (.added p))
  | _ => none

/-- `e` is the last resource acquired among those held. -/
def Core.Top (κ : Core) (e : Nat × Resource) : Prop := ∃ T, held κ.log = e :: T

/-- What probe and remove owe: they give back the last resource acquired, for the card
that it was acquired for, and respect the interrupt handler or the other card. -/
def Core.Permits (free : Bool) (κ : Core) (a : KAct) : Prop :=
  (∀ e ∈ κ.gives a, κ.Top e) ∧ if free then κ.Ok a else κ.OkBeside a

/-- The answer puts a second card into service. -/
def KAct.Doubles : (a : KAct) → a.Res → Prop
  | .allocChrdevRegion, r => r = false
  | _, _ => False

/-- The account of a thread: of the core for probe and remove, with `free` when no
other card is bound, and of its own progress for the handler. -/
inductive Account where
  | loader (free : Bool) (κ : Core)
  | visitor
  | handler (v : Visit)

/-- What does not change of an account during a call: whose it is. -/
def Account.kind : Account → Option Bool × Bool
  | .loader free _ => (some free,false)
  | .visitor => (none,false)
  | .handler _ => (none,true)

@[reducible] def loading : Discipline KAct KAct.Res where
  Ghost := Account
  ok
    | .loader free κ, a => κ.Permits free a
    | .visitor, a => a.visits = true
    | .handler v, a => v.Ok a
  next
    | .loader free κ, a, r, γ' =>
      ∃ κ', κ.Next a r κ' ∧ (free = false → ¬ a.Doubles r) ∧ γ' = .loader free κ'
    | .visitor, _, _, γ' => γ' = .visitor
    | .handler v, a, r, γ' => ∃ v', v.Next a r v' ∧ γ' = .handler v'

section
variable {α β : Type} {free : Bool} {κ κ₀ κ' : Core} {Q : α → Account → Prop}

theorem loader_act {a : KAct} {k : a.Res → KCode α} (hg : ∀ e ∈ κ.gives a, κ.Top e)
    (hok : free = true → κ.Ok a) (hok' : free = false → κ.OkBeside a)
    (h : ∀ r κ', κ.Next a r κ' → (free = false → ¬ a.Doubles r) →
      wp loading (k r) Q (.loader free κ')) :
    wp loading (katom a >>= k) Q (.loader free κ) := by
  refine ⟨⟨hg,?_⟩,fun r _ ⟨κ',hn,hd,hγ⟩ => hγ ▸ h r κ' hn hd⟩
  cases free
  · exact hok' rfl
  · exact hok rfl

/-- One action of probe or remove that gives nothing back. -/
theorem loader_step {a : KAct} {k : a.Res → KCode α} (hok : free = true → κ.Ok a)
    (hok' : free = false → κ.OkBeside a)
    (h : ∀ r κ', κ.Next a r κ' → (free = false → ¬ a.Doubles r) →
      wp loading (k r) Q (.loader free κ'))
    (hg : κ.gives a = none := by rfl) :
    wp loading (katom a >>= k) Q (.loader free κ) :=
  loader_act (by rw [hg]; exact fun e he => nomatch he) hok hok' h

/-- One action whose effect does not depend on the answer. -/
theorem loader_do {a : KAct} {k : a.Res → KCode α} (hok : free = true → κ.Ok a)
    (hok' : free = false → κ.OkBeside a) (hn : ∀ r κ'', κ.Next a r κ'' → κ'' = κ')
    (h : ∀ r, wp loading (k r) Q (.loader free κ')) (hg : κ.gives a = none := by rfl) :
    wp loading (katom a >>= k) Q (.loader free κ) :=
  loader_step hok hok' (fun r κ'' hr _ => hn r κ'' hr ▸ h r) hg

/-- One action that any probe or remove may perform. -/
theorem loader_free {a : KAct} {k : a.Res → KCode α} (hok : κ.Ok a) (hok' : κ.OkBeside a)
    (hn : ∀ r κ'', κ.Next a r κ'' → κ'' = κ') (h : ∀ r, wp loading (k r) Q (.loader free κ'))
    (hg : κ.gives a = none := by rfl) :
    wp loading (katom a >>= k) Q (.loader free κ) :=
  loader_do (fun _ => hok) (fun _ => hok') hn h hg

/-- An action that gives something back does nothing else. -/
theorem Core.next_gives {a : KAct} {e : Nat × Resource} {r : a.Res} (hg : κ.gives a = some e)
    (h : κ.Next a r κ') : κ' = κ.release e := by
  cases a with
  | kfreeSpace p | kfreeCdev p | iounmap p =>
    cases p with
    | none => cases hg
    | some p =>
      cases hg
      exact h
  | cdevDel p =>
    obtain ⟨q,rfl,rfl⟩ := h
    cases hg
    rfl
  | pciDisableDevice dev | pciReleaseRegions dev | freeIrq dev | unregisterChrdevRegion n =>
    cases hg
    exact h
  | _ => cases hg

@[simp] theorem Core.acquired_snd (κ : Core) (r : Resource) : (κ.acquired r).2 = r := by
  unfold Core.acquired
  cases h : (held κ.log).find? (fun e => e.2 = r) with
  | none => rfl
  | some e => simpa using List.find?_some h

/-- The release of the last resource acquired. -/
theorem loader_give {a : KAct} {e : Nat × Resource} {k : a.Res → KCode α} (htop : κ.Top e)
    (hg : κ.gives a = some e) (hok : free = true → κ.Ok a) (hok' : free = false → κ.OkBeside a)
    (h : ∀ r, wp loading (k r) Q (.loader free (κ.release e))) :
    wp loading (katom a >>= k) Q (.loader free κ) := by
  refine loader_act (fun e' he' => ?_) hok hok' (fun r κ'' hr _ => Core.next_gives hg hr ▸ h r)
  rw [hg] at he'
  cases he'
  exact htop

/-- What was acquired last is found by its address or number. -/
theorem Core.acquired_top {d : Nat} {r : Resource} {T : List (Nat × Resource)}
    (h : held κ.log = (d,r) :: T) : κ.acquired r = (d,r) := by
  simp [Core.acquired,h]

theorem Core.Top.release_lifo {e : Nat × Resource} (hl : Lifo κ.log) (h : κ.Top e) :
    Lifo (κ.release e).log := by
  obtain ⟨T,h⟩ := h
  exact hl.pop h

theorem Core.Tries.lifo {e : Nat × Resource} {failed : Bool} (hl : Lifo κ.log)
    (h : κ.Tries e failed κ') : Lifo κ'.log := by
  rcases h with ⟨_,rfl⟩ | ⟨_,rfl⟩ <;> exact hl

theorem Core.Allocates.lifo {d : Nat} {r : Nat → Resource} {p : Option Nat} (hl : Lifo κ.log)
    (h : κ.Allocates d r p κ') : Lifo κ'.log := by
  rcases h with ⟨_,rfl⟩ | ⟨_,_,_,rfl⟩ <;> exact hl

/-- Releases that are in order keep the log so. -/
theorem Core.next_lifo {a : KAct} {r : a.Res} (hl : Lifo κ.log)
    (hg : ∀ e ∈ κ.gives a, κ.Top e) (h : κ.Next a r κ') : Lifo κ'.log := by
  cases a with
  | kzallocSpace => exact Core.Allocates.lifo hl h
  | kzallocCdev => exact Core.Allocates.lifo hl h
  | pciIoremapBar dev => exact Core.Allocates.lifo hl h
  | pciEnableDevice dev => exact Core.Tries.lifo hl h
  | pciRequestRegions dev => exact Core.Tries.lifo hl h
  | requestIrq dev => exact Core.Tries.lifo hl h
  | cdevAdd p n => exact Core.Tries.lifo hl h
  | allocChrdevRegion => rcases h with ⟨_,rfl⟩ | ⟨_,_,_,rfl⟩ <;> exact hl
  | pciDisableDevice dev => cases h; exact (hg _ rfl).release_lifo hl
  | pciReleaseRegions dev => cases h; exact (hg _ rfl).release_lifo hl
  | freeIrq dev => cases h; exact (hg _ rfl).release_lifo hl
  | unregisterChrdevRegion n => cases h; exact (hg _ rfl).release_lifo hl
  | cdevDel p =>
    obtain ⟨q,rfl,rfl⟩ := h
    exact (hg _ rfl).release_lifo hl
  | kfreeSpace p =>
    cases h
    cases p with
    | none => exact hl
    | some q => exact (hg _ rfl).release_lifo hl
  | kfreeCdev p =>
    cases h
    cases p with
    | none => exact hl
    | some q => exact (hg _ rfl).release_lifo hl
  | iounmap w =>
    cases h
    cases w with
    | none => exact hl
    | some w => exact (hg _ rfl).release_lifo hl
  | start p => obtain ⟨rfl,_⟩ := h; exact hl
  | devno => obtain ⟨rfl,_⟩ := h; exact hl
  | testGlobal x => obtain ⟨rfl,_⟩ := h; exact hl
  | getGlobal x => obtain ⟨rfl,_⟩ := h; exact hl
  | _ => cases h; exact hl

/-- What a probe starts from: nothing when no other card is bound, and otherwise a
card in service. -/
structure Ground (free : Bool) (κ₀ : Core) : Prop where
  lifo : Lifo κ₀.log
  empty : free = true → held κ₀.log = [] ∧ ∀ x, κ₀.mycryptodev x = none
  bound : free = false → κ₀.Maps (κ₀.mycryptodev .configspace)

/-- A probe that has acquired `L` so far, its configspace at `s`, and has not touched
what other cards use. -/
structure Probing (free : Bool) (κ₀ : Core) (s : Nat) (L : List Resource) (κ : Core) : Prop where
  ground : Ground free κ₀
  lifo : Lifo κ.log
  stack : held κ.log = L.map (fun r => (κ₀.card,r)) ++ held κ₀.log
  card : κ.card = κ₀.card
  globals : κ.mycryptodev = κ₀.mycryptodev
  spaces : ∀ q, q ≠ s → κ.spaces q = κ₀.spaces q
  devno : free = false → κ.devno = κ₀.devno
  aside : free = false → κ₀.mycryptodev .configspace ≠ some s

namespace Probing

variable {s : Nat} {L : List Resource} {r : Resource}

theorem push {d : Nat} (h : Probing free κ₀ s L κ) (r : Resource) (hd : d = κ₀.card := by rfl) :
    Probing free κ₀ s (r :: L) (κ.acquire (d,r)) where
  ground := h.ground
  lifo := h.lifo
  stack := by simp [Core.acquire,h.stack,hd]
  card := h.card
  globals := h.globals
  spaces := h.spaces
  devno := h.devno
  aside := h.aside

theorem pop (h : Probing free κ₀ s (r :: L) κ) :
    Probing free κ₀ s L (κ.release (κ₀.card,r)) where
  ground := h.ground
  lifo := h.lifo.pop h.stack
  stack := held_pop h.stack
  card := h.card
  globals := h.globals
  spaces := h.spaces
  devno := h.devno
  aside := h.aside

theorem setSpace (h : Probing free κ₀ s L κ) (m : ConfigMem) :
    Probing free κ₀ s L (κ.setSpace s m) where
  ground := h.ground
  lifo := h.lifo
  stack := h.stack
  card := h.card
  globals := h.globals
  spaces q hq := by simp [Core.setSpace,hq,h.spaces q hq]
  devno := h.devno
  aside := h.aside

theorem top (h : Probing free κ₀ s (r :: L) κ) : κ.Top (κ₀.card,r) := ⟨_,h.stack⟩

theorem acquired (h : Probing free κ₀ s (r :: L) κ) : κ.acquired r = (κ₀.card,r) :=
  Core.acquired_top h.stack

theorem holds (h : Probing free κ₀ s L κ) (hr : r ∈ L) : κ.Holds r := by
  simp [Core.Holds,h.stack,hr]

/-- With nothing beneath, what has not been acquired is not held. -/
theorem not_holds (h : Probing true κ₀ s L κ) (hr : r ∉ L) : ¬ κ.Holds r := by
  simp [Core.Holds,h.stack,(h.ground.empty rfl).1,hr]

end Probing

/-- The card is mapped at `w` for this probe only. -/
structure Windowed (free : Bool) (κ₀ : Core) (s w : Nat) (L : List Resource) (κ : Core) : Prop
    extends Probing free κ₀ s L κ where
  start : (κ.spaces s).start = some w
  other : free = false → ∀ q ∈ κ₀.mycryptodev .configspace, (κ₀.spaces q).start ≠ some w

theorem Windowed.push {d s w : Nat} {L : List Resource} (h : Windowed free κ₀ s w L κ)
    (r : Resource) (hd : d = κ₀.card := by rfl) :
    Windowed free κ₀ s w (r :: L) (κ.acquire (d,r)) :=
  ⟨h.toProbing.push r hd,h.start,h.other⟩

theorem Windowed.pop {s w : Nat} {L : List Resource} {r : Resource}
    (h : Windowed free κ₀ s w (r :: L) κ) :
    Windowed free κ₀ s w L (κ.release (κ₀.card,r)) :=
  ⟨h.toProbing.pop,h.start,h.other⟩

theorem Windowed.maps {s w : Nat} {L : List Resource} (h : Windowed free κ₀ s w L κ)
    (hs : .space s ∈ L) (hw : .window w ∈ L) : κ.Maps (some s) :=
  ⟨s,rfl,h.holds hs,w,h.start,h.holds hw⟩

/-- A probe that failed leaves things as they were. -/
structure Restored (free : Bool) (κ₀ κ : Core) : Prop where
  lifo : Lifo κ.log
  stack : held κ.log = held κ₀.log
  globals : κ.mycryptodev = κ₀.mycryptodev
  spaces : ∀ q ∈ κ₀.mycryptodev .configspace, κ.spaces q = κ₀.spaces q
  devno : free = false → κ.devno = κ₀.devno

theorem Probing.restored {s : Nat} (h : Probing free κ₀ s [] κ) : Restored free κ₀ κ where
  lifo := h.lifo
  stack := h.stack
  globals := h.globals
  spaces q hq := by
    cases free
    · exact h.spaces q (fun hqs => h.aside rfl (hqs ▸ hq))
    · rw [(h.ground.empty rfl).2] at hq
      cases hq
  devno := h.devno

/-- The eight resources that a probe acquires, last one first. -/
def fullSet (s c w n : Nat) : List Resource :=
  [.added c,.chrdev n,.irq,.window w,.regions,.enabled,.cdev c,.space s]

/-- Card `d` is in service with all eight resources. -/
structure Bound (d s c w n : Nat) (κ : Core) : Prop where
  lifo : Lifo κ.log
  stack : held κ.log = (fullSet s c w n).map (fun r => (d,r))
  cdev : κ.mycryptodev .cdev = some c
  configspace : κ.mycryptodev .configspace = some s
  pdev : κ.mycryptodev .pdev = some d
  devno : κ.devno = n
  start : (κ.spaces s).start = some w

/-- No card is in service and nothing is held. -/
structure Unbound (κ : Core) : Prop where
  lifo : Lifo κ.log
  stack : held κ.log = []
  globals : ∀ x, κ.mycryptodev x = none

/-- What a probe that began with `κ₀` has done when it returns `r`. -/
def Probed (free : Bool) (κ₀ : Core) (r : Int) (γ : Account) : Prop :=
  ∃ κ, γ = .loader free κ ∧
    (((r = -eNODEV ∨ r = -eNOMEM) ∧ Restored free κ₀ κ) ∨
      (r = 0 ∧ free = true ∧ ∃ s c w n, Bound κ₀.card s c w n κ))

section
variable {dev s c w n : Nat} {L : List Resource}

theorem outErr_spec (h : Probing free κ₀ s [.cdev c,.space s] κ) :
    wp loading (outErr s c) (Probed free κ₀) (.loader free κ) := by
  refine loader_give h.top (congrArg some h.acquired) (fun _ => trivial) (fun _ => trivial)
    (fun _ => ?_)
  refine loader_give h.pop.top (congrArg some h.pop.acquired) (fun hf => ?_) (fun hf => ?_)
    (fun _ => ?_)
  · subst hf
    exact h.pop.not_holds (by simp)
  · exact fun hs => h.aside hf (h.globals ▸ hs)
  · exact ⟨_,rfl,.inl ⟨.inl rfl,h.pop.pop.restored⟩⟩

theorem outDisable_spec (h : Probing free κ₀ s [.enabled,.cdev c,.space s] κ) :
    wp loading (outDisable κ₀.card s c) (Probed free κ₀) (.loader free κ) :=
  loader_give h.top rfl (fun _ => trivial) (fun _ => trivial) (fun _ => outErr_spec h.pop)

theorem outUnrequest_spec (h : Probing free κ₀ s [.regions,.enabled,.cdev c,.space s] κ) :
    wp loading (outUnrequest κ₀.card s c) (Probed free κ₀) (.loader free κ) :=
  loader_give h.top rfl (fun _ => trivial) (fun _ => trivial) (fun _ => outDisable_spec h.pop)

theorem outIounmap_spec
    (h : Windowed free κ₀ s w [.window w,.regions,.enabled,.cdev c,.space s] κ) :
    wp loading (outIounmap κ₀.card s c) (Probed free κ₀) (.loader free κ) := by
  refine loader_step (fun _ => trivial) (fun _ => trivial) (fun r κ' hn _ => ?_)
  obtain ⟨rfl,q,hq,rfl⟩ := hn
  cases hq
  rw [h.start]
  refine loader_give h.top (congrArg some h.acquired) (fun hf => ?_) (fun hf q hq => ?_)
    (fun _ => outUnrequest_spec h.pop.toProbing)
  · subst hf
    exact h.not_holds (by simp)
  · rw [h.globals] at hq
    rw [h.spaces q (fun hqs => h.aside hf (hqs ▸ hq))]
    exact h.other hf q hq

theorem outIrqfree_spec
    (h : Windowed free κ₀ s w [.irq,.window w,.regions,.enabled,.cdev c,.space s] κ) :
    wp loading (outIrqfree κ₀.card s c) (Probed free κ₀) (.loader free κ) :=
  loader_give h.top rfl (fun _ => trivial) (fun _ => trivial) (fun _ => outIounmap_spec h.pop)

/-- The core without the pointers that have been published. -/
def Core.unpublished (κ₀ κ : Core) : Core := { κ with mycryptodev := κ₀.mycryptodev }

theorem outChrdevUnregRegion_spec
    (h : Windowed true κ₀ s w [.chrdev n,.irq,.window w,.regions,.enabled,.cdev c,.space s]
      (.unpublished κ₀ κ)) (hn : κ.devno = n) :
    wp loading (outChrdevUnregRegion κ₀.card s c) (Probed true κ₀) (.loader true κ) := by
  refine loader_do (fun _ => trivial) (fun hf => nomatch hf) (fun _ _ h => h) (fun _ => ?_)
  refine loader_do (fun _ => trivial) (fun hf => nomatch hf) (fun _ _ h => h) (fun _ => ?_)
  refine loader_do (fun _ => trivial) (fun hf => nomatch hf) (fun _ _ h => h) (fun _ => ?_)
  have hnone : ((κ.setGlobal .cdev none).setGlobal .configspace none).setGlobal .pdev none =
      .unpublished κ₀ κ := by
    simp only [Core.setGlobal,Core.unpublished]
    congr 1
    funext x
    rw [(h.ground.empty rfl).2 x]
    cases x <;> rfl
  rw [hnone]
  refine loader_step (fun _ => trivial) (fun hf => nomatch hf) (fun r κ' hr _ => ?_)
  obtain ⟨rfl,rfl⟩ := hr
  have hdevno : (Core.unpublished κ₀ κ).devno = n := hn
  rw [hdevno]
  exact loader_give h.top (congrArg some h.acquired) (fun _ => trivial) (fun _ => trivial)
    (fun _ => outIrqfree_spec h.pop)

theorem Windowed.mark {L : List Resource} (h : Windowed free κ₀ s w L κ) (m : Mark) :
    Windowed free κ₀ s w L { κ with log := .mark m :: κ.log } where
  ground := h.ground
  lifo := h.lifo
  stack := h.stack
  card := h.card
  globals := h.globals
  spaces := h.spaces
  devno := h.devno
  aside := h.aside
  start := h.start
  other := h.other

theorem probePublish_spec
    (h : Windowed true κ₀ s w [.chrdev n,.irq,.window w,.regions,.enabled,.cdev c,.space s] κ)
    (hn : κ.devno = n) :
    wp loading (probePublish κ₀.card s c) (Probed true κ₀) (.loader true κ) := by
  refine loader_do (fun _ => trivial) (fun hf => nomatch hf) (fun _ _ h => h) (fun _ => ?_)
  refine loader_do (fun _ => h.maps (by simp) (by simp)) (fun hf => nomatch hf)
    (fun _ _ h => h) (fun _ => ?_)
  refine loader_do (fun _ => trivial) (fun hf => nomatch hf) (fun _ _ h => h) (fun _ => ?_)
  refine loader_do (fun _ => trivial) (fun hf => nomatch hf) (fun _ _ h => h) (fun _ => ?_)
  refine loader_do (fun _ => trivial) (fun hf => nomatch hf) (fun _ _ h => h) (fun _ => ?_)
  refine loader_do (fun _ => trivial) (fun hf => nomatch hf) (fun _ _ h => h) (fun _ => ?_)
  refine loader_step (fun _ => trivial) (fun hf => nomatch hf) (fun r κ' hr _ => ?_)
  obtain ⟨rfl,rfl⟩ := hr
  have hhidden : Core.unpublished κ₀ κ = κ := by
    rw [Core.unpublished,← h.globals]
  have hm := h.mark .initWaitqueueHead
  refine loader_step (fun _ => trivial) (fun hf => nomatch hf) (fun r κ' hr _ => ?_)
  rcases hr with ⟨rfl,rfl⟩ | ⟨rfl,rfl⟩
  · rw [← hhidden] at hm
    exact outChrdevUnregRegion_spec (w := w) (n := n) hm hn
  · have hs := hm.push (.added c) hm.card
    refine ⟨_,rfl,.inr ⟨rfl,rfl,s,c,w,n,?_⟩⟩
    refine ⟨hs.lifo,?_,rfl,rfl,rfl,hn,hs.start⟩
    have hstack := hs.stack
    rw [(h.ground.empty rfl).1,List.append_nil] at hstack
    exact hstack

theorem probeLive_spec
    (h : Windowed free κ₀ s w [.window w,.regions,.enabled,.cdev c,.space s] κ) :
    wp loading (probeLive κ₀.card s c) (Probed free κ₀) (.loader free κ) := by
  refine loader_free trivial trivial (fun _ _ h => h) (fun _ => ?_)
  refine loader_step (fun hf => ?_) (fun _ => trivial) (fun r κ' hr _ => ?_)
  · subst hf
    refine ⟨?_,h.not_holds (by simp)⟩
    rw [h.globals]
    exact (h.ground.empty rfl).2 _
  · rcases hr with ⟨rfl,rfl⟩ | ⟨rfl,rfl⟩
    · exact outIounmap_spec h
    · refine loader_step (fun _ => trivial) (fun _ => trivial) (fun r κ' hr hd => ?_)
      rcases hr with ⟨rfl,rfl⟩ | ⟨rfl,n,_,rfl⟩
      · exact outIrqfree_spec (h.push .irq)
      · cases free with
        | false => exact absurd rfl (hd rfl)
        | true =>
          have hc := (h.push .irq).push (.chrdev n) h.card
          refine probePublish_spec (w := w) (n := n) ?_ rfl
          exact ⟨⟨hc.ground,hc.lifo,hc.stack,hc.card,hc.globals,hc.spaces,
            (fun hf => nomatch hf),(fun hf => nomatch hf)⟩,hc.start,(fun hf => nomatch hf)⟩

theorem probeMapped_spec
    (h : Windowed free κ₀ s w [.window w,.regions,.enabled,.cdev c,.space s] κ) :
    wp loading (probeMapped κ₀.card s c) (Probed free κ₀) (.loader free κ) := by
  refine loader_free trivial trivial (fun _ _ h => h) (fun size => ?_)
  refine loader_do (fun _ => trivial) (fun hf hs => h.aside hf (h.globals ▸ hs)) (fun _ _ h => h)
    (fun _ => ?_)
  have h : Windowed free κ₀ s w [.window w,.regions,.enabled,.cdev c,.space s]
      (κ.setSpace s { κ.spaces s with size := size }) :=
    ⟨h.setSpace _,by simp [Core.setSpace,h.start],h.other⟩
  have hmaps := h.maps (by simp) (by simp)
  refine loader_free ⟨hmaps,rfl⟩ ⟨hmaps,rfl⟩ (fun _ _ h => h) (fun id => ?_)
  refine (wp_ite _ _ _ _).mpr ⟨fun _ => outIounmap_spec h,fun _ => ?_⟩
  refine loader_free ⟨hmaps,rfl⟩ ⟨hmaps,rfl⟩ (fun _ _ h => h) (fun _ => ?_)
  refine loader_free ⟨hmaps,rfl⟩ ⟨hmaps,rfl⟩ (fun _ _ h => h) (fun v => ?_)
  exact (wp_ite _ _ _ _).mpr ⟨fun _ => outIounmap_spec h,fun _ => probeLive_spec h⟩

theorem probeEnable_spec (h : Probing free κ₀ s [.cdev c,.space s] κ) :
    wp loading (probeEnable κ₀.card s c) (Probed free κ₀) (.loader free κ) := by
  refine loader_step (fun _ => trivial) (fun _ => trivial) (fun r κ' hr _ => ?_)
  rcases hr with ⟨rfl,rfl⟩ | ⟨rfl,rfl⟩
  · exact outErr_spec h
  refine loader_step (fun _ => trivial) (fun _ => trivial) (fun r κ' hr _ => ?_)
  have he := h.push .enabled
  rcases hr with ⟨rfl,rfl⟩ | ⟨rfl,rfl⟩
  · exact outDisable_spec he
  have hr := he.push .regions
  generalize (κ.acquire (κ₀.card,.enabled)).acquire (κ₀.card,.regions) = κ₁ at hr ⊢
  refine loader_step (fun _ => trivial) (fun _ => trivial) (fun p κ' hp _ => ?_)
  have hstart {κ : Core} {L : List Resource} (h : Probing free κ₀ s L κ) (hirq : .irq ∉ L) :
      (free = true → κ.Ok (.setStart s p)) ∧ (free = false → κ.OkBeside (.setStart s p)) := by
    refine ⟨fun hf => ?_,fun hf hs => h.aside hf (h.globals ▸ hs)⟩
    subst hf
    exact h.not_holds hirq
  rcases hp with ⟨rfl,rfl⟩ | ⟨w,rfl,hw,rfl⟩
  · have hok := hstart hr (by simp)
    exact loader_do hok.1 hok.2 (fun _ _ h => h) (fun _ => outUnrequest_spec (hr.setSpace _))
  · have hok := hstart (hr.push (.window w)) (by simp)
    refine loader_do hok.1 hok.2 (fun _ _ h => h) (fun _ => ?_)
    refine probeMapped_spec (w := w) ⟨(hr.push _).setSpace _,by simp [Core.setSpace],?_⟩
    -- what another card uses is mapped elsewhere
    intro hf q hq hqw
    obtain ⟨q',hq',_,w',hw',hheld⟩ := h.ground.bound hf
    cases Option.mem_unique hq hq'
    cases Option.mem_unique hqw hw'
    refine hw ?_
    unfold Core.Holds at hheld ⊢
    rw [hr.stack,List.map_append]
    exact List.mem_append_right _ hheld

theorem cryptocardProbe_spec (h : Ground free κ₀) :
    wp loading (cryptocardProbe κ₀.card) (Probed free κ₀) (.loader free κ₀) := by
  refine loader_step (fun _ => trivial) (fun _ => trivial) (fun p κ' hp _ => ?_)
  have hrest : Restored free κ₀ κ₀ := ⟨h.lifo,rfl,rfl,fun _ _ => rfl,fun _ => rfl⟩
  rcases hp with ⟨rfl,rfl⟩ | ⟨s,rfl,hs,rfl⟩
  · exact ⟨κ',rfl,.inl ⟨.inr rfl,hrest⟩⟩
  have hbase : Probing free κ₀ s [] κ₀ := by
    refine ⟨h,h.lifo,rfl,rfl,rfl,fun _ _ => rfl,fun _ => rfl,fun hf hq => ?_⟩
    obtain ⟨q,hq',hheld,_⟩ := h.bound hf
    cases Option.mem_unique hq hq'
    exact hs hheld
  have hspace := hbase.push (.space s)
  refine loader_step (fun _ => trivial) (fun _ => trivial) (fun p κ' hp _ => ?_)
  rcases hp with ⟨rfl,rfl⟩ | ⟨c,rfl,_,rfl⟩
  · refine loader_give hspace.top (congrArg some hspace.acquired) (fun hf => ?_)
      (fun hf hq => hspace.aside hf (hspace.globals ▸ hq))
      (fun _ => ⟨_,rfl,.inl ⟨.inr rfl,hspace.pop.restored⟩⟩)
    subst hf
    exact hspace.not_holds (by simp)
  · exact probeEnable_spec (hspace.push (.cdev c))

/-- Since `κ₀` everything held has been released but `rest`. -/
structure Leaving (κ₀ : Core) (rest : List (Nat × Resource)) (κ : Core) : Prop where
  begun : Lifo κ₀.log
  log : ∃ rs, Acquisitions.held κ₀.log = rs ++ rest ∧ κ.log = releasing rs κ₀.log
  globals : κ.mycryptodev = κ₀.mycryptodev
  spaces : κ.spaces = κ₀.spaces
  devno : κ.devno = κ₀.devno

theorem Leaving.stack {rest : List (Nat × Resource)} (h : Leaving κ₀ rest κ) :
    Lifo κ.log ∧ held κ.log = rest := by
  obtain ⟨rs,hrs,hlog⟩ := h.log
  rw [hlog]
  exact h.begun.releasing hrs

theorem Leaving.pop {e : Nat × Resource} {rest : List (Nat × Resource)}
    (h : Leaving κ₀ (e :: rest) κ) : Leaving κ₀ rest (κ.release e) where
  begun := h.begun
  log := by
    obtain ⟨rs,hrs,hlog⟩ := h.log
    refine ⟨rs ++ [e],by simp [hrs],?_⟩
    simp only [Core.release,hlog,releasing,List.foldl_append,List.foldl_cons,List.foldl_nil]
  globals := h.globals
  spaces := h.spaces
  devno := h.devno

theorem Leaving.top {e : Nat × Resource} {rest : List (Nat × Resource)}
    (h : Leaving κ₀ (e :: rest) κ) : κ.Top e := ⟨_,h.stack.2⟩

theorem Leaving.acquired {d : Nat} {r : Resource} {rest : List (Nat × Resource)}
    (h : Leaving κ₀ ((d,r) :: rest) κ) : κ.acquired r = (d,r) := Core.acquired_top h.stack.2

theorem Leaving.not_holds {r : Resource} {rest : List (Nat × Resource)}
    (h : Leaving κ₀ rest κ) (hr : r ∉ rest.map Prod.snd) : ¬ κ.Holds r := by
  unfold Core.Holds
  rw [h.stack.2]
  exact hr

/-- What a remove that began with `κ₀` has done when it returns `r`. -/
def Removed (κ₀ : Core) (r : Int) (γ : Account) : Prop :=
  ∃ κ, γ = .loader true κ ∧ r = 0 ∧ Unbound κ ∧ κ.log = releasing (held κ₀.log) κ₀.log

theorem removeFree_spec {d : Nat} (hb : Bound d s c w n κ₀)
    (h : Leaving κ₀ [(d,.cdev c),(d,.space s)] κ) :
    wp loading (do
      let cdev ← katom (.getGlobal .cdev)
      katom (.kfreeCdev cdev)
      let space ← katom (.getGlobal .configspace)
      katom (.kfreeSpace space)
      katom (.setGlobal .configspace none)
      katom (.setGlobal .cdev none)
      katom (.setGlobal .pdev none)
      return 0) (Removed κ₀) (.loader true κ) := by
  refine loader_step (fun _ => trivial) (fun hf => nomatch hf) (fun r κ' hr _ => ?_)
  obtain ⟨rfl,rfl⟩ := hr
  rw [h.globals,hb.cdev]
  refine loader_give h.top (congrArg some h.acquired) (fun _ => trivial) (fun hf => nomatch hf)
    (fun _ => ?_)
  refine loader_step (fun _ => trivial) (fun hf => nomatch hf) (fun r κ'' hr _ => ?_)
  obtain ⟨rfl,rfl⟩ := hr
  have hlast := h.pop
  rw [hlast.globals,hb.configspace]
  refine loader_give hlast.top (congrArg some hlast.acquired)
    (fun _ => hlast.not_holds (by simp)) (fun hf => nomatch hf) (fun _ => ?_)
  refine loader_do (fun _ => trivial) (fun hf => nomatch hf) (fun _ _ hn => hn) (fun _ => ?_)
  refine loader_do (fun _ => trivial) (fun hf => nomatch hf) (fun _ _ hn => hn) (fun _ => ?_)
  refine loader_do (fun _ => trivial) (fun hf => nomatch hf) (fun _ _ hn => hn) (fun _ => ?_)
  have hend := hlast.pop
  refine ⟨_,rfl,rfl,⟨hend.stack.1,hend.stack.2,fun x => ?_⟩,?_⟩
  · cases x <;> rfl
  · obtain ⟨rs,hrs,hlog⟩ := hend.log
    rw [hrs,List.append_nil]
    exact hlog

theorem cryptocardRemove_spec (hb : Bound dev s c w n κ) :
    wp loading (cryptocardRemove dev) (Removed κ) (.loader true κ) := by
  have h₀ : Leaving κ (held κ.log) κ := ⟨hb.lifo,⟨[],rfl,rfl⟩,rfl,rfl,rfl⟩
  rw [hb.stack] at h₀
  refine loader_step (fun _ => trivial) (fun hf => nomatch hf) (fun r κ' hr _ => ?_)
  obtain ⟨rfl,rfl⟩ := hr
  rw [hb.cdev]
  refine loader_give h₀.top (congrArg some h₀.acquired) (fun _ => trivial)
    (fun hf => nomatch hf) (fun _ => ?_)
  have h₁ := h₀.pop
  refine loader_step (fun _ => trivial) (fun hf => nomatch hf) (fun r κ'' hr _ => ?_)
  obtain ⟨rfl,rfl⟩ := hr
  rw [h₁.devno,hb.devno]
  refine loader_give h₁.top (congrArg some h₁.acquired) (fun _ => trivial)
    (fun hf => nomatch hf) (fun _ => ?_)
  refine loader_give h₁.pop.top rfl (fun _ => trivial) (fun hf => nomatch hf) (fun _ => ?_)
  have h₃ := h₁.pop.pop
  refine loader_step (fun _ => trivial) (fun hf => nomatch hf) (fun r κ'' hr _ => ?_)
  obtain ⟨rfl,rfl⟩ := hr
  rw [h₃.globals,hb.configspace]
  refine loader_step (fun _ => trivial) (fun hf => nomatch hf) (fun r κ'' hr _ => ?_)
  obtain ⟨rfl,q,hq,rfl⟩ := hr
  cases Option.mem_some_iff.mp hq
  rw [h₃.spaces,hb.start]
  refine loader_give h₃.top (congrArg some h₃.acquired) (fun _ => h₃.not_holds (by simp))
    (fun hf => nomatch hf) (fun _ => ?_)
  refine loader_give h₃.pop.top rfl (fun _ => trivial) (fun hf => nomatch hf) (fun _ => ?_)
  refine loader_give h₃.pop.pop.top rfl (fun _ => trivial) (fun hf => nomatch hf) (fun _ => ?_)
  exact removeFree_spec hb h₃.pop.pop.pop

end

end

theorem attach_act (space : Option Nat) {α : Type} {a : Act} (k : a.Res → Code α)
    (ha : a ≠ .configspace) :
    attach space (.act a k) = .act (.file space a) (fun r => attach space (k r)) := by
  cases a <;> first | rfl | exact absurd rfl ha

/-- Driver code only visits the kernel. -/
theorem attach_visits {α : Type} (p : Code α) (space : Option Nat) :
    Always (fun a => a.visits = true) (attach space p) := by
  induction p generalizing space with
  | ret v => trivial
  | act a k ih =>
    by_cases ha : a = .configspace
    · subst ha
      refine ⟨rfl,fun r => ?_⟩
      cases r with
      | true => exact ⟨rfl,fun space => ih true space⟩
      | false => exact ih false space
    · rw [attach_act space k ha]
      exact ⟨rfl,fun r => ih r space⟩

theorem mmapFile_visits (vmas : Vma Unit) :
    Always (fun a => a.visits = true) (mmapFile vmas) := by
  refine ⟨rfl,fun r => ?_⟩
  cases r with
  | true => exact ⟨rfl,fun b => ⟨rfl,fun failed => trivial⟩⟩
  | false => trivial

theorem openFile_visits (f : Nat) : Always (fun a => a.visits = true) (openFile f) := by
  refine ⟨rfl,fun r => ?_⟩
  cases r <;> trivial

theorem visitor_wp {p : KCode Int} (h : Always (fun a => a.visits = true) p) :
    wp loading p (fun _ _ => True) .visitor :=
  h.wp (fun _ ha => ha) (fun _ _ _ _ hγ => hγ)

/-- The handler tests configspace, loads it and uses what it has loaded. -/
theorem pciIrqHandle_visit (ours : Bool) :
    wp loading (attach none (pciIrqHandle ours)) (fun _ _ => True) (.handler .entered) := by
  cases ours with
  | false => trivial
  | true =>
    refine ⟨rfl,fun r γ hγ => ?_⟩
    obtain ⟨v,rfl,rfl⟩ := hγ
    cases r with
    | false => trivial
    | true =>
      refine ⟨rfl,fun space γ hγ => ?_⟩
      obtain ⟨v,rfl,rfl⟩ := hγ
      refine ⟨.inl rfl,fun status γ hγ => ?_⟩
      obtain ⟨v,rfl,rfl⟩ := hγ
      have hack (ret : Int) : wp loading
          (attach space (do iowrite status .interruptAck; return ret))
          (fun _ _ => True) (.handler (.at space)) :=
        ⟨.inr ⟨status,rfl⟩,fun _ _ _ => trivial⟩
      have hwake (h : completion status) : wp loading
          (attach space (do atom .wakeUp; iowrite status .interruptAck; return irqHANDLED))
          (fun _ _ => True) (.handler (if completion status then .saw space else .at space)) := by
        rw [if_pos h]
        refine ⟨rfl,fun _ γ hγ => ?_⟩
        obtain ⟨v,rfl,rfl⟩ := hγ
        exact hack irqHANDLED
      by_cases h₁ : status = 0x001
      · subst h₁
        exact hwake (.inl rfl)
      · by_cases h₂ : status = 0x100
        · subst h₂
          exact hwake (.inr rfl)
        · rw [if_neg (fun hc => hc.elim h₁ h₂)]
          show wp loading (attach space (if status = 0x001 then _ else _)) _ _
          rw [if_neg h₁,if_neg h₂]
          exact hack (-eINVAL)

end CryptoCard
