import CryptoCard.Solo
set_option autoImplicit false

/-! System calls one at a time: what a write and an ioctl leave behind when no other call
is in progress, whatever fails, and whatever the card and its interrupts do meanwhile. -/
namespace CryptoCard
open Memory Program Interleave

/-- The flag that a one-byte ioctl argument names, and its value. -/
def settingOf (cmd : Nat) (b : Byte) : Option (Flag × Bool) :=
  if cmd = SET_CONFIG then
    if b = DMA then some (.isM,false)
    else if b = MMIO then some (.isM,true)
    else if b = INTERRUPT then some (.isI,true)
    else if b = NOINTERRUPT then some (.isI,false)
    else none
  else if cmd = SET_ENCRYP then
    if b = ENCRYPT then some (.isE,true) else if b = DECRYPT then some (.isE,false) else none
  else if cmd = SET_MMAP then
    if b = MMAP then some (.isNotMM,false) else if b = UNMMAP then some (.isNotMM,true) else none
  else none

/-- What is answered to a setting, and what it makes of the job. -/
def Job.put (j : Job) : Option (Flag × Bool) → Int × Job
  | none => (-eINVAL,j)
  | some (x,v) => (0,j.setFlag x v)

/-- What an ioctl answers and what it makes of the job. -/
def Job.ioctl (j : Job) (cmd : Nat) (arg : List Byte) : Int × Job :=
  if cmd = SET_KEY then
    (if 4-arg.length ≠ 0 then -eAGAIN else 0,{ j with keyab := le32 arg })
  else if cmd = SET_CONFIG ∨ cmd = SET_ENCRYP ∨ cmd = SET_MMAP then
    match ioctlByte arg with
    | none => (-eAGAIN,j)
    | some b => j.put (settingOf cmd b)
  else (-eINVAL,j)

/-- What is answered to a setting. -/
def applySetting (f : Nat) : Option (Flag × Bool) → Code Int
  | none => return -eINVAL
  | some (x,v) => do
    setFlag f x v
    return 0

/-- One test of the argument after the other. -/
theorem applySetting_ite {f : Nat} {b v : Byte} {x : Flag} {val : Bool}
    {o : Option (Flag × Bool)} {rest : Code Int} (h : rest = applySetting f o) :
    (if b = v then (do setFlag f x val; return 0) else rest) =
      applySetting f (if b = v then some (x,val) else o) := by
  by_cases hb : b = v
  · rw [if_pos hb,if_pos hb]
    rfl
  · rw [if_neg hb,if_neg hb,h]

/-- What an ioctl comes to, command by command. -/
theorem pciUnlockedIoctl_eq (f cmd : Nat) (arg : List Byte) : pciUnlockedIoctl f cmd arg = (do
    if !(← atom (.privateData f)) then return -eNOMEM
    else if cmd = SET_KEY then
      let r ← atom (.copyKey f arg)
      if r ≠ 0 then return -eAGAIN else return 0
    else if cmd = SET_CONFIG ∨ cmd = SET_ENCRYP ∨ cmd = SET_MMAP then
      match ioctlByte arg with
      | none => return -eAGAIN
      | some b => applySetting f (settingOf cmd b)
    else return -eINVAL) := by
  unfold pciUnlockedIoctl
  congr 1
  funext b
  congr 2
  by_cases hc : cmd = SET_CONFIG
  · rw [if_pos hc,if_pos (.inl hc)]
    cases ioctlByte arg with
    | none => rfl
    | some b =>
      simp only [settingOf,if_pos hc]
      exact applySetting_ite (applySetting_ite (applySetting_ite (applySetting_ite rfl)))
  · rw [if_neg hc]
    by_cases he : cmd = SET_ENCRYP
    · rw [if_pos he,if_pos (.inr (.inl he))]
      cases ioctlByte arg with
      | none => rfl
      | some b =>
        simp only [settingOf,if_neg hc,if_pos he]
        exact applySetting_ite (applySetting_ite rfl)
    · rw [if_neg he]
      by_cases hm : cmd = SET_MMAP
      · rw [if_pos hm,if_pos (.inr (.inr hm))]
        cases ioctlByte arg with
        | none => rfl
        | some b =>
          simp only [settingOf,if_neg hc,if_neg he,if_pos hm]
          exact applySetting_ite (applySetting_ite rfl)
      · rw [if_neg hm,if_neg (by simp [hc,he,hm])]

/-- What a job in its present mode does to a byte string. -/
def World.crypted (c : Cipher) (w : World) (f : Nat) (xs : List Byte) : List Byte :=
  c.run (!(w.jobs f).isE) (w.jobs f).keyab xs

/-- A write of `n` bytes from `ptr` that began in `w` has returned `r` in `w'`: it has
replaced a prefix of the user's bytes, all of them on success, or for a mapped job the
bytes in the window; of a mapped job that was cut short the card still finishes them. -/
structure Attempt (c : Cipher) (Al : World → (a : Act) → a.Res → Prop) (f ptr n : Nat)
    (w : World) (r : Int) (w' : World) : Prop where
  modes : ∀ g, (w'.jobs g).mode = (w.jobs g).mode
  user : ∃ m, w'.umem = store w.umem ptr ((w.crypted c f (load w.umem ptr n)).take m) ∧
    ((w.jobs f).isNotMM = true → r = 0 → n ≤ m) ∧ ((w.jobs f).isNotMM = false → m = 0)
  kept : r ≠ 0 → r ≠ -eAGAIN → w'.umem = w.umem
  window : (w.jobs f).isNotMM = false → (r ≠ 0 ∧ w'.card.settled c = w.card.mem) ∨
    (w'.card.settled c = store w.card.mem r1Start (w.crypted c f (load w.card.mem r1Start n)) ∧
      (r = 0 ∨ ∃ w₁, (w₁.jobs f).isNotMM = false ∧ Al w₁ (.waitEvent .mmio) true))
  idle : r = 0 → w'.card.op = none

section
variable {c : Cipher} {f : Nat} {w w' : World}

theorem Card.settled_idle {B : Card} (h : B.op = none) : B.settled c = B.mem := by
  simp [Card.settled,h]

theorem Card.settled_congr {B B' : Card} (hm : B.mem = B'.mem) (ho : B.op = B'.op) :
    B.settled c = B'.settled c := by
  unfold Card.settled
  rw [ho]
  cases B'.op with
  | none => exact hm
  | some o =>
    unfold Card.finish
    dsimp only
    rw [hm]
    cases o.kind <;> rfl

theorem World.transform_mem (c : Cipher) (w : World) (o : Op) :
    (w.transform c o).card.mem = (w.card.finish c o).mem := by
  unfold World.transform Card.finish
  cases o.kind with
  | mmio => rfl
  | dma => cases w.dmaTarget o.addr o.len <;> rfl

theorem World.complete_busy {c : Cipher} {w : World} {o : Op} (h : w.card.op = some o) :
    w.complete c = { w.transform c o with
      card := { (w.transform c o).card with op := none } } := by
  simp [World.complete,h]

theorem World.complete_jobs (c : Cipher) (w : World) : (w.complete c).jobs = w.jobs := by
  cases ho : w.card.op with
  | none => rw [World.complete_idle ho]
  | some o =>
    rw [World.complete_busy ho]
    exact World.transform_jobs c w o

theorem World.complete_umem (c : Cipher) (w : World) : (w.complete c).umem = w.umem := by
  cases ho : w.card.op with
  | none => rw [World.complete_idle ho]
  | some o =>
    rw [World.complete_busy ho]
    exact World.transform_umem c w o

theorem World.complete_mem (c : Cipher) (w : World) :
    (w.complete c).card.mem = w.card.settled c := by
  cases ho : w.card.op with
  | none => rw [World.complete_idle ho,Card.settled_idle ho]
  | some o =>
    rw [World.complete_busy ho]
    simp only [Card.settled,ho]
    exact World.transform_mem c w o

theorem World.settled_complete (c : Cipher) (w : World) :
    (w.complete c).card.settled c = w.card.settled c := by
  rw [Card.settled_idle (World.complete_op c w),World.complete_mem]

namespace Settles

variable (h : Settles c w w')
include h

theorem settled : w'.card.settled c = w.card.settled c := by
  obtain ⟨_,_,_,rfl⟩ | ⟨_,_,_,rfl⟩ := h
  · exact Card.settled_congr rfl rfl
  · rw [← World.settled_complete c w]
    exact Card.settled_congr rfl rfl

theorem jobs : w'.jobs = w.jobs := by
  obtain ⟨_,_,_,rfl⟩ | ⟨_,_,_,rfl⟩ := h
  · rfl
  · exact World.complete_jobs c w

theorem umem : w'.umem = w.umem := by
  obtain ⟨_,_,_,rfl⟩ | ⟨_,_,_,rfl⟩ := h
  · rfl
  · exact World.complete_umem c w

theorem op (hop : w.card.op = none) : w'.card.op = none := by
  obtain ⟨_,_,_,rfl⟩ := h.idle hop
  exact hop

end Settles

end

section
variable {c : Cipher} {Al : World → (a : Act) → a.Res → Prop} {K : Terms c} {t f ptr n : Nat}
variable {r err : Int}
variable {w₀ w w' : World} {I : World → Prop} {xs : List Byte}

theorem attempt_lasting : Lasting c f (Attempt c Al f ptr n w₀ r) where
  settles h hw := by
    refine ⟨?_,?_,?_,?_,fun hr => hw.op (h.idle hr)⟩
    · rw [hw.jobs]
      exact h.modes
    · rw [hw.umem]
      exact h.user
    · rw [hw.umem]
      exact h.kept
    · rw [hw.settled]
      exact h.window
  release p h := by cases p <;> exact ⟨h.modes,h.user,h.kept,h.window,h.idle⟩
  setMsg p h := by
    refine ⟨fun g => ?_,h.user,h.kept,h.window,h.idle⟩
    by_cases hg : g = f
    · subst hg
      simpa [World.setJob,Job.mode] using h.modes g
    · simpa [World.setJob,hg] using h.modes g
  up _ h := ⟨h.modes,h.user,h.kept,h.window,h.idle⟩

theorem attempt_refused (hop : w.card.op = none) (hr : r ≠ 0) : Attempt c Al f ptr n w r w where
  modes _ := rfl
  user := ⟨0,by simp,fun _ h0 => absurd h0 hr,fun _ => rfl⟩
  kept _ _ := rfl
  window _ := .inl ⟨hr,Card.settled_idle hop⟩
  idle h0 := absurd h0 hr

/-- A step of the code that keeps what lasts. -/
theorem Sure.lasts {β : Type} {Q : β → World → Prop} {a : Act} {k : a.Res → Code β}
    (hI : Lasting c f I) (hG : ∀ {w}, I w → K.Good w) (h : I w) (hbuf : a.buffer = none)
    (hstep : ∀ x w₁ r w₂, I w₁ → World.exec t a x w₁ = some (.done r w₂) → I w₂)
    (hk : ∀ r w', I w' → Sure K t Q (k r) w') : Sure K t Q (atom a >>= k) w := by
  refine .act (fun p n hb => ?_) (fun x w₁ r w₂ hw _ he => ?_)
  · rw [hbuf] at hb
    cases hb
  · have h₂ := hstep x w₁ r w₂ (hI.settles h hw) he
    exact ⟨hG h₂,hk r w₂ h₂⟩

theorem releaseMsg_sure (hI : Lasting c f I) (hG : ∀ {w}, I w → K.Good w) (h : I w) :
    Sure K t (fun _ w' => I w') (releaseMsg f) w := by
  have hset (w' : World) (h' : I w') :
      Sure K t (fun _ w' => I w') (atom (.setMsg f none)) w' := by
    refine .lasts hI hG h' rfl (fun x w₁ r w₂ h₁ he => ?_) (fun r w' h' => .ret ?_)
    · cases he
      exact hI.setMsg none h₁
    · exact fun w'' hw => hI.settles h' hw
  refine .lasts hI hG h rfl (fun x w₁ r w₂ h₁ he => ?_) (fun b w₁ h₁ => ?_)
  · cases he
    exact h₁
  · cases b with
    | false => exact hset w₁ h₁
    | true =>
      refine .lasts hI hG h₁ rfl (fun x w₁ r w₂ h₁ he => ?_) (fun p w₂ h₂ => ?_)
      · cases he
        exact h₁
      · refine .lasts hI hG h₂ rfl (fun x w₁ r w₂ h₁ he => ?_) (fun _ w₃ h₃ => hset w₃ h₃)
        cases he
        exact hI.release p h₁

theorem outFree_sure (hI : Lasting c f I) (hG : ∀ {w}, I w → K.Good w) (h : I w) :
    Sure K t (fun r w' => r = err ∧ I w') (outFree f err) w :=
  .bind ((releaseMsg_sure hI hG h).mono (fun _ _ h' =>
    .ret (fun _ hw => ⟨rfl,hI.settles h' hw⟩)))

theorem outUp_sure (hI : Lasting c f I) (hG : ∀ {w}, I w → K.Good w) (h : I w) :
    Sure K t (fun r w' => r = err ∧ I w') (outUp f err) w := by
  refine .lasts hI hG h rfl (fun x w₁ r w₂ h₁ he => ?_) (fun _ w₁ h₁ => outFree_sure hI hG h₁)
  cases he
  exact hI.up t h₁

theorem writeDone_sure (hI : Lasting c f I) (hG : ∀ {w}, I w → K.Good w) (h : I w) :
    Sure K t (fun r w' => r = 0 ∧ I w') (writeDone f) w := by
  refine .lasts hI hG h rfl (fun x w₁ r w₂ h₁ he => ?_) (fun _ w₁ h₁ => ?_)
  · cases he
    exact hI.up t h₁
  · exact .bind ((releaseMsg_sure hI hG h₁).mono (fun _ _ h' =>
      .ret (fun _ hw => ⟨rfl,hI.settles h' hw⟩)))

theorem Lasting.and {J : World → Prop} (hI : Lasting c f I) (hJ : Lasting c f J) :
    Lasting c f (fun w => I w ∧ J w) where
  settles h hw := ⟨hI.settles h.1 hw,hJ.settles h.2 hw⟩
  release p h := ⟨hI.release p h.1,hJ.release p h.2⟩
  setMsg p h := ⟨hI.setMsg p h.1,hJ.setMsg p h.2⟩
  up t h := ⟨hI.up t h.1,hJ.up t h.2⟩

/-- The ways out of a write, once its result is decided. -/
theorem outFree_attempt (h : Attempt c K.Allows f ptr n w₀ err w) (hg : K.Good w) :
    Sure K t (Attempt c K.Allows f ptr n w₀) (outFree f err) w :=
  (outFree_sure (attempt_lasting.and (K.lasts f)) And.right ⟨h,hg⟩).mono
    (fun _ _ h' => h'.1 ▸ h'.2.1)

theorem outUp_attempt (h : Attempt c K.Allows f ptr n w₀ err w) (hg : K.Good w) :
    Sure K t (Attempt c K.Allows f ptr n w₀) (outUp f err) w :=
  (outUp_sure (attempt_lasting.and (K.lasts f)) And.right ⟨h,hg⟩).mono
    (fun _ _ h' => h'.1 ▸ h'.2.1)

theorem writeDone_attempt (h : Attempt c K.Allows f ptr n w₀ 0 w) (hg : K.Good w) :
    Sure K t (Attempt c K.Allows f ptr n w₀) (writeDone f) w :=
  (writeDone_sure (attempt_lasting.and (K.lasts f)) And.right ⟨h,hg⟩).mono
    (fun _ _ h' => h'.1 ▸ h'.2.1)

/-- What a write of `n` bytes that begins in `w` may start the card on is good. -/
structure Starts (K : Terms c) (f n : Nat) (w : World) : Prop where
  mmio : (w.jobs f).isM = true → ∀ w' o, w'.card.op = some o → o.kind = .mmio → K.Good w'
  dma : (w.jobs f).isM = false → ∀ w' o, w'.card.op = some o → o.kind = .dma → o.len = n →
    (w'.maps o.addr).buf = some w.nbuf → (w'.heap w.nbuf).data.length = n → K.Good w'

theorem starts_of : Starts (Terms.of c Al) f n w := ⟨fun _ _ _ _ _ => trivial,
  fun _ _ _ _ _ _ _ _ => trivial⟩

/-- In the middle of a write that began in `w₀` and whose buffer holds `xs`. -/
structure Underway (f n : Nat) (xs : List Byte) (w₀ w : World) : Prop where
  op : w.card.op = none
  modes : ∀ g, (w.jobs g).mode = (w₀.jobs g).mode
  umem : w.umem = w₀.umem
  len : (w.jobs f).len = n
  size : xs.length = n
  buf : (w₀.jobs f).isNotMM = true →
    w.usable (w.jobs f).msg n = some w₀.nbuf ∧ (w.heap w₀.nbuf).data = xs

theorem Underway.crypted (h : Underway f n xs w₀ w) (ys : List Byte) :
    w.crypted c f ys = w₀.crypted c f ys := by
  obtain ⟨hE,_,_,_,hk⟩ := View.mode_eq (h.modes f)
  rw [World.crypted,World.crypted,hE,hk]

theorem Underway.isNotMM (h : Underway f n xs w₀ w) :
    (w.jobs f).isNotMM = (w₀.jobs f).isNotMM := (View.mode_eq (h.modes f)).2.2.2.1

theorem World.usable_congr {p : Option Nat} (h : w'.heap = w.heap) :
    w'.usable p n = w.usable p n := by
  unfold World.usable
  rw [h]

theorem Underway.same (h : Underway f n xs w₀ w) (hop : w'.card.op = none)
    (hj : w'.jobs = w.jobs) (hu : w'.umem = w.umem) (hh : w'.heap = w.heap) :
    Underway f n xs w₀ w' := by
  refine ⟨hop,?_,hu.trans h.umem,?_,h.size,fun hN => ?_⟩
  · rw [hj]
    exact h.modes
  · rw [hj]
    exact h.len
  · rw [World.usable_congr hh,hj,hh]
    exact h.buf hN

theorem Underway.fill {ys : List Byte} (h : Underway f n xs w₀ w)
    (hN : (w₀.jobs f).isNotMM = true) (hys : ys.length = n) :
    Underway f n ys w₀ (w.fill w₀.nbuf ys) := by
  obtain ⟨hb,hxs⟩ := h.buf hN
  refine ⟨h.op,h.modes,h.umem,h.len,hys,fun _ => ⟨?_,?_⟩⟩
  · rw [World.usable_fill (by rw [hys]; exact World.le_of_usable hb)]
    exact hb
  · simp [World.fill,World.setBuf,hxs,h.size,hys]

/-- A way out before the card was started. -/
theorem Underway.fails (h : Underway f n xs w₀ w)
    (hm : (w₀.jobs f).isNotMM = false → w.card.mem = w₀.card.mem) (hr : r ≠ 0) :
    Attempt c Al f ptr n w₀ r w where
  modes := h.modes
  user := ⟨0,by simp [h.umem],fun _ h0 => absurd h0 hr,fun _ => rfl⟩
  kept _ _ := h.umem
  window hmap := .inl ⟨hr,(Card.settled_idle h.op).trans (hm hmap)⟩
  idle h0 := absurd h0 hr

/-- The copy to the user of a buffer that has been transformed. -/
theorem copyBack_sure (h : Underway f n (w₀.crypted c f (load w₀.umem ptr n)) w₀ w)
    (hN : (w₀.jobs f).isNotMM = true) :
    Sure K t (Attempt c K.Allows f ptr n w₀) (copyBack f ptr) w := by
  obtain ⟨hb,hxs⟩ := h.buf hN
  refine .msg h.op (.len h.op ?_)
  rw [h.len]
  refine .copyToUser h.op hb (fun r m hm hr => ?_)
  have hend (r' : Int) (hr' : r' = 0 ∧ m = n ∨ r' = -eAGAIN) :
      Attempt c K.Allows f ptr n w₀ r' (w.setUmem ptr ((w.heap w₀.nbuf).data.take m)) := by
    refine ⟨h.modes,⟨m,?_,fun _ h0 => ?_,fun hmap => ?_⟩,fun h0 h1 => ?_,fun hmap => ?_,
      fun _ => h.op⟩
    · rw [← hxs,← h.umem]
      rfl
    · rcases hr' with ⟨_,hmn⟩ | rfl
      · exact Nat.le_of_eq hmn.symm
      · cases h0
    · rw [hN] at hmap
      cases hmap
    · exact absurd hr' (by simp [h0,h1])
    · rw [hN] at hmap
      cases hmap
  split
  · exact outUp_attempt (hend (-eAGAIN) (.inr rfl)) (K.idle h.op)
  · rename_i h0
    exact writeDone_attempt (hend 0 (.inl ⟨rfl,hr (not_not.mp h0)⟩)) (K.idle h.op)

/-- The card has been started on the window. -/
structure Launched (c : Cipher) (f n : Nat) (w w' : World) : Prop where
  jobs : w'.jobs = w.jobs
  umem : w'.umem = w.umem
  heap : w'.heap = w.heap
  settled : w'.card.settled c =
    store w.card.mem r1Start (w.crypted c f (load w.card.mem r1Start n))

theorem mmioStart_sure {β : Type} {Q : β → World → Prop} {k : Unit → Code β} {mode : Nat}
    (hop : w.card.op = none) (hkeys : w.card.regs.keys = (w.jobs f).keyab)
    (hlen : w.card.regs.lenMsg = n) (h0 : (mode ||| 0x00).testBit 1 = false)
    (h2 : (mode ||| 0x02).testBit 1 = true)
    (hg : ∀ w' o, w'.card.op = some o → o.kind = .mmio → K.Good w')
    (hk : ∀ w' o, w'.card.op = some o → o.kind = .mmio → Launched c f n w w' →
      (w'.complete c).heap = w.heap → Sure K t Q (k ()) w') :
    Sure K t Q (mmioStart f mode >>= k) w := by
  have hrun (s : Nat) (hs : s.testBit 1 = !(w.jobs f).isE) :
      Sure K t (fun x w' => Sure K t Q (k x) w')
        (do iowrite s .status; iowrite r1Start .dataAddr) w := by
    let o : Op := ⟨.mmio,w.card.regs.keys,s.testBit 1,r1Start,w.card.regs.lenMsg,s.testBit 7⟩
    let w₁ : World := { w with card := (w.card.iowrite .status s).iowrite .dataAddr r1Start }
    have ho : w₁.card.op = some o := by
      simp [w₁,Card.iowrite,Card.start,hop,Regs.set,Regs.operation,o]
    have hmem : w₁.card.mem = w.card.mem := by
      show ((w.card.iowrite .status s).iowrite .dataAddr r1Start).mem = w.card.mem
      rw [Card.iowrite_mem,Card.iowrite_mem]
    have hl : Launched c f n w w₁ := by
      refine ⟨rfl,rfl,rfl,?_⟩
      simp only [Card.settled,ho,Card.finish,hmem,o]
      rw [hs,hkeys,hlen]
      rfl
    have hh : (w₁.complete c).heap = w.heap := by
      rw [World.complete_busy ho]
      rfl
    exact .iowrite hop (K.idle hop) (.iowrite hop (hg w₁ o ho rfl)
      (.ret (fun w' hw => (hk w₁ o ho rfl hl hh).settles hw)))
  refine .bind (.flag hop ?_)
  cases hE : (w.jobs f).flag .isE with
  | true => exact hrun _ (h0.trans (by rw [show (w.jobs f).isE = true from hE]; rfl))
  | false => exact hrun _ (h2.trans (by rw [show (w.jobs f).isE = false from hE]; rfl))

theorem mmioWait_sure {β : Type} {Q : β → World → Prop} {k : Bool → Code β}
    (hop : w.card.op = none) (hkeys : w.card.regs.keys = (w.jobs f).keyab)
    (hlen : w.card.regs.lenMsg = n)
    (hg : ∀ w' o, w'.card.op = some o → o.kind = .mmio → K.Good w')
    (hend : ∀ w', w'.card.op = none → Launched c f n w w' → Sure K t Q (k false) w')
    (hcut : ∀ w', Launched c f n w w' → K.Good w' →
      (∃ w₁, w₁.jobs = w.jobs ∧ K.Allows w₁ (.waitEvent .mmio) true) → Sure K t Q (k true) w') :
    Sure K t Q (mmioWait f >>= k) w := by
  have hdone (w₁ : World) (h : Launched c f n w w₁) (hh : (w₁.complete c).heap = w.heap) :
      Sure K t Q (k false) (w₁.complete c) := by
    refine hend _ (World.complete_op c w₁) ⟨?_,?_,hh,?_⟩
    · rw [World.complete_jobs,h.jobs]
    · rw [World.complete_umem,h.umem]
    · rw [World.settled_complete,h.settled]
  refine .bind (.flag hop ?_)
  cases (w.jobs f).flag .isI with
  | true =>
    refine mmioStart_sure hop hkeys hlen (by decide) (by decide) hg (fun w₁ o ho hk h hh => ?_)
    have hgood := hg w₁ o ho hk
    refine .waitEvent ho hk hgood (.ret (fun w' hw => (hdone w₁ h hh).settles hw))
      (fun w₂ h₂ hal => ?_)
    refine .ret (fun w' hw => (hcut w₁ h hgood ⟨w₂,?_,hal⟩).settles hw)
    obtain ⟨q,r,p,rfl⟩ := h₂
    exact h.jobs
  | false =>
    refine mmioStart_sure hop hkeys hlen (by decide) (by decide) hg (fun w₁ o ho hk h hh => ?_)
    exact .pollBusy ho hk (.ret (fun w' hw => (hdone w₁ h hh).settles hw))

theorem mmioCopyOut_sure (h : Underway f n (load w₀.umem ptr n) w₀ w)
    (hmap : (w₀.jobs f).isNotMM = false → w.card.mem =
      store w₀.card.mem r1Start (w₀.crypted c f (load w₀.card.mem r1Start n)))
    (hwin : (w₀.jobs f).isNotMM = true →
      load w.card.mem r1Start n = w₀.crypted c f (load w₀.umem ptr n)) :
    Sure K t (Attempt c K.Allows f ptr n w₀) (mmioCopyOut f ptr) w := by
  refine .flag h.op ?_
  rw [Job.flag,h.isNotMM]
  cases hN : (w₀.jobs f).isNotMM with
  | true =>
    rw [if_pos rfl]
    obtain ⟨hb,_⟩ := h.buf hN
    refine .msg h.op (.len h.op ?_)
    rw [h.len]
    refine .memcpyFromio h.op hb (copyBack_sure ?_ hN)
    rw [← hwin hN]
    exact h.fill hN (load_length _ _ _)
  | false =>
    rw [if_neg Bool.false_ne_true]
    have hdone : Attempt c K.Allows f ptr n w₀ 0 w := by
      refine ⟨h.modes,⟨0,by simp [h.umem],fun hm => ?_,fun _ => rfl⟩,fun _ _ => h.umem,
        fun _ => .inr ⟨?_,.inl rfl⟩,fun _ => h.op⟩
      · rw [hN] at hm
        cases hm
      · rw [Card.settled_idle h.op]
        exact hmap hN
    exact writeDone_attempt hdone (K.idle h.op)

/-- What is in the window when the card is started. -/
structure Shown (c : Cipher) (f ptr n : Nat) (w₀ w : World) : Prop
    extends Underway f n (load w₀.umem ptr n) w₀ w where
  keys : w.card.regs.keys = (w.jobs f).keyab
  lenMsg : w.card.regs.lenMsg = n
  mapped : (w₀.jobs f).isNotMM = false → w.card.mem = w₀.card.mem
  own : (w₀.jobs f).isNotMM = true → load w.card.mem r1Start n = load w₀.umem ptr n

theorem Shown.run (h : Shown c f ptr n w₀ w)
    (hg : ∀ w' o, w'.card.op = some o → o.kind = .mmio → K.Good w') :
    Sure K t (Attempt c K.Allows f ptr n w₀) (do
      let cut ← mmioWait f
      if cut then outUp f (-eRESTARTSYS) else mmioCopyOut f ptr) w := by
  refine mmioWait_sure h.op h.keys h.lenMsg hg (fun w' hop hl => ?_) (fun w' hl hgood hal => ?_)
  · have hs := hl.settled
    rw [Card.settled_idle hop,h.crypted] at hs
    refine mmioCopyOut_sure (h.same hop hl.jobs hl.umem hl.heap) (fun hN => ?_) (fun hN => ?_)
    · rw [hs,h.mapped hN]
    · rw [hs,h.own hN]
      exact load_store_of_length (by simp [World.crypted])
  · have hcut : Attempt c K.Allows f ptr n w₀ (-eRESTARTSYS) w' := by
      refine ⟨?_,⟨0,by simp [hl.umem,h.umem],fun _ h0 => (by cases h0),fun _ => rfl⟩,
        fun _ _ => hl.umem.trans h.umem,fun hN => .inr ?_,fun h0 => by cases h0⟩
      · rw [hl.jobs]
        exact h.modes
      · rw [hl.settled,h.crypted,h.mapped hN]
        obtain ⟨w₁,hj,hal⟩ := hal
        refine ⟨rfl,.inr ⟨w₁,?_,hal⟩⟩
        rw [hj,h.isNotMM]
        exact hN
    exact outUp_attempt hcut hgood

theorem mmioBranch_sure (h : Underway f n (load w₀.umem ptr n) w₀ w)
    (hkeys : w.card.regs.keys = (w.jobs f).keyab)
    (hmem : (w₀.jobs f).isNotMM = false → w.card.mem = w₀.card.mem)
    (hg : ∀ w' o, w'.card.op = some o → o.kind = .mmio → K.Good w') :
    Sure K t (Attempt c K.Allows f ptr n w₀) (mmioBranch f ptr) w := by
  refine .len h.op ?_
  rw [h.len]
  let w₁ : World := { w with card := w.card.iowrite .lenMsg n }
  have h₁ : Underway f n (load w₀.umem ptr n) w₀ w₁ := h.same h.op rfl rfl rfl
  refine .iowrite h.op (K.idle h.op) (.bind (.flag h₁.op ?_))
  rw [Job.flag,h₁.isNotMM]
  cases hN : (w₀.jobs f).isNotMM with
  | true =>
    rw [if_pos rfl]
    obtain ⟨hb,hxs⟩ := h₁.buf hN
    refine .msg h₁.op (.len h₁.op ?_)
    rw [h₁.len]
    refine .memcpyToio h₁.op hb (.ret (fun w' hw => ?_))
    rw [hxs,List.take_of_length_le (Nat.le_of_eq h₁.size)] at hw
    have h₂ : Shown c f ptr n w₀ (w₁.setMem r1Start (load w₀.umem ptr n)) := by
      refine ⟨h₁.same h₁.op rfl rfl rfl,hkeys,rfl,fun hm => ?_,fun _ => ?_⟩
      · rw [hN] at hm
        cases hm
      · exact load_store_of_length (load_length _ _ _)
    exact (h₂.run hg).settles hw
  | false =>
    rw [if_neg Bool.false_ne_true]
    refine .ret (fun w' hw => ?_)
    have h₂ : Shown c f ptr n w₀ w₁ := by
      refine ⟨h₁,hkeys,rfl,fun _ => hmem hN,fun hm => ?_⟩
      rw [hN] at hm
      cases hm
    exact (h₂.run hg).settles hw

/-- The card has been started on the buffer `b`. -/
structure Sent (c : Cipher) (f n b : Nat) (w w' : World) : Prop where
  jobs : w'.jobs = w.jobs
  umem : w'.umem = w.umem
  heap : (w'.complete c).heap = (w.fill b (w.crypted c f ((w.heap b).data.take n))).heap

theorem dmaStart_sure {β : Type} {Q : β → World → Prop} {k : Unit → Code β} {mode b : Nat}
    (hop : w.card.op = none) (hkeys : w.card.regs.keys = (w.jobs f).keyab)
    (hlen : w.card.regs.dlenMsg = n) (hb : w.dmaTarget w.card.regs.addrOp n = some b)
    (h0 : (mode ||| 0x0 ||| 0x1).testBit 1 = false) (h2 : (mode ||| 0x2 ||| 0x1).testBit 1 = true)
    (hgo : (mode ||| 0x0 ||| 0x1).testBit 0 = true) (hgo' : (mode ||| 0x2 ||| 0x1).testBit 0 = true)
    (hg : ∀ w' o, w'.card.op = some o → o.kind = .dma → o.addr = w.card.regs.addrOp → o.len = n →
      w'.maps = w.maps → w'.heap = w.heap → K.Good w')
    (hk : ∀ w' o, w'.card.op = some o → o.kind = .dma → Sent c f n b w w' → K.Good w' →
      Sure K t Q (k ()) w') :
    Sure K t Q (dmaStart f mode >>= k) w := by
  have hrun (v : Nat) (hv : v.testBit 1 = !(w.jobs f).isE) (hv0 : v.testBit 0 = true) :
      Sure K t (fun x w' => Sure K t Q (k x) w') (iowrite v .cmd) w := by
    let o : Op := ⟨.dma,w.card.regs.keys,v.testBit 1,w.card.regs.addrOp,w.card.regs.dlenMsg,
      v.testBit 2⟩
    let w₁ : World := { w with card := w.card.iowrite .cmd v }
    have ho : w₁.card.op = some o := by
      simp [w₁,Card.iowrite,Card.start,hop,Regs.set,Regs.operation,o,hv0]
    have hs : Sent c f n b w w₁ := by
      refine ⟨rfl,rfl,?_⟩
      have ht : w₁.dmaTarget o.addr o.len = some b := by
        rw [← hb,← hlen]
        rfl
      rw [World.complete_busy ho]
      simp only [World.transform,ht]
      rw [show o.len = n from hlen,show o.key = _ from hkeys,show o.decrypt = _ from hv]
      rfl
    have hgood : K.Good w₁ := hg w₁ o ho rfl rfl hlen rfl rfl
    exact .iowrite hop hgood (.ret (fun w' hw => (hk w₁ o ho rfl hs hgood).settles hw))
  refine .bind (.flag hop ?_)
  cases hE : (w.jobs f).flag .isE with
  | true => exact hrun _ (h0.trans (by rw [show (w.jobs f).isE = true from hE]; rfl)) hgo
  | false => exact hrun _ (h2.trans (by rw [show (w.jobs f).isE = false from hE]; rfl)) hgo'

theorem dmaWait_sure {β : Type} {Q : β → World → Prop} {k : Bool → Code β} {b : Nat}
    (hop : w.card.op = none) (hkeys : w.card.regs.keys = (w.jobs f).keyab)
    (hlen : w.card.regs.dlenMsg = n) (hb : w.dmaTarget w.card.regs.addrOp n = some b)
    (hg : ∀ w' o, w'.card.op = some o → o.kind = .dma → o.addr = w.card.regs.addrOp → o.len = n →
      w'.maps = w.maps → w'.heap = w.heap → K.Good w')
    (hend : ∀ w', w'.card.op = none → Sent c f n b w w' → Sure K t Q (k false) w')
    (hcut : ∀ w', Sent c f n b w w' → K.Good w' → Sure K t Q (k true) w') :
    Sure K t Q (dmaWait f >>= k) w := by
  have hdone (w₁ : World) (h : Sent c f n b w w₁) : Sure K t Q (k false) (w₁.complete c) := by
    refine hend _ (World.complete_op c w₁) ⟨?_,?_,?_⟩
    · rw [World.complete_jobs,h.jobs]
    · rw [World.complete_umem,h.umem]
    · rw [World.complete_idle (World.complete_op c w₁),h.heap]
  refine .bind (.flag hop ?_)
  cases (w.jobs f).flag .isI with
  | true =>
    refine dmaStart_sure hop hkeys hlen hb (by decide) (by decide) (by decide) (by decide) hg
      (fun w₁ o ho hk h hgood => ?_)
    exact .waitEvent ho hk hgood (.ret (fun w' hw => (hdone w₁ h).settles hw))
      (fun _ _ _ => .ret (fun w' hw => (hcut w₁ h hgood).settles hw))
  | false =>
    refine dmaStart_sure hop hkeys hlen hb (by decide) (by decide) (by decide) (by decide) hg
      (fun w₁ o ho hk h _ => ?_)
    exact .pollBusy ho hk (.ret (fun w' hw => (hdone w₁ h).settles hw))

theorem Underway.failed (h : Underway f n xs w₀ w) (hN : (w₀.jobs f).isNotMM = true)
    (hr : r ≠ 0) : Attempt c Al f ptr n w₀ r w :=
  h.fails (fun hm => by rw [hN] at hm; cases hm) hr

theorem dmaBranch_sure (h : Underway f n (load w₀.umem ptr n) w₀ w)
    (hN : (w₀.jobs f).isNotMM = true) (hkeys : w.card.regs.keys = (w.jobs f).keyab)
    (hg : ∀ w' o, w'.card.op = some o → o.kind = .dma → o.len = n →
      (w'.maps o.addr).buf = some w₀.nbuf → (w'.heap w₀.nbuf).data.length = n → K.Good w') :
    Sure K t (Attempt c K.Allows f ptr n w₀) (dmaBranch f ptr) w := by
  obtain ⟨hb,hxs⟩ := h.buf hN
  refine .msg h.op (.len h.op ?_)
  rw [h.len]
  refine .dmaMapSingle h.op ?_ ?_
  · exact outUp_attempt (h.failed hN (by decide)) (K.idle h.op)
  · let w₁ := w.mapSingle t (w.jobs f).msg n
    let w₂ : World := { w₁ with card := (w₁.card.iowrite .addrOp w.nmap).iowrite .dlenMsg n }
    have h₁ : Underway f n (load w₀.umem ptr n) w₀ w₁ := h.same h.op rfl rfl rfl
    have h₂ : Underway f n (load w₀.umem ptr n) w₀ w₂ := h.same h.op rfl rfl rfl
    have hmap : w₂.maps w.nmap = ⟨t,(w.jobs f).msg,n,true,0⟩ := Function.update_self _ _ _
    have ht : w₂.dmaTarget w.nmap n = some w₀.nbuf := by
      rw [World.dmaTarget,hmap,if_pos rfl]
      exact hb
    have hgood (w' : World) (o : Op) (ho : w'.card.op = some o) (hk : o.kind = .dma)
        (haddr : o.addr = w.nmap) (hlen : o.len = n) (hm : w'.maps = w₂.maps)
        (hh : w'.heap = w₂.heap) : K.Good w' := by
      refine hg w' o ho hk hlen ?_ ?_
      · rw [hm,haddr,hmap]
        exact (World.usable_eq hb).1
      · rw [hh,show (w₂.heap w₀.nbuf).data = _ from hxs]
        exact h.size
    refine .iowrite h₁.op (K.idle h₁.op) (.len h₁.op ?_)
    rw [show (w₁.jobs f).len = n from h₁.len]
    refine .iowrite h₁.op (K.idle h₂.op) (dmaWait_sure (n := n) (w := w₂) h₂.op hkeys rfl ht hgood
      (fun w' hop hs => ?_) (fun w' hs hgood => ?_))
    · have hh : w'.heap = (w₂.fill w₀.nbuf (w₀.crypted c f (load w₀.umem ptr n))).heap := by
        have hh := hs.heap
        rw [World.complete_idle hop,h₂.crypted,show (w₂.heap w₀.nbuf).data = _ from hxs,
          List.take_of_length_le (Nat.le_of_eq h.size)] at hh
        exact hh
      have h₃ : Underway f n (w₀.crypted c f (load w₀.umem ptr n)) w₀ w' :=
        (h₂.fill hN (by simp [World.crypted])).same hop hs.jobs hs.umem hh
      refine .len hop (.dmaUnmapSingle hop (copyBack_sure ?_ hN))
      exact h₃.same hop rfl rfl rfl
    · have hcut : Attempt c K.Allows f ptr n w₀ (-eRESTARTSYS) w' := by
        refine ⟨?_,⟨0,by simp [hs.umem,h₂.umem],fun _ h0 => (by cases h0),fun _ => rfl⟩,
          fun _ _ => hs.umem.trans h₂.umem,fun hm => ?_,fun h0 => by cases h0⟩
        · rw [hs.jobs]
          exact h₂.modes
        · rw [hN] at hm
          cases hm
      exact outUp_attempt hcut hgood

theorem writeLocked_sure (h : Underway f n (load w₀.umem ptr n) w₀ w)
    (hmem : (w₀.jobs f).isNotMM = false → w.card.mem = w₀.card.mem)
    (hM : (w₀.jobs f).isM = false → (w₀.jobs f).isNotMM = true) (hst : Starts K f n w₀) :
    Sure K t (Attempt c K.Allows f ptr n w₀) (writeLocked f ptr) w := by
  refine .down h.op ?_ ?_
  · exact outFree_attempt (h.fails hmem (by decide)) (K.idle h.op)
  · rw [if_neg Bool.false_ne_true]
    let w₁ : World := { w with wsem := w.wsem-1, holders := t :: w.holders }
    let w₂ : World := { w₁ with card := w₁.card.iowrite .keys (w.jobs f).keyab }
    have h₂ : Underway f n (load w₀.umem ptr n) w₀ w₂ := h.same h.op rfl rfl rfl
    refine .keyab (w := w₁) h.op (.iowrite h.op (K.idle h₂.op) (.flag (w := w₂) h₂.op ?_))
    rw [Job.flag,(View.mode_eq (h₂.modes f)).2.1]
    cases hM' : (w₀.jobs f).isM with
    | true =>
      rw [if_pos rfl]
      exact mmioBranch_sure h₂ rfl hmem (hst.mmio hM')
    | false =>
      rw [if_neg Bool.false_ne_true]
      exact dmaBranch_sure h₂ (hM hM') rfl (hst.dma hM')

theorem writeCopyIn_sure (hop : w.card.op = none) (hmodes : ∀ g, (w.jobs g).mode = (w₀.jobs g).mode)
    (humem : w.umem = w₀.umem) (hbuf : w.nbuf = w₀.nbuf) (hlen : (w.jobs f).len = n)
    (hN : (w₀.jobs f).isNotMM = true) (hst : Starts K f n w₀) :
    Sure K t (Attempt c K.Allows f ptr n w₀) (writeCopyIn f ptr n) w := by
  have hmode (w' : World) (q : Option Nat) (hj : w'.jobs = w.jobs) (g : Nat) :
      ((w'.setJob f { w'.jobs f with msg := q }).jobs g).mode = (w₀.jobs g).mode := by
    rw [← hmodes g,World.setJob,hj]
    by_cases hg : g = f
    · subst hg
      simp [Job.mode]
    · simp [hg]
  have hno {m : Bool} {P : Prop} (hm : m = true) (h : m = false) : P := by
    rw [hm] at h
    cases h
  refine .vmalloc hop ?_ (fun j hn => ?_)
  · let w₁ := w.setJob f { w.jobs f with msg := none }
    refine .setMsg hop (.msg (w := w₁) hop ?_)
    have hfail : Attempt c K.Allows f ptr n w₀ (-eNOMEM) w₁ :=
      ⟨hmode w none rfl,⟨0,by simp [w₁,World.setJob,humem],fun _ h0 => (by cases h0),fun _ => rfl⟩,
        fun _ _ => humem,fun hm => hno hN hm,fun h0 => by cases h0⟩
    have hmsg : (w₁.jobs f).msg = none := by simp [w₁,World.setJob]
    rw [hmsg,if_pos rfl]
    exact .ret (fun w' hw => attempt_lasting.settles hfail hw)
  · let w₁ := w.allocate t n j
    let w₂ := w₁.setJob f { w₁.jobs f with msg := some w.nbuf }
    have hmsg : (w₂.jobs f).msg = some w.nbuf := by simp [w₂,World.setJob]
    have hus : w₂.usable (some w.nbuf) n = some w.nbuf := by
      simp [w₂,w₁,World.usable,World.allocate,World.setJob,World.setBuf]
    have hlen₂ : (w₂.jobs f).len = n := by
      simp only [w₂,World.setJob,Function.update_self]
      exact hlen
    refine .setMsg (w := w₁) hop (.msg (w := w₂) hop ?_)
    rw [hmsg,if_neg (by simp)]
    refine .msg (w := w₂) hop (.len (w := w₂) hop ?_)
    rw [hmsg,hlen₂]
    refine .copyFromUser (w := w₂) hop hus (fun r xs hxs hr => ?_)
    have h₃ : Underway f n xs w₀ (w₂.fill w.nbuf xs) := by
      refine ⟨hop,hmode w₁ _ rfl,humem,hlen₂,hxs,fun _ => ?_⟩
      rw [← hbuf]
      constructor
      · rw [World.usable_fill (by rw [hxs]; exact World.le_of_usable hus)]
        exact (congrArg (w₂.usable · n) hmsg).trans hus
      · simp [World.fill,World.setBuf,w₂,w₁,World.setJob,World.allocate,hxs]
    split
    · exact outFree_attempt (h₃.failed hN (by decide)) (K.idle hop)
    · rename_i h0
      have hload : xs = load w₀.umem ptr n := by
        rw [hr (not_not.mp h0)]
        exact congrArg (load · ptr n) humem
      rw [hload] at h₃ ⊢
      exact writeLocked_sure h₃ (fun hm => hno hN hm) (fun _ => hN) hst

theorem writeLive_sure (hop : w.card.op = none) (hn : n < 2^32)
    (hM : (w.jobs f).isM = false → (w.jobs f).isNotMM = true) (hst : Starts K f n w) :
    Sure K t (Attempt c K.Allows f ptr n w) (writeLive f ptr n) w := by
  have hbody : Sure K t (Attempt c K.Allows f ptr n w) (writeBody f ptr n) w := by
    let w₁ := w.setJob f { w.jobs f with len := n }
    have hmodes (g : Nat) : (w₁.jobs g).mode = (w.jobs g).mode := by
      by_cases hg : g = f
      · subst hg
        simp [w₁,World.setJob,Job.mode]
      · simp [w₁,World.setJob,hg]
    have hlen : (w₁.jobs f).len = n := by simp [w₁,World.setJob]
    refine .setLen hop ?_
    rw [Nat.mod_eq_of_lt hn]
    refine .flag (w := w₁) hop ?_
    rw [Job.flag,(View.mode_eq (hmodes f)).2.2.2.1]
    cases hN : (w.jobs f).isNotMM with
    | true =>
      rw [if_pos rfl]
      exact writeCopyIn_sure hop hmodes rfl rfl hlen hN hst
    | false =>
      rw [if_neg Bool.false_ne_true]
      refine writeLocked_sure ⟨hop,hmodes,rfl,hlen,load_length _ _ _,fun hm => ?_⟩ (fun _ => rfl)
        hM hst
      rw [hN] at hm
      cases hm
  refine .bind (.iowrite hop (K.idle hop) (.ioread (K.idle hop) (fun v => .ret (fun w' hw => ?_))))
  refine Sure.settles ?_ hw
  split
  · exact .ret (fun w' hw => attempt_lasting.settles (attempt_refused hop (by decide)) hw)
  · exact hbody

theorem pciWrite_sure (hop : w.card.op = none) (hn : n < 2^32) (hst : Starts K f n w) :
    Sure K t (Attempt c K.Allows f ptr n w) (pciWrite f ptr n) w := by
  refine .act (fun p n hb => nomatch hb) (fun x w₁ r w₂ hw _ he => ?_)
  cases he
  refine ⟨K.settles (K.idle hop) hw,Sure.settles ?_ hw⟩
  rw [if_neg (by decide)]
  refine .act (fun p n hb => nomatch hb) (fun x w₁ r w₂ hw _ he => ?_)
  cases he
  refine ⟨K.settles (K.idle hop) hw,Sure.settles ?_ hw⟩
  rw [if_neg (by decide)]
  refine .flag hop ?_
  cases hN : (w.jobs f).flag .isNotMM with
  | true =>
    rw [if_pos rfl]
    exact writeLive_sure hop hn (fun _ => hN) hst
  | false =>
    rw [if_neg Bool.false_ne_true]
    refine .flag hop ?_
    cases hM : (w.jobs f).flag .isM with
    | true =>
      rw [if_pos rfl]
      refine writeLive_sure hop hn (fun hm => ?_) hst
      rw [show (w.jobs f).isM = true from hM] at hm
      cases hm
    | false =>
      rw [if_neg Bool.false_ne_true]
      exact .ret (fun w' hw => attempt_lasting.settles (attempt_refused hop (by decide)) hw)

/-- write(2) hands down no more than `MAX_RW_COUNT` bytes. -/
theorem sysWrite_sure (hop : w.card.op = none) (hst : Starts K f (min n MAX_RW_COUNT) w) :
    Sure K t (Attempt c K.Allows f ptr (min n MAX_RW_COUNT) w) (sysWrite f ptr n) w := by
  refine pciWrite_sure hop ?_ hst
  unfold MAX_RW_COUNT
  omega

/-- An ioctl that began in `w` has returned `r` in `w'`. -/
structure Switched (c : Cipher) (f cmd : Nat) (arg : List Byte) (w : World) (r : Int)
    (w' : World) : Prop where
  result : r = ((w.jobs f).ioctl cmd arg).1
  jobs : w'.jobs = Function.update w.jobs f ((w.jobs f).ioctl cmd arg).2
  umem : w'.umem = w.umem
  settled : w'.card.settled c = w.card.settled c
  idle : w.card.op = none → w'.card.op = none

theorem Switched.settles {cmd : Nat} {arg : List Byte} {w₁ : World}
    (h : Switched c f cmd arg w r w₁) (hw : Settles c w₁ w') : Switched c f cmd arg w r w' where
  result := h.result
  jobs := hw.jobs.trans h.jobs
  umem := hw.umem.trans h.umem
  settled := hw.settled.trans h.settled
  idle hop := hw.op (h.idle hop)

theorem switched_same {cmd : Nat} {arg : List Byte} (h : (w.jobs f).ioctl cmd arg = (r,w.jobs f)) :
    Sure K t (Switched c f cmd arg w) (pure r) w := by
  have hw : Switched c f cmd arg w r w := by
    refine ⟨by rw [h],?_,rfl,rfl,id⟩
    rw [h]
    exact (Function.update_eq_self f w.jobs).symm
  exact .ret (fun w' hs => hw.settles hs)

theorem setFlag_sure {cmd : Nat} {arg : List Byte} {x : Flag} {v : Bool} (hop : w.card.op = none)
    (h : (w.jobs f).ioctl cmd arg = (0,(w.jobs f).setFlag x v)) :
    Sure K t (Switched c f cmd arg w) (do setFlag f x v; return 0) w := by
  refine .act (fun p n hb => nomatch hb) (fun y w₁ r w₂ hw _ he => ?_)
  cases he
  have h₁ : Switched c f cmd arg w 0 (w₁.setJob f ((w₁.jobs f).setFlag x v)) := by
    refine ⟨by rw [h],?_,hw.umem,hw.settled,hw.op⟩
    rw [h,World.setJob,hw.jobs]
  exact ⟨K.idle (hw.op hop),.ret (fun w' hs => h₁.settles hs)⟩

theorem applySetting_sure {cmd : Nat} {arg : List Byte} {o : Option (Flag × Bool)}
    (hop : w.card.op = none) (h : (w.jobs f).ioctl cmd arg = (w.jobs f).put o) :
    Sure K t (Switched c f cmd arg w) (applySetting f o) w := by
  cases o with
  | none => exact switched_same h
  | some p => exact setFlag_sure hop h

theorem pciUnlockedIoctl_sure (cmd : Nat) (arg : List Byte) (hop : w.card.op = none) :
    Sure K t (Switched c f cmd arg w) (pciUnlockedIoctl f cmd arg) w := by
  rw [pciUnlockedIoctl_eq]
  refine .act (fun p n hb => nomatch hb) (fun x w₁ r w₂ hw _ he => ?_)
  cases he
  refine ⟨K.settles (K.idle hop) hw,Sure.settles ?_ hw⟩
  rw [if_neg (by decide)]
  by_cases hkey : cmd = SET_KEY
  · subst hkey
    rw [if_pos rfl]
    refine .act (fun p n hb => nomatch hb) (fun y w₁ r w₂ hw _ he => ?_)
    cases he
    have hsw (r' : Int) (hr : r' = if 4-arg.length ≠ 0 then -eAGAIN else 0) :
        Switched c f SET_KEY arg w r' (w₁.setJob f { w₁.jobs f with keyab := le32 arg }) := by
      have hj : (w.jobs f).ioctl SET_KEY arg = (r',{ w.jobs f with keyab := le32 arg }) := by
        rw [Job.ioctl,if_pos rfl,hr]
      refine ⟨by rw [hj],?_,hw.umem,hw.settled,hw.op⟩
      rw [hj,World.setJob,hw.jobs]
    refine ⟨K.idle (hw.op hop),?_⟩
    split
    · rename_i hr
      exact .ret (fun w' hs => (hsw _ (if_pos hr).symm).settles hs)
    · rename_i hr
      exact .ret (fun w' hs => (hsw _ (if_neg hr).symm).settles hs)
  · rw [if_neg hkey]
    by_cases hset : cmd = SET_CONFIG ∨ cmd = SET_ENCRYP ∨ cmd = SET_MMAP
    · have hj : (w.jobs f).ioctl cmd arg = match ioctlByte arg with
          | none => (-eAGAIN,w.jobs f)
          | some b => (w.jobs f).put (settingOf cmd b) := by
        rw [Job.ioctl,if_neg hkey,if_pos hset]
      rw [if_pos hset]
      cases hb : ioctlByte arg with
      | none => exact switched_same (by rw [hj,hb])
      | some b => exact applySetting_sure hop (by rw [hj,hb])
    · rw [if_neg hset]
      exact switched_same (by rw [Job.ioctl,if_neg hkey,if_neg hset])

end

end CryptoCard
