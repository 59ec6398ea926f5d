import CryptoCard.Alone
set_option autoImplicit false

/-! Which lengths of a write keep the copies and the card's own work inside the data
window. -/
namespace CryptoCard
open Memory Program Interleave

/-- Every byte of the BAR from `addr` on, `n` of them, lies in the window `r1` and below
`size`. -/
def Inside (size addr n : Nat) : Prop :=
  ∀ i, addr ≤ i → i < addr+n → r1Start ≤ i ∧ i ≤ r1End ∧ i < size

/-- `n` bytes have room in the window. -/
def HasRoom (size n : Nat) : Prop := n = 0 ∨ (r1Start+n ≤ size ∧ n ≤ r1End+1-r1Start)

theorem inside_iff (size n : Nat) : Inside size r1Start n ↔ HasRoom size n := by
  unfold Inside HasRoom
  constructor
  · intro h
    by_cases hn : n = 0
    · exact .inl hn
    · have hlast := h (r1Start+n-1) (by omega) (by omega)
      unfold r1Start r1End at *
      omega
  · intro h i hi hlt
    unfold r1Start r1End at *
    omega

/-- The bulk copies that threads are about to make, and the bytes the card is told to
transform, are in the window. -/
def StaysInside (size : Nat) (s : System) : Prop :=
  (∀ t p n, s.next t = some (.memcpyToio p n) ∨ s.next t = some (.memcpyFromio p n) →
    Inside size r1Start n) ∧
  ∀ o, s.world.card.op = some o → o.kind = .mmio → Inside size o.addr o.len

/-- The write(2) calls of the run have lengths in `L`; they are not made by the library. -/
def RawWrites (L : Nat → Prop) : System → Step → Prop
  | _, .call _ (.write _ _ n) => L n
  | _, .call _ (.encrypt _ _ _ _) | _, .call _ (.decrypt _ _ _ _) => False
  | _, _ => True

/-- The file whose `len` the thread has stored, and whether it has told the card. -/
structure Gauge where
  file : Option Nat
  told : Bool

def Gauge.Ok (size : Nat) (γ : Gauge) : Act → Prop
  | .setLen _ n | .memcpyToio _ n | .memcpyFromio _ n | .iowrite .lenMsg n => HasRoom size n
  | .iowrite .dataAddr v => v = r1Start ∧ γ.told = true
  | _ => True

def Gauge.Next (size : Nat) (γ : Gauge) : (a : Act) → a.Res → Gauge → Prop
  | .setLen f _, _, γ' => γ' = { γ with file := some f }
  | .len f, n, γ' => γ' = γ ∧ (γ.file = some f → HasRoom size n)
  | .iowrite .lenMsg _, _, γ' => γ' = { γ with told := true }
  | _, _, γ' => γ' = γ

@[reducible] def gauging (size : Nat) : Discipline Act Act.Res where
  Ghost := Gauge
  ok := Gauge.Ok size
  next := Gauge.Next size

/-- Actions that have nothing to do with lengths. -/
def Act.plain : Act → Bool
  | .setLen _ _ | .memcpyToio _ _ | .memcpyFromio _ _ => false
  | .iowrite .lenMsg _ | .iowrite .dataAddr _ => false
  | _ => true

section
variable {size f ptr len : Nat} {γ : Gauge} {err : Int}

theorem plain_wp {α : Type} {p : Code α} (h : Always (fun a => a.plain = true) p) :
    wp (gauging size) p (fun _ _ => True) γ := by
  refine h.wp (fun a ha => ?_) (fun a r γ' ha hn => ?_)
  · cases a with
    | iowrite reg v => cases reg <;> trivial
    | _ => trivial
  · cases a with
    | iowrite reg v => cases reg <;> first | exact hn | cases ha
    | len f => exact hn.1
    | _ => first | exact hn | cases ha

theorem releaseMsg_plain : Always (fun a => a.plain = true) (releaseMsg f) :=
  ⟨rfl,fun b => by cases b <;> simp [Act.plain]⟩

theorem outFree_plain : Always (fun a => a.plain = true) (outFree f err) :=
  releaseMsg_plain.bind (fun _ => trivial)

theorem outUp_plain : Always (fun a => a.plain = true) (outUp f err) :=
  ⟨rfl,fun _ => outFree_plain⟩

theorem writeDone_plain : Always (fun a => a.plain = true) (writeDone f) :=
  ⟨rfl,fun _ => releaseMsg_plain.bind (fun _ => trivial)⟩

theorem copyBack_plain : Always (fun a => a.plain = true) (copyBack f ptr) := by
  simp only [copyBack,always_step,always_ite]
  exact ⟨rfl,fun _ => ⟨rfl,fun _ => ⟨rfl,fun _ => ⟨fun _ => outUp_plain,fun _ => writeDone_plain⟩⟩⟩⟩

theorem dmaStart_plain {mode : Nat} : Always (fun a => a.plain = true) (dmaStart f mode) := by
  simp [dmaStart,Act.plain]

theorem dmaWait_plain : Always (fun a => a.plain = true) (dmaWait f) := by
  simp only [dmaWait,always_step,always_ite]
  exact ⟨rfl,fun b => ⟨fun _ => dmaStart_plain.bind (fun _ => by simp [Act.plain]),
    fun _ => dmaStart_plain.bind (fun _ => by simp [Act.plain])⟩⟩

theorem dmaBranch_plain : Always (fun a => a.plain = true) (dmaBranch f ptr) := by
  refine ⟨rfl,fun p => ⟨rfl,fun n => ⟨rfl,fun handle => ?_⟩⟩⟩
  cases handle with
  | none => exact outUp_plain
  | some handle =>
    refine ⟨rfl,fun _ => ⟨rfl,fun n => ⟨rfl,fun _ => dmaWait_plain.bind (fun cut => ?_)⟩⟩⟩
    cases cut with
    | true => exact outUp_plain
    | false => exact ⟨rfl,fun n => ⟨rfl,fun _ => copyBack_plain⟩⟩

theorem pciUnlockedIoctl_plain (cmd : Nat) (arg : List Byte) :
    Always (fun a => a.plain = true) (pciUnlockedIoctl f cmd arg) := by
  unfold pciUnlockedIoctl
  cases ioctlByte arg <;> simp [Act.plain]

theorem pciIrqHandle_plain (dev : Bool) : Always (fun a => a.plain = true) (pciIrqHandle dev) := by
  simp [pciIrqHandle,Act.plain]

theorem mmioCopyOut_gauge (h : γ.file = some f) :
    wp (gauging size) (mmioCopyOut f ptr) (fun _ _ => True) γ := by
  simp only [mmioCopyOut,wp_bind,wp_perform,wp_ite,Gauge.Ok,Gauge.Next,forall_eq,true_and]
  refine fun _ => ⟨fun _ _ n γ' hγ => ?_,fun _ => plain_wp writeDone_plain⟩
  obtain ⟨rfl,hn⟩ := hγ
  exact ⟨hn h,fun _ => plain_wp copyBack_plain⟩

theorem mmioStart_gauge {mode : Nat} {Q : Unit → Gauge → Prop} (ht : γ.told = true)
    (hQ : Q () γ) : wp (gauging size) (mmioStart f mode) Q γ := by
  simp [mmioStart,Gauge.Ok,Gauge.Next,ht,hQ]

theorem mmioWait_gauge {Q : Bool → Gauge → Prop} (ht : γ.told = true) (hQ : ∀ cut, Q cut γ) :
    wp (gauging size) (mmioWait f) Q γ := by
  simp only [mmioWait,wp_bind,wp_perform,wp_ite,wp_pure,Gauge.Ok,Gauge.Next,forall_eq,true_and]
  exact fun _ => ⟨fun _ => mmioStart_gauge ht hQ,fun _ => mmioStart_gauge ht (fun _ => hQ false)⟩

theorem mmioCopyIn_gauge {Q : Unit → Gauge → Prop} (h : γ.file = some f) (hQ : Q () γ) :
    wp (gauging size) (mmioCopyIn f) Q γ := by
  simp only [mmioCopyIn,wp_bind,wp_perform,wp_ite,wp_pure,Gauge.Ok,Gauge.Next,forall_eq,true_and]
  refine fun _ => ⟨fun _ _ n γ' hγ => ?_,fun _ => hQ⟩
  obtain ⟨rfl,hn⟩ := hγ
  exact ⟨hn h,fun _ => hQ⟩

theorem mmioBranch_gauge (h : γ.file = some f) :
    wp (gauging size) (mmioBranch f ptr) (fun _ _ => True) γ := by
  simp only [mmioBranch,wp_bind,wp_perform,wp_ite,Gauge.Ok,Gauge.Next,forall_eq,true_and]
  intro n γ' hγ
  obtain ⟨rfl,hn⟩ := hγ
  refine ⟨hn h,fun _ => mmioCopyIn_gauge h (mmioWait_gauge rfl (fun cut => ?_))⟩
  exact ⟨fun _ => plain_wp outUp_plain,fun _ => mmioCopyOut_gauge h⟩

theorem writeLocked_gauge (h : γ.file = some f) :
    wp (gauging size) (writeLocked f ptr) (fun _ _ => True) γ := by
  simp only [writeLocked,wp_bind,wp_perform,wp_ite,Gauge.Ok,Gauge.Next,forall_eq,true_and]
  exact fun cut => ⟨fun _ => plain_wp outFree_plain,
    fun _ _ _ _ => ⟨fun _ => mmioBranch_gauge h,fun _ => plain_wp dmaBranch_plain⟩⟩

theorem writeCopyIn_gauge (h : γ.file = some f) :
    wp (gauging size) (writeCopyIn f ptr len) (fun _ _ => True) γ := by
  simp only [writeCopyIn,wp_bind,wp_perform,wp_ite,wp_pure,Gauge.Ok,Gauge.Next,forall_eq,true_and,
    implies_true]
  refine fun _ _ _ _ _ n γ' hγ => ?_
  obtain ⟨rfl,_⟩ := hγ
  exact fun _ => ⟨fun _ => plain_wp outFree_plain,fun _ => writeLocked_gauge h⟩

theorem pciWrite_gauge (h : HasRoom size (len % 2^32)) :
    wp (gauging size) (pciWrite f ptr len) (fun _ _ => True) γ := by
  have hlive : wp (gauging size) (writeLive f ptr len) (fun _ _ => True) γ := by
    simp only [writeLive,isNotLive,writeBody,wp_bind,wp_perform,wp_ite,wp_pure,Gauge.Ok,Gauge.Next,
      forall_eq,true_and,implies_true]
    exact fun _ _ _ => ⟨h,fun _ _ => ⟨fun _ => writeCopyIn_gauge rfl,fun _ => writeLocked_gauge rfl⟩⟩
  simp only [pciWrite,wp_bind,wp_perform,wp_ite,wp_pure,Gauge.Ok,Gauge.Next,forall_eq,true_and,
    implies_true]
  exact fun _ _ _ _ _ => ⟨fun _ => hlive,fun _ _ => ⟨fun _ => hlive,trivial⟩⟩

end

theorem sysWrite_gauge {size f ptr n : Nat} {γ : Gauge} (h : HasRoom size (min n MAX_RW_COUNT)) :
    wp (gauging size) (sysWrite f ptr n) (fun _ _ => True) γ := by
  refine pciWrite_gauge ?_
  rw [Nat.mod_eq_of_lt]
  · exact h
  · unfold MAX_RW_COUNT
    omega

/-- The `len` of a job changes when it is stored. -/
theorem World.exec_len {w w' : World} {t : Nat} {a : Act} {x : Choice} {r : a.Res}
    (h : exec t a x w = some (.done r w')) (f : Nat) :
    (w'.jobs f).len = (w.jobs f).len ∨ a = .setLen f (w'.jobs f).len := by
  rw [exec_jobs h]
  have hupdate {f' : Nat} {j : Job} (hj : j.len = (w.jobs f').len) :
      (Function.update w.jobs f' j f).len = (w.jobs f).len := by
    by_cases hf : f = f'
    · subst hf
      rw [Function.update_self,hj]
    · rw [Function.update_of_ne hf]
  cases a with
  | setLen f' n =>
    by_cases hf : f = f'
    · subst hf
      exact .inr (by simp [Act.stored])
    · exact .inl (by simp [Act.stored,hf])
  | setFlag f' y b => exact .inl (hupdate (by cases y <;> rfl))
  | setMsg f' p => exact .inl (hupdate rfl)
  | copyKey f' arg => exact .inl (hupdate rfl)
  | _ => exact .inl rfl

theorem Card.iowrite_lenMsg (B : Card) (reg : Reg) (v : Nat) :
    (B.iowrite reg v).regs.lenMsg = if reg = .lenMsg then v else B.regs.lenMsg := by
  rw [Card.iowrite_regs]
  cases reg <;> rfl

/-- The jobs, registers and operations that threads go by have room. -/
structure Gauged (size : Nat) (g : Nat → Gauge) (w : World) : Prop where
  len : ∀ t f, (g t).file = some f → HasRoom size (w.jobs f).len
  told : ∀ t, (g t).told = true → HasRoom size w.card.regs.lenMsg
  op : ∀ o, w.card.op = some o → o.kind = .mmio → o.addr = r1Start ∧ HasRoom size o.len

namespace Gauged

section
variable {size t : Nat} {g : Nat → Gauge} {w w' : World}

theorem begin (h : Gauged size g w) (t : Nat) :
    Gauged size (Function.update g t ⟨none,false⟩) w where
  len u f hf := by
    by_cases hu : u = t
    · subst hu
      simp at hf
    · exact h.len u f (by simpa [hu] using hf)
  told u hf := by
    by_cases hu : u = t
    · subst hu
      simp at hf
    · exact h.told u (by simpa [hu] using hf)
  op := h.op

theorem congr (h : Gauged size g w) (hj : ∀ f, (w'.jobs f).len = (w.jobs f).len)
    (hr : w'.card.regs = w.card.regs)
    (ho : ∀ o, w'.card.op = some o → w.card.op = some o) : Gauged size g w' where
  len t f hf := by rw [hj]; exact h.len t f hf
  told t ht := by rw [hr]; exact h.told t ht
  op o hop := h.op o (ho o hop)

theorem iowrite (h : Gauged size g w) {reg : Reg} {v : Nat} {γ : Gauge}
    (hok : (g t).Ok size (.iowrite reg v)) (hn : (g t).Next size (.iowrite reg v) () γ) :
    Gauged size (Function.update g t γ) { w with card := w.card.iowrite reg v } := by
  have hfile : γ.file = (g t).file := by
    cases reg <;> rw [show γ = _ from hn]
  have htold (hreg : reg ≠ .lenMsg) : γ = g t := by
    cases reg <;> first | exact hn | exact absurd rfl hreg
  refine ⟨fun u f hf => ?_,fun u hu => ?_,fun o ho hk => ?_⟩
  · refine h.len u f ?_
    by_cases hut : u = t
    · subst hut
      rw [← hfile]
      simpa using hf
    · simpa [hut] using hf
  · show HasRoom size (w.card.iowrite reg v).regs.lenMsg
    rw [Card.iowrite_lenMsg]
    split
    · rename_i hreg
      subst hreg
      exact hok
    · rename_i hreg
      refine h.told u ?_
      rw [htold hreg,Function.update_eq_self] at hu
      exact hu
  · rcases Card.iowrite_op ho with ho | ⟨rfl,rfl⟩ | ⟨_,rfl⟩
    · exact h.op o ho hk
    · exact ⟨hok.1,h.told t hok.2⟩
    · cases hk

theorem done (h : Gauged size g w) {a : Act} {x : Choice} {r : a.Res}
    (hok : (g t).Ok size a) (he : w.exec t a x = some (.done r w')) :
    ∃ γ, (g t).Next size a r γ ∧ Gauged size (Function.update g t γ) w' := by
  have hkeep (ha : ∀ reg v, a ≠ .iowrite reg v) (hs : ∀ f n, a ≠ .setLen f n) :
      Gauged size g w' := by
    obtain ⟨hr,ho⟩ := World.exec_regs ha he
    exact h.congr (fun f => (World.exec_len he f).resolve_right (hs f _)) hr (fun o hop => ho ▸ hop)
  cases a with
  | iowrite reg v =>
    cases he
    cases reg with
    | lenMsg => exact ⟨_,rfl,h.iowrite hok rfl⟩
    | _ => exact ⟨_,rfl,h.iowrite hok rfl⟩
  | setLen f n =>
    cases he
    refine ⟨_,rfl,fun u f' hf => ?_,fun u hu => ?_,h.op⟩
    · by_cases hff : f' = f
      · subst hff
        have hn : HasRoom size n := hok
        simpa [World.setJob] using hn
      · have hold : (g u).file = some f' := by
          by_cases hut : u = t
          · subst hut
            simp [Ne.symm hff] at hf
          · simpa [hut] using hf
        simpa [World.setJob,hff] using h.len u f' hold
    · refine h.told u ?_
      by_cases hut : u = t
      · subst hut
        simpa using hu
      · simpa [hut] using hu
  | len f =>
    cases he
    refine ⟨g t,⟨rfl,h.len t f⟩,?_⟩
    rw [Function.update_eq_self]
    exact h
  | _ =>
    refine ⟨g t,rfl,?_⟩
    rw [Function.update_eq_self]
    exact hkeep (by simp) (by simp)

theorem env (h : Gauged size g w) {c : Cipher} {e : World.Env} (he : w.env c e = some w') :
    Gauged size g w' := by
  obtain ⟨_,o,_,_,rfl⟩ | ⟨_,k,_,rfl⟩ := World.env_cases he
  · have hc := World.transform_control c w o
    refine h.congr (fun f => ?_) hc.regs (fun o' ho' => nomatch ho')
    rw [World.settle,World.transform_jobs]
  · exact h.congr (fun _ => rfl) rfl (fun _ ho => ho)

end

end Gauged

/-- The assertions: what threads go by has room. -/
@[reducible] def gauged (size : Nat) : Assertions (gauging size) World Call Int where
  J g s := Gauged size g s.world
  Idle _ _ _ := True
  Began _ _ _ _ _ := True
  Post _ _ _ _ _ := True
  Dead _ := True
  Link _ _ := True

theorem Call.code_gauge {size : Nat} {L : Nat → Prop} {s : System} {t : Nat} {cl : Call}
    {γ : Gauge} (h : RawWrites L s (.call t cl))
    (hL : ∀ n, L n → HasRoom size (min n MAX_RW_COUNT)) :
    wp (gauging size) cl.code (fun _ _ => True) γ := by
  cases cl with
  | write f ptr len => exact sysWrite_gauge (hL _ h)
  | ioctl f cmd arg => exact plain_wp (pciUnlockedIoctl_plain _ _)
  | encrypt => exact h.elim
  | decrypt => exact h.elim
  | irq dev => exact plain_wp (pciIrqHandle_plain dev)
  | store addr xs => exact plain_wp ⟨rfl,fun _ => trivial⟩
  | mapStore off xs => exact plain_wp ⟨rfl,fun _ => trivial⟩
  | setKey cdev a b =>
    refine plain_wp ((pciUnlockedIoctl_plain _ _).bind (fun r => ?_))
    simp
  | setConfig cdev type value =>
    refine plain_wp ((pciUnlockedIoctl_plain _ _).bind (fun r => ?_))
    simp

theorem gaugedOutline (c : Cipher) {size : Nat} {L : Nat → Prop}
    (hL : ∀ n, L n → HasRoom size (min n MAX_RW_COUNT)) :
    Outline (machine c) (RawWrites L) (gauged size) where
  call h hp _ := ⟨⟨none,false⟩,h.1.begin _,trivial,Call.code_gauge hp hL⟩
  ret _ _ _ := trivial
  leave h _ := h.1
  link_refl _ := trivial
  link _ _ := trivial
  done h _ ht he := h.1.done (h.ok ht) he
  stay h _ _ he := by
    obtain ⟨_,rfl⟩ := World.stay_task he
    exact h.1.congr (fun _ => rfl) rfl (fun _ ho => ho)
  oops h _ _ he := by
    obtain ⟨rfl,_⟩ := World.exec_oops he
    exact ⟨trivial,h.1⟩
  env h _ he := h.1.env he

/-- The card is at work on the first `n` bytes of the window. -/
def AtWork (n : Nat) (w : World) : Prop :=
  ∃ o, w.card.op = some o ∧ o.kind = .mmio ∧ o.addr = r1Start ∧ o.len = n

section
variable {c : Cipher} {t f n ptr : Nat} {w : World} {m : Bool} {Q : World → Prop}

/-- Any choice will do. -/
abbrev anyhow (_ : Choice) : Prop := True

theorem mmioStart_hits {mode : Nat} (hop : w.card.op = none) (hlen : w.card.regs.lenMsg = n) :
    (machine c).Hits t anyhow (AtWork n) (mmioStart f mode) w := by
  refine .step .ok trivial rfl ?_
  have hstart (w₁ : World) (hop : w₁.card.op = none) (hlen : w₁.card.regs.lenMsg = n) :
      (machine c).Hits t anyhow (AtWork n) (iowrite r1Start .dataAddr) w₁ := by
    refine .act .ok trivial rfl (.here ⟨_,Card.start_op _ _ hop,rfl,rfl,?_⟩)
    simpa [Regs.operation,Regs.set] using hlen
  cases (w.jobs f).flag .isE with
  | true => exact .step .ok trivial rfl (hstart _ hop hlen)
  | false => exact .step .ok trivial rfl (hstart _ hop hlen)

theorem mmioWait_hits (hop : w.card.op = none) (hlen : w.card.regs.lenMsg = n) :
    (machine c).Hits t anyhow (AtWork n) (mmioWait f) w := by
  refine .step .ok trivial rfl ?_
  cases (w.jobs f).flag .isI with
  | true => exact .left (mmioStart_hits hop hlen)
  | false => exact .left (mmioStart_hits hop hlen)

/-- A job in MMIO mode, or in DMA mode, that has a buffer if it needs one. -/
structure Primed (f n : Nat) (m : Bool) (w : World) : Prop where
  isM : (w.jobs f).isM = m
  op : w.card.op = none
  len : (w.jobs f).len = n
  buf : (w.jobs f).isNotMM = true → ∃ b, w.usable (w.jobs f).msg n = some b

theorem mmioBranch_hits (h : Primed f n true w) :
    (machine c).Hits t anyhow (AtWork n) (mmioBranch f ptr) w := by
  refine .step .ok trivial rfl (.step .ok trivial rfl ?_)
  rw [h.len]
  have hrest (w₁ : World) (hop : w₁.card.op = none) (hlen : w₁.card.regs.lenMsg = n) :
      (machine c).Hits t anyhow (AtWork n) (do
        let cut ← mmioWait f
        if cut then outUp f (-eRESTARTSYS) else mmioCopyOut f ptr) w₁ :=
    .left (mmioWait_hits hop hlen)
  refine .step .ok trivial rfl ?_
  cases hN : (w.jobs f).isNotMM with
  | false =>
    rw [show (w.jobs f).flag .isNotMM = false from hN]
    exact hrest _ h.op rfl
  | true =>
    rw [show (w.jobs f).flag .isNotMM = true from hN]
    obtain ⟨b,hb⟩ := h.buf hN
    refine .step .ok trivial rfl (.step .ok trivial rfl ?_)
    rw [h.len]
    have hto : World.exec t (.memcpyToio (w.jobs f).msg n) .ok
        { w with card := w.card.iowrite .lenMsg n } =
          some (.done () (({ w with card := w.card.iowrite .lenMsg n } : World).setMem r1Start
            ((w.heap b).data.take n))) := by
      have hb' : ({ w with card := w.card.iowrite .lenMsg n } : World).usable (w.jobs f).msg n =
          some b := hb
      simp [World.exec,World.memcpyToio,hb']
    exact .act .ok trivial hto (hrest _ h.op rfl)

variable (hgo : ∀ w, Primed f n m w →
    (machine c).Hits t anyhow Q (if m = true then mmioBranch f ptr else dmaBranch f ptr) w)
include hgo

theorem writeLocked_hits (h : Primed f n m w) (hw : 0 < w.wsem) :
    (machine c).Hits t anyhow Q (writeLocked f ptr) w := by
  have hdown : World.exec t .downInterruptible .ok w =
      some (.done false { w with wsem := w.wsem-1, holders := t :: w.holders }) := by
    simp [World.exec,World.downInterruptible,Nat.ne_of_gt hw]
  refine .step .ok trivial hdown ?_
  rw [if_neg (by decide)]
  refine .step .ok trivial rfl (.step .ok trivial rfl (.step .ok trivial rfl ?_))
  rw [Job.flag,h.isM]
  exact hgo _ ⟨h.isM,h.op,h.len,h.buf⟩

theorem writeCopyIn_hits (hM : (w.jobs f).isM = m) (hop : w.card.op = none) (hw : 0 < w.wsem)
    (hlen : (w.jobs f).len = n) (hn : 0 < n) :
    (machine c).Hits t anyhow Q (writeCopyIn f ptr n) w := by
  have halloc : World.exec t (.vmalloc n) (.junk fun _ => 0) w =
      some (.done (some w.nbuf) (w.allocate t n fun _ => 0)) := by
    simp [World.exec,World.vmalloc,Nat.ne_of_gt hn]
  refine .step (.junk fun _ => 0) trivial halloc ?_
  refine .step .ok trivial rfl (.step .ok trivial rfl ?_)
  let w₁ := (w.allocate t n fun _ => 0).setJob f { w.jobs f with msg := some w.nbuf }
  have hjob : w₁.jobs f = { w.jobs f with msg := some w.nbuf } := by
    simp [w₁,World.setJob]
  have hus : w₁.usable (some w.nbuf) n = some w.nbuf := by
    simp [w₁,World.usable,World.allocate,World.setJob,World.setBuf]
  have hrest : (machine c).Hits t anyhow Q (do
      let p ← jobMsg f
      let n ← jobLen f
      let r ← atom (.copyFromUser p ptr n)
      if r ≠ 0 then outFree f (-eAGAIN) else writeLocked f ptr) w₁ := by
    refine .step .ok trivial rfl (.step .ok trivial rfl ?_)
    have hfrom : World.exec t (.copyFromUser (some w.nbuf) ptr n) .ok w₁ =
        some (.done 0 (w₁.fill w.nbuf (load w₁.umem ptr n))) := by
      simp [World.exec,World.copyFromUser,hus]
    rw [hjob,hlen]
    refine .step .ok trivial hfrom (writeLocked_hits hgo ⟨?_,hop,?_,fun _ => ⟨w.nbuf,?_⟩⟩ hw)
    · show (w₁.jobs f).isM = m
      rw [hjob]
      exact hM
    · show (w₁.jobs f).len = n
      rw [hjob]
      exact hlen
    · show (w₁.fill w.nbuf (load w₁.umem ptr n)).usable (w₁.jobs f).msg n = _
      rw [World.usable_fill (by simpa using World.le_of_usable hus),hjob]
      exact hus
  have hmsg : (w₁.jobs f).msg ≠ none := by rw [hjob]; simp
  exact (if_neg hmsg).symm ▸ hrest

/-- A write gets as far as its branch. -/
theorem pciWrite_hits (hM : (w.jobs f).isM = m) (hN : m = false → (w.jobs f).isNotMM = true)
    (hop : w.card.op = none) (hw : 0 < w.wsem) (hn : 0 < n) (hlt : n < 2^32) :
    (machine c).Hits t anyhow Q (pciWrite f ptr n) w := by
  have hbody (w₁ : World) (hj : w₁.jobs f = w.jobs f) (hop : w₁.card.op = none)
      (hw : 0 < w₁.wsem) : (machine c).Hits t anyhow Q (writeBody f ptr n) w₁ := by
    let w₂ := w₁.setJob f { w₁.jobs f with len := n % 2^32 }
    have hjob : w₂.jobs f = { w.jobs f with len := n } := by
      show Function.update w₁.jobs f _ f = _
      rw [Function.update_self,hj,Nat.mod_eq_of_lt hlt]
    have hM₂ : (w₂.jobs f).isM = m := by rw [hjob]; exact hM
    have hlen : (w₂.jobs f).len = n := by rw [hjob]
    refine .step .ok trivial rfl (.step .ok trivial rfl ?_)
    show (machine c).Hits t anyhow Q (if (w₂.jobs f).isNotMM = true
      then writeCopyIn f ptr n else writeLocked f ptr) w₂
    split
    · exact writeCopyIn_hits hgo hM₂ hop hw hlen hn
    · rename_i hmm
      exact writeLocked_hits hgo ⟨hM₂,hop,hlen,fun h => absurd h hmm⟩ hw
  have hlive : (machine c).Hits t anyhow Q (writeLive f ptr n) w := by
    have hcheck : (machine c).Can t anyhow (fun b w₁ => b = false ∧ w₁.jobs f = w.jobs f ∧
        w₁.card.op = none ∧ 0 < w₁.wsem) (isNotLive 0x0fffffff) w :=
      .act .ok trivial rfl (.act (.value 0) trivial rfl (.ret ⟨rfl,rfl,hop,hw⟩))
    refine .after hcheck (fun b w₁ hb => ?_)
    obtain ⟨rfl,hj,hop,hw⟩ := hb
    exact hbody w₁ hj hop hw
  refine .step .ok trivial rfl ?_
  rw [if_neg (by decide)]
  refine .step .ok trivial rfl ?_
  rw [if_neg (by decide)]
  refine .step .ok trivial rfl ?_
  cases hmm : (w.jobs f).flag .isNotMM with
  | true => exact hlive
  | false =>
    have hm : m = true := by
      by_contra h0
      rw [Bool.not_eq_true] at h0
      exact absurd (hmm.symm.trans (hN h0)) (by decide)
    refine .step .ok trivial rfl ?_
    rw [Job.flag,hM,if_pos hm]
    exact hlive

end

/-- The copies of a run of writes, and the bytes that the card is told to transform, stay
in the window if and only if every length has room there. -/
theorem writes_stay_inside (c : Cipher) (w : World) (size f : Nat) (L : Nat → Prop)
    (hM : (w.jobs f).isM = true) (hop : w.card.op = none) (hw : 0 < w.wsem) :
    (∀ s, (machine c).Reaches (RawWrites L) (start w) s → StaysInside size s) ↔
      ∀ n, L n → HasRoom size (min n MAX_RW_COUNT) := by
  constructor
  · intro h n hn
    by_contra hroom
    let m := min n MAX_RW_COUNT
    have hpos : 0 < m := by
      by_contra h0
      exact hroom (.inl (by omega))
    have hlt : m < 2^32 := by
      have hle : m ≤ MAX_RW_COUNT := Nat.min_le_right _ _
      unfold MAX_RW_COUNT at hle
      omega
    -- one write of that length is enough, whatever the job says
    let s₁ : System := { start w with
      thr := Function.update (fun _ => .idle) 0 (.run (.write f 0 n) w (sysWrite f 0 n)) }
    have hits : (machine c).Hits 0 anyhow (AtWork m) (sysWrite f 0 n) w :=
      pciWrite_hits (fun _ h => mmioBranch_hits h) hM (fun h0 => by cases h0) hop hw hpos hlt
    have ht : s₁.thr 0 = .run (.write f 0 n) w (sysWrite f 0 n) := by simp [s₁]
    obtain ⟨s,hr,o,ho,hk,haddr,hlen⟩ := hits.reaches (P := RawWrites L)
      (fun _ _ _ => trivial) (fun _ _ => trivial) ht rfl
    have hcall : (machine c).step (start w) (.call 0 (.write f 0 n)) = some s₁ := rfl
    have hadm : RawWrites L (start w) (.call 0 (.write f 0 n)) := hn
    have hin := (h s (.head hadm hcall hr)).2 o ho hk
    rw [haddr,hlen] at hin
    exact hroom ((inside_iff size m).mp hin)
  · intro hL s hr
    have hstart : (gauged size).Holds (start w) (fun _ => ⟨none,false⟩) := by
      refine ⟨⟨(fun _ _ hf => nomatch hf),(fun _ ht => nomatch ht),fun o ho => ?_⟩,fun _ => trivial⟩
      rw [show (start w).world.card.op = none from hop] at ho
      cases ho
    obtain ⟨g,hg⟩ := (gaugedOutline c hL).reaches hstart hr
    refine ⟨fun t p n hn => (inside_iff size n).mpr ?_,fun o ho hk => ?_⟩
    · rcases hn with hn | hn
      · exact hg.next hn
      · exact hg.next hn
    · obtain ⟨haddr,hlen⟩ := hg.1.op o ho hk
      rw [haddr]
      exact (inside_iff size _).mpr hlen

/-- The steps of a mapped write up to the start of the card. -/
def startSteps (n : Nat) : List Step :=
  .call 0 (.write 0 0 n) :: List.replicate 5 (.act 0 .ok) ++ .act 0 (.value 0) ::
    List.replicate 13 (.act 0 .ok)

/-- The card is at work on the window up to offset `m`. -/
def worksUpTo (m : Nat) (s : System) : Bool :=
  s.world.card.op.any (fun o => decide (o.kind = .mmio ∧ o.addr = r1Start ∧ o.addr+o.len = m))

/-- A call of `write` with `n` bytes, or an action. -/
def rawStep (n : Nat) (_ : System) : Step → Bool
  | .call _ (.write _ _ n') => n' == n
  | .act _ _ => true
  | _ => false

theorem startSteps_reach (n : Nat) {m : Nat} (h : ((machine (.bytewise fun _ _ x => x)).runIf 1
      (rawStep n) (start (.boot (fun _ => 0) (fun _ => 0))) (startSteps n)).any
      (worksUpTo m) = true) :
    ∃ s, (machine (.bytewise fun _ _ x => x)).Reaches (RawWrites (· = n))
      (start (.boot (fun _ => 0) (fun _ => 0))) s ∧ worksUpTo m s = true := by
  have hadm (s : System) (l : Step) (_ : s.Quiet 1) (hb : rawStep n s l = true) :
      RawWrites (· = n) s l := by
    cases l with
    | call t cl =>
      cases cl with
      | write f ptr n' => exact beq_iff_eq.mp hb
      | _ => cases hb
    | _ => trivial
  obtain ⟨s,hr,_,hp⟩ := Machine.exists_reaches hadm (startSteps n) (start_quiet _ 1) h
  exact ⟨s,hr,hp⟩

/-- The longest write that fills the window of a card with 1 MB. -/
theorem writes_stay_inside_full : ∃ s,
    (machine (.bytewise fun _ _ x => x)).Reaches (RawWrites (· = 0xfff58))
      (start (.boot (fun _ => 0) (fun _ => 0))) s ∧
    worksUpTo 0x100000 s = true ∧ StaysInside 0x100000 s := by
  obtain ⟨s,hr,hp⟩ := startSteps_reach 0xfff58 (m := 0x100000) (by decide +kernel)
  refine ⟨s,hr,hp,(writes_stay_inside _ (.boot (fun _ => 0) (fun _ => 0)) 0x100000 0
    (· = 0xfff58) rfl rfl Nat.one_pos).mpr (fun n hn => ?_) s hr⟩
  subst hn
  exact .inr (by decide)

/-- A file that has just been opened, and a write of as much as the kernel lets through. -/
theorem writes_stay_inside_fails :
    ¬ ∀ (c : Cipher) (w : World) (size f n : Nat), n ≤ MAX_RW_COUNT → (w.jobs f).isM = true →
      w.card.op = none → 0 < w.wsem → ∀ s,
      (machine c).Reaches (RawWrites (· = n)) (start w) s → StaysInside size s := by
  intro h
  obtain ⟨s,hr,hp⟩ := startSteps_reach 0x7ffff000 (m := 0x7ffff0a8) (by decide +kernel)
  obtain ⟨o,ho,hp⟩ := Option.any_eq_true _ _ |>.mp hp
  obtain ⟨hk,haddr,hm⟩ := of_decide_eq_true hp
  have hin := (h _ _ 0x100000 0 _ (Nat.le_refl _) rfl rfl Nat.one_pos s hr).2 o ho hk
  have hlast := hin 0x7ffff0a7 (by rw [haddr]; decide) (by omega)
  exact absurd hlast.2.2 (by decide)

end CryptoCard
