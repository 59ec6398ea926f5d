import CryptoCard.Grip
import CryptoCard.Lifetimes
import CryptoCard.Lockstep
import CryptoCard.Mirror
set_option autoImplicit false

/-! What one client's bytes do to what another one sees through its mapping: two runs
that differ in these bytes only. -/
namespace CryptoCard
open Memory Program Interleave

/-- The card treats every byte on its own. -/
def Cipher.Pointwise (c : Cipher) : Prop := ∀ d k, ∃ f : Byte → Byte, ∀ xs, c.run d k xs = xs.map f

/-- Bytes in the first `N` bytes of the window stay there. -/
def Cipher.Local (c : Cipher) (N : Nat) : Prop := c.Pointwise ∨ N = 0

/-- What the card makes of its memory by an operation on the start of the window. -/
def Cipher.crypted (c : Cipher) (o : Op) (m : Nat → Byte) : Nat → Byte :=
  store m r1Start (c.run o.decrypt o.key (load m r1Start o.len))

/-- The same world with other bytes in user memory, in the kernel's buffers and in the card. -/
def World.other (w : World) (um : Nat → Byte) (hp : Nat → Buf) (m : Nat → Byte) : World :=
  { w with umem := um, heap := hp, card := { w.card with mem := m } }

/-- The other bytes of `w` are those of client `A`, or lie in the first `N` bytes of the
window where no other client has put bytes of its own. -/
structure Masked (c : Cipher) (A N : Nat) (owner : Nat → Nat) (g : Nat → Grip) (w : World)
    (um : Nat → Byte) (hp : Nat → Buf) (m : Nat → Byte) : Prop where
  shape : ∀ b, (hp b).shape = (w.heap b).shape
  mem : ∀ x, ¬ Within r1Start N x → m x = w.card.mem x
  umem : c.Local N → ∀ x, owner x ≠ A → um x = w.umem x
  heap : c.Local N → ∀ b, (w.heap b).owner ≠ A → (hp b).data = (w.heap b).data
  put : c.Local N → ∀ u, u ≠ A → ∀ x, Within r1Start (g u).put x → m x = w.card.mem x

/-- The same world but for masked bytes. -/
def Veiled (c : Cipher) (A N : Nat) (owner : Nat → Nat) (g : Nat → Grip) (w w' : World) : Prop :=
  ∃ um hp m, w' = w.other um hp m ∧ Masked c A N owner g w um hp m

inductive SameCode (A : Nat) : Nat → Code Int → Code Int → Prop where
  | same (t : Nat) (p : Code Int) : SameCode A t p p
  | store {addr : Nat} {xs xs' : List Byte} :
      xs'.length = xs.length → SameCode A A (.act (.userStore addr xs) (fun _ => .ret 0))
        (.act (.userStore addr xs') (fun _ => .ret 0))

/-- No signal ends a wait for a DMA operation before the operation does, and `A` copies at
most `N` bytes into the window at a time. Where the card may carry bytes from one place to
another, the same goes for everyone and for every MMIO operation. -/
def Confined (c : Cipher) (A N : Nat) (holder owner : Nat → Nat) (s : System) : Step → Prop
  | .call t call => call.Minds holder owner t
  | .act t x => cutsDma s (.act t x) = false ∧
      ∀ p n, s.next t = some (.memcpyToio p n) → t = A ∨ ¬ c.Local N → n ≤ N
  | .ret _ => True
  | .env _ => ¬ c.Local N → ∀ o, s.world.card.op = some o → o.kind = .mmio → o.len ≤ N

theorem Confined.client {c : Cipher} {A N : Nat} {holder owner : Nat → Nat} {s : System}
    {l : Step} (h : Confined c A N holder owner s l) : ClientStep holder s l := by
  cases l with
  | call t call => exact h.1
  | act t x => exact h.1
  | _ => rfl

/-- The actions that reach into memory. -/
def Act.memory : Act → Bool
  | .vmalloc _ | .vfree _ | .copyFromUser _ _ _ | .copyToUser _ _ _ => true
  | .memcpyToio _ _ | .memcpyFromio _ _ | .userStore _ _ | .mapStore _ _ => true
  | _ => false

section
variable {c : Cipher} {A N t : Nat} {owner holder : Nat → Nat} {g : Nat → Grip} {w v : World}
variable {um m m' : Nat → Byte} {hp : Nat → Buf}

theorem Cipher.crypted_outside (c : Cipher) {o : Op} (m : Nat → Byte) {x : Nat}
    (hx : ¬ Within r1Start o.len x) : c.crypted o m x = m x :=
  store_outside _ _ _ _ (by simpa using hx)

/-- Where the memories agree, they go on to agree. -/
theorem Cipher.Local.crypted (h : c.Local N) (hm : ∀ x, ¬ Within r1Start N x → m' x = m x)
    (o : Op) {x : Nat} (hx : m' x = m x) : c.crypted o m' x = c.crypted o m x := by
  obtain hc | rfl := h
  · obtain ⟨f,hf⟩ := hc o.decrypt o.key
    by_cases hin : Within r1Start o.len x
    · rw [Cipher.crypted,Cipher.crypted,hf,hf,store_map _ _ _ _ _ hin,store_map _ _ _ _ _ hin,hx]
    · rw [c.crypted_outside _ hin,c.crypted_outside _ hin,hx]
  · have hmm : m' = m := funext (fun y => hm y (fun hy => absurd hy.2 (Nat.not_lt.mpr hy.1)))
    rw [hmm]

theorem Card.start_other (d : Card) (k : Kind) (m : Nat → Byte) :
    Card.start { d with mem := m } k = { d.start k with mem := m } := by
  cases ho : d.op <;> simp [Card.start,ho]

theorem Card.iowrite_other (d : Card) (r : Reg) (n : Nat) (m : Nat → Byte) :
    Card.iowrite { d with mem := m } r n = { d.iowrite r n with mem := m } := by
  cases r with
  | dataAddr => exact Card.start_other { d with regs := d.regs.set .dataAddr n } .mmio m
  | cmd =>
    simp only [Card.iowrite]
    split
    · exact Card.start_other { d with regs := d.regs.set .cmd n } .dma m
    · rfl
  | _ => rfl

/-- Other bytes make no difference to an action that does not reach for them. -/
theorem World.exec_other {a : Act} (ha : a.memory = false) (t : Nat) (x : Choice) (w : World)
    (um : Nat → Byte) (hp : Nat → Buf) (m : Nat → Byte) :
    World.exec t a x (w.other um hp m) =
      (World.exec t a x w).map (Out.map (fun w => w.other um hp m)) := by
  cases a with
  | iowrite r n => simp [World.exec,Out.map,World.other,Card.iowrite_other]
  | downInterruptible =>
    cases x with
    | ok =>
      by_cases hw : w.wsem = 0 <;> simp [World.exec,World.downInterruptible,World.other,Out.map,hw]
    | _ => rfl
  | ioread r => cases r <;> cases x <;> rfl
  | pollBusy k =>
    have hbusy : (w.other um hp m).card.busy k = w.card.busy k := rfl
    cases hb : w.card.busy k <;> simp [World.exec,Out.map,hbusy,hb]
  | waitEvent k =>
    have hbusy : (w.other um hp m).card.busy k = w.card.busy k := rfl
    have htask : (w.other um hp m).task t = w.task t := rfl
    have hset (q : Wait) : (w.other um hp m).setTask t q = (w.setTask t q).other um hp m := rfl
    cases ht : w.task t with
    | awake =>
      cases hb : w.card.busy k <;> simp [World.exec,World.waitStep,Out.map,htask,hbusy,hset,ht,hb]
    | prep => simp [World.exec,World.waitStep,Out.map,htask,hset,ht]
    | queued woken =>
      cases hb : w.card.busy k <;> cases x <;>
        simp [World.exec,World.waitStep,Out.map,htask,hbusy,hset,ht,hb]
    | asleep => cases x <;> simp [World.exec,World.waitStep,Out.map,htask,hset,ht]
  | dmaMapSingle p n => cases x <;> rfl
  | vmalloc n => cases ha
  | vfree p => cases ha
  | copyFromUser p ptr n => cases ha
  | copyToUser ptr p n => cases ha
  | memcpyToio p n => cases ha
  | memcpyFromio p n => cases ha
  | userStore addr xs => cases ha
  | mapStore off xs => cases ha
  | _ => rfl

/-- Such an action leaves all bytes alone. -/
theorem World.exec_bytes {a : Act} {x : Choice} {o : Out World a.Res} (ha : a.memory = false)
    (he : World.exec t a x w = some o) :
    o = o.map (fun v => v.other w.umem w.heap w.card.mem) := by
  have ho := World.exec_other ha t x w w.umem w.heap w.card.mem
  rw [show w.other w.umem w.heap w.card.mem = w from rfl,he] at ho
  exact Option.some.inj ho

namespace Masked

theorem usable (h : Masked c A N owner g w um hp m) (p : Option Nat) (n : Nat) :
    (w.other um hp m).usable p n = w.usable p n := by
  unfold World.usable
  congr 1
  funext b
  obtain ⟨_,hl,_,hn⟩ := Buf.shape_eq (h.shape b)
  simp only [World.other,hl,hn]

/-- The card reaches into the same buffers. -/
theorem dmaInside (h : Masked c A N owner g w um hp m) (hw : w.DmaInside) :
    (w.other um hp m).DmaInside := by
  intro o ho hk
  obtain ⟨t,b,hm,hb⟩ := hw o ho hk
  obtain ⟨hown,hlive,hfrees,hlen⟩ := Buf.shape_eq (h.shape b)
  refine ⟨t,b,hm,hb.lt,hown.trans hb.owner,hlive.trans hb.live,hfrees.trans hb.frees,
    hlen.trans hb.length,fun b' hb' ho' hl' => ?_⟩
  obtain ⟨hown',hlive',_,_⟩ := Buf.shape_eq (h.shape b')
  exact hb.only b' hb' (hown'.symm.trans ho') (hlive'.symm.trans hl')

theorem dmaTarget (h : Masked c A N owner g w um hp m) (a n : Nat) :
    (w.other um hp m).dmaTarget a n = w.dmaTarget a n := by
  simp only [World.dmaTarget,h.usable]
  rfl

/-- Nothing but the threads' places in the window, and these only get smaller. -/
theorem congr (h : Masked c A N owner g w um hp m) {g' : Nat → Grip}
    (hv : v = v.other w.umem w.heap w.card.mem) (hput : ∀ u, (g' u).put ≤ (g u).put) :
    Masked c A N owner g' v um hp m := by
  rw [hv]
  refine ⟨h.shape,h.mem,h.umem,h.heap,fun hl u hu x hx => h.put hl u hu x ⟨hx.1,?_⟩⟩
  exact Nat.lt_of_lt_of_le hx.2 (Nat.add_le_add_left (hput u) r1Start)

/-- The same bytes for a buffer that is not `A`'s. -/
theorem fill (h : Masked c A N owner g w um hp m) (b : Nat) {xs xs' : List Byte}
    (hlen : xs'.length = xs.length)
    (hxs : c.Local N → (w.heap b).owner ≠ A → xs' = xs) :
    Masked c A N owner g (w.fill b xs) um ((w.other um hp m).fill b xs').heap m where
  shape b' := by
    by_cases hb : b' = b
    · subst b'
      obtain ⟨ho,hl,hf,hn⟩ := Buf.shape_eq (h.shape b)
      simp [World.fill,World.setBuf,World.other,Buf.shape,ho,hl,hf,hn,hlen]
    · simpa [World.fill,World.setBuf,World.other,hb] using h.shape b'
  mem := h.mem
  umem := h.umem
  heap hl b' ho := by
    by_cases hb : b' = b
    · subst b'
      have ho : (w.heap b).owner ≠ A := by simpa [World.fill,World.setBuf] using ho
      simp [World.fill,World.setBuf,World.other,hxs hl ho,h.heap hl b ho]
    · have ho : (w.heap b').owner ≠ A := by simpa [World.fill,World.setBuf,hb] using ho
      simpa [World.fill,World.setBuf,World.other,hb] using h.heap hl b' ho
  put := h.put

/-- The same bytes for memory of a client that is not `A`. -/
theorem setUmem (h : Masked c A N owner g w um hp m) (addr : Nat) {xs xs' : List Byte}
    (hlen : xs'.length = xs.length) (hown : ∀ x, Within addr xs.length x → owner x = t)
    (hxs : c.Local N → t ≠ A → xs' = xs) :
    Masked c A N owner g (w.setUmem addr xs) (store um addr xs') hp m where
  shape := h.shape
  mem := h.mem
  umem hl x hx := by
    by_cases hin : Within addr xs.length x
    · have ht : t ≠ A := fun e => hx ((hown x hin).trans e)
      simp only [World.setUmem,hxs hl ht]
      rw [store_within _ _ _ _ hin,store_within _ _ _ _ hin]
    · simp only [World.setUmem]
      rw [store_outside _ _ _ _ hin,store_outside _ _ _ _ (by rwa [hlen]),h.umem hl x hx]
  heap := h.heap
  put := h.put

theorem allocate (h : Masked c A N owner g w um hp m) (t n : Nat) (junk : Nat → Byte) :
    Masked c A N owner g (w.allocate t n junk) um ((w.other um hp m).allocate t n junk).heap m where
  shape b := by
    by_cases hb : b = w.nbuf
    · subst b
      simp [World.allocate,World.setBuf,World.other]
    · simpa [World.allocate,World.setBuf,World.other,hb] using h.shape b
  mem := h.mem
  umem := h.umem
  heap hl b ho := by
    by_cases hb : b = w.nbuf
    · subst b
      simp [World.allocate,World.setBuf,World.other]
    · have ho : (w.heap b).owner ≠ A := by simpa [World.allocate,World.setBuf,hb] using ho
      simpa [World.allocate,World.setBuf,World.other,hb] using h.heap hl b ho
  put := h.put

theorem release (h : Masked c A N owner g w um hp m) (p : Option Nat) :
    Masked c A N owner g (w.release p) um ((w.other um hp m).release p).heap m := by
  cases p with
  | none => exact h
  | some b =>
    refine ⟨fun b' => ?_,h.mem,h.umem,fun hl b' ho => ?_,h.put⟩
    · by_cases hb : b' = b
      · subst b'
        obtain ⟨ho,_,hf,hn⟩ := Buf.shape_eq (h.shape b)
        simp [World.release,World.setBuf,World.other,Buf.shape,ho,hf,hn]
      · simpa [World.release,World.setBuf,World.other,hb] using h.shape b'
    · by_cases hb : b' = b
      · subst b'
        have ho : (w.heap b).owner ≠ A := by simpa [World.release,World.setBuf] using ho
        simpa [World.release,World.setBuf,World.other] using h.heap hl b ho
      · have ho : (w.heap b').owner ≠ A := by simpa [World.release,World.setBuf,hb] using ho
        simpa [World.release,World.setBuf,World.other,hb] using h.heap hl b' ho

/-- The same bytes for any place in the card's memory. -/
theorem setMem (h : Masked c A N owner g w um hp m) (off : Nat) (xs : List Byte) :
    Masked c A N owner g (w.setMem off xs) um hp (store m off xs) := by
  have hat {x : Nat} (hx : m x = w.card.mem x) : store m off xs x = (w.setMem off xs).card.mem x := by
    simp only [World.setMem]
    by_cases hin : Within off xs.length x
    · rw [store_within _ _ _ _ hin,store_within _ _ _ _ hin]
    · rw [store_outside _ _ _ _ hin,store_outside _ _ _ _ hin,hx]
  exact ⟨h.shape,fun x hx => hat (h.mem x hx),h.umem,h.heap,fun hl u hu x hx => hat (h.put hl u hu x hx)⟩

/-- A client's own bytes at the start of the window, as long as nobody else has some there. -/
theorem toio (h : Masked c A N owner g w um hp m) {xs xs' : List Byte} {γ : Grip}
    (hlen : xs'.length = xs.length) (hput : γ.put = xs.length)
    (hxs : c.Local N → t ≠ A → xs' = xs) (hN : t = A ∨ ¬ c.Local N → xs.length ≤ N)
    (hfree : ∀ u, u ≠ t → (g u).put = 0) :
    Masked c A N owner (Function.update g t γ) (w.setMem r1Start xs) um hp
      (store m r1Start xs') := by
  refine ⟨h.shape,fun x hx => ?_,h.umem,h.heap,fun hl u hu x hx => ?_⟩
  · by_cases hall : t = A ∨ ¬ c.Local N
    · have hout : ¬ Within r1Start xs.length x := fun hin =>
        hx ⟨hin.1,Nat.lt_of_lt_of_le hin.2 (Nat.add_le_add_left (hN hall) r1Start)⟩
      simp only [World.setMem]
      rw [store_outside _ _ _ _ hout,store_outside _ _ _ _ (by rwa [hlen]),h.mem x hx]
    · obtain ⟨ht,hl⟩ := not_or.mp hall
      rw [hxs (not_not.mp hl) ht]
      exact (h.setMem r1Start xs).mem x hx
  · by_cases hut : u = t
    · subst u
      rw [Function.update_self,hput] at hx
      simp only [World.setMem,hxs hl hu]
      rw [store_within _ _ _ _ hx,store_within _ _ _ _ hx]
    · rw [Function.update_of_ne hut,hfree u hut] at hx
      exact absurd hx.2 (Nat.not_lt.mpr hx.1)

theorem transform (h : Masked c A N owner g w um hp m) {o : Op}
    (haddr : o.kind = .mmio → o.addr = r1Start)
    (hN : ¬ c.Local N → o.kind = .mmio → o.len ≤ N) :
    Veiled c A N owner g (w.transform c o) ((w.other um hp m).transform c o) := by
  cases hk : o.kind with
  | mmio =>
    simp only [World.transform,hk,haddr hk]
    refine ⟨um,hp,c.crypted o m,rfl,h.shape,fun x hx => ?_,h.umem,h.heap,fun hl u hu x hx =>
      hl.crypted h.mem o (h.put hl u hu x hx)⟩
    by_cases hl : c.Local N
    · exact hl.crypted h.mem o (h.mem x hx)
    · have hout : ¬ Within r1Start o.len x := fun hin =>
        hx ⟨hin.1,Nat.lt_of_lt_of_le hin.2 (Nat.add_le_add_left (hN hl hk) r1Start)⟩
      exact (c.crypted_outside m hout).trans ((h.mem x hx).trans (c.crypted_outside _ hout).symm)
  | dma =>
    simp only [World.transform,hk,h.dmaTarget]
    cases ht : w.dmaTarget o.addr o.len with
    | none => exact ⟨um,hp,m,rfl,h⟩
    | some b =>
      refine ⟨um,_,m,rfl,h.fill b ?_ (fun hl ho => ?_)⟩
      · simp [World.other,(Buf.shape_eq (h.shape b)).2.2.2]
      · simp [World.other,h.heap hl b ho]

end Masked

/-- A buffer that a call uses is its thread's. -/
theorem Grips.uses (h : Grips holder owner g w) {p : Option Nat} {n b : Nat}
    (hp : (g t).Uses p) (hb : w.usable p n = some b) : (w.heap b).owner = t := by
  obtain ⟨f,hf,rfl⟩ := hp
  have hh := h.file t f hf
  have hmsg : (w.jobs f).msg = some b := by
    rw [h.jobs f,hh]
    exact (World.usable_eq hb).1
  exact (h.msg f b hmsg).2.trans hh

/-- Only a copy to the window puts bytes there. -/
theorem Grip.Next.put_le {v v' : Grip} {a : Act} {r : a.Res} (h : v.Next a r v')
    (ha : ∀ p n, a ≠ .memcpyToio p n) : v'.put ≤ v.put := by
  cases a with
  | memcpyToio p n => exact absurd rfl (ha p n)
  | flag f y => exact Nat.le_of_eq (by rw [h.1])
  | len f => exact Nat.le_of_eq (by rw [h.1])
  | msg f => exact Nat.le_of_eq (by rw [h.1])
  | downInterruptible => cases h; exact Nat.zero_le _
  | up => cases h; exact Nat.zero_le _
  | _ => cases h; exact Nat.le_refl _

theorem put_le_update {γ : Grip} (h : γ.put ≤ (g t).put) (u : Nat) :
    (Function.update g t γ u).put ≤ (g u).put := by
  by_cases hut : u = t
  · subst u
    rwa [Function.update_self]
  · exact Nat.le_of_eq (by rw [Function.update_of_ne hut])

/-- The same action in both worlds has the same answer; it makes `g'` of `g`. -/
abbrev Answers (c : Cipher) (A N : Nat) (owner : Nat → Nat) (g g' : Nat → Grip) (t : Nat)
    {a : Act} (k : a.Res → Code Int) : Out World a.Res → Out World a.Res → Prop :=
  Out.Near (SameCode A t) (Veiled c A N owner g) (fun _ => Veiled c A N owner g') k k

namespace Masked
variable {p : Option Nat} {n ptr : Nat} {x : Choice}

theorem bare (h : Masked c A N owner g w um hp m) {a : Act} {k : a.Res → Code Int}
    {o o' : Out World a.Res} (ha : a.memory = false) (he : World.exec t a x w = some o)
    (he' : World.exec t a x (w.other um hp m) = some o') : Answers c A N owner g g t k o o' := by
  have hkeep {v : World} (hv : v = v.other w.umem w.heap w.card.mem) :
      Veiled c A N owner g v (v.other um hp m) :=
    ⟨um,hp,m,rfl,h.congr hv (fun _ => Nat.le_refl _)⟩
  have hb := World.exec_bytes ha he
  rw [World.exec_other ha,he] at he'
  cases he'
  cases o with
  | stay v => exact .stay (hkeep (Out.stay.inj hb))
  | done r v => exact .done (.same _ _) (hkeep (Out.done.inj hb).2)
  | oops v => exact .oops (hkeep (Out.oops.inj hb))

theorem vmalloc (h : Masked c A N owner g w um hp m) {k : Option Nat → Code Int}
    {o o' : Out World (Option Nat)} (he : w.vmalloc t n x = some o)
    (he' : (w.other um hp m).vmalloc t n x = some o') :
    Answers c A N owner g g t (a := .vmalloc n) k o o' := by
  unfold World.vmalloc at he he'
  cases x with
  | fail =>
    cases he
    cases he'
    exact .done (.same _ _) ⟨um,hp,m,rfl,h⟩
  | junk junk =>
    by_cases hn : n = 0
    · simp only [if_pos hn] at he he'
      cases he
      cases he'
      exact .done (.same _ _) ⟨um,hp,m,rfl,h⟩
    · simp only [if_neg hn] at he he'
      cases he
      cases he'
      exact .done (.same _ _) ⟨um,_,m,rfl,h.allocate t n junk⟩
  | _ => cases he

theorem copyFromUser (h : Masked c A N owner g w um hp m) (hG : Grips holder owner g w)
    (hu : (g t).Uses p) (hc : (g t).Covers ptr n) {k : Nat → Code Int} {o o' : Out World Nat}
    (he : w.copyFromUser p ptr n x = some o)
    (he' : (w.other um hp m).copyFromUser p ptr n x = some o') :
    Answers c A N owner g g t (a := .copyFromUser p ptr n) k o o' := by
  -- the user bytes of a client that is not `A` are the same
  have hload {b i : Nat} (hb : w.usable p n = some b) (hi : i ≤ n) (hl : c.Local N)
      (ho : (w.heap b).owner ≠ A) : load um ptr i = load w.umem ptr i := by
    refine load_congr (fun y hy => h.umem hl y ?_)
    rw [hG.range t y ⟨Nat.le_trans hc.1 hy.1,Nat.lt_of_lt_of_le hy.2
      (Nat.le_trans (Nat.add_le_add_left hi ptr) hc.2)⟩,← hG.uses hu hb]
    exact ho
  simp only [World.copyFromUser,h.usable] at he he'
  cases hb : w.usable p n with
  | none =>
    rw [hb] at he he'
    cases x with
    | ok =>
      cases he
      cases he'
      exact .oops ⟨um,hp,m,rfl,h⟩
    | junk _ =>
      cases he
      cases he'
      exact .done (.same _ _) ⟨um,hp,m,rfl,h⟩
    | _ => cases he
  | some b =>
    rw [hb] at he he'
    cases x with
    | ok =>
      cases he
      cases he'
      exact .done (.same _ _) ⟨um,_,m,rfl,h.fill b (by simp) (hload hb (Nat.le_refl n))⟩
    | fault i =>
      by_cases hi : i < n
      · simp only [if_pos hi] at he he'
        cases he
        cases he'
        refine .done (.same _ _) ⟨um,_,m,rfl,h.fill b (by simp) (fun hl ho => ?_)⟩
        rw [← hload hb (Nat.le_of_lt hi) hl ho]
        rfl
      · simp only [if_neg hi] at he
        cases he
    | _ => cases he

theorem copyToUser (h : Masked c A N owner g w um hp m) (hG : Grips holder owner g w)
    (hu : (g t).Uses p) (hc : (g t).Covers ptr n) {k : Nat → Code Int} {o o' : Out World Nat}
    (he : w.copyToUser ptr p n x = some o)
    (he' : (w.other um hp m).copyToUser ptr p n x = some o') :
    Answers c A N owner g g t (a := .copyToUser ptr p n) k o o' := by
  have hown {i y : Nat} (hi : i ≤ n) (hy : Within ptr i y) : owner y = t :=
    hG.range t y ⟨Nat.le_trans hc.1 hy.1,Nat.lt_of_lt_of_le hy.2
      (Nat.le_trans (Nat.add_le_add_left hi ptr) hc.2)⟩
  have hset {b i : Nat} (hb : w.usable p n = some b) (hi : i ≤ n) :
      Masked c A N owner g (w.setUmem ptr ((w.heap b).data.take i))
        (store um ptr ((hp b).data.take i)) hp m := by
    have hlen : (hp b).data.length = (w.heap b).data.length := (Buf.shape_eq (h.shape b)).2.2.2
    refine h.setUmem ptr (t := t) (by simp [hlen]) (fun y hy => hown (i := i) hi ?_) (fun hl ht => ?_)
    · exact ⟨hy.1,Nat.lt_of_lt_of_le hy.2 (Nat.add_le_add_left (List.length_take_le i _) ptr)⟩
    · rw [h.heap hl b (by rwa [hG.uses hu hb])]
  simp only [World.copyToUser,h.usable] at he he'
  cases hb : w.usable p n with
  | none =>
    rw [hb] at he he'
    cases x with
    | ok =>
      cases he
      cases he'
      exact .oops ⟨um,hp,m,rfl,h⟩
    | junk junk =>
      cases he
      cases he'
      exact .done (.same _ _) ⟨_,hp,m,rfl,h.setUmem ptr (t := t) rfl
        (fun y hy => hown (Nat.le_refl n) (by simpa using hy)) (fun _ _ => rfl)⟩
    | _ => cases he
  | some b =>
    rw [hb] at he he'
    cases x with
    | ok =>
      cases he
      cases he'
      exact .done (.same _ _) ⟨_,hp,m,rfl,hset hb (Nat.le_refl n)⟩
    | fault i =>
      by_cases hi : i < n
      · simp only [if_pos hi] at he he'
        cases he
        cases he'
        exact .done (.same _ _) ⟨_,hp,m,rfl,hset hb (Nat.le_of_lt hi)⟩
      · simp only [if_neg hi] at he
        cases he
    | _ => cases he

theorem memcpyFromio (h : Masked c A N owner g w um hp m) (hG : Grips holder owner g w)
    (hu : (g t).Uses p) (hn : n ≤ (g t).put) {k : Unit → Code Int} {o o' : Out World Unit}
    (he : w.memcpyFromio p n x = some o) (he' : (w.other um hp m).memcpyFromio p n x = some o') :
    Answers c A N owner g g t (a := .memcpyFromio p n) k o o' := by
  simp only [World.memcpyFromio,h.usable] at he he'
  cases hb : w.usable p n with
  | none =>
    rw [hb] at he he'
    cases x with
    | ok =>
      cases he
      cases he'
      exact .oops ⟨um,hp,m,rfl,h⟩
    | junk _ =>
      cases he
      cases he'
      exact .done (.same _ _) ⟨um,hp,m,rfl,h⟩
    | _ => cases he
  | some b =>
    rw [hb] at he he'
    cases x with
    | ok =>
      cases he
      cases he'
      refine .done (.same _ _) ⟨um,_,m,rfl,h.fill b (by simp) (fun hl ho => ?_)⟩
      -- what the window holds there is what the call has put into it
      rw [hG.uses hu hb] at ho
      exact load_congr (fun y hy => h.put hl t ho y
        ⟨hy.1,Nat.lt_of_lt_of_le hy.2 (Nat.add_le_add_left hn r1Start)⟩)
    | _ => cases he

theorem memcpyToio (h : Masked c A N owner g w um hp m) (hG : Grips holder owner g w)
    (hu : (g t).Uses p) (hh : (g t).held = true) (hN : t = A ∨ ¬ c.Local N → n ≤ N)
    {k : Unit → Code Int} {o o' : Out World Unit} (he : w.memcpyToio p n x = some o)
    (he' : (w.other um hp m).memcpyToio p n x = some o') {γ : Grip} (hγ : γ.put = n) :
    Answers c A N owner g (Function.update g t γ) t (a := .memcpyToio p n) k o o' := by
  have hfree (u : Nat) (hut : u ≠ t) : (g u).put = 0 := by
    exact Nat.eq_zero_of_not_pos (fun hpos => hut (hG.sem.unique (hG.put u hpos) hh))
  simp only [World.memcpyToio,h.usable] at he he'
  cases hb : w.usable p n with
  | none =>
    rw [hb] at he he'
    cases x with
    | ok =>
      cases he
      cases he'
      exact .oops ⟨um,hp,m,rfl,h⟩
    | junk junk =>
      cases he
      cases he'
      exact .done (.same _ _) ⟨um,hp,_,rfl,h.toio rfl (by simp [hγ]) (fun _ _ => rfl)
        (fun ht => by simpa using hN ht) hfree⟩
    | _ => cases he
  | some b =>
    rw [hb] at he he'
    cases x with
    | ok =>
      cases he
      cases he'
      have hlen : (hp b).data.length = (w.heap b).data.length := (Buf.shape_eq (h.shape b)).2.2.2
      have hn : ((w.heap b).data.take n).length = n := by
        rw [List.length_take,Nat.min_eq_left (World.le_of_usable hb)]
      refine .done (.same _ _) ⟨um,hp,_,rfl,h.toio ?_ (hγ.trans hn.symm) (fun hl ht => ?_)
        (fun ht => by rw [hn]; exact hN ht) hfree⟩
      · simp [World.other,hlen]
      · simp only [World.other]
        rw [h.heap hl b (by rwa [hG.uses hu hb])]
    | _ => cases he

end Masked

namespace Veiled
variable {w' : World}

theorem lower (h : Veiled c A N owner g w w') {g' : Nat → Grip} (hput : ∀ u, (g' u).put ≤ (g u).put) :
    Veiled c A N owner g' w w' := by
  obtain ⟨um,hp,m,rfl,h⟩ := h
  exact ⟨um,hp,m,rfl,h.congr rfl hput⟩

theorem acts (h : Veiled c A N owner g w w') (hG : Grips holder owner g w) {a : Act}
    (hok : (g t).Ok a) (hN : ∀ p n, a = .memcpyToio p n → t = A ∨ ¬ c.Local N → n ≤ N)
    {k : a.Res → Code Int} {x : Choice} {o o' : Out World a.Res}
    (he : World.exec t a x w = some o) (he' : World.exec t a x w' = some o') :
    Out.Near (SameCode A t) (Veiled c A N owner g) (fun r v v' => ∀ γ, (g t).Next a r γ →
      Veiled c A N owner (Function.update g t γ) v v') k k o o' := by
  have hlower (ha : ∀ p n, a ≠ .memcpyToio p n) (hk : Answers c A N owner g g t k o o') :
      Out.Near (SameCode A t) (Veiled c A N owner g) (fun r v v' => ∀ γ, (g t).Next a r γ →
        Veiled c A N owner (Function.update g t γ) v v') k k o o' := by
    exact hk.imp (fun r v v' hv γ hγ => hv.lower (put_le_update (hγ.put_le ha)))
  obtain ⟨um,hp,m,rfl,h⟩ := h
  by_cases ha : a.memory = false
  · exact hlower (fun p n e => by subst e; cases ha) (h.bare ha he he')
  · cases a with
    | vmalloc n => exact hlower (fun _ _ e => by cases e) (h.vmalloc he he')
    | vfree p =>
      cases he
      cases he'
      exact hlower (fun _ _ e => by cases e) (.done (.same _ _) ⟨um,_,m,by cases p <;> rfl,h.release p⟩)
    | copyFromUser p ptr n =>
      exact hlower (fun _ _ e => by cases e) (h.copyFromUser hG hok.1 hok.2 he he')
    | copyToUser ptr p n =>
      exact hlower (fun _ _ e => by cases e) (h.copyToUser hG hok.1 hok.2 he he')
    | memcpyToio p n =>
      have hput : ({ g t with put := n } : Grip).put = n := rfl
      refine (h.memcpyToio hG hok.1 hok.2 (hN p n rfl) he he' hput).imp (fun r v v' hv γ hγ => ?_)
      cases hγ
      exact hv
    | memcpyFromio p n =>
      exact hlower (fun _ _ e => by cases e) (h.memcpyFromio hG hok.1 hok.2 he he')
    | userStore addr xs =>
      cases he
      cases he'
      exact hlower (fun _ _ e => by cases e) (.done (.same _ _) ⟨_,hp,m,rfl,h.setUmem addr (t := t) rfl
        (fun y hy => hG.range t y ⟨Nat.le_trans hok.1 hy.1,Nat.lt_of_lt_of_le hy.2 hok.2⟩)
        (fun _ _ => rfl)⟩)
    | mapStore off xs =>
      cases he
      cases he'
      exact hlower (fun _ _ e => by cases e) (.done (.same _ _) ⟨um,hp,_,rfl,h.setMem off xs⟩)
    | _ => exact absurd rfl ha

theorem env (h : Veiled c A N owner g w w') (hG : Grips holder owner g w) {e : World.Env}
    (hN : ¬ c.Local N → ∀ o, w.card.op = some o → o.kind = .mmio → o.len ≤ N) {v v' : World}
    (he : World.env c e w = some v) (he' : World.env c e w' = some v') :
    Veiled c A N owner g v v' := by
  obtain ⟨um,hp,m,rfl,h⟩ := h
  cases e with
  | finish =>
    have hcard : (w.other um hp m).card.op = w.card.op := rfl
    have hraise : (w.other um hp m).card.raising = w.card.raising := rfl
    simp only [World.env,hcard,hraise] at he he'
    cases ho : w.card.op with
    | none =>
      rw [ho] at he
      cases he
    | some o =>
      simp only [ho] at he he'
      split at he
      · cases he
      · rename_i hi
        rw [if_neg hi] at he'
        cases he
        cases he'
        obtain ⟨um',hp',m',heq,h'⟩ := h.transform (hG.op o ho) (fun hl hk => hN hl o ho hk)
        rw [heq]
        exact ⟨um',hp',m',rfl,h'.shape,h'.mem,h'.umem,h'.heap,h'.put⟩
  | raise =>
    have hraise : (w.other um hp m).card.raising = w.card.raising := rfl
    simp only [World.env,hraise] at he he'
    cases hr : w.card.raising with
    | none =>
      rw [hr] at he
      cases he
    | some k =>
      simp only [hr] at he he'
      cases he
      cases he'
      exact ⟨um,hp,m,rfl,h.shape,h.mem,h.umem,h.heap,h.put⟩

end Veiled

end

end CryptoCard
