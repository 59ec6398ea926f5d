import CryptoCard.Ledger
set_option autoImplicit false

/-! The ledgers of all threads, side by side, account for every buffer and every
mapping of the kernel and for the card's DMA engine. -/
namespace CryptoCard
open Memory Program Interleave

/-- A field of the job that a write reads more than once. -/
inductive Slot where
  | isNotMM | isM | len | msg
  deriving DecidableEq, Repr

def Act.reads : Act → Option (Nat × Slot)
  | .flag f .isNotMM => some (f,.isNotMM)
  | .flag f .isM => some (f,.isM)
  | .len f => some (f,.len)
  | .msg f => some (f,.msg)
  | _ => none

/-- The stores of a write itself. -/
def Act.puts : Act → Option (Nat × Slot)
  | .setLen f _ => some (f,.len)
  | .setMsg f _ => some (f,.msg)
  | _ => none

/-- An answer that the flag `b` in the job of `f` allows. -/
def Act.Allows (f : Nat) (b : Bool) : (a : Act) → a.Res → Prop
  | .flag f' .isNotMM, r => f' = f → r = b
  | _, _ => True

/-- The program still has to read the slot before it stores to it itself. -/
def Pending (f : Nat) (b : Bool) (y : Slot) (p : Code Int) : Prop :=
  Needs (Act.Allows f b) (fun a => a.reads = some (f,y)) (fun a => a.puts = some (f,y)) p

/-- The store changes what a write on `f` with the job `j` relies on when it still has
to read `y`. -/
def Act.Disturbs (f : Nat) (j : Job) (y : Slot) : Act → Prop
  | .setFlag f' .isNotMM b => f' = f ∧ (y = .isNotMM ∨ y = .isM) ∧ b ≠ j.isNotMM
  | .setFlag f' .isM b => f' = f ∧ y = .isM ∧ b = false ∧ j.isM = true ∧ j.isNotMM = false
  | .setLen f' n => f' = f ∧ y = .len ∧ n ≠ j.len
  | .setMsg f' p => f' = f ∧ y = .msg ∧ p ≠ j.msg
  | _ => False

/-- The slot holds what the call knows of it. -/
def Ledger.Matches (v : Ledger) (j : Job) : Slot → Prop
  | .isNotMM => j.isNotMM = v.notMM
  | .isM => j.isNotMM = v.notMM ∧ (v.notMM = false → v.isM = true → j.isM = true)
  | .len => j.len = v.len
  | .msg => j.msg = v.msg

/-- What a write still has to read of its job is as it knows it. -/
def Ledger.Knows (v : Ledger) (p : Code Int) (jobs : Nat → Job) : Prop :=
  ∀ f, v.file = some f → v.writes = true → ∀ y, Pending f (jobs f).isNotMM y p →
    v.Matches (jobs f) y

/-- A buffer without its bytes: owner, liveness, number of frees and length. -/
def Buf.shape (b : Buf) : Nat × Bool × Nat × Nat := (b.owner,b.live,b.frees,b.data.length)

/-- Thread `t` has what its ledger says, and has given back everything else. -/
structure Holdings (t : Nat) (v : Ledger) (w : World) : Prop where
  regs : ∀ R, v.bar = some R → w.card.regs = R
  buf : ∀ b, v.buf = some b → b < w.nbuf ∧ (w.heap b).shape = (t,true,0,v.size)
  freed : ∀ b, b < w.nbuf → (w.heap b).owner = t → v.buf ≠ some b →
    (w.heap b).live = false ∧ (w.heap b).frees = 1
  map : ∀ h, v.map = some h → h < w.nmap ∧ w.maps h = ⟨t,v.buf,v.size,true,0⟩ ∧ v.buf ≠ none
  unmapped : ∀ h, h < w.nmap → (w.maps h).owner = t → v.map ≠ some h →
    (w.maps h).live = false ∧ (w.maps h).unmaps = 1
  op : ∀ o, v.op = some o → v.bar ≠ none ∧ v.map = some o.addr ∧ o.len = v.size

/-- The buffers and mappings are the same but for the bytes of the buffers. -/
structure SameStore (w w' : World) : Prop where
  nbuf : w'.nbuf = w.nbuf
  nmap : w'.nmap = w.nmap
  heap : ∀ b, (w'.heap b).shape = (w.heap b).shape
  maps : w'.maps = w.maps

/-- The buffers and mappings of every thread but `t` are the same. -/
structure Keeps (t : Nat) (w w' : World) : Prop where
  bufs : ∀ b, (b < w.nbuf ∧ (w.heap b).owner ≠ t) ∨ (b < w'.nbuf ∧ (w'.heap b).owner ≠ t) →
    b < w.nbuf ∧ b < w'.nbuf ∧ (w'.heap b).shape = (w.heap b).shape
  maps : ∀ h, (h < w.nmap ∧ (w.maps h).owner ≠ t) ∨ (h < w'.nmap ∧ (w'.maps h).owner ≠ t) →
    h < w.nmap ∧ h < w'.nmap ∧ w'.maps h = w.maps h

/-- The threads share one semaphore and one card. -/
structure Books (g : Nat → Ledger) (w : World) : Prop where
  sem : Sem (fun t => (g t).bar ≠ none) w
  op : ∀ o, w.card.op = some o → o.kind = .dma → ∃ t, (g t).op = some o
  holds : ∀ t, Holdings t (g t) w

/-- Actions that neither allocate nor release. -/
def Act.keepsStore : Act → Bool
  | .vmalloc _ | .vfree _ | .dmaMapSingle _ _ | .dmaUnmapSingle _ _ => false
  | _ => true

section
variable {t u : Nat} {v v' : Ledger} {w w' : World}

theorem Buf.shape_eq {b : Buf} {o n k : Nat} {l : Bool} (h : b.shape = (o,l,k,n)) :
    b.owner = o ∧ b.live = l ∧ b.frees = k ∧ b.data.length = n := by
  simpa [Buf.shape] using h

theorem SameStore.refl (w : World) : SameStore w w := ⟨rfl,rfl,fun _ => rfl,rfl⟩

theorem SameStore.of_eq (hb : w'.nbuf = w.nbuf) (hm : w'.nmap = w.nmap) (hh : w'.heap = w.heap)
    (hs : w'.maps = w.maps) : SameStore w w' := ⟨hb,hm,fun b => by rw [hh],hs⟩

theorem SameStore.fill {b : Nat} {xs : List Byte} (h : xs.length ≤ (w.heap b).data.length) :
    SameStore w (w.fill b xs) := by
  refine ⟨rfl,rfl,fun b' => ?_,rfl⟩
  by_cases hb : b' = b
  · subst b'
    simp only [World.fill,World.setBuf,Function.update_self,Buf.shape,List.length_append,
      List.length_drop]
    rw [Nat.add_sub_cancel' h]
  · simp [World.fill,World.setBuf,hb]

theorem SameStore.keeps (h : SameStore w w') (t : Nat) : Keeps t w w' := by
  refine ⟨fun b hb => ?_,fun m hm => ?_⟩
  · rw [h.nbuf] at hb ⊢
    rcases hb with ⟨hb,_⟩ | ⟨hb,_⟩ <;> exact ⟨hb,hb,h.heap b⟩
  · rw [h.nmap] at hm ⊢
    rcases hm with ⟨hm,_⟩ | ⟨hm,_⟩ <;> exact ⟨hm,hm,by rw [h.maps]⟩

/-- The card fills buffers that are there. -/
theorem World.transform_store (c : Cipher) (w : World) (o : Op) :
    SameStore w (w.transform c o) := by
  unfold World.transform
  cases o.kind with
  | mmio => exact .of_eq rfl rfl rfl rfl
  | dma =>
    cases w.dmaTarget o.addr o.len with
    | none => exact .refl w
    | some b =>
      refine .fill ?_
      rw [Cipher.run_length,List.length_take]
      exact Nat.min_le_right _ _

/-- Whatever else an action does, buffers come and go with four actions only. -/
theorem World.exec_store {a : Act} {x : Choice} {r : a.Res} (ha : a.keepsStore = true)
    (he : World.exec t a x w = some (.done r w')) : SameStore w w' := by
  have same (h : w' = w) : SameStore w w' := h ▸ .refl w
  cases a with
  | vmalloc n => cases ha
  | vfree p => cases ha
  | dmaMapSingle p n => cases ha
  | dmaUnmapSingle m n => cases ha
  | copyFromUser p ptr n =>
    rcases World.copyFromUser_done he with ⟨b,hb,xs,hxs,rfl,_⟩ | ⟨_,_,h⟩
    · exact .fill (by rw [hxs]; exact (World.usable_eq hb).2.2)
    · exact same h
  | copyToUser ptr p n =>
    rcases World.copyToUser_done he with ⟨b,_,m,_,rfl,_⟩ | ⟨_,_,xs,_,rfl⟩ <;>
      exact .of_eq rfl rfl rfl rfl
  | memcpyToio p n =>
    obtain ⟨xs,rfl,_⟩ := World.memcpyToio_done he
    exact .of_eq rfl rfl rfl rfl
  | memcpyFromio p n =>
    rcases World.memcpyFromio_done he with ⟨b,hb,rfl⟩ | ⟨_,h⟩
    · exact .fill (by rw [load_length]; exact (World.usable_eq hb).2.2)
    · exact same h
  | downInterruptible =>
    rcases World.downInterruptible_done he with ⟨_,h,_⟩ | ⟨_,_,rfl⟩
    · exact same h
    · exact .of_eq rfl rfl rfl rfl
  | ioread reg => exact same (World.ioread_done he).1
  | pollBusy k =>
    simp only [World.exec] at he
    split at he <;> cases he
    exact .refl w
  | waitEvent k =>
    rcases (World.waitStep_done he).1 with ⟨h,_⟩ | rfl
    · exact same h
    · exact .of_eq rfl rfl rfl rfl
  | _ => cases he; exact .of_eq rfl rfl rfl rfl

/-- Only the command register starts a DMA operation. -/
theorem Card.iowrite_dma {C : Card} {reg : Reg} {n : Nat} {o : Op}
    (h : (C.iowrite reg n).op = some o) (hk : o.kind = .dma) :
    C.op = some o ∨ (reg = .cmd ∧ o = (C.regs.set .cmd n).operation .dma) := by
  rcases Card.iowrite_op h with ho | ⟨_,rfl⟩ | ho
  · exact .inl ho
  · cases hk
  · exact .inr ho

namespace Holdings

/-- The world may change in what no ledger speaks of. -/
theorem congr (h : Holdings t v w) (hs : SameStore w w')
    (hr : v.bar ≠ none → w'.card.regs = w.card.regs) : Holdings t v w' := by
  have hshape {b : Nat} {o k n : Nat} {l : Bool} :
      (w'.heap b).shape = (o,l,k,n) ↔ (w.heap b).shape = (o,l,k,n) := by rw [hs.heap b]
  have hfields (b : Nat) : (w'.heap b).owner = (w.heap b).owner ∧
      (w'.heap b).live = (w.heap b).live ∧ (w'.heap b).frees = (w.heap b).frees := by
    obtain ⟨ho,hl,hf,_⟩ := Buf.shape_eq (hs.heap b)
    exact ⟨ho,hl,hf⟩
  refine ⟨fun R hR => ?_,?_,?_,?_,?_,h.op⟩
  · rw [hr (by rw [hR]; exact Option.some_ne_none R)]
    exact h.regs R hR
  · intro b hb
    rw [hs.nbuf,hshape]
    exact h.buf b hb
  · intro b hb ho hne
    obtain ⟨ho',hl,hf⟩ := hfields b
    rw [hl,hf]
    exact h.freed b (hs.nbuf ▸ hb) (ho' ▸ ho) hne
  · rw [hs.nmap,hs.maps]
    exact h.map
  · rw [hs.nmap,hs.maps]
    exact h.unmapped

/-- Another thread's steps leave the holdings alone. -/
theorem frame (h : Holdings u v w) (hu : u ≠ t) (hk : Keeps t w w')
    (hr : v.bar ≠ none → w'.card.regs = w.card.regs) : Holdings u v w' := by
  refine ⟨fun R hR => ?_,?_,?_,?_,?_,h.op⟩
  · rw [hr (by rw [hR]; exact Option.some_ne_none R)]
    exact h.regs R hR
  · intro b hb
    obtain ⟨hlt,hsh⟩ := h.buf b hb
    obtain ⟨_,hlt',hsh'⟩ := hk.bufs b (.inl ⟨hlt,by rw [(Buf.shape_eq hsh).1]; exact hu⟩)
    exact ⟨hlt',hsh'.trans hsh⟩
  · intro b hb ho hne
    obtain ⟨hlt,_,hsh⟩ := hk.bufs b (.inr ⟨hb,by rw [ho]; exact hu⟩)
    obtain ⟨ho',hl,hf,_⟩ := Buf.shape_eq hsh
    rw [hl,hf]
    exact h.freed b hlt (ho'.symm.trans ho) hne
  · intro m hm
    obtain ⟨hlt,hsh,hne⟩ := h.map m hm
    obtain ⟨_,hlt',hsh'⟩ := hk.maps m (.inl ⟨hlt,by rw [hsh]; exact hu⟩)
    exact ⟨hlt',hsh'.trans hsh,hne⟩
  · intro m hm ho hne
    obtain ⟨hlt,_,hsh⟩ := hk.maps m (.inr ⟨hm,by rw [ho]; exact hu⟩)
    rw [hsh] at ho ⊢
    exact h.unmapped m hlt ho hne

/-- Only these fields of a ledger count. -/
theorem of_fields (h : Holdings t v w) (hs : v'.size = v.size) (hb : v'.buf = v.buf)
    (hm : v'.map = v.map) (hbar : v'.bar = v.bar) (hop : v'.op = v.op) : Holdings t v' w :=
  ⟨by rw [hbar]; exact h.regs,by rw [hb,hs]; exact h.buf,by rw [hb]; exact h.freed,
    by rw [hm,hb,hs]; exact h.map,by rw [hm]; exact h.unmapped,
    by rw [hop,hbar,hm,hs]; exact h.op⟩

theorem allocate (h : Holdings t v w) (hbuf : v.buf = none) (hmap : v.map = none)
    (g : Nat → Byte) :
    Holdings t { v with buf := some w.nbuf } (w.allocate t v.size g) ∧
      Keeps t w (w.allocate t v.size g) := by
  have hnew : ((w.allocate t v.size g).heap w.nbuf).shape = (t,true,0,v.size) := by
    simp [World.allocate,World.setBuf,Buf.shape]
  have hold {b : Nat} (hb : b ≠ w.nbuf) : (w.allocate t v.size g).heap b = w.heap b := by
    simp [World.allocate,World.setBuf,hb]
  refine ⟨⟨h.regs,?_,?_,?_,h.unmapped,h.op⟩,⟨fun b hb => ?_,fun m hm => ?_⟩⟩
  · intro b hb
    cases hb
    exact ⟨Nat.lt_succ_self _,hnew⟩
  · intro b hb ho hne
    have hb' : b ≠ w.nbuf := fun e => hne (by rw [e])
    have hb : b < w.nbuf + 1 := hb
    rw [hold hb'] at ho ⊢
    exact h.freed b (by omega) ho (by rw [hbuf]; simp)
  · intro m hm
    exact absurd (hmap.symm.trans hm) (by simp)
  · have hb' : b ≠ w.nbuf := by
      rintro rfl
      rcases hb with ⟨hb,_⟩ | ⟨_,ho⟩
      · omega
      · exact ho (Buf.shape_eq hnew).1
    have hlt : b < w.nbuf := by
      rcases hb with ⟨hb,_⟩ | ⟨hb,_⟩
      · exact hb
      · have hb : b < w.nbuf + 1 := hb
        omega
    exact ⟨hlt,Nat.lt_succ_of_lt hlt,by rw [hold hb']⟩
  · rcases hm with ⟨hm,_⟩ | ⟨hm,_⟩ <;> exact ⟨hm,hm,rfl⟩

theorem release (h : Holdings t v w) (hmap : v.map = none) :
    Holdings t { v with buf := none } (w.release v.buf) ∧ Keeps t w (w.release v.buf) := by
  cases hb : v.buf with
  | none => exact ⟨h.of_fields rfl hb.symm rfl rfl rfl,(SameStore.refl w).keeps t⟩
  | some b =>
    obtain ⟨hlt,hsh⟩ := h.buf b hb
    obtain ⟨ho,_,hf,_⟩ := Buf.shape_eq hsh
    have hold {b' : Nat} (hb' : b' ≠ b) : (w.release (some b)).heap b' = w.heap b' := by
      simp [World.release,World.setBuf,hb']
    refine ⟨⟨h.regs,(fun _ h => by cases h),?_,?_,h.unmapped,h.op⟩,⟨fun b' hb' => ?_,fun m hm => ?_⟩⟩
    · intro b' hb' ho' _
      by_cases hbb : b' = b
      · subst b'
        simp [World.release,World.setBuf,hf]
      · rw [hold hbb] at ho' ⊢
        exact h.freed b' hb' ho' (by rw [hb]; simpa using Ne.symm hbb)
    · intro m hm
      exact absurd (hmap.symm.trans hm) (by simp)
    · have hbb : b' ≠ b := by
        rintro rfl
        rcases hb' with ⟨_,ho'⟩ | ⟨_,ho'⟩
        · exact ho' ho
        · exact ho' (by simpa [World.release,World.setBuf] using ho)
      have hlt' : b' < w.nbuf := by rcases hb' with ⟨hb',_⟩ | ⟨hb',_⟩ <;> exact hb'
      exact ⟨hlt',hlt',by rw [hold hbb]⟩
    · rcases hm with ⟨hm,_⟩ | ⟨hm,_⟩ <;> exact ⟨hm,hm,rfl⟩

theorem mapSingle (h : Holdings t v w) (hbuf : v.buf ≠ none) (hmap : v.map = none)
    (hop : v.op = none) :
    Holdings t { v with map := some w.nmap } (w.mapSingle t v.buf v.size) ∧
      Keeps t w (w.mapSingle t v.buf v.size) := by
  have hnew : (w.mapSingle t v.buf v.size).maps w.nmap = ⟨t,v.buf,v.size,true,0⟩ := by
    simp [World.mapSingle,World.setMap]
  have hold {m : Nat} (hm : m ≠ w.nmap) : (w.mapSingle t v.buf v.size).maps m = w.maps m := by
    simp [World.mapSingle,World.setMap,hm]
  refine ⟨⟨h.regs,h.buf,h.freed,?_,?_,?_⟩,⟨fun b hb => ?_,fun m hm => ?_⟩⟩
  · intro m hm
    cases hm
    exact ⟨Nat.lt_succ_self _,hnew,hbuf⟩
  · intro m hm ho hne
    have hm' : m ≠ w.nmap := fun e => hne (by rw [e])
    have hm : m < w.nmap + 1 := hm
    rw [hold hm'] at ho ⊢
    exact h.unmapped m (by omega) ho (by rw [hmap]; simp)
  · intro o ho
    exact absurd (hop.symm.trans ho) (by simp)
  · rcases hb with ⟨hb,_⟩ | ⟨hb,_⟩ <;> exact ⟨hb,hb,rfl⟩
  · have hm' : m ≠ w.nmap := by
      rintro rfl
      rcases hm with ⟨hm,_⟩ | ⟨_,ho⟩
      · omega
      · rw [hnew] at ho
        exact ho rfl
    have hlt : m < w.nmap := by
      rcases hm with ⟨hm,_⟩ | ⟨hm,_⟩
      · exact hm
      · have hm : m < w.nmap + 1 := hm
        omega
    exact ⟨hlt,Nat.lt_succ_of_lt hlt,hold hm'⟩

theorem unmapSingle {m : Nat} (h : Holdings t v w) (hm : v.map = some m) (hop : v.op = none) :
    Holdings t { v with map := none } (w.unmapSingle m) ∧ Keeps t w (w.unmapSingle m) := by
  obtain ⟨hlt,hsh,_⟩ := h.map m hm
  have hold {m' : Nat} (hm' : m' ≠ m) : (w.unmapSingle m).maps m' = w.maps m' := by
    simp [World.unmapSingle,World.setMap,hm']
  refine ⟨⟨h.regs,h.buf,h.freed,(fun _ h => by cases h),?_,?_⟩,⟨fun b hb => ?_,fun m' hm' => ?_⟩⟩
  · intro m' hm' ho _
    by_cases hmm : m' = m
    · subst m'
      simp [World.unmapSingle,World.setMap,hsh]
    · rw [hold hmm] at ho ⊢
      exact h.unmapped m' hm' ho (by rw [hm]; simpa using Ne.symm hmm)
  · intro o ho
    exact absurd (hop.symm.trans ho) (by simp)
  · rcases hb with ⟨hb,_⟩ | ⟨hb,_⟩ <;> exact ⟨hb,hb,rfl⟩
  · have hmm : m' ≠ m := by
      rintro rfl
      rcases hm' with ⟨_,ho⟩ | ⟨_,ho⟩
      · exact ho (by rw [hsh])
      · exact ho (by simp [World.unmapSingle,World.setMap,hsh])
    have hlt' : m' < w.nmap := by rcases hm' with ⟨hm',_⟩ | ⟨hm',_⟩ <;> exact hm'
    exact ⟨hlt',hlt',hold hmm⟩

/-- A step of a thread is a step of its ledger, and leaves the others alone. -/
theorem step {a : Act} {x : Choice} {r : a.Res} (h : Holdings t v w) (hok : v.Ok a)
    (hk : ∀ f y, a.reads = some (f,y) → v.Matches (w.jobs f) y)
    (hcut : a = .waitEvent .dma → a.cut r = false) (he : World.exec t a x w = some (.done r w')) :
    ∃ v', v.Next a r v' ∧ Holdings t v' w' ∧ Keeps t w w' ∧
      (v.bar = none → w'.card.regs = w.card.regs) := by
  -- the actions that leave the buffers where they are
  have quiet (ha : a.keepsStore = true) (hr : ∀ reg n, a ≠ .iowrite reg n) :
      Holdings t v w' ∧ Keeps t w w' ∧ (v.bar = none → w'.card.regs = w.card.regs) := by
    have hs := World.exec_store ha he
    have hregs := (World.exec_regs hr he).1
    exact ⟨h.congr hs (fun _ => hregs),hs.keeps t,fun _ => hregs⟩
  cases a with
  | flag f y =>
    cases he
    cases y with
    | isNotMM => exact ⟨v,⟨rfl,hk f _ rfl⟩,quiet rfl (by simp)⟩
    | isM =>
      obtain ⟨hA,hK⟩ := quiet rfl (by simp)
      exact ⟨_,⟨rfl,(hk f _ rfl).2⟩,hA.of_fields rfl rfl rfl rfl rfl,hK⟩
    | _ => exact ⟨v,rfl,quiet rfl (by simp)⟩
  | len f => cases he; exact ⟨v,⟨rfl,hk f _ rfl⟩,quiet rfl (by simp)⟩
  | msg f => cases he; exact ⟨v,⟨rfl,hk f _ rfl⟩,quiet rfl (by simp)⟩
  | setLen f n =>
    obtain ⟨hA,hK⟩ := quiet rfl (by simp)
    exact ⟨_,rfl,hA.of_fields rfl rfl rfl rfl rfl,hK⟩
  | setMsg f p =>
    obtain ⟨hA,hK⟩ := quiet rfl (by simp)
    exact ⟨_,rfl,hA.of_fields rfl rfl rfl rfl rfl,hK⟩
  | vmalloc n =>
    obtain ⟨hbuf,hmap,rfl⟩ := hok
    rcases World.vmalloc_done he with ⟨rfl,rfl⟩ | ⟨_,rfl,g,rfl⟩
    · exact ⟨_,rfl,h.of_fields rfl hbuf.symm rfl rfl rfl,(SameStore.refl _).keeps t,fun _ => rfl⟩
    · obtain ⟨hA,hK⟩ := h.allocate hbuf hmap g
      exact ⟨_,rfl,hA,hK,fun _ => rfl⟩
  | vfree p =>
    obtain ⟨rfl,hmap⟩ := hok
    cases he
    obtain ⟨hA,hK⟩ := h.release hmap
    refine ⟨_,rfl,hA,hK,fun _ => ?_⟩
    cases v.buf <;> rfl
  | dmaMapSingle p n =>
    obtain ⟨⟨hbuf,rfl,rfl⟩,hmap⟩ := hok
    rcases World.dmaMapSingle_done he with ⟨rfl,rfl⟩ | ⟨rfl,rfl⟩
    · exact ⟨_,rfl,h.of_fields rfl rfl hmap.symm rfl rfl,(SameStore.refl _).keeps t,fun _ => rfl⟩
    · have hop : v.op = none := by
        by_contra ho
        obtain ⟨o,ho⟩ := Option.ne_none_iff_exists'.mp ho
        exact absurd (hmap.symm.trans (h.op o ho).2.1) (by simp)
      obtain ⟨hA,hK⟩ := h.mapSingle hbuf hmap hop
      exact ⟨_,rfl,hA,hK,fun _ => rfl⟩
  | dmaUnmapSingle m n =>
    obtain ⟨hm,hop⟩ := hok
    cases he
    obtain ⟨hA,hK⟩ := h.unmapSingle hm hop
    exact ⟨_,rfl,hA,hK,fun _ => rfl⟩
  | downInterruptible =>
    obtain ⟨hA,hK⟩ := quiet rfl (by simp)
    rcases World.downInterruptible_done he with ⟨rfl,_⟩ | ⟨rfl,_,rfl⟩
    · exact ⟨v,.inl ⟨rfl,rfl⟩,hA,hK⟩
    · refine ⟨{ v with bar := some w.card.regs },.inr ⟨rfl,_,rfl⟩,?_,hK⟩
      refine ⟨fun R hR => Option.some.inj hR,hA.buf,hA.freed,hA.map,hA.unmapped,fun o ho => ?_⟩
      exact ⟨Option.some_ne_none _,(hA.op o ho).2⟩
  | up =>
    obtain ⟨hA,hK⟩ := quiet rfl (by simp)
    refine ⟨{ v with bar := none },rfl,?_,hK⟩
    refine ⟨(fun _ hR => by cases hR),hA.buf,hA.freed,hA.map,hA.unmapped,fun o ho => ?_⟩
    exact absurd (hok.2.symm.trans ho) (by simp)
  | pollBusy k =>
    obtain ⟨hA,hK⟩ := quiet rfl (by simp)
    cases k with
    | mmio => exact ⟨v,rfl,hA,hK⟩
    | dma =>
      exact ⟨_,rfl,⟨hA.regs,hA.buf,hA.freed,hA.map,hA.unmapped,fun _ ho => by cases ho⟩,hK⟩
  | waitEvent k =>
    obtain ⟨hA,hK⟩ := quiet rfl (by simp)
    cases k with
    | mmio => exact ⟨v,rfl,hA,hK⟩
    | dma =>
      exact ⟨_,⟨rfl,hcut rfl⟩,
        ⟨hA.regs,hA.buf,hA.freed,hA.map,hA.unmapped,fun _ ho => by cases ho⟩,hK⟩
  | iowrite reg n =>
    cases he
    have hs : SameStore w { w with card := w.card.iowrite reg n } := .of_eq rfl rfl rfl rfl
    have hregs (R : Regs) (hR : v.bar.map (fun R => R.set reg n) = some R) :
        (w.card.iowrite reg n).regs = R := by
      obtain ⟨R',hR',rfl⟩ := Option.map_eq_some_iff.mp hR
      rw [Card.iowrite_regs,h.regs R' hR']
    by_cases hcmd : reg = .cmd
    · subst hcmd
      obtain ⟨_,hop,R,hR,hm,hn⟩ := hok
      refine ⟨_,rfl,⟨hregs,h.buf,h.freed,h.map,h.unmapped,fun o ho => ?_⟩,hs.keeps t,fun hno => ?_⟩
      · simp only [hR,Option.map_some,Option.some.injEq] at ho ⊢
        subst ho
        exact ⟨by simp,hm,hn⟩
      · exact absurd (hno.symm.trans hR) (by simp)
    · refine ⟨{ v with bar := v.bar.map (fun R => R.set reg n) },?_,
        ⟨hregs,h.buf,h.freed,h.map,h.unmapped,fun o ho => ?_⟩,hs.keeps t,fun hno => ?_⟩
      · cases reg <;> first | rfl | exact absurd rfl hcmd
      · obtain ⟨hbar,hrest⟩ := h.op o ho
        exact ⟨by simpa using hbar,hrest⟩
      · -- without the semaphore only registers are written that hold nothing
        simp only [Card.iowrite_regs]
        cases reg with
        | live => rfl
        | interruptAck => rfl
        | lenMsg => exact absurd hno hok.1
        | dlenMsg => exact absurd hno hok.1
        | cmd => exact absurd rfl hcmd
        | _ => exact absurd hno hok
  | _ => exact ⟨v,rfl,quiet rfl (by simp)⟩

end Holdings

/-- What a call does not change of a ledger. -/
structure Ledger.Link (v v' : Ledger) : Prop where
  file : v'.file = v.file
  writes : v'.writes = v.writes
  size : v'.size = v.size

theorem Ledger.Link.refl (v : Ledger) : v.Link v := ⟨rfl,rfl,rfl⟩

theorem Ledger.Link.trans {v'' : Ledger} (h : v.Link v') (h' : v'.Link v'') : v.Link v'' :=
  ⟨h'.file.trans h.file,h'.writes.trans h.writes,h'.size.trans h.size⟩

/-- The fields of a ledger that one action leaves alone. -/
structure Ledger.Stays (v v' : Ledger) (a : Act) : Prop extends Ledger.Link v v' where
  notMM : v'.notMM = v.notMM
  isM : (∀ f, a ≠ .flag f .isM) → v'.isM = v.isM
  len : (∀ f n, a ≠ .setLen f n) → v'.len = v.len
  msg : (∀ f p, a ≠ .setMsg f p) → v'.msg = v.msg
  bar : a ≠ .downInterruptible → a ≠ .up → (v'.bar = none ↔ v.bar = none)
  op : a ≠ .pollBusy .dma → a ≠ .waitEvent .dma → (∀ n, a ≠ .iowrite .cmd n) → v'.op = v.op

theorem Ledger.next_stays {a : Act} {r : a.Res} (h : v.Next a r v') : v.Stays v' a := by
  have same (h : v' = v) : v.Stays v' a := by
    subst h
    exact ⟨⟨rfl,rfl,rfl⟩,rfl,fun _ => rfl,fun _ => rfl,fun _ => rfl,fun _ _ => Iff.rfl,
      fun _ _ _ => rfl⟩
  cases a with
  | flag f y =>
    cases y with
    | isNotMM => exact same h.1
    | isM =>
      obtain ⟨rfl,_⟩ := h
      exact ⟨⟨rfl,rfl,rfl⟩,rfl,fun hne => absurd rfl (hne f),fun _ => rfl,fun _ => rfl,
        fun _ _ => Iff.rfl,fun _ _ _ => rfl⟩
    | _ => exact same h
  | len f => exact same h.1
  | msg f => exact same h.1
  | setLen f n =>
    cases h
    exact ⟨⟨rfl,rfl,rfl⟩,rfl,fun _ => rfl,fun hne => absurd rfl (hne f n),fun _ => rfl,
      fun _ _ => Iff.rfl,fun _ _ _ => rfl⟩
  | setMsg f p =>
    cases h
    exact ⟨⟨rfl,rfl,rfl⟩,rfl,fun _ => rfl,fun _ => rfl,fun hne => absurd rfl (hne f p),
      fun _ _ => Iff.rfl,fun _ _ _ => rfl⟩
  | downInterruptible =>
    rcases h with ⟨_,h⟩ | ⟨_,R,rfl⟩
    · exact same h
    · exact ⟨⟨rfl,rfl,rfl⟩,rfl,fun _ => rfl,fun _ => rfl,fun _ => rfl,
        fun hne => absurd rfl hne,fun _ _ _ => rfl⟩
  | up =>
    cases h
    exact ⟨⟨rfl,rfl,rfl⟩,rfl,fun _ => rfl,fun _ => rfl,fun _ => rfl,
      fun _ hne => absurd rfl hne,fun _ _ _ => rfl⟩
  | iowrite reg n =>
    by_cases hcmd : reg = .cmd
    · subst hcmd
      cases h
      exact ⟨⟨rfl,rfl,rfl⟩,rfl,fun _ => rfl,fun _ => rfl,fun _ => rfl,
        fun _ _ => Option.map_eq_none_iff,fun _ _ hne => absurd rfl (hne n)⟩
    · have h : v' = { v with bar := v.bar.map (fun R => R.set reg n) } := by
        cases reg <;> first | exact h | exact absurd rfl hcmd
      subst h
      exact ⟨⟨rfl,rfl,rfl⟩,rfl,fun _ => rfl,fun _ => rfl,fun _ => rfl,
        fun _ _ => Option.map_eq_none_iff,fun _ _ _ => rfl⟩
  | pollBusy k =>
    cases k with
    | mmio => exact same h
    | dma =>
      cases h
      exact ⟨⟨rfl,rfl,rfl⟩,rfl,fun _ => rfl,fun _ => rfl,fun _ => rfl,fun _ _ => Iff.rfl,
        fun hne => absurd rfl hne⟩
  | waitEvent k =>
    cases k with
    | mmio => exact same h
    | dma =>
      obtain ⟨rfl,_⟩ := h
      exact ⟨⟨rfl,rfl,rfl⟩,rfl,fun _ => rfl,fun _ => rfl,fun _ => rfl,fun _ _ => Iff.rfl,
        fun _ hne => absurd rfl hne⟩
  | vmalloc n =>
    cases h
    exact ⟨⟨rfl,rfl,rfl⟩,rfl,fun _ => rfl,fun _ => rfl,fun _ => rfl,fun _ _ => Iff.rfl,
      fun _ _ _ => rfl⟩
  | vfree p =>
    cases h
    exact ⟨⟨rfl,rfl,rfl⟩,rfl,fun _ => rfl,fun _ => rfl,fun _ => rfl,fun _ _ => Iff.rfl,
      fun _ _ _ => rfl⟩
  | dmaMapSingle p n =>
    cases h
    exact ⟨⟨rfl,rfl,rfl⟩,rfl,fun _ => rfl,fun _ => rfl,fun _ => rfl,fun _ _ => Iff.rfl,
      fun _ _ _ => rfl⟩
  | dmaUnmapSingle m n =>
    cases h
    exact ⟨⟨rfl,rfl,rfl⟩,rfl,fun _ => rfl,fun _ => rfl,fun _ => rfl,fun _ _ => Iff.rfl,
      fun _ _ _ => rfl⟩
  | _ => exact same h

namespace Books

variable {g : Nat → Ledger}

theorem congr (h : Books g w) (hw : w'.wsem = w.wsem) (hh : w'.holders = w.holders)
    (hs : SameStore w w') (hr : w'.card.regs = w.card.regs) (ho : w'.card.op = w.card.op) :
    Books g w' :=
  ⟨h.sem.congr hw hh (fun _ => Iff.rfl),by rw [ho]; exact h.op,
    fun t => (h.holds t).congr hs (fun _ => hr)⟩

theorem sem_next (h : Books g w) {a : Act} {x : Choice} {r : a.Res} (hok : (g t).Ok a)
    (hn : (g t).Next a r v') (he : World.exec t a x w = some (.done r w')) :
    Sem (fun u => (Function.update g t v' u).bar ≠ none) w' := by
  refine Sem.next (H := fun v : Ledger => v.bar ≠ none) h.sem he (fun hu => ?_) (fun hu => ?_)
  · by_cases hd : a = .downInterruptible
    · subst hd
      rcases hn with ⟨rfl,rfl⟩ | ⟨rfl,R,rfl⟩ <;> simp [Act.takes]
    · have hbar := (Ledger.next_stays hn).bar hd hu
      cases a with
      | downInterruptible => exact absurd rfl hd
      | _ => simp [Act.takes,hbar]
  · subst hu
    cases hn
    exact ⟨hok.1,by simp⟩

/-- A DMA operation in progress stays with the thread that started it. -/
theorem op_next (h : Books g w) {a : Act} {x : Choice} {r : a.Res} (hok : (g t).Ok a)
    (hn : (g t).Next a r v') (hcut : a = .waitEvent .dma → a.cut r = false)
    (he : World.exec t a x w = some (.done r w')) {o : Op} (ho : w'.card.op = some o)
    (hk : o.kind = .dma) : ∃ u, (Function.update g t v' u).op = some o := by
  have hs := Ledger.next_stays hn
  -- the operation goes on, and the ledger of `t` still shows it
  have keep (hw : w.card.op = some o) (ht : (g t).op = some o → v'.op = some o) :
      ∃ u, (Function.update g t v' u).op = some o := by
    obtain ⟨u,hu⟩ := h.op o hw hk
    by_cases hut : u = t
    · subst u
      exact ⟨t,by rw [Function.update_self]; exact ht hu⟩
    · exact ⟨u,by rw [Function.update_of_ne hut]; exact hu⟩
  have hbusy (hb : w.card.busy .dma = false) (hw : w.card.op = some o) : False := by
    have := (w.card.busy_iff .dma).mpr ⟨o,hw,hk⟩
    simp [hb] at this
  by_cases hio : ∃ reg n, a = .iowrite reg n
  · obtain ⟨reg,n,rfl⟩ := hio
    cases he
    rcases Card.iowrite_dma ho hk with hw | ⟨rfl,ho'⟩
    · refine keep hw (fun hop => ?_)
      by_cases hcmd : reg = .cmd
      · subst hcmd
        exact absurd (hok.2.1.symm.trans hop) (by simp)
      · rw [hs.op (by simp) (by simp) (by simp [hcmd])]
        exact hop
    · obtain ⟨_,_,R,hR,_⟩ := hok
      refine ⟨t,?_⟩
      rw [Function.update_self,hn,ho',(h.holds t).regs R hR,hR]
      rfl
  · have hregs := World.exec_regs (fun reg n e => hio ⟨reg,n,e⟩) he
    rw [hregs.2] at ho
    refine keep ho (fun hop => ?_)
    by_cases hpoll : a = .pollBusy .dma
    · subst hpoll
      simp only [World.exec] at he
      split at he
      · cases he
      · rename_i hb
        exact (hbusy (by simpa using hb) ho).elim
    · by_cases hwait : a = .waitEvent .dma
      · subst hwait
        rcases (World.waitStep_done he).2 with ⟨_,hb⟩ | ⟨hr,_⟩
        · exact (hbusy hb ho).elim
        · exact absurd (hr.symm.trans (hcut rfl)) (by simp)
      · rw [hs.op hpoll hwait (fun n e => hio ⟨_,n,e⟩)]
        exact hop

theorem done (h : Books g w) {a : Act} {x : Choice} {r : a.Res} (hok : (g t).Ok a)
    (hk : ∀ f y, a.reads = some (f,y) → (g t).Matches (w.jobs f) y)
    (hcut : a = .waitEvent .dma → a.cut r = false) (he : World.exec t a x w = some (.done r w')) :
    ∃ v', (g t).Next a r v' ∧ Books (Function.update g t v') w' := by
  obtain ⟨v',hn,hA,hK,hr⟩ := (h.holds t).step hok hk hcut he
  refine ⟨v',hn,h.sem_next hok hn he,fun o ho hk => h.op_next hok hn hcut he ho hk,fun u => ?_⟩
  by_cases hut : u = t
  · subst u
    rw [Function.update_self]
    exact hA
  · rw [Function.update_of_ne hut]
    refine (h.holds u).frame hut hK (fun hu => hr ?_)
    by_contra ht
    exact hut (h.sem.unique hu ht)

theorem stay (h : Books g w) {a : Act} {x : Choice}
    (he : World.exec t a x w = some (.stay w')) : Books g w' := by
  obtain ⟨_,rfl⟩ := World.stay_task he
  exact h.congr rfl rfl (.of_eq rfl rfl rfl rfl) rfl rfl

/-- No call copies through a pointer that it cannot use. -/
theorem no_oops (h : Books g w) {a : Act} {x : Choice} (hok : (g t).Ok a) :
    World.exec t a x w ≠ some (.oops w') := by
  intro he
  obtain ⟨_,p,n,hb,hno⟩ := World.exec_oops he
  have usable (hc : (g t).Copies p n) : False := by
    obtain ⟨hbuf,rfl,rfl⟩ := hc
    obtain ⟨b,hbuf⟩ := Option.ne_none_iff_exists'.mp hbuf
    obtain ⟨_,hlive,_,hlen⟩ := Buf.shape_eq ((h.holds t).buf b hbuf).2
    simp [World.usable,hbuf,hlive,hlen] at hno
  cases a with
  | copyFromUser p ptr n => cases hb; exact usable hok
  | copyToUser ptr p n => cases hb; exact usable hok
  | memcpyToio p n => cases hb; exact usable hok
  | memcpyFromio p n => cases hb; exact usable hok
  | _ => cases hb

/-- The card reaches the buffer of the call whose operation it performs. -/
theorem env (h : Books g w) {c : Cipher} {e : World.Env} (he : World.env c e w = some w') :
    Books g w' := by
  have hsem := h.sem.env he
  rcases World.env_cases he with ⟨_,o,ho,_,rfl⟩ | ⟨_,k,_,rfl⟩
  · have hc := World.transform_control c w o
    have hs := World.transform_store c w o
    exact ⟨hsem,(fun _ ho' => by cases ho'),
      fun t => (h.holds t).congr ⟨hs.nbuf,hs.nmap,hs.heap,hs.maps⟩ (fun _ => hc.regs)⟩
  · exact h.congr rfl rfl (.of_eq rfl rfl rfl rfl) rfl rfl

/-- A thread that has given everything back starts a new ledger. -/
theorem begin_call (h : Books g w) (hc : (g t).Cleared) (hc' : v'.Cleared) :
    Books (Function.update g t v') w := by
  refine ⟨h.sem.congr rfl rfl (fun u => ?_),fun o ho hk => ?_,fun u => ?_⟩
  · by_cases hut : u = t <;> simp [hut,hc.bar,hc'.bar]
  · obtain ⟨u,hu⟩ := h.op o ho hk
    have hut : u ≠ t := by
      rintro rfl
      exact absurd (hc.op.symm.trans hu) (by simp)
    exact ⟨u,by rw [Function.update_of_ne hut]; exact hu⟩
  · by_cases hut : u = t
    · subst u
      rw [Function.update_self]
      have hA := h.holds t
      refine ⟨fun R hR => ?_,fun b hb => ?_,fun b hb ho _ => ?_,fun m hm => ?_,fun m hm ho _ => ?_,
        fun o ho => ?_⟩
      · exact absurd (hc'.bar.symm.trans hR) (by simp)
      · exact absurd (hc'.buf.symm.trans hb) (by simp)
      · exact hA.freed b hb ho (by rw [hc.buf]; simp)
      · exact absurd (hc'.map.symm.trans hm) (by simp)
      · exact hA.unmapped m hm ho (by rw [hc.map]; simp)
      · exact absurd (hc'.op.symm.trans ho) (by simp)
    · rw [Function.update_of_ne hut]
      exact h.holds u

theorem boot (umem mem : Nat → Byte) (hg : ∀ t, (g t).Cleared) :
    Books g (World.boot umem mem) := by
  refine ⟨⟨rfl,fun t => by simp [World.boot,(hg t).bar]⟩,(fun o ho => by cases ho),fun t => ?_⟩
  refine ⟨fun R hR => ?_,fun b hb => ?_,(fun b hb => absurd hb (Nat.not_lt_zero b)),fun m hm => ?_,
    (fun m hm => absurd hm (Nat.not_lt_zero m)),fun o ho => ?_⟩
  · exact absurd ((hg t).bar.symm.trans hR) (by simp)
  · exact absurd ((hg t).buf.symm.trans hb) (by simp)
  · exact absurd ((hg t).map.symm.trans hm) (by simp)
  · exact absurd ((hg t).op.symm.trans ho) (by simp)

end Books

end

end CryptoCard
