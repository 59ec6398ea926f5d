import CryptoCard.Library
set_option autoImplicit false

/-! The views of all clients, side by side, describe the world: no step of one
client is seen by another. -/
namespace CryptoCard
open Memory Program Interleave

/-- Who opened a handle and who owns a byte of user memory, which threads are
clients at all and which store to the mapped window, whose bytes are followed, and
who has the window for itself while it does not hold the semaphore. -/
structure Tenancy where
  holder : Nat → Nat
  owner : Nat → Nat
  active : Nat → Prop
  mapper : Nat → Prop
  tied : Nat → Prop
  sole : Nat → Prop

/-- The parts of the world that a view names are there, and the client's own. -/
structure Shape (T : Tenancy) (t : Nat) (v : View) (w : World) : Prop where
  jobs : ∀ f, T.holder f = t → w.jobs f = v.jobs f
  buf : ∀ b xs, v.buf = some (b,xs) → b < w.nbuf ∧ (w.heap b).owner = t ∧
    (w.heap b).live = true ∧ (w.heap b).data.length = xs.length
  map : ∀ h, v.map = some h → h < w.nmap ∧ (w.maps h).owner = t ∧ (w.maps h).live = true ∧
    ∃ b xs, v.buf = some (b,xs) ∧ (w.maps h).buf = some b
  bar : ∀ B, v.bar = some B → w.card.regs = B.regs ∧ w.card.op = B.op
  dma : ∀ B o, v.bar = some B → B.op = some o → o.kind = .dma → v.map = some o.addr ∧
    ∃ b xs, v.buf = some (b,xs) ∧ o.len ≤ xs.length

/-- They hold the bytes that the view says. -/
structure Content (T : Tenancy) (t : Nat) (v : View) (w : World) : Prop where
  um : ∀ x, T.owner x = t → w.umem x = v.um x
  buf : ∀ b xs, v.buf = some (b,xs) → (w.heap b).data = xs
  mem : ∀ B, v.bar = some B → w.card.mem = B.mem
  own : ∀ m, v.own = some m → v.bar = none → w.card.mem = m

structure Agree (T : Tenancy) (t : Nat) (v : View) (w : World) : Prop where
  shape : Shape T t v w
  content : T.tied t → Content T t v w

/-- While its operation runs, a client may already see the bytes it leaves. -/
def Sees (T : Tenancy) (c : Cipher) (t : Nat) (v : View) (w : World) : Prop :=
  Agree T t v w ∨ Agree T t (v.settle c) w

/-- A view's call is one that the client may make. -/
structure Fits (T : Tenancy) (t : Nat) (v : View) : Prop where
  file : ∀ f, v.file = some f → T.holder f = t
  range : ∀ x, Within v.lo v.size x → T.owner x = t
  active : v.role ≠ .handler → T.active t
  mapper : v.role = .mapper → T.mapper t
  bar : ∀ B, v.bar = some B → v.role = .client
  own : ∀ m, v.own = some m → T.sole t

/-- The actions that write the card's memory. -/
def Act.stores : Act → Bool
  | .memcpyToio _ _ | .mapStore _ _ => true
  | _ => false

structure Tenants (T : Tenancy) (c : Cipher) (g : Nat → View) (w : World) : Prop where
  sem : Sem (fun t => (g t).bar ≠ none) w
  running : ∀ o, w.card.op = some o → ∃ t, (g t).bar ≠ none
  sees : ∀ t, Sees T c t (g t) w
  fits : ∀ t, Fits T t (g t)

/-- `w'` differs from `w` only where client `t` may change it, the card apart. -/
structure Frame (T : Tenancy) (t : Nat) (w w' : World) : Prop where
  jobs : ∀ f, T.holder f ≠ t → w'.jobs f = w.jobs f
  umem : ∀ x, T.owner x ≠ t → w'.umem x = w.umem x
  heap : ∀ b, b < w.nbuf → (w.heap b).owner ≠ t → w'.heap b = w.heap b
  maps : ∀ h, h < w.nmap → (w.maps h).owner ≠ t → w'.maps h = w.maps h
  nbuf : w.nbuf ≤ w'.nbuf
  nmap : w.nmap ≤ w'.nmap

section
variable {T : Tenancy} {c : Cipher} {t u : Nat} {v v' : View} {w w' : World}

theorem Frame.refl : Frame T t w w :=
  ⟨fun _ _ => rfl,fun _ _ => rfl,fun _ _ _ => rfl,fun _ _ _ => rfl,Nat.le_refl _,Nat.le_refl _⟩

/-- The world of another client stays as it is. -/
theorem Agree.frame (h : Agree T u v w) (hu : u ≠ t) (hf : Frame T t w w')
    (hcard : v.bar ≠ none → w'.card.regs = w.card.regs ∧ w'.card.op = w.card.op)
    (hmem : T.tied u → v.bar ≠ none ∨ v.own ≠ none → w'.card.mem = w.card.mem) :
    Agree T u v w' := by
  have hheap {b : Nat} {xs : List Byte} (hb : v.buf = some (b,xs)) : w'.heap b = w.heap b := by
    obtain ⟨hlt,ho,_⟩ := h.shape.buf b xs hb
    exact hf.heap b hlt (by rw [ho]; exact hu)
  refine ⟨⟨?_,?_,?_,?_,h.shape.dma⟩,fun ht => ⟨?_,?_,?_,?_⟩⟩
  · intro f hf'
    rw [hf.jobs f (by rw [hf']; exact hu)]
    exact h.shape.jobs f hf'
  · intro b xs hb
    rw [hheap hb]
    exact (h.shape.buf b xs hb).imp_left (fun hlt => Nat.lt_of_lt_of_le hlt hf.nbuf)
  · intro m hm
    obtain ⟨hlt,ho,hrest⟩ := h.shape.map m hm
    rw [hf.maps m hlt (by rw [ho]; exact hu)]
    exact ⟨Nat.lt_of_lt_of_le hlt hf.nmap,ho,hrest⟩
  · intro B hB
    obtain ⟨hr,ho⟩ := hcard (by rw [hB]; exact Option.some_ne_none B)
    rw [hr,ho]
    exact h.shape.bar B hB
  · intro x hx
    rw [hf.umem x (by rw [hx]; exact hu)]
    exact (h.content ht).um x hx
  · intro b xs hb
    rw [hheap hb]
    exact (h.content ht).buf b xs hb
  · intro B hB
    rw [hmem ht (.inl (by rw [hB]; exact Option.some_ne_none B))]
    exact (h.content ht).mem B hB
  · intro m hm hB
    rw [hmem ht (.inr (by rw [hm]; exact Option.some_ne_none m))]
    exact (h.content ht).own m hm hB

theorem Sees.frame (h : Sees T c u v w) (hu : u ≠ t) (hf : Frame T t w w')
    (hcard : v.bar ≠ none → w'.card.regs = w.card.regs ∧ w'.card.op = w.card.op)
    (hmem : T.tied u → v.bar ≠ none ∨ v.own ≠ none → w'.card.mem = w.card.mem) :
    Sees T c u v w' := by
  refine h.imp (fun h => h.frame hu hf hcard hmem) (fun h => h.frame hu hf ?_ ?_)
  · rw [ne_eq,View.settle_bar]
    exact hcard
  · rw [ne_eq,View.settle_bar,View.settle_own]
    exact hmem

theorem Sees.of_free (h : Sees T c t v w) (hv : v.Free) : Agree T t v w := by
  rw [Sees,View.settle_of_free hv,or_self] at h
  exact h

/-- An operation that is over has been seen to the end. -/
theorem Sees.of_done {B : Card} {o : Op} (h : Sees T c t v w) (hB : v.bar = some B)
    (hop : B.op = some o) (hw : w.card.busy o.kind = false) : Agree T t (v.settle c) w := by
  refine h.resolve_left (fun h => ?_)
  have ho := (h.shape.bar B hB).2
  rw [hop] at ho
  have := (Card.busy_iff w.card o.kind).mpr ⟨o,ho,rfl⟩
  simp [hw] at this

/-- While the card works, the client has not seen the end of its operation. -/
theorem Sees.of_running {B : Card} {o : Op} (h : Sees T c t v w) (hB : v.bar = some B)
    (hw : w.card.op = some o) : B.op = some o ∧ Agree T t v w := by
  have hleft (h : Agree T t v w) : B.op = some o ∧ Agree T t v w :=
    ⟨(h.shape.bar B hB).2.symm.trans hw,h⟩
  cases hop : B.op with
  | none => exact hop ▸ hleft (h.of_free (.of_idle hB hop))
  | some o' =>
    refine hop ▸ hleft (h.resolve_right (fun h => ?_))
    have hset : (v.settle c).bar = some (B.finish c o') := by simp [View.settle,hB,hop]
    have hno := (h.shape.bar _ hset).2
    rw [hw] at hno
    cases hk : o'.kind <;> simp [Card.finish,hk] at hno

theorem Shape.usable {p : Option Nat} {n : Nat} (h : Shape T t v w) (hc : v.Copies p n) :
    ∃ b xs, v.buf = some (b,xs) ∧ p = some b ∧ n ≤ xs.length ∧ w.usable p n = some b := by
  obtain ⟨b,xs,hb,rfl,hn⟩ := hc
  obtain ⟨_,_,hlive,hlen⟩ := h.buf b xs hb
  exact ⟨b,xs,hb,rfl,hn,by simp [World.usable,hlive,hlen,hn]⟩

theorem Frame.of_eq (hj : w'.jobs = w.jobs) (hu : w'.umem = w.umem) (hh : w'.heap = w.heap)
    (hm : w'.maps = w.maps) (hnb : w'.nbuf = w.nbuf) (hnm : w'.nmap = w.nmap) :
    Frame T t w w' :=
  ⟨fun _ _ => by rw [hj],fun _ _ => by rw [hu],fun _ _ _ => by rw [hh],fun _ _ _ => by rw [hm],
    Nat.le_of_eq hnb.symm,Nat.le_of_eq hnm.symm⟩

/-- Waiting and the semaphore itself are not in sight. -/
theorem Agree.congr (h : Agree T t v w) (hj : w'.jobs = w.jobs) (hu : w'.umem = w.umem)
    (hh : w'.heap = w.heap) (hm : w'.maps = w.maps) (hnb : w'.nbuf = w.nbuf)
    (hnm : w'.nmap = w.nmap) (hc : w'.card = w.card) : Agree T t v w' := by
  refine ⟨⟨?_,?_,?_,?_,h.shape.dma⟩,fun ht => ⟨?_,?_,?_,?_⟩⟩
  · rw [hj]; exact h.shape.jobs
  · rw [hh,hnb]; exact h.shape.buf
  · rw [hm,hnm]; exact h.shape.map
  · rw [hc]; exact h.shape.bar
  · rw [hu]; exact (h.content ht).um
  · rw [hh]; exact (h.content ht).buf
  · rw [hc]; exact (h.content ht).mem
  · rw [hc]; exact (h.content ht).own

theorem Agree.setJob (h : Agree T t v w) (f : Nat) {j j' : Job} (hj : T.holder f = t → j' = j) :
    Agree T t (v.setJob f j) (w.setJob f j') := by
  refine ⟨⟨fun f' hf' => ?_,h.shape.buf,h.shape.map,h.shape.bar,h.shape.dma⟩,
    fun ht => ⟨(h.content ht).um,(h.content ht).buf,(h.content ht).mem,(h.content ht).own⟩⟩
  by_cases hff : f' = f
  · subst f'
    simp [View.setJob,World.setJob,hj hf']
  · simpa [View.setJob,World.setJob,hff] using h.shape.jobs f' hf'

theorem Frame.setJob {f : Nat} (hf : T.holder f = t) (j : Job) :
    Frame T t w (w.setJob f j) where
  jobs f' hf' := by
    have hff : f' ≠ f := fun e => hf' (e ▸ hf)
    simp [World.setJob,hff]
  umem _ _ := rfl
  heap _ _ _ := rfl
  maps _ _ _ := rfl
  nbuf := Nat.le_refl _
  nmap := Nat.le_refl _

theorem Agree.allocate (h : Agree T t v w) (hfree : v.Free) (hmap : v.map = none) (n : Nat)
    (g : Nat → Byte) :
    Agree T t { v with buf := some (w.nbuf,load g 0 n) } (w.allocate t n g) := by
  refine ⟨⟨h.shape.jobs,?_,?_,h.shape.bar,?_⟩,
    fun ht => ⟨(h.content ht).um,?_,(h.content ht).mem,(h.content ht).own⟩⟩
  · intro b xs hb
    cases hb
    simp [World.allocate,World.setBuf]
  · intro m hm
    exact absurd (hmap.symm.trans hm) (by simp)
  · intro B o hB ho
    rw [hfree B hB] at ho
    cases ho
  · intro b xs hb
    cases hb
    simp [World.allocate,World.setBuf]

theorem Frame.allocate (n : Nat) (g : Nat → Byte) : Frame T t w (w.allocate t n g) where
  jobs _ _ := rfl
  umem _ _ := rfl
  heap b hb _ := by
    have hne : b ≠ w.nbuf := Nat.ne_of_lt hb
    simp [World.allocate,World.setBuf,hne]
  maps _ _ _ := rfl
  nbuf := Nat.le_succ _
  nmap := Nat.le_refl _

/-- Any change of a buffer of the client. -/
theorem Frame.setBuf {b : Nat} {B : Buf} (hb : (w.heap b).owner = t) :
    Frame T t w (w.setBuf b B) where
  jobs _ _ := rfl
  umem _ _ := rfl
  heap b' _ hb' := by
    have hne : b' ≠ b := fun e => hb' (e ▸ hb)
    simp [World.setBuf,hne]
  maps _ _ _ := rfl
  nbuf := Nat.le_refl _
  nmap := Nat.le_refl _

theorem Agree.release (h : Agree T t v w) (hfree : v.Free) (hmap : v.map = none) :
    Agree T t { v with buf := none } (w.release (v.buf.map Prod.fst)) ∧
      Frame T t w (w.release (v.buf.map Prod.fst)) := by
  have hshape (w' : World) (hj : w'.jobs = w.jobs) (hu : w'.umem = w.umem)
      (hc : w'.card = w.card) : Agree T t { v with buf := none } w' := by
    refine ⟨⟨?_,(fun _ _ hb => by cases hb),?_,?_,?_⟩,
      fun ht => ⟨?_,(fun _ _ hb => by cases hb),?_,?_⟩⟩
    · rw [hj]; exact h.shape.jobs
    · intro m hm
      exact absurd (hmap.symm.trans hm) (by simp)
    · rw [hc]; exact h.shape.bar
    · intro B o hB ho
      rw [hfree B hB] at ho
      cases ho
    · rw [hu]; exact (h.content ht).um
    · rw [hc]; exact (h.content ht).mem
    · rw [hc]; exact (h.content ht).own
  cases hb : v.buf with
  | none => exact ⟨hshape _ rfl rfl rfl,.refl⟩
  | some p =>
    obtain ⟨b,xs⟩ := p
    exact ⟨hshape _ rfl rfl rfl,.setBuf (h.shape.buf b xs hb).2.1⟩

/-- The first bytes of the client's buffer are replaced. -/
theorem Agree.fill {b : Nat} {xs ys ys' : List Byte} (h : Agree T t v w)
    (hb : v.buf = some (b,xs)) (hle : ys.length ≤ xs.length) (hlen : ys'.length = ys.length)
    (hy : T.tied t → ys' = ys) :
    Agree T t { v with buf := some (b,ys ++ xs.drop ys.length) } (w.fill b ys') ∧
      Frame T t w (w.fill b ys') := by
  obtain ⟨hlt,ho,hlive,hl⟩ := h.shape.buf b xs hb
  refine ⟨⟨⟨h.shape.jobs,?_,?_,h.shape.bar,?_⟩,
    fun ht => ⟨(h.content ht).um,?_,(h.content ht).mem,(h.content ht).own⟩⟩,.setBuf ho⟩
  · intro b' zs hz
    cases hz
    refine ⟨hlt,?_⟩
    simp only [World.fill,World.setBuf,Function.update_self,List.length_append,List.length_drop]
    exact ⟨ho,hlive,by omega⟩
  · intro m hm
    obtain ⟨hlt,ho,hlive,b',zs,hz,hbuf⟩ := h.shape.map m hm
    rw [hb] at hz
    cases hz
    exact ⟨hlt,ho,hlive,_,_,rfl,hbuf⟩
  · intro B o hB hop hk
    obtain ⟨hm,b',zs,hz,hle⟩ := h.shape.dma B o hB hop hk
    rw [hb] at hz
    cases hz
    refine ⟨hm,_,_,rfl,?_⟩
    rw [List.length_append,List.length_drop]
    omega
  · intro b' zs hz
    cases hz
    simp [World.fill,World.setBuf,hy ht,(h.content ht).buf b xs hb]

theorem Agree.setUmem (h : Agree T t v w) (addr : Nat) {xs xs' : List Byte}
    (hx : T.tied t → xs' = xs) :
    Agree T t { v with um := store v.um addr xs } (w.setUmem addr xs') := by
  refine ⟨⟨h.shape.jobs,h.shape.buf,h.shape.map,h.shape.bar,h.shape.dma⟩,
    fun ht => ⟨fun x hxo => ?_,(h.content ht).buf,(h.content ht).mem,(h.content ht).own⟩⟩
  have hum := (h.content ht).um x hxo
  simp [World.setUmem,store,hx ht,hum]

theorem Frame.setUmem {addr : Nat} {xs : List Byte}
    (hx : ∀ x, Within addr xs.length x → T.owner x = t) : Frame T t w (w.setUmem addr xs) where
  jobs _ _ := rfl
  umem x hxo := store_outside _ _ _ _ (fun hin => hxo (hx x hin))
  heap _ _ _ := rfl
  maps _ _ _ := rfl
  nbuf := Nat.le_refl _
  nmap := Nat.le_refl _

theorem Agree.mapSingle {b n : Nat} {xs : List Byte} (h : Agree T t v w) (hfree : v.Free)
    (hb : v.buf = some (b,xs)) :
    Agree T t { v with map := some w.nmap } (w.mapSingle t (some b) n) := by
  refine ⟨⟨h.shape.jobs,h.shape.buf,?_,h.shape.bar,?_⟩,
    fun ht => ⟨(h.content ht).um,(h.content ht).buf,(h.content ht).mem,(h.content ht).own⟩⟩
  · intro m hm
    cases hm
    refine ⟨Nat.lt_succ_self _,?_⟩
    simp [World.mapSingle,World.setMap,hb]
  · intro B o hB ho
    rw [hfree B hB] at ho
    cases ho

theorem Frame.mapSingle (p : Option Nat) (n : Nat) : Frame T t w (w.mapSingle t p n) where
  jobs _ _ := rfl
  umem _ _ := rfl
  heap _ _ _ := rfl
  maps m hm _ := by
    have hne : m ≠ w.nmap := Nat.ne_of_lt hm
    simp [World.mapSingle,World.setMap,hne]
  nbuf := Nat.le_refl _
  nmap := Nat.le_succ _

theorem Agree.unmapSingle {m : Nat} (h : Agree T t v w) (hfree : v.Free)
    (hm : v.map = some m) :
    Agree T t { v with map := none } (w.unmapSingle m) ∧ Frame T t w (w.unmapSingle m) := by
  obtain ⟨hlt,ho,_⟩ := h.shape.map m hm
  refine ⟨⟨⟨h.shape.jobs,h.shape.buf,(fun _ hm => by cases hm),h.shape.bar,?_⟩,
    fun ht => ⟨(h.content ht).um,(h.content ht).buf,(h.content ht).mem,(h.content ht).own⟩⟩,?_⟩
  · intro B o hB ho
    rw [hfree B hB] at ho
    cases ho
  · refine ⟨fun _ _ => rfl,fun _ _ => rfl,fun _ _ _ => rfl,fun m' _ hm' => ?_,
      Nat.le_refl _,Nat.le_refl _⟩
    have hne : m' ≠ m := fun e => hm' (e ▸ ho)
    simp [World.unmapSingle,World.setMap,hne]

/-- The client's card moves along with the card. -/
theorem Agree.setCard {C : Card} {bar : Option Card} (h : Agree T t v w)
    (hbar : ∀ B, bar = some B → C.regs = B.regs ∧ C.op = B.op ∧ (T.tied t → C.mem = B.mem))
    (hdma : ∀ B o, bar = some B → B.op = some o → o.kind = .dma → v.map = some o.addr ∧
      ∃ b xs, v.buf = some (b,xs) ∧ o.len ≤ xs.length)
    (hown : T.tied t → ∀ m, v.own = some m → bar = none → C.mem = m) :
    Agree T t { v with bar := bar } { w with card := C } :=
  ⟨⟨h.shape.jobs,h.shape.buf,h.shape.map,(fun B hB => ⟨(hbar B hB).1,(hbar B hB).2.1⟩),hdma⟩,
    fun ht => ⟨(h.content ht).um,(h.content ht).buf,(fun B hB => (hbar B hB).2.2 ht),hown ht⟩⟩

theorem Agree.iowrite {r : Reg} {a : Nat} (h : Agree T t v w) (hok : v.OkWrite r a) :
    Agree T t { v with bar := v.bar.map (fun B => B.iowrite r a) }
      { w with card := w.card.iowrite r a } := by
  refine h.setCard ?_ ?_ ?_
  · intro B' hB'
    obtain ⟨B,hB,rfl⟩ := Option.map_eq_some_iff.mp hB'
    obtain ⟨hr,ho⟩ := h.shape.bar B hB
    obtain ⟨hr',ho'⟩ := Card.iowrite_congr r a hr ho
    exact ⟨hr',ho',fun ht => by simp [(h.content ht).mem B hB]⟩
  · intro B' o hB' ho hk
    obtain ⟨B,hB,rfl⟩ := Option.map_eq_some_iff.mp hB'
    -- only the command register starts a DMA operation
    cases r with
    | cmd =>
      obtain ⟨_,ha,B₁,hB₁,hop,_,b,xs,hb,hm,hle⟩ := hok
      rw [hB] at hB₁
      cases hB₁
      simp only [Card.iowrite,ha,if_true,Card.start,hop,Option.some.injEq] at ho
      subst ho
      exact ⟨hm,b,xs,hb,hle⟩
    | dataAddr =>
      obtain ⟨_,B₁,hB₁,hop,_⟩ := hok
      rw [hB] at hB₁
      cases hB₁
      simp only [Card.iowrite,Card.start,hop,Option.some.injEq] at ho
      subst ho
      cases hk
    | _ => exact h.shape.dma B o hB ho hk
  · intro ht m hm hbar
    rw [Card.iowrite_mem]
    exact (h.content ht).own m hm (Option.map_eq_none_iff.mp hbar)

/-- The end of an operation is the one that its client expects. -/
theorem Agree.finish {B : Card} {o : Op} (h : Agree T t v w) (hB : v.bar = some B)
    (hop : B.op = some o) :
    Agree T t (v.settle c) ((w.transform c o).settle o) ∧
      Frame T t w ((w.transform c o).settle o) ∧
      (o.kind ≠ .mmio → ((w.transform c o).settle o).card.mem = w.card.mem) := by
  obtain ⟨hr,_⟩ := h.shape.bar B hB
  cases hk : o.kind with
  | mmio =>
    have hset : v.settle c = { v with bar := some (B.finish c o) } := by
      simp [View.settle,hB,hop,hk]
    have hw : (w.transform c o).settle o = { w with card :=
        ((w.transform c o).settle o).card } := by simp [World.transform,World.settle,hk]
    rw [hset,hw]
    refine ⟨h.setCard ?_ ?_ (fun _ _ _ hb => by cases hb),.of_eq rfl rfl rfl rfl rfl rfl,
      fun hne => absurd rfl hne⟩
    · intro B' hB'
      cases hB'
      simp only [World.transform,World.settle,Card.finish,hk]
      exact ⟨hr,trivial,fun ht => by rw [(h.content ht).mem B hB]⟩
    · intro B' o' hB' ho'
      cases hB'
      simp [Card.finish,hk] at ho'
  | dma =>
    obtain ⟨hm,b,xs,hb,hle⟩ := h.shape.dma B o hB hop hk
    obtain ⟨_,_,hlive,b',xs',hb',hmb⟩ := h.shape.map _ hm
    rw [hb] at hb'
    cases hb'
    obtain ⟨b₁,_,_,hb₁,_,hus⟩ := h.shape.usable (p := some b) ⟨b,xs,hb,rfl,hle⟩
    cases hb₁
    have hlen := (h.shape.buf b xs hb).2.2.2
    let ys := c.run o.decrypt o.key (xs.take o.len)
    let ys' := c.run o.decrypt o.key ((w.heap b).data.take o.len)
    have hys : ys.length = o.len := by simp [ys,Nat.min_eq_left hle]
    have hys' : ys'.length = ys.length := by simp [ys,ys',hlen]
    have hset : v.settle c = { v with
        bar := some (B.finish c o), buf := some (b,ys ++ xs.drop ys.length) } := by
      simp [View.settle,hB,hop,hk,hb,hys,ys]
    have htr : w.transform c o = w.fill b ys' := by
      simp [World.transform,hk,World.dmaTarget,hlive,hmb,hus,ys']
    obtain ⟨hA,hF⟩ := h.fill hb (by omega) hys' (fun ht => by
      simp only [ys,ys',(h.content ht).buf b xs hb])
    rw [hset,htr]
    refine ⟨hA.setCard ?_ ?_ (fun _ _ _ hb => by cases hb),
      ⟨hF.jobs,hF.umem,hF.heap,hF.maps,hF.nbuf,hF.nmap⟩,fun _ => rfl⟩
    · intro B' hB'
      cases hB'
      simp only [Card.finish,hk]
      exact ⟨hr,trivial,fun ht => (h.content ht).mem B hB⟩
    · intro B' o' hB' ho'
      cases hB'
      simp [Card.finish,hk] at ho'

/-- What the driver finds in the card when it gets hold of it. -/
theorem Agree.acquire (h : Agree T t v w) (hbar : v.bar = none) (hop : w.card.op = none) :
    ∃ B : Card, B.op = none ∧ (∀ m, v.own = some m → B.mem = m) ∧
      Agree T t { v with bar := some B } w := by
  refine ⟨{ w.card with mem := v.own.getD w.card.mem },hop,fun m hm => by rw [hm]; rfl,?_⟩
  refine h.setCard ?_ ?_ (fun _ _ _ hb => by cases hb)
  · intro B hB
    cases hB
    refine ⟨rfl,rfl,fun ht => ?_⟩
    cases hm : v.own with
    | none => rfl
    | some m => exact (h.content ht).own m hm hbar
  · intro B o hB ho
    cases hB
    rw [hop] at ho
    cases ho

theorem Agree.leave {B : Card} (h : Agree T t v w) (hB : v.bar = some B) :
    Agree T t { v with bar := none, own := v.own.map (fun _ => v.mem) } w := by
  refine ⟨⟨h.shape.jobs,h.shape.buf,h.shape.map,(fun _ hB => by cases hB),
    (fun _ _ hB => by cases hB)⟩,
    fun ht => ⟨(h.content ht).um,(h.content ht).buf,(fun _ hB => by cases hB),?_⟩⟩
  intro m hm _
  obtain ⟨_,_,rfl⟩ := Option.map_eq_some_iff.mp hm
  rw [View.mem_eq hB]
  exact (h.content ht).mem B hB

/-- What a step of client `t` does to the card, as far as it matters to others. -/
structure Spares (v : View) (a : Act) (w w' : World) : Prop where
  control : v.bar = none → w'.card.regs = w.card.regs ∧ w'.card.op = w.card.op
  mem : a.stores = false → w'.card.mem = w.card.mem

theorem Spares.of_card {a : Act} (h : w'.card = w.card) : Spares v a w w' :=
  ⟨fun _ => by rw [h]; exact ⟨rfl,rfl⟩,fun _ => by rw [h]⟩

theorem OkWrite.free {r : Reg} {a : Nat} (hok : v.OkWrite r a) : v.Free := by
  have idle (h : v.Idle) : v.Free := by
    obtain ⟨B,hB,hop⟩ := h
    exact .of_idle hB hop
  cases r with
  | interruptAck => exact hok.2
  | live => exact hok.1
  | dataAddr =>
    obtain ⟨_,B,hB,hop,_⟩ := hok
    exact .of_idle hB hop
  | cmd =>
    obtain ⟨_,_,B,hB,hop,_⟩ := hok
    exact .of_idle hB hop
  | _ => exact idle hok.1

/-- Outside of the semaphore only registers are written that no operation uses. -/
theorem OkWrite.spares {r : Reg} {a : Nat} (hok : v.OkWrite r a) (hbar : v.bar = none) (C : Card) :
    (C.iowrite r a).regs = C.regs ∧ (C.iowrite r a).op = C.op := by
  have idle (h : v.Idle) : False := by
    obtain ⟨B,hB,_⟩ := h
    rw [hbar] at hB
    cases hB
  cases r with
  | interruptAck => exact ⟨rfl,rfl⟩
  | live => exact ⟨rfl,rfl⟩
  | dataAddr =>
    obtain ⟨_,B,hB,hop,_⟩ := hok
    exact (idle ⟨B,hB,hop⟩).elim
  | cmd =>
    obtain ⟨_,_,B,hB,hop,_⟩ := hok
    exact (idle ⟨B,hB,hop⟩).elim
  | _ => exact (idle hok.1).elim

/-- A step of a client is a step of its view, and leaves the others alone. -/
theorem local_step {a : Act} {x : Choice} {r : a.Res} (hfit : Fits T t v) (h : Sees T c t v w)
    (hidle : a = .downInterruptible → 0 < w.wsem → w.card.op = none) (hok : v.Ok a)
    (hcut : a.cut r = false) (he : World.exec t a x w = some (.done r w')) :
    ∃ v', v.Next c a r v' ∧ Agree T t v' w' ∧ Frame T t w w' ∧ Spares v a w w' := by
  have rd (hfree : v.Free) : Agree T t v w ∧ Frame T t w w ∧ Spares v a w w :=
    ⟨h.of_free hfree,.refl,.of_card rfl⟩
  have job {f : Nat} {j j' : Job} (hf : v.file = some f) (hfree : v.Free) (hj : j' = j) :
      Agree T t (v.setJob f j) (w.setJob f j') ∧ Frame T t w (w.setJob f j') ∧
        Spares v a w (w.setJob f j') :=
    ⟨(h.of_free hfree).setJob f (fun _ => hj),.setJob (hfit.file f hf) _,.of_card rfl⟩
  have jobs {f : Nat} (hf : v.file = some f) (hfree : v.Free) : w.jobs f = v.jobs f :=
    (h.of_free hfree).shape.jobs f (hfit.file f hf)
  cases a with
  | privateData f => cases he; exact ⟨v,⟨rfl,rfl⟩,rd hok.2⟩
  | configspace => cases he; exact ⟨v,⟨rfl,rfl⟩,rd hok⟩
  | flag f y => cases he; exact ⟨v,⟨rfl,by rw [jobs hok.1 hok.2]⟩,rd hok.2⟩
  | len f => cases he; exact ⟨v,⟨rfl,by rw [jobs hok.1 hok.2]⟩,rd hok.2⟩
  | msg f => cases he; exact ⟨v,⟨rfl,by rw [jobs hok.1 hok.2]⟩,rd hok.2⟩
  | keyab f => cases he; exact ⟨v,⟨rfl,by rw [jobs hok.1 hok.2]⟩,rd hok.2⟩
  | setFlag f y b => cases he; exact ⟨_,rfl,job hok.1 hok.2 (by rw [jobs hok.1 hok.2])⟩
  | setLen f n => cases he; exact ⟨_,rfl,job hok.1 hok.2 (by rw [jobs hok.1 hok.2])⟩
  | setMsg f p => cases he; exact ⟨_,rfl,job hok.1 hok.2 (by rw [jobs hok.1 hok.2])⟩
  | copyKey f arg =>
    cases he
    exact ⟨_,⟨rfl,rfl⟩,job hok.1 hok.2 (by rw [jobs hok.1 hok.2])⟩
  | ioread reg =>
    obtain ⟨rfl,_⟩ := World.ioread_done he
    exact ⟨v,rfl,rd hok⟩
  | wakeUp =>
    cases he
    exact ⟨v,rfl,(h.of_free hok).congr rfl rfl rfl rfl rfl rfl rfl,.of_eq rfl rfl rfl rfl rfl rfl,
      .of_card rfl⟩
  | vmalloc n =>
    obtain ⟨_,hbuf,hmap,hfree⟩ := hok
    obtain ⟨rfl,rfl⟩ | ⟨hn,rfl,g,rfl⟩ := World.vmalloc_done he
    · exact ⟨v,.inl ⟨rfl,rfl⟩,rd hfree⟩
    · exact ⟨_,.inr ⟨hn,w.nbuf,load g 0 n,load_length _ _ _,rfl,rfl⟩,
        (h.of_free hfree).allocate hfree hmap n g,.allocate n g,.of_card rfl⟩
  | vfree p =>
    obtain ⟨_,rfl,hmap,hfree⟩ := hok
    cases he
    obtain ⟨hA,hF⟩ := (h.of_free hfree).release hfree hmap
    refine ⟨_,rfl,hA,hF,.of_card ?_⟩
    cases v.buf <;> rfl
  | copyFromUser p ptr n =>
    obtain ⟨_,hc,hcov,hfree⟩ := hok
    have hA := h.of_free hfree
    obtain ⟨b,xs,hb,rfl,hn,hus⟩ := hA.shape.usable hc
    obtain ⟨b',hb',ys,hys,rfl,hr⟩ | ⟨hno,_⟩ := World.copyFromUser_done he
    · rw [hus] at hb'
      cases hb'
      -- what the client expects to read is what it finds
      have hread : T.tied t → load w.umem ptr n = load v.um ptr n := fun ht =>
        load_congr (fun y hy => (hA.content ht).um y (hfit.range y
          ⟨Nat.le_trans hcov.1 hy.1,Nat.lt_of_lt_of_le hy.2 hcov.2⟩))
      let zs := if r = 0 then load v.um ptr n else ys
      have hzs : zs.length = n := by
        by_cases hr0 : r = 0 <;> simp [zs,hr0,hys]
      have hyz (ht : T.tied t) : ys = zs := by
        by_cases hr0 : r = 0
        · simp only [zs,if_pos hr0,hr hr0,hread ht]
        · simp only [zs,if_neg hr0]
      obtain ⟨hA',hF⟩ := hA.fill hb (by omega) (by omega) hyz
      refine ⟨_,⟨zs,hzs,fun hr0 => if_pos hr0,?_⟩,hA',hF,.of_card rfl⟩
      rw [hb]
      rfl
    · rw [hus] at hno
      cases hno
  | copyToUser ptr p n =>
    obtain ⟨_,hc,hcov,hfree⟩ := hok
    have hA := h.of_free hfree
    obtain ⟨b,xs,hb,rfl,hn,hus⟩ := hA.shape.usable hc
    obtain ⟨b',hb',m,hm,rfl,hr⟩ | ⟨hno,_⟩ := World.copyToUser_done he
    · rw [hus] at hb'
      cases hb'
      have hlen := (hA.shape.buf b xs hb).2.2.2
      refine ⟨_,⟨m,hm,hr,rfl⟩,hA.setUmem ptr (fun ht => ?_),.setUmem (fun y hy => hfit.range y ?_),
        .of_card rfl⟩
      · rw [(hA.content ht).buf b xs hb,View.bytes_eq hb]
      · rw [List.length_take] at hy
        exact ⟨Nat.le_trans hcov.1 hy.1,Nat.lt_of_lt_of_le hy.2 (by have := hcov.2; omega)⟩
    · rw [hus] at hno
      cases hno
  | downInterruptible =>
    obtain ⟨rfl,rfl,_⟩ | ⟨rfl,hw,rfl⟩ := World.downInterruptible_done he
    · exact ⟨v,.inl ⟨rfl,rfl⟩,rd (.of_bar hok.2)⟩
    · obtain ⟨B,hop,hown,hA⟩ := (h.of_free (.of_bar hok.2)).acquire hok.2 (hidle rfl hw)
      exact ⟨_,.inr ⟨rfl,B,hop,hown,rfl⟩,hA.congr rfl rfl rfl rfl rfl rfl rfl,
        .of_eq rfl rfl rfl rfl rfl rfl,.of_card rfl⟩
  | up =>
    obtain ⟨⟨B,hB,hop⟩,_⟩ := hok
    cases he
    exact ⟨_,rfl,((h.of_free (.of_idle hB hop)).leave hB).congr rfl rfl rfl rfl rfl rfl rfl,
      .of_eq rfl rfl rfl rfl rfl rfl,.of_card rfl⟩
  | iowrite reg a =>
    cases he
    have hA := h.of_free (OkWrite.free hok)
    exact ⟨_,rfl,hA.iowrite hok,.of_eq rfl rfl rfl rfl rfl rfl,
      ⟨fun hbar => OkWrite.spares hok hbar _,fun _ => Card.iowrite_mem _ _ _⟩⟩
  | memcpyToio p n =>
    obtain ⟨⟨B,hB,hop⟩,hc⟩ := hok
    have hA := h.of_free (.of_idle hB hop)
    obtain ⟨b,xs,hb,rfl,hn,hus⟩ := hA.shape.usable hc
    obtain ⟨zs,rfl,hzs⟩ := World.memcpyToio_done he
    have hzs := hzs b hus
    refine ⟨_,rfl,hA.setCard ?_ ?_ ?_,.of_eq rfl rfl rfl rfl rfl rfl,
      ⟨fun _ => ⟨rfl,rfl⟩,fun hs => by cases hs⟩⟩
    · intro B' hB'
      rw [hB] at hB'
      cases hB'
      obtain ⟨hr,ho⟩ := hA.shape.bar B hB
      refine ⟨hr,ho,fun ht => ?_⟩
      rw [hzs,(hA.content ht).buf b xs hb,(hA.content ht).mem B hB,View.bytes_eq hb]
    · intro B' o hB' ho
      rw [hB] at hB'
      cases hB'
      rw [hop] at ho
      cases ho
    · intro _ _ _ hno
      rw [hB] at hno
      cases hno
  | memcpyFromio p n =>
    obtain ⟨⟨B,hB,hop⟩,hc⟩ := hok
    have hA := h.of_free (.of_idle hB hop)
    obtain ⟨b,xs,hb,rfl,hn,hus⟩ := hA.shape.usable hc
    obtain ⟨b',hb',rfl⟩ | ⟨hno,_⟩ := World.memcpyFromio_done he
    · rw [hus] at hb'
      cases hb'
      have hmem (ht : T.tied t) : load w.card.mem r1Start n = load v.mem r1Start n := by
        rw [View.mem_eq hB,(hA.content ht).mem B hB]
      obtain ⟨hA',hF⟩ := hA.fill hb (by simpa using hn) (by simp) hmem
      refine ⟨_,rfl,?_,hF,.of_card rfl⟩
      rw [hb]
      simpa using hA'
    · rw [hus] at hno
      cases hno
  | pollBusy k =>
    obtain ⟨B,o,hB,hop,rfl⟩ := hok
    simp only [World.exec] at he
    split at he
    · cases he
    · rename_i hb
      cases he
      exact ⟨_,rfl,h.of_done hB hop (by simpa using hb),.refl,.of_card rfl⟩
  | waitEvent k =>
    obtain ⟨B,o,hB,hop,rfl⟩ := hok
    obtain ⟨hw,⟨rfl,hb⟩ | ⟨rfl,_⟩⟩ := World.waitStep_done he
    · have hA := h.of_done hB hop hb
      obtain ⟨rfl,_⟩ | rfl := hw
      · exact ⟨_,⟨rfl,rfl⟩,hA,.refl,.of_card rfl⟩
      · exact ⟨_,⟨rfl,rfl⟩,hA.congr rfl rfl rfl rfl rfl rfl rfl,.of_eq rfl rfl rfl rfl rfl rfl,
          .of_card rfl⟩
    · cases hcut
  | dmaMapSingle p n =>
    obtain ⟨⟨B,hB,hop⟩,⟨b,xs,hb,rfl,_⟩,_⟩ := hok
    have hfree := View.Free.of_idle hB hop
    obtain ⟨rfl,rfl⟩ | ⟨rfl,rfl⟩ := World.dmaMapSingle_done he
    · exact ⟨v,.inl ⟨rfl,rfl⟩,rd hfree⟩
    · exact ⟨_,.inr ⟨w.nmap,rfl,rfl⟩,(h.of_free hfree).mapSingle hfree hb,.mapSingle _ _,
        .of_card rfl⟩
  | dmaUnmapSingle m n =>
    obtain ⟨⟨B,hB,hop⟩,hm⟩ := hok
    have hfree := View.Free.of_idle hB hop
    cases he
    obtain ⟨hA,hF⟩ := (h.of_free hfree).unmapSingle hfree hm
    exact ⟨_,rfl,hA,hF,.of_card rfl⟩
  | userStore addr xs =>
    obtain ⟨hcov,hfree⟩ := hok
    cases he
    refine ⟨_,rfl,(h.of_free hfree).setUmem addr (fun _ => rfl),
      .setUmem (fun y hy => hfit.range y ?_),.of_card rfl⟩
    exact ⟨Nat.le_trans hcov.1 hy.1,Nat.lt_of_lt_of_le hy.2 hcov.2⟩
  | mapStore off xs =>
    obtain ⟨_,hbar⟩ := hok
    cases he
    have hA := h.of_free (.of_bar hbar)
    refine ⟨_,rfl,⟨⟨hA.shape.jobs,hA.shape.buf,hA.shape.map,?_,?_⟩,
      fun ht => ⟨(hA.content ht).um,(hA.content ht).buf,?_,?_⟩⟩,.of_eq rfl rfl rfl rfl rfl rfl,
      ⟨fun _ => ⟨rfl,rfl⟩,fun hs => by cases hs⟩⟩
    · exact fun B hB => absurd (hbar.symm.trans hB) (by simp)
    · exact fun B _ hB => absurd (hbar.symm.trans hB) (by simp)
    · exact fun B hB => absurd (hbar.symm.trans hB) (by simp)
    · intro m hm _
      obtain ⟨m₀,hm₀,rfl⟩ := Option.map_eq_some_iff.mp hm
      rw [← (hA.content ht).own m₀ hm₀ hbar]
      rfl

theorem Fits.next {a : Act} {r : a.Res} (h : Fits T t v) (hok : v.Ok a)
    (hn : v.Next c a r v') : Fits T t v' := by
  have hl := View.next_link hn
  refine ⟨?_,?_,?_,?_,fun B hB => ?_,fun m hm => ?_⟩
  · rw [hl.file]; exact h.file
  · rw [hl.lo,hl.size]; exact h.range
  · rw [hl.role]; exact h.active
  · rw [hl.role]; exact h.mapper
  · rw [hl.role]
    by_cases hd : a = .downInterruptible
    · subst hd
      exact hok.1
    · by_cases hu : a = .up
      · subst hu
        obtain ⟨B,hB,_⟩ := hok.1
        exact h.bar B hB
      · obtain ⟨B,hB⟩ := Option.ne_none_iff_exists'.mp
          (fun hno => absurd ((View.next_bar hn hd hu).mpr hno) (by rw [hB]; simp))
        exact h.bar B hB
  · obtain ⟨m,hm⟩ := Option.ne_none_iff_exists'.mp
      (fun hno => absurd ((View.next_own hn).mpr hno) (by rw [hm]; simp))
    exact h.own m hm

namespace Tenants

variable {g : Nat → View}

/-- Nobody has the card in use while the semaphore can be taken. -/
theorem idle (h : Tenants T c g w) (hw : 0 < w.wsem) : w.card.op = none := by
  cases ho : w.card.op with
  | none => rfl
  | some o =>
    obtain ⟨t,ht⟩ := h.running o ho
    exact absurd ht (h.sem.free hw t)

theorem sem_next (h : Tenants T c g w) {a : Act} {x : Choice} {r : a.Res} (hok : (g t).Ok a)
    (hn : (g t).Next c a r v') (he : World.exec t a x w = some (.done r w')) :
    Sem (fun u => (Function.update g t v' u).bar ≠ none) w' := by
  refine Sem.next (H := fun v : View => v.bar ≠ none) h.sem he (fun hu => ?_) (fun hu => ?_)
  · by_cases hd : a = .downInterruptible
    · subst hd
      obtain ⟨rfl,rfl⟩ | ⟨rfl,B,_,_,rfl⟩ := hn <;> simp [Act.takes]
    · have hbar := View.next_bar hn hd hu
      cases a with
      | downInterruptible => exact absurd rfl hd
      | _ => simp [Act.takes,hbar]
  · subst hu
    obtain ⟨⟨B,hB,_⟩,_⟩ := hok
    cases hn
    exact ⟨by rw [hB]; exact Option.some_ne_none B,by simp⟩

/-- The card is used by the holder of the semaphore only. -/
theorem running_next (h : Tenants T c g w) {a : Act} {x : Choice} {r : a.Res}
    (hok : (g t).Ok a) (hn : (g t).Next c a r v') (he : World.exec t a x w = some (.done r w'))
    (hs : Spares (g t) a w w') :
    ∀ o, w'.card.op = some o → ∃ u, (Function.update g t v' u).bar ≠ none := by
  intro o ho
  by_cases hu : a = .up
  · subst hu
    obtain ⟨⟨B,hB,hop⟩,_⟩ := hok
    cases he
    have hw := (((h.sees t).of_free (.of_idle hB hop)).shape.bar B hB).2
    rw [hop] at hw
    rw [show (w.up t).card = w.card from rfl,hw] at ho
    cases ho
  · by_cases hb : v'.bar = none
    · have hbar : (g t).bar = none := by
        by_cases hd : a = .downInterruptible
        · subst hd
          exact hok.2
        · exact (View.next_bar hn hd hu).mp hb
      rw [(hs.control hbar).2] at ho
      obtain ⟨u,hu⟩ := h.running o ho
      have hut : u ≠ t := fun e => hu (e ▸ hbar)
      exact ⟨u,by rwa [Function.update_of_ne hut]⟩
    · exact ⟨t,by simpa using hb⟩

theorem done (h : Tenants T c g w) {a : Act} {x : Choice} {r : a.Res} (hok : (g t).Ok a)
    (hcut : a.cut r = false) (he : World.exec t a x w = some (.done r w'))
    (hmem : a.stores = true → ∀ u, u ≠ t → T.tied u →
      (g u).own = none ∧ ((g t).bar = none → (g u).bar = none)) :
    ∃ v', (g t).Next c a r v' ∧ Tenants T c (Function.update g t v') w' := by
  obtain ⟨v',hn,hA,hF,hS⟩ := local_step (h.fits t) (h.sees t) (fun _ hw => h.idle hw) hok hcut he
  refine ⟨v',hn,h.sem_next hok hn he,h.running_next hok hn he hS,fun u => ?_,fun u => ?_⟩
  · by_cases hut : u = t
    · subst u
      rw [Function.update_self]
      exact .inl hA
    · rw [Function.update_of_ne hut]
      -- whoever else holds the semaphore, `t` does not
      have halone (hu : (g u).bar ≠ none) : (g t).bar = none := by
        by_contra ht
        exact hut (h.sem.unique hu ht)
      refine (h.sees u).frame hut hF (fun hu => hS.control (halone hu)) (fun htied hu => ?_)
      refine hS.mem ?_
      by_contra hst
      obtain ⟨hown,hbar⟩ := hmem (by simpa using hst) u hut htied
      obtain hu | hu := hu
      · exact hu (hbar (halone hu))
      · exact hu hown
  · by_cases hut : u = t
    · subst u
      rw [Function.update_self]
      exact (h.fits t).next hok hn
    · rw [Function.update_of_ne hut]
      exact h.fits u

theorem stay (h : Tenants T c g w) {a : Act} {x : Choice}
    (he : World.exec t a x w = some (.stay w')) : Tenants T c g w' := by
  have hsem := h.sem.stay he
  obtain ⟨_,rfl⟩ := World.stay_task he
  exact ⟨hsem,h.running,fun u => (h.sees u).imp (fun h => h.congr rfl rfl rfl rfl rfl rfl rfl)
    (fun h => h.congr rfl rfl rfl rfl rfl rfl rfl),h.fits⟩

/-- No client ever copies through a pointer that it cannot use. -/
theorem no_oops (h : Tenants T c g w) {a : Act} {x : Choice} (hok : (g t).Ok a) :
    World.exec t a x w ≠ some (.oops w') := by
  intro he
  obtain ⟨_,p,n,hb,hno⟩ := World.exec_oops he
  have usable (hc : (g t).Copies p n) (hfree : (g t).Free) : False := by
    obtain ⟨b,xs,_,_,_,hus⟩ := ((h.sees t).of_free hfree).shape.usable hc
    rw [hno] at hus
    cases hus
  have idle (hi : (g t).Idle) : (g t).Free := by
    obtain ⟨B,hB,hop⟩ := hi
    exact .of_idle hB hop
  cases a with
  | copyFromUser p ptr n => cases hb; exact usable hok.2.1 hok.2.2.2
  | copyToUser ptr p n => cases hb; exact usable hok.2.1 hok.2.2.2
  | memcpyToio p n => cases hb; exact usable hok.2 (idle hok.1)
  | memcpyFromio p n => cases hb; exact usable hok.2 (idle hok.1)
  | _ => cases hb

/-- A client makes a call: its view changes in what does not concern the world. -/
theorem begin_call (h : Tenants T c g w) {v' : View} (hfit : Fits T t v')
    (hjobs : v'.jobs = (g t).jobs) (hclean : v'.Clean) (hbar : (g t).bar = none)
    (hum : T.tied t → ∀ x, T.owner x = t → w.umem x = v'.um x)
    (hown : T.tied t → ∀ m, v'.own = some m → w.card.mem = m) :
    Tenants T c (Function.update g t v') w := by
  obtain ⟨hbuf,hmap,hbar'⟩ := hclean
  have hA := (h.sees t).of_free (.of_bar hbar)
  refine ⟨h.sem.congr rfl rfl (fun u => ?_),fun o ho => ?_,fun u => ?_,fun u => ?_⟩
  · by_cases hut : u = t <;> simp [hut,hbar,hbar']
  · obtain ⟨u,hu⟩ := h.running o ho
    have hut : u ≠ t := fun e => hu (e ▸ hbar)
    exact ⟨u,by rwa [Function.update_of_ne hut]⟩
  · by_cases hut : u = t
    · subst u
      rw [Function.update_self]
      refine .inl ⟨⟨?_,?_,?_,?_,?_⟩,fun ht => ⟨hum ht,?_,?_,fun m hm _ => hown ht m hm⟩⟩
      · rw [hjobs]; exact hA.shape.jobs
      · exact fun b xs hb => absurd (hbuf.symm.trans hb) (by simp)
      · exact fun m hm => absurd (hmap.symm.trans hm) (by simp)
      · exact fun B hB => absurd (hbar'.symm.trans hB) (by simp)
      · exact fun B _ hB => absurd (hbar'.symm.trans hB) (by simp)
      · exact fun b xs hb => absurd (hbuf.symm.trans hb) (by simp)
      · exact fun B hB => absurd (hbar'.symm.trans hB) (by simp)
    · rw [Function.update_of_ne hut]
      exact h.sees u
  · by_cases hut : u = t
    · subst u
      rwa [Function.update_self]
    · rw [Function.update_of_ne hut]
      exact h.fits u

/-- The card works on what its operation was given, and on nothing else. -/
theorem env (h : Tenants T c g w) {e : World.Env} (he : World.env c e w = some w')
    (hmem : e = .finish → ∀ o, w.card.op = some o → o.kind = .mmio → ∀ u, T.tied u →
      (g u).bar = none → (g u).own = none) : Tenants T c g w' := by
  have hsem := h.sem.env he
  obtain ⟨hfin,o,ho,_,rfl⟩ | ⟨_,k,_,rfl⟩ := World.env_cases he
  · obtain ⟨t,ht⟩ := h.running o ho
    obtain ⟨B,hB⟩ := Option.ne_none_iff_exists'.mp ht
    obtain ⟨hop,hA⟩ := (h.sees t).of_running hB ho
    obtain ⟨hA',hF,hkeep⟩ := hA.finish hB hop
    refine ⟨hsem,(fun _ ho' => by cases ho'),fun u => ?_,h.fits⟩
    by_cases hut : u = t
    · subst u
      exact .inr hA'
    · have hbar : (g u).bar = none := by
        by_contra hu
        exact hut (h.sem.unique hu ht)
      refine (h.sees u).frame hut hF (fun hb => absurd hbar hb) (fun htied hu => hkeep ?_)
      intro hk
      exact hu.elim (fun hb => hb hbar) (fun hown => hown (hmem hfin o ho hk u htied hbar))
  · refine ⟨hsem,h.running,fun u => ?_,h.fits⟩
    have keep {v : View} (hA : Agree T u v w) : Agree T u v { w with card := { w.card with
        raising := none, pending := Function.update w.card.pending k true } } :=
      ⟨⟨hA.shape.jobs,hA.shape.buf,hA.shape.map,hA.shape.bar,hA.shape.dma⟩,fun ht =>
        ⟨(hA.content ht).um,(hA.content ht).buf,(hA.content ht).mem,(hA.content ht).own⟩⟩
    exact (h.sees u).imp keep keep

end Tenants

end

end CryptoCard
