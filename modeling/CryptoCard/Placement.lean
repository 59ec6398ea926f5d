import CryptoCard.Mirror
import CryptoCard.Frames
import CryptoCard.LibCalls
import CryptoCard.Window
set_option autoImplicit false

/-! One write, in DMA mode and in MMIO mode, when the pages of its buffer lie anywhere in
physical memory and the card works on consecutive bus addresses. -/
namespace CryptoCard
open Memory Program Interleave

/-- Pages of 4096 bytes. -/
abbrev Pages := Frames 4096

/-- The world, with what lies in physical memory outside the buffer. -/
structure Board where
  world : World
  ram : Nat → Byte

namespace Board

/-- The card finishes an operation. On the buffer `b` it works through the bus: on as many
physical addresses as it was told, from that of the first byte on. -/
def transform (F : Pages) (b : Nat) (e : Bool → Nat → Byte → Byte) (p : Board) (o : Op) : Board :=
  if o.kind = .dma ∧ p.world.dmaTarget o.addr o.len = some b then
    let xs := (p.world.heap b).data
    let m := F.overlay xs p.ram
    let m' := store m (F.addr 0) ((load m (F.addr 0) o.len).map (e o.decrypt o.key))
    ⟨p.world.fill b (F.gather xs.length m'),m'⟩
  else ⟨p.world.transform (.bytewise e) o,p.ram⟩

def env (F : Pages) (b : Nat) (e : Bool → Nat → Byte → Byte) : World.Env → Board → Option Board
  | .finish, p =>
    match p.world.card.op with
    | some o =>
      if o.intr && p.world.card.raising.isSome then none
      else
        let p' := p.transform F b e o
        some ⟨p'.world.settle o,p'.ram⟩
    | none => none
  | .raise, p => (World.env (.bytewise e) .raise p.world).map (fun w => ⟨w,p.ram⟩)

/-- The driver reads and writes the buffer through the page table. -/
def exec (t : Nat) (a : Act) (x : Choice) (p : Board) : Option (Out Board a.Res) :=
  (World.exec t a x p.world).map (Out.map (fun w => ⟨w,p.ram⟩))

end Board

/-- The machine of the driver with physical memory. -/
def board (F : Pages) (b : Nat) (e : Bool → Nat → Byte → Byte) :
    Machine Act Act.Res Board Call World.Env Choice Int where
  exec := Board.exec
  env := Board.env F b e
  code := Call.code

/-- The cipher of DMA operations on a buffer of these pages. -/
def placed (F : Pages) (e : Bool → Nat → Byte → Byte) : Cipher where
  run d k xs := xs.mapIdx (fun i x => if Within (F.addr 0) xs.length (F.addr i) then e d k x else x)
  run_length _ _ _ := List.length_mapIdx

/-- Thread `t` makes one write; besides there are only interrupts. -/
def OneWrite (t f ptr n : Nat) (s : System) : Step → Prop
  | .call u cl => cl.front = true → u = t ∧ cl = .write f ptr n ∧ syscalls s t = []
  | _ => True

/-- The card works on the buffer `b` only, and inside its first `n` bytes. -/
def Board.Inside (F : Pages) (b n : Nat) (p : Board) : Prop :=
  ∀ o, p.world.card.op = some o → o.kind = .dma → (p.world.maps o.addr).buf = some b ∧
    ∀ x, Within (F.addr 0) o.len x → ∃ i, i < n ∧ F.addr i = x

def World.inMode (w : World) (f : Nat) (isM : Bool) : World := w.setJob f { w.jobs f with isM := isM }

/-- The runs of one write of a job in the mode `isM`, with nobody in a call yet. -/
def WriteRun (F : Pages) (e : Bool → Nat → Byte → Byte) (p : Board) (t f ptr n : Nat) (isM : Bool)
    (s : Sys Act Act.Res Board Call Int) : Prop :=
  (board F p.world.nbuf e).Reaches (fun s l => OneWrite t f ptr n (s.map Board.world) l)
    ⟨⟨p.world.inMode f isM,p.ram⟩,fun _ => .idle,fun _ => []⟩ s

/-- The card touches nothing but the buffer in DMA mode, and a write that returns 0 leaves
the user's memory as one in MMIO mode does. -/
structure DmaAgrees (F : Pages) (e : Bool → Nat → Byte → Byte) (p : Board) (t f ptr n : Nat) :
    Prop where
  inside : ∀ s, WriteRun F e p t f ptr n false s → s.world.Inside F p.world.nbuf n
  same : ∀ s s', WriteRun F e p t f ptr n false s → WriteRun F e p t f ptr n true s' →
    (Call.write f ptr n,0) ∈ s.hist t → (Call.write f ptr n,0) ∈ s'.hist t →
    s.world.world.umem = s'.world.world.umem

section
variable {c : Cipher} {K : Terms c} {t f ptr n : Nat} {w₀ w w₁ : World}

/-- The card is at work on the buffer `b` of `n` bytes, if at all. -/
def onBuffer (c : Cipher) (b n : Nat) : Terms c where
  Allows _ _ _ := True
  Good w := ∀ o, w.card.op = some o → o.kind = .dma ∧ o.len = n ∧
    (w.maps o.addr).buf = some b ∧ (w.heap b).data.length = n
  idle hop o ho := by
    rw [hop] at ho
    cases ho
  lasts f := by
    refine ⟨fun h hw => ?_,fun p h => ?_,fun p h => h,fun t h => h⟩
    · obtain ⟨_,_,_,rfl⟩ | ⟨_,_,_,rfl⟩ := hw
      · exact h
      · intro o ho
        cases (World.complete_op c _).symm.trans ho
    · intro o ho
      cases p with
      | none => exact h o ho
      | some b' =>
        obtain ⟨hk,hl,hm,hb⟩ := h o ho
        refine ⟨hk,hl,hm,?_⟩
        rw [← hb]
        by_cases hbb : b = b'
        · subst hbb
          simp [World.release,World.setBuf]
        · simp [World.release,World.setBuf,hbb]

/-- The card is at work on the window, if at all. -/
def onWindow (c : Cipher) : Terms c where
  Allows _ _ _ := True
  Good w := ∀ o, w.card.op = some o → o.kind = .mmio
  idle hop o ho := by
    rw [hop] at ho
    cases ho
  lasts f := by
    refine ⟨fun h hw => ?_,fun p h => ?_,fun p h => h,fun t h => h⟩
    · obtain ⟨_,_,_,rfl⟩ | ⟨_,_,_,rfl⟩ := hw
      · exact h
      · intro o ho
        cases (World.complete_op c _).symm.trans ho
    · cases p <;> exact h

def oneWrite (K : Terms c) (t f ptr n : Nat) (w₀ : World) : Turns.Protocol World Call Int where
  Rest hs w := (hs t = [] ∧ Alike w₀ w) ∨ ∃ v, hs t = [(.write f ptr n,v)] ∧
    Attempt c K.Allows f ptr (min n MAX_RW_COUNT) w₀ v w ∧ K.Good w
  Open hs w u cl := u = t ∧ cl = .write f ptr n ∧ hs t = [] ∧ Alike w₀ w
  Spec _ _ _ := Attempt c K.Allows f ptr (min n MAX_RW_COUNT) w₀

theorem oneWrite_follows (hop : w₀.card.op = none) (hst : Starts K f (min n MAX_RW_COUNT) w₀)
    (hal : ∀ w a r, K.Allows w a r) :
    (solo c K).Follows (machine c) (OneWrite t f ptr n) (oneWrite K t f ptr n w₀) where
  bears := solo_bears c K
  alone := by
    intro s u cl hp hcl hidle hopen u' cl' w hu'
    by_contra hf
    obtain ⟨rfl,_⟩ := hp hcl
    obtain ⟨rfl,_⟩ := hopen u' cl' w hu' (by simpa using hf)
    rw [Sys.turn,hidle] at hu'
    cases hu'
  begins := by
    intro s u cl hp hcl hrest
    obtain ⟨rfl,rfl,hnil⟩ := hp hcl
    rcases hrest with ⟨_,hw⟩ | ⟨v,hhs,_⟩
    · exact ⟨rfl,rfl,hnil,hw⟩
    · cases hnil.symm.trans hhs
  good := by
    intro hs w u cl _ hopen
    exact K.settles (K.idle hop) (.inl hopen.2.2.2)
  code := by
    intro hs w u cl _ hopen
    obtain ⟨rfl,rfl,_,hw⟩ := hopen
    exact sysWrite_sure hop hst w (.inl hw)
  back := by
    intro s u cl _ hcl
    cases cl with
    | irq dev => exact pciIrqHandle_meek dev
    | _ => cases hcl
  allows := fun _ _ _ _ => hal _ _ _
  rely := by
    intro hs w w' hrest hw
    rcases hrest with ⟨hnil,hal⟩ | ⟨v,hhs,ha,hg⟩
    · have hop' : w.card.op = none := by
        obtain ⟨_,_,_,rfl⟩ := hal
        exact hop
      exact .inl ⟨hnil,hal.trans (hw.idle hop')⟩
    · exact .inr ⟨v,hhs,attempt_lasting.settles ha hw,K.settles hg hw⟩
  closes := by
    intro hs w u cl v w₁ w₂ _ hopen hspec hg hw
    obtain ⟨rfl,rfl,hnil,_⟩ := hopen
    refine .inr ⟨v,?_,attempt_lasting.settles hspec hw,K.settles hg hw⟩
    rw [Function.update_self,hnil]

/-- What there is at every point of a run of one write. -/
theorem oneWrite_reaches (hop : w₀.card.op = none) (hst : Starts K f (min n MAX_RW_COUNT) w₀)
    (hal : ∀ w a r, K.Allows w a r) {s : System}
    (hr : (machine c).Reaches (OneWrite t f ptr n) (start w₀) s) :
    K.Good s.world ∧ ∀ v, (Call.write f ptr n,v) ∈ s.hist t →
      Attempt c K.Allows f ptr (min n MAX_RW_COUNT) w₀ v s.world := by
  have hfollows : (solo c K).Follows (machine c) (OneWrite t f ptr n) (oneWrite K t f ptr n w₀) :=
    oneWrite_follows hop hst hal
  obtain ⟨hrest,hopen,_,hgood⟩ := hfollows.reaches (.inl ⟨rfl,.refl w₀⟩) hr
  by_cases hstill : (solo c K).Still s
  · rcases hrest hstill with ⟨hnil,hw⟩ | ⟨v,hhs,ha,hg⟩
    · refine ⟨K.settles (K.idle hop) (.inl hw),fun v hv => ?_⟩
      have hv' : (Call.write f ptr n,v) ∈ (solo c K).deeds s t := List.mem_filter.mpr ⟨hv,rfl⟩
      rw [hnil] at hv'
      cases hv'
    · refine ⟨hg,fun v' hv => ?_⟩
      have hv' : (Call.write f ptr n,v') ∈ (solo c K).deeds s t := List.mem_filter.mpr ⟨hv,rfl⟩
      rw [hhs] at hv'
      cases List.mem_singleton.mp hv'
      exact ha
  · obtain ⟨u,cl,w,hu,hcl⟩ : ∃ u cl w, s.turn u = some (cl,w) ∧ cl.front = true := by
      by_contra hno
      refine hstill (fun u cl w hu => ?_)
      by_contra hf
      exact hno ⟨u,cl,w,hu,(Bool.not_eq_false _).mp hf⟩
    refine ⟨hgood u cl w hu hcl,fun v hv => ?_⟩
    obtain ⟨rfl,rfl,hnil,_⟩ := hopen u cl w hu hcl
    have hv' : (Call.write f ptr n,v) ∈ (solo c K).deeds s u := List.mem_filter.mpr ⟨hv,rfl⟩
    rw [hnil] at hv'
    cases hv'

end

section
variable {F : Pages} {e : Bool → Nat → Byte → Byte} {b n : Nat} {p : Board} {o : Op}

theorem placed_compact (h : F.Compact n) {xs : List Byte} (hxs : xs.length = n) (d : Bool)
    (k : Nat) : (placed F e).run d k xs = xs.map (e d k) := by
  refine List.ext_getElem (by simp [placed]) (fun i hi hi' => ?_)
  have hin : i < n := by simpa [hxs] using hi'
  simp [placed,hxs,h i hin]

/-- Through the page table the bus transfer shows as the placed cipher. -/
theorem gather_transfer (xs : List Byte) (ram : Nat → Byte) (d : Bool) (k : Nat) :
    F.gather xs.length (store (F.overlay xs ram) (F.addr 0)
      ((load (F.overlay xs ram) (F.addr 0) xs.length).map (e d k))) = (placed F e).run d k xs := by
  refine List.ext_getElem (by simp [placed]) (fun i hi hi' => ?_)
  have hin : i < xs.length := by simpa using hi
  have hx := F.overlay_addr xs ram hin
  have hlhs : (F.gather xs.length (store (F.overlay xs ram) (F.addr 0)
      ((load (F.overlay xs ram) (F.addr 0) xs.length).map (e d k))))[i] =
      store (F.overlay xs ram) (F.addr 0)
        ((load (F.overlay xs ram) (F.addr 0) xs.length).map (e d k)) (F.addr i) := by
    simp [Frames.gather]
  rw [hlhs]
  by_cases hw : Within (F.addr 0) xs.length (F.addr i)
  · rw [store_map _ _ _ _ _ hw,hx]
    simp [placed,hw]
  · rw [store_outside _ _ _ _ (by simpa using hw),hx]
    simp [placed,hw]

/-- On its buffer the card does what the placed cipher does. -/
theorem Board.transform_world {c : Cipher} (hg : (onBuffer c b n).Good p.world)
    (ho : p.world.card.op = some o) :
    (p.transform F b e o).world = p.world.transform (placed F e) o := by
  obtain ⟨hk,hl,hm,hb⟩ := hg o ho
  have htarget (b' : Nat) (ht : p.world.dmaTarget o.addr o.len = some b') : b' = b := by
    unfold World.dmaTarget at ht
    split at ht
    · have h₁ := (World.usable_eq ht).1
      rw [hm] at h₁
      exact (Option.some.inj h₁).symm
    · cases ht
  unfold Board.transform World.transform
  rw [hk]
  cases ht : p.world.dmaTarget o.addr o.len with
  | none => rfl
  | some b' =>
    obtain rfl := htarget b' ht
    have hlen : (p.world.heap b').data.length = o.len := hb.trans hl.symm
    rw [if_pos ⟨rfl,rfl⟩]
    show p.world.fill b' _ = p.world.fill b' _
    rw [List.take_of_length_le (Nat.le_of_eq hlen),← gather_transfer _ p.ram,hlen]

/-- Where an operation does what it does under the cipher `c`, the rest is the machine of
that cipher. -/
theorem board_mimics {c : Cipher} {I : World → Prop} (h : ∀ (p : Board) o, I p.world →
    p.world.card.op = some o → (p.transform F b e o).world = p.world.transform c o) :
    Mimics (board F b e) (machine c) Board.world I where
  code _ := rfl
  exec t a x p := by
    show World.exec t a x p.world = ((World.exec t a x p.world).map _).map _
    rw [Option.map_map]
    rcases World.exec t a x p.world with _ | (w | ⟨r,w⟩ | w) <;> rfl
  env ev p hI := by
    show World.env c ev p.world = (Board.env F b e ev p).map Board.world
    cases ev with
    | raise =>
      simp only [Board.env,World.env]
      cases p.world.card.raising <;> rfl
    | finish =>
      simp only [Board.env,World.env]
      cases ho : p.world.card.op with
      | none => rfl
      | some o =>
        dsimp only
        split
        · rfl
        · rw [Option.map_some,h p o hI ho]

end

theorem World.inMode_jobs (w : World) (f : Nat) (isM : Bool) :
    (w.inMode f isM).jobs f = { w.jobs f with isM := isM } := Function.update_self _ _ _

section
variable {F : Pages} {e : Bool → Nat → Byte → Byte} {p : Board} {t f ptr n : Nat} {isM : Bool}
variable {s : Sys Act Act.Res Board Call Int}

/-- A run of one write with physical memory, as a run without. -/
theorem WriteRun.reaches {c : Cipher} {K : Terms c} (h : WriteRun F e p t f ptr n isM s)
    (hM : Mimics (board F p.world.nbuf e) (machine c) Board.world K.Good)
    (hst : Starts K f (min n MAX_RW_COUNT) (p.world.inMode f isM)) (hop : p.world.card.op = none)
    (hal : ∀ w a r, K.Allows w a r) :
    K.Good s.world.world ∧ ∀ v, (Call.write f ptr n,v) ∈ s.hist t →
      Attempt c K.Allows f ptr (min n MAX_RW_COUNT) (p.world.inMode f isM) v s.world.world :=
  have hop' : (p.world.inMode f isM).card.op = none := hop
  oneWrite_reaches hop' hst hal (hM.down (fun _ hr => (oneWrite_reaches hop' hst hal hr).1) h)

theorem onBuffer_mimics {b : Nat} : Mimics (board F b e) (machine (placed F e)) Board.world
    (onBuffer (placed F e) b n).Good :=
  board_mimics (fun _ _ hg ho => Board.transform_world hg ho)

theorem onWindow_mimics {b : Nat} : Mimics (board F b e) (machine (.bytewise e)) Board.world
    (onWindow (.bytewise e)).Good := by
  refine board_mimics (fun p o hg ho => ?_)
  have hk : o.kind = .mmio := hg o ho
  rw [Board.transform,if_neg (by simp [hk])]

theorem onBuffer_starts {c : Cipher} {w : World} (hn : n ≤ MAX_RW_COUNT) :
    Starts (onBuffer c w.nbuf n) f (min n MAX_RW_COUNT) (w.inMode f false) where
  mmio hm := by
    rw [World.inMode_jobs] at hm
    cases hm
  dma _ w' o ho hk hl hm hh o' ho' := by
    cases ho.symm.trans ho'
    rw [Nat.min_eq_left hn] at hl hh
    exact ⟨hk,hl,hm,hh⟩

theorem onWindow_starts {c : Cipher} {w : World} : Starts (onWindow c) f n (w.inMode f true) where
  mmio _ w' o ho hk o' ho' := by
    cases ho.symm.trans ho'
    exact hk
  dma hm := by
    rw [World.inMode_jobs] at hm
    cases hm

/-- The user's memory after a write that has returned 0. -/
theorem attempt_umem {c : Cipher} {Al : World → (a : Act) → a.Res → Prop} {w w' : World}
    (h : Attempt c Al f ptr n (w.inMode f isM) 0 w') (hN : (w.jobs f).isNotMM = true) :
    w'.umem = store w.umem ptr (c.run (!(w.jobs f).isE) (w.jobs f).keyab (load w.umem ptr n)) := by
  have hjob := World.inMode_jobs w f isM
  obtain ⟨m,hum,hm,_⟩ := h.user
  have hle := hm (by rw [hjob]; exact hN) rfl
  rw [World.crypted,hjob] at hum
  rw [hum]
  exact congrArg _ (List.take_of_length_le (by
    rw [Cipher.run_length,load_length]
    exact hle))

theorem dma_agrees_of_compact (hn : n ≤ MAX_RW_COUNT) (hN : (p.world.jobs f).isNotMM = true)
    (hop : p.world.card.op = none) (hF : F.Compact n) : DmaAgrees F e p t f ptr n where
  inside s h o ho _ := by
    obtain ⟨_,hl,hm,_⟩ := (h.reaches onBuffer_mimics (onBuffer_starts hn) hop
      (fun _ _ _ => trivial)).1 o ho
    rw [hl]
    exact ⟨hm,(F.compact_iff n).mpr hF⟩
  same s s' h h' hs hs' := by
    have ha := (h.reaches onBuffer_mimics (onBuffer_starts hn) hop (fun _ _ _ => trivial)).2 0 hs
    have ha' := (h'.reaches onWindow_mimics onWindow_starts hop (fun _ _ _ => trivial)).2 0 hs'
    rw [attempt_umem ha hN,attempt_umem ha' hN,Nat.min_eq_left hn,
      placed_compact hF (load_length _ _ _)]
    rfl

end

section
variable {c : Cipher} {t f n ptr : Nat} {w : World}

theorem dmaWait_hits (hop : w.card.op = none) :
    (machine c).Hits t anyhow (fun w => ∃ o, w.card.op = some o) (dmaWait f) w := by
  have hstart (mode : Nat) :
      (machine c).Hits t anyhow (fun w => ∃ o, w.card.op = some o) (dmaStart f mode) w := by
    refine .step .ok trivial rfl ?_
    cases (w.jobs f).flag .isE with
    | true => exact .act .ok trivial rfl (.here ⟨_,by simp [Card.iowrite,Card.start,hop]; rfl⟩)
    | false => exact .act .ok trivial rfl (.here ⟨_,by simp [Card.iowrite,Card.start,hop]; rfl⟩)
  refine .step .ok trivial rfl ?_
  cases (w.jobs f).flag .isI with
  | true => exact .left (hstart 0x4)
  | false => exact .left (hstart 0x0)

theorem dmaBranch_hits (hop : w.card.op = none) :
    (machine c).Hits t anyhow (fun w => ∃ o, w.card.op = some o) (dmaBranch f ptr) w := by
  refine .step .ok trivial rfl (.step .ok trivial rfl (.step .ok trivial rfl ?_))
  exact .step .ok trivial rfl (.step .ok trivial rfl (.step .ok trivial rfl
    (.left (dmaWait_hits hop))))

end

section
variable {F : Pages} {e : Bool → Nat → Byte → Byte} {p : Board} {t f ptr n : Nat}

/-- A write in DMA mode starts the card. -/
theorem exists_dma (hn : 0 < n) (hle : n ≤ MAX_RW_COUNT) (hN : (p.world.jobs f).isNotMM = true)
    (hop : p.world.card.op = none) (hw : 0 < p.world.wsem) :
    ∃ s, WriteRun F e p t f ptr n false s ∧ ∃ o, s.world.world.card.op = some o := by
  let w := p.world.inMode f false
  have hjob := World.inMode_jobs p.world f false
  let s₁ : System := { start w with
    thr := Function.update (fun _ => .idle) t (.run (.write f ptr n) w (sysWrite f ptr n)) }
  have hits : (machine (placed F e)).Hits t anyhow (fun w => ∃ o, w.card.op = some o)
      (sysWrite f ptr n) w := by
    refine pciWrite_hits (m := false) (fun _ h => dmaBranch_hits h.op) (by rw [hjob])
      (fun _ => by rw [hjob]; exact hN) hop hw (n := min n MAX_RW_COUNT) (by omega) ?_
    unfold MAX_RW_COUNT
    omega
  have ht : s₁.thr t = .run (.write f ptr n) w (sysWrite f ptr n) := by simp [s₁]
  have hcall : (machine (placed F e)).step (start w) (.call t (.write f ptr n)) = some s₁ := rfl
  obtain ⟨s,hr,hbusy⟩ := hits.reaches (P := OneWrite t f ptr n) (fun _ _ _ => trivial)
    (fun _ _ => trivial) ht rfl
  have hadm : OneWrite t f ptr n (start w) (.call t (.write f ptr n)) := fun _ => ⟨rfl,rfl,rfl⟩
  let b₀ : Sys Act Act.Res Board Call Int := ⟨⟨w,p.ram⟩,fun _ => .idle,fun _ => []⟩
  have hr' : (machine (placed F e)).Reaches (OneWrite t f ptr n) (b₀.map Board.world) s :=
    .head hadm hcall hr
  have hM : Mimics (board F p.world.nbuf e) (machine (placed F e)) Board.world
    (onBuffer (placed F e) p.world.nbuf n).Good := onBuffer_mimics
  have hop' : w.card.op = none := hop
  have hgood (s : System) (h : (machine (placed F e)).Reaches (OneWrite t f ptr n)
      (b₀.map Board.world) s) : (onBuffer (placed F e) p.world.nbuf n).Good s.world :=
    (oneWrite_reaches hop' (onBuffer_starts hle) (fun _ _ _ => trivial) h).1
  obtain ⟨s',rfl,hs'⟩ := hM.up hgood hr'
  exact ⟨s',hs',hbusy⟩

theorem compact_of_dma_agrees (hn : 0 < n) (hle : n ≤ MAX_RW_COUNT)
    (hN : (p.world.jobs f).isNotMM = true) (hop : p.world.card.op = none) (hw : 0 < p.world.wsem)
    (h : DmaAgrees F e p t f ptr n) : F.Compact n := by
  have hdma : ∃ s, WriteRun F e p t f ptr n false s ∧ ∃ o, s.world.world.card.op = some o :=
    exists_dma hn hle hN hop hw
  obtain ⟨s,hs,o,ho⟩ := hdma
  obtain ⟨hk,hl,_⟩ := (hs.reaches onBuffer_mimics (onBuffer_starts hle) hop
    (fun _ _ _ => trivial)).1 o ho
  obtain ⟨_,hin⟩ := h.inside s hs o ho hk
  rw [hl] at hin
  exact (F.compact_iff n).mp hin

end

/-- A write in DMA mode agrees with one in MMIO mode, and leaves all other memory alone, if
and only if the bytes of its buffer fill the bus addresses that the card is given. -/
theorem dma_agrees_iff_compact (F : Pages) (e : Bool → Nat → Byte → Byte) (p : Board)
    (t f ptr n : Nat) (hn : 0 < n) (hle : n ≤ MAX_RW_COUNT)
    (hN : (p.world.jobs f).isNotMM = true) (hop : p.world.card.op = none)
    (hw : 0 < p.world.wsem) : DmaAgrees F e p t f ptr n ↔ F.Compact n :=
  ⟨compact_of_dma_agrees hn hle hN hop hw,dma_agrees_of_compact hle hN hop⟩

/-- Pages that lie one after the other. -/
def adjacent : Pages := ⟨fun i => i,fun _ _ h => h,by decide⟩

/-- Pages with a foreign one between each two of them. -/
def scattered : Pages := ⟨fun i => 2*i,fun _ _ h => by omega,by decide⟩

/-- A file set up for DMA on a card that has just been bound. -/
def ready : Board := ⟨{ World.boot (fun _ => 0) (fun _ => 0) with
  jobs := fun _ => ⟨true,false,true,true,0,none,0⟩ },fun _ => 0⟩

theorem dma_agrees_iff_compact_adjacent : DmaAgrees adjacent (fun _ _ x => x+1) ready 0 0 0 32768 :=
  (dma_agrees_iff_compact adjacent _ ready 0 0 0 32768 (by decide) (by decide) rfl rfl
    (by decide)).mpr (fun i hi => by
      show 4096*(0/4096)+0%4096 ≤ 4096*(i/4096)+i%4096 ∧ _ < 4096*(0/4096)+0%4096+32768
      rw [show adjacent.addr i = 4096*(i/4096)+i%4096 from rfl]
      omega)

/-- One byte of the second page. -/
theorem dma_overruns : ¬ ∀ (F : Pages) (e : Bool → Nat → Byte → Byte) (p : Board)
    (t f ptr n : Nat), 1 ≤ n → n ≤ 32768 → (p.world.jobs f).isNotMM = true →
    p.world.card.op = none → 0 < p.world.wsem → DmaAgrees F e p t f ptr n := by
  intro h
  have hc : scattered.Compact 4097 := compact_of_dma_agrees (by decide) (by decide) rfl rfl
    (by decide) (h scattered (fun _ _ x => x+1) ready 0 0 0 4097 (by decide) (by decide) rfl rfl
      (by decide))
  exact absurd (hc 4096 (by decide)) (by decide)

end CryptoCard
