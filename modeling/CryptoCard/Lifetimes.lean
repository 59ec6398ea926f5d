import CryptoCard.Handles
import CryptoCard.LibCalls
import CryptoCard.OwnHandles
import CryptoCard.Unrolling
set_option autoImplicit false

/-! How long buffers and mappings live, for writers on handles of their own and on
shared ones. -/
namespace CryptoCard
open Memory Program Interleave

/-- A signal ends a wait for a DMA operation that is still in progress. -/
def cutsDma (s : System) : Step → Bool
  | .act t x => decide (s.next t = some (.waitEvent .dma)) && cutsShort s (.act t x)
  | _ => false

theorem cutsDma_of_uncut {s : System} {l : Step} (h : cutsShort s l = false) :
    cutsDma s l = false := by
  cases l <;> simp_all [cutsDma]

/-- System calls on handles that `holder` gives to one thread each, with any signals
but those that end a wait for a DMA operation. -/
def WriterStep (holder : Nat → Nat) (s : System) : Step → Prop
  | .call t call => call.isSystem = true ∧ ∀ f, call.handle = some f → holder f = t
  | l => cutsDma s l = false

/-- Buffer `b` is allocated, `n` bytes long, and the only one of thread `t`. -/
structure World.Owns (w : World) (t n b : Nat) : Prop where
  lt : b < w.nbuf
  owner : (w.heap b).owner = t
  live : (w.heap b).live = true
  frees : (w.heap b).frees = 0
  length : (w.heap b).data.length = n
  only : ∀ b', b' < w.nbuf → (w.heap b').owner = t → (w.heap b').live = true → b' = b

/-- A DMA operation runs inside of a mapped buffer that is still allocated. -/
def World.DmaInside (w : World) : Prop := ∀ o, w.card.op = some o → o.kind = .dma →
  ∃ t b, w.maps o.addr = ⟨t,some b,o.len,true,0⟩ ∧ w.Owns t o.len b

/-- What a write of `n` bytes does next, it does with its own buffer and length. -/
structure World.UsesOwn (w : World) (t n : Nat) (a : Act) : Prop where
  through : ∀ p m, a.through = some (p,m) → m = n ∧ ∃ b, p = some b ∧ w.Owns t n b
  vfree : ∀ b, a = .vfree (some b) → w.Owns t n b
  start : ∀ v, a = .iowrite .cmd v → ∃ b, w.Owns t n b ∧ w.card.regs.dlenMsg = n ∧
    w.maps w.card.regs.addrOp = ⟨t,some b,n,true,0⟩

section
variable {g : Nat → Ledger} {w : World} {t b : Nat}

theorem Books.owns (h : Books g w) (hb : (g t).buf = some b) : w.Owns t (g t).size b := by
  obtain ⟨hlt,hsh⟩ := (h.holds t).buf b hb
  obtain ⟨ho,hl,hf,hn⟩ := Buf.shape_eq hsh
  refine ⟨hlt,ho,hl,hf,hn,fun b' hb' ho' hl' => ?_⟩
  by_contra hne
  obtain ⟨hdead,_⟩ := (h.holds t).freed b' hb' ho' (by rw [hb]; simpa using Ne.symm hne)
  rw [hdead] at hl'
  cases hl'

theorem Books.dmaInside (h : Books g w) : w.DmaInside := by
  intro o ho hk
  obtain ⟨t,ht⟩ := h.op o ho hk
  obtain ⟨_,hmap,hlen⟩ := (h.holds t).op o ht
  obtain ⟨_,hm,hbuf⟩ := (h.holds t).map o.addr hmap
  obtain ⟨b,hb⟩ := Option.ne_none_iff_exists'.mp hbuf
  rw [hb,← hlen] at hm
  exact ⟨t,b,hm,hlen ▸ h.owns hb⟩

theorem Books.usesOwn (h : Books g w) {a : Act} (hok : (g t).Ok a) :
    w.UsesOwn t (g t).size a := by
  have copies {p : Option Nat} {n : Nat} (hc : (g t).Copies p n) :
      n = (g t).size ∧ ∃ b, p = some b ∧ w.Owns t (g t).size b := by
    obtain ⟨hbuf,rfl,rfl⟩ := hc
    obtain ⟨b,hb⟩ := Option.ne_none_iff_exists'.mp hbuf
    exact ⟨rfl,b,hb,h.owns hb⟩
  refine ⟨fun p m hp => ?_,?_,?_⟩
  · cases a with
    | dmaMapSingle p' n => cases hp; exact copies hok.1
    | copyFromUser p' ptr n => cases hp; exact copies hok
    | copyToUser ptr p' n => cases hp; exact copies hok
    | memcpyToio p' n => cases hp; exact copies hok
    | memcpyFromio p' n => cases hp; exact copies hok
    | _ => cases hp
  · rintro b rfl
    exact h.owns hok.1.symm
  · rintro v rfl
    obtain ⟨_,_,R,hR,hmap,hlen⟩ := hok
    obtain ⟨_,hm,hbuf⟩ := (h.holds t).map _ hmap
    obtain ⟨b,hb⟩ := Option.ne_none_iff_exists'.mp hbuf
    rw [(h.holds t).regs R hR]
    exact ⟨b,h.owns hb,hlen,by rw [hm,hb]⟩

/-- Nothing is left of a thread whose ledger is cleared. -/
theorem Books.cleared (h : Books g w) (hc : (g t).Cleared) :
    (∀ b, b < w.nbuf → (w.heap b).owner = t →
      (w.heap b).live = false ∧ (w.heap b).frees = 1) ∧
    ∀ m, m < w.nmap → (w.maps m).owner = t → (w.maps m).live = false ∧ (w.maps m).unmaps = 1 :=
  ⟨fun b hb ho => (h.holds t).freed b hb ho (by rw [hc.buf]; simp),
    fun m hm ho => (h.holds t).unmapped m hm ho (by rw [hc.map]; simp)⟩

end

section
variable {allow : Nat → Call → Prop} {s : System} {g : Nat → Ledger} {t : Nat}

theorem ledger_of_run (h : (ledgerAssertions allow).Holds s g) {call : Call} {w₀ : World}
    {p : Code Int} (ht : s.thr t = .run call w₀ p) :
    (g t).file = call.handle ∧ (g t).writes = (call.ledger w₀).writes ∧
      (g t).size = (call.ledger w₀).size ∧ allow t call := by
  obtain ⟨v₀,⟨rfl,hallow⟩,hl⟩ := h.began ht
  exact ⟨hl.file.trans (Call.ledger_file _ _),hl.writes,hl.size,hallow⟩

theorem writer_considerate (holder : Nat → Nat) :
    Considerate (fun t call => ∀ f, call.handle = some f → holder f = t) (WriterStep holder) where
  call hp := hp
  uncut hp hn := by
    simpa [WriterStep,cutsDma,hn] using hp
  apart {s g t x a u call w₀ p f y} h hp hn hut hu hf hw hd := by
    -- both threads would have to hold the handle
    obtain ⟨hfile,_,_,hown⟩ := ledger_of_run h hu
    obtain ⟨call',w₀',k,ht⟩ := Sys.next_eq hn
    obtain ⟨hfile',_,_,hown'⟩ := ledger_of_run h ht
    have hok : (g t).Ok a := h.ok ht
    have htf : (g t).file = some f := by
      cases a with
      | setFlag f' z b => cases z <;> first | exact hd.1 ▸ hok.1 | exact hd.elim
      | setLen f' n => exact hd.1 ▸ hok.1
      | setMsg f' q => exact hd.1 ▸ hok.1
      | _ => exact hd.elim
    exact absurd ((hown f (hfile.symm.trans hf)).symm.trans (hown' f (hfile'.symm.trans htf))) hut

end

/-- The system call by itself. -/
def Sysc.call : Sysc → Call
  | .ioctl cdev cmd arg => .ioctl cdev cmd arg
  | .write cdev addr count => .write cdev addr count

def Sysc.cdev : Sysc → Nat
  | .ioctl cdev _ _ | .write cdev _ _ => cdev

/-- Library calls and system calls on handles that `holder` gives to one thread each, with
any signals but those that end a wait for a DMA operation. -/
def ClientStep (holder : Nat → Nat) (s : System) : Step → Prop
  | .call t call => ∀ f, call.handle = some f → holder f = t
  | l => cutsDma s l = false

/-- Unless a signal ends a wait for a DMA operation before the operation does: the
buffer and the mapping outlive it, the mapping goes before the buffer, and when a
call returns each of its buffers and mappings has gone exactly once. -/
theorem buffers_outlive_dma (c : Cipher) (holder : Nat → Nat) (umem mem : Nat → Byte) {s : System}
    (hr : (machine c).Reaches (WriterStep holder) (start (World.boot umem mem)) s) :
    s.world.DmaInside ∧
    (∀ t m n, s.next t = some (.dmaUnmapSingle m n) →
      (∀ o, s.world.card.op = some o → o.kind = .dma → o.addr ≠ m) ∧
      ∃ b, s.world.maps m = ⟨t,some b,(s.world.heap b).data.length,true,0⟩ ∧
        (s.world.heap b).live = true) ∧
    (∀ t b, s.next t = some (.vfree (some b)) → ∀ m, m < s.world.nmap →
      (s.world.maps m).live = true → (s.world.maps m).buf ≠ some b) ∧
    ∀ t call r, s.returns t = some (call,r) →
      (∀ b, b < s.world.nbuf → (s.world.heap b).owner = t →
        (s.world.heap b).live = false ∧ (s.world.heap b).frees = 1) ∧
      ∀ m, m < s.world.nmap → (s.world.maps m).owner = t →
        (s.world.maps m).live = false ∧ (s.world.maps m).unmaps = 1 := by
  obtain ⟨g,hg⟩ := (ledgerOutline (writer_considerate holder)).reaches (ledger_start umem mem) hr
  have hB : Books g s.world := hg.1.1
  refine ⟨hB.dmaInside,fun t m n hn => ?_,fun t b hn m hm hl => ?_,fun t call r hret => ?_⟩
  · obtain ⟨hmap,hop⟩ : (g t).Ok (.dmaUnmapSingle m n) := hg.next hn
    obtain ⟨_,hm,hbuf⟩ := (hB.holds t).map m hmap
    obtain ⟨b,hb⟩ := Option.ne_none_iff_exists'.mp hbuf
    have hown := hB.owns hb
    refine ⟨fun o ho hk haddr => ?_,b,by rw [hm,hb,hown.length],hown.live⟩
    -- whoever runs an operation on this mapping is its owner
    obtain ⟨u,hu⟩ := hB.op o ho hk
    obtain ⟨_,hmu,_⟩ := (hB.holds u).map o.addr ((hB.holds u).op o hu).2.1
    rw [haddr,hm] at hmu
    have htu : t = u := congrArg Mapping.owner hmu
    subst u
    exact absurd (hop.symm.trans hu) (by simp)
  · obtain ⟨hb,hmap⟩ : (g t).Ok (.vfree (some b)) := hg.next hn
    intro hbuf
    -- a live mapping is in the ledger of its owner, together with its buffer
    by_cases hu : (g (s.world.maps m).owner).map = some m
    · obtain ⟨_,hm',_⟩ := (hB.holds _).map m hu
      rw [hm'] at hbuf
      have ho := (hB.owns hbuf).owner
      rw [(hB.owns hb.symm).owner] at ho
      rw [← ho,hmap] at hu
      cases hu
    · obtain ⟨hdead,_⟩ := (hB.holds _).unmapped m hm rfl hu
      rw [hdead] at hl
      cases hl
  · obtain ⟨w₀,ht⟩ := Sys.returns_eq hret
    obtain ⟨_,_,_,hpost⟩ := hg.post ht
    exact hB.cleared hpost

/-- A write of one chunk by DMA, up to the start of the operation. -/
def dmaStarted (t f : Nat) : List Step :=
  .call t (.write f 5 2) :: ticks t 4 ++ .act t (.value 0) :: ticks t 2 ++
  .act t (.junk fun _ => 0) :: ticks t 18

/-- The ioctls that `args` name, by thread `t` on handle `f`. -/
def configure (t f : Nat) (args : List (Nat × Byte)) : List Step :=
  args.flatMap (fun (cmd,value) => .call t (.ioctl f cmd [value]) :: ticks t 2 ++ [.ret t])

/-- A step of thread 0 on its handle, of the card, and no signal. -/
def writerStep (_ : System) : Step → Bool
  | .call t call => call.isSystem && t == 0
  | .act _ x => match x with | .signal => false | _ => true
  | .ret _ | .env _ => true

theorem writer_of_step {s : System} {l : Step} (h : writerStep s l = true) :
    WriterStep (fun _ => 0) s l := by
  cases l with
  | call t call =>
    obtain ⟨hs,ht⟩ := Bool.and_eq_true_iff.mp h
    exact ⟨hs,fun _ _ => (eq_of_beq ht).symm⟩
  | act t x =>
    cases x with
    | signal => cases h
    | _ => simp [WriterStep,cutsDma,cutsShort]
  | _ => rfl

/-- While the card works on a DMA write of two bytes. -/
theorem buffers_outlive_dma_running :
    ∃ s o, (machine (.bytewise fun _ _ x => x)).Reaches (WriterStep fun _ => 0)
      (start (World.boot (fun _ => 7) (fun _ => 0))) s ∧
      s.world.card.op = some o ∧ o.kind = .dma ∧
      ∃ t b, s.world.maps o.addr = ⟨t,some b,o.len,true,0⟩ ∧ s.world.Owns t o.len b := by
  obtain ⟨s,hr,_,hp⟩ := Machine.exists_reaches (M := machine (.bytewise fun _ _ x => x))
    (P := WriterStep fun _ => 0) (n := 1) (b := writerStep)
    (p := fun s => s.world.card.busy .dma) (fun _ _ _ h => writer_of_step h)
    (configure 0 0 [(SET_MMAP,UNMMAP),(SET_CONFIG,DMA)] ++ dmaStarted 0 0)
    (start_quiet (World.boot (fun _ => 7) (fun _ => 0)) 1) (by decide +kernel)
  obtain ⟨o,ho,hk⟩ := (Card.busy_iff _ _).mp hp
  exact ⟨s,o,hr,ho,hk,(buffers_outlive_dma _ _ _ _ hr).1 o ho hk⟩

/-- Thread 0 makes the system calls. -/
def systemStep (_ : System) : Step → Bool
  | .call t call => call.isSystem && t == 0
  | _ => true

/-- A signal in the wait for a DMA operation frees the buffer under it. -/
theorem buffers_outlive_dma_fails :
    ¬ ∀ (c : Cipher) (holder : Nat → Nat) (umem mem : Nat → Byte) (s : System),
      (machine c).Reaches (fun _ l => ∀ t call, l = .call t call → call.isSystem = true ∧
        ∀ f, call.handle = some f → holder f = t) (start (World.boot umem mem)) s →
      s.world.DmaInside := by
  intro h
  obtain ⟨s,hr,_,hp⟩ := Machine.exists_reaches (M := machine (.bytewise fun _ _ x => x))
    (P := fun _ l => ∀ t call, l = .call t call → call.isSystem = true ∧
      ∀ f, call.handle = some f → (0 : Nat) = t) (n := 1)
    (b := systemStep)
    (p := fun s => s.world.card.busy .dma &&
      s.world.card.op.all (fun o => (s.world.maps o.addr).buf == some 0) && !(s.world.heap 0).live)
    (fun s l _ hb t call hl => by
      subst hl
      obtain ⟨hs,ht⟩ := Bool.and_eq_true_iff.mp hb
      exact ⟨hs,fun _ _ => (eq_of_beq ht).symm⟩)
    (configure 0 0 [(SET_MMAP,UNMMAP),(SET_CONFIG,DMA),(SET_CONFIG,INTERRUPT)] ++
      dmaStarted 0 0 ++ ticks 0 2 ++ .act 0 .signal :: ticks 0 4)
    (start_quiet (World.boot (fun _ => 7) (fun _ => 0)) 1) (by decide +kernel)
  simp only [Bool.and_eq_true,Bool.not_eq_true'] at hp
  obtain ⟨o,ho,hk⟩ := (Card.busy_iff _ _).mp hp.1.1
  obtain ⟨t,b,hm,hown⟩ := h _ (fun _ => 0) _ _ s hr o ho hk
  have hb : (s.world.maps o.addr).buf = some 0 := by simpa [ho] using hp.1.2
  rw [hm] at hb
  cases hb
  rw [hown.live] at hp
  exact absurd hp.2 (by decide)

/-- System calls on handles that threads share: no signal ends a wait for a DMA
operation, and no step stores to a job what another write on it still has to read
otherwise. -/
def SharingStep (s : System) : Step → Prop
  | .call _ call => call.isSystem = true
  | .act t x => cutsDma s (.act t x) = false ∧ ∀ a, s.next t = some a → ∀ u, u ≠ t →
      ∀ f ptr len w₀ p y, s.thr u = .run (.write f ptr len) w₀ p →
        a.Disturbs f (s.world.jobs f) y → ¬ Pending f (s.world.jobs f).isNotMM y p
  | _ => True

theorem sharing_considerate : Considerate (fun _ _ => True) SharingStep where
  call hp := ⟨hp,trivial⟩
  uncut hp hn := by simpa [cutsDma,hn] using hp.1
  apart {s g t x a u call w₀ p f y} h hp hn hut hu hf hw hd := by
    obtain ⟨hfile,hwrites,_⟩ := ledger_of_run h hu
    obtain ⟨f',ptr,len,rfl⟩ := Call.ledger_writes (hwrites.symm.trans hw)
    obtain rfl : f' = f := Option.some.inj (hfile.symm.trans hf)
    exact hp.2 a hn u hut f' ptr len w₀ p y hu hd

/-- As long as no store to a job disturbs another write on it: nothing crashes, every
write works on its own buffer with its own length, the card works on allocated
buffers, and no buffer is left or freed twice when all calls have returned. -/
theorem writes_own_their_buffers (c : Cipher) (umem mem : Nat → Byte) {s : System}
    (hr : (machine c).Reaches SharingStep (start (World.boot umem mem)) s) :
    (∀ t, s.thr t ≠ .dead) ∧
    (∀ t f ptr len w₀ a k, s.thr t = .run (.write f ptr len) w₀ (.act a k) →
      s.world.UsesOwn t (min len MAX_RW_COUNT) a) ∧
    s.world.DmaInside ∧
    ((∀ t, s.thr t = .idle) → ∀ b, b < s.world.nbuf →
      (s.world.heap b).live = false ∧ (s.world.heap b).frees = 1) := by
  obtain ⟨g,hg⟩ := (ledgerOutline sharing_considerate).reaches (ledger_start umem mem) hr
  have hB : Books g s.world := hg.1.1
  refine ⟨fun t ht => ?_,fun t f ptr len w₀ a k ht => ?_,hB.dmaInside,fun hidle b hb => ?_⟩
  · have hd := hg.2 t
    rw [ht] at hd
    exact hd
  · obtain ⟨_,_,hsize,_⟩ := ledger_of_run hg ht
    have huse := hB.usesOwn (hg.ok ht)
    rw [hsize] at huse
    exact huse
  · have hc := hg.2 (s.world.heap b).owner
    rw [hidle] at hc
    exact (hB.cleared hc).1 b hb rfl

/-- Whether all threads below `n` but `t` are between two calls. -/
def alone (n t : Nat) (s : System) : Bool :=
  (List.range n).all (fun u => u == t || s.isIdle u)

/-- Thread `u` does not read the buffer of the job of `f` before it has stored one. -/
def fresh (f : Nat) (s : System) (u : Nat) : Bool :=
  match s.thr u with
  | .run _ _ (.act (.setMsg f' _) _) => f' == f
  | .run _ _ (.act _ _) => false
  | _ => true

theorem not_pending_of_fresh {f u : Nat} {s : System} {call : Call} {w₀ : World} {p : Code Int}
    {b : Bool} (h : fresh f s u = true) (hu : s.thr u = .run call w₀ p) :
    ¬ Pending f b .msg p := by
  intro hp
  simp only [fresh,hu] at h
  cases hp with
  | @here a k hr => cases a <;> first | cases h | cases hr
  | @later a k r hw _ _ =>
    cases a with
    | setMsg f' q => exact hw (by rw [Act.puts,eq_of_beq h])
    | _ => cases h

/-- A step of two threads on one handle that leaves its job as the other one needs it. -/
def overlapStep (s : System) : Step → Bool
  | .call _ call => call.isSystem
  | .act t x => unsignalled (.act t x) &&
      match s.next t with
      | some (.setFlag _ _ _) => alone 2 t s
      | some (.setLen f n) => alone 2 t s || n == (s.world.jobs f).len
      | some (.setMsg f _) => (List.range 2).all (fun u => u == t || fresh f s u)
      | _ => true
  | .ret _ | .env _ => true

theorem idle_of_alone {n t u : Nat} {s : System} (hq : s.Quiet n) (h : alone n t s = true)
    (hut : u ≠ t) : s.thr u = .idle := by
  by_cases hu : u < n
  · have hi := List.all_eq_true.mp h u (List.mem_range.mpr hu)
    simp only [Bool.or_eq_true,beq_iff_eq] at hi
    exact Sys.idle_of_isIdle (hi.resolve_left hut)
  · exact hq u (by omega)

theorem sharing_of_overlap {s : System} {l : Step} (hq : s.Quiet 2) (h : overlapStep s l = true) :
    SharingStep s l := by
  cases l with
  | call t call => exact h
  | act t x =>
    obtain ⟨hx,ha⟩ := Bool.and_eq_true_iff.mp h
    refine ⟨cutsDma_of_uncut (cutsShort_of_unsignalled hx),
      fun a hn u hut f ptr len w₀ p y hu hd => ?_⟩
    have hbusy : alone 2 t s ≠ true := fun hal => by
      rw [idle_of_alone hq hal hut] at hu
      cases hu
    rw [hn] at ha
    cases a with
    | setFlag f' z b => exact absurd ha hbusy
    | setLen f' n =>
      obtain ⟨rfl,_,hne⟩ := hd
      obtain hal | he := Bool.or_eq_true_iff.mp ha
      · exact absurd hal hbusy
      · exact absurd (eq_of_beq he) hne
    | setMsg f' q =>
      obtain ⟨rfl,rfl,_⟩ := hd
      have hu2 : u < 2 := by
        by_contra hge
        rw [hq u (by omega)] at hu
        cases hu
      have hf := List.all_eq_true.mp ha u (List.mem_range.mpr hu2)
      simp only [Bool.or_eq_true,beq_iff_eq] at hf
      exact not_pending_of_fresh (hf.resolve_left hut) hu
    | _ => exact hd.elim
  | _ => trivial

/-- Thread `t` is in the middle of `call`, which it began while a DMA operation ran. -/
def amidBusy (call : Call) (s : System) (t : Nat) : Bool :=
  match s.thr t with
  | .run cl w₀ (.act _ _) => cl == call && w₀.card.busy .dma
  | _ => false

theorem amidBusy_eq {call : Call} {s : System} {t : Nat} (h : amidBusy call s t = true) :
    ∃ w₀ a k, s.thr t = .run call w₀ (.act a k) ∧ w₀.card.busy .dma = true := by
  unfold amidBusy at h
  split at h
  · rename_i cl w₀ a k ht
    obtain ⟨hc,hb⟩ := Bool.and_eq_true_iff.mp h
    obtain rfl := eq_of_beq hc
    exact ⟨w₀,a,k,ht,hb⟩
  · cases h

/-- The second write on the handle begins while the card works for the first one, which is
over but for its return while the card works for the second one. -/
theorem writes_own_their_buffers_overlapping :
    ∃ s w₀ w₁ a k, (machine (.bytewise fun _ _ x => x)).Reaches SharingStep
      (start (World.boot (fun _ => 7) (fun _ => 0))) s ∧
      s.thr 0 = .run (.write 0 5 2) w₀ (.ret 0) ∧
      s.thr 1 = .run (.write 0 5 2) w₁ (.act a k) ∧ w₁.card.busy .dma = true ∧
      s.world.card.busy .dma = true ∧ s.world.nbuf = 2 ∧
      s.world.UsesOwn 1 (min 2 MAX_RW_COUNT) a ∧ s.world.DmaInside := by
  obtain ⟨s,hr,_,hp⟩ := Machine.exists_reaches (M := machine (.bytewise fun _ _ x => x))
    (P := SharingStep) (n := 2) (b := overlapStep)
    (p := fun s => s.returns 0 == some (.write 0 5 2,0) && s.world.card.busy .dma &&
      s.world.nbuf == 2 && amidBusy (.write 0 5 2) s 1)
    (fun _ _ hq h => sharing_of_overlap hq h)
    (configure 0 0 [(SET_MMAP,UNMMAP),(SET_CONFIG,DMA)] ++ dmaStarted 0 0 ++
      .call 1 (.write 0 5 2) :: ticks 1 4 ++ .act 1 (.value 0) :: ticks 1 2 ++
      .act 1 (.junk fun _ => 0) :: .env .finish :: ticks 0 11 ++ ticks 1 18)
    (start_quiet (World.boot (fun _ => 7) (fun _ => 0)) 2) (by decide +kernel)
  simp only [Bool.and_eq_true,beq_iff_eq] at hp
  obtain ⟨⟨⟨hret,hb⟩,hn⟩,h1⟩ := hp
  obtain ⟨w₀,h0⟩ := Sys.returns_eq hret
  obtain ⟨w₁,a,k,ht,hb₁⟩ := amidBusy_eq h1
  have hall := writes_own_their_buffers _ _ _ hr
  exact ⟨s,w₀,w₁,a,k,hr,h0,ht,hb₁,hb,hn,hall.2.1 1 0 5 2 w₁ a k ht,hall.2.2.1⟩

/-- System calls, with no signal and no failing allocation or mapping. -/
def cleanStep : Step → Bool
  | .call _ call => call.isSystem
  | .act _ .signal | .act _ .fail => false
  | _ => true

/-- A write up to the store of its buffer in the job. -/
def allocated (t f : Nat) : List Step :=
  .call t (.write f 5 2) :: ticks t 4 ++ .act t (.value 0) :: ticks t 2 ++
  [.act t (.junk fun _ => 0),.act t .ok]

/-- Two writes on one handle: the second one's buffer replaces the first one's in the
job, a fault makes the second one free it, and nobody frees the first one's. -/
theorem writes_own_their_buffers_fails :
    ¬ ∀ (c : Cipher) (umem mem : Nat → Byte) (s : System),
      (machine c).Reaches (fun _ l => cleanStep l = true) (start (World.boot umem mem)) s →
      (∀ t, s.thr t = .idle) → ∀ b, b < s.world.nbuf → (s.world.heap b).frees = 1 := by
  intro h
  obtain ⟨s,hr,hq,hp⟩ := Machine.exists_reaches (M := machine (.bytewise fun _ _ x => x))
    (P := fun _ l => cleanStep l = true) (n := 2) (b := fun _ l => cleanStep l)
    (p := fun s => s.isIdle 0 && s.isIdle 1 && s.world.nbuf == 2 && (s.world.heap 0).frees == 0)
    (fun _ _ _ h => h)
    (configure 0 0 [(SET_MMAP,UNMMAP)] ++ allocated 0 0 ++ allocated 1 0 ++
      ticks 1 3 ++ .act 1 (.fault 0) :: ticks 1 4 ++ .ret 1 :: ticks 0 1 ++ [.ret 0])
    (start_quiet (World.boot (fun _ => 7) (fun _ => 0)) 2) (by decide +kernel)
  simp only [Bool.and_eq_true,beq_iff_eq] at hp
  obtain ⟨⟨⟨h0,h1⟩,hn⟩,hf⟩ := hp
  have hidle (t : Nat) : s.thr t = .idle := by
    match t with
    | 0 => exact Sys.idle_of_isIdle h0
    | 1 => exact Sys.idle_of_isIdle h1
    | t+2 => exact hq (t+2) (by omega)
  have hfrees := h _ _ _ s hr hidle 0 (by omega)
  omega

end CryptoCard
