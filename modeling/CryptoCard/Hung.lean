import CryptoCard.Completion
set_option autoImplicit false

/-! Without signals: the one way in which a writer can sleep for good, and the way out of
every other state. -/
namespace CryptoCard
open Program Interleave

def Call.isIrq : Call → Bool
  | .irq _ => true
  | _ => false

def isHandler : Thread Act Act.Res World Call Int → Bool
  | .run cl _ _ => cl.isIrq
  | _ => false

/-- The thread is in an invocation of the handler. -/
def inHandler (s : System) (t : Nat) : Bool := isHandler (s.thr t)

/-- The line is masked while the handler runs: one invocation begins after the other. -/
def SerialIrq (s : System) : Step → Prop
  | .call _ cl => cl.isIrq = true → ∀ u, inHandler s u = false
  | _ => True

/-- The completion bit of `k` is set, and no handler is about to clear it. -/
def Outstanding (s : System) (k : Kind) : Prop :=
  s.world.card.pending k = true ∧
  ∀ u v, s.next u = some (.iowrite .interruptAck v) → v.testBit k.bit = false

/-- A writer sleeps in its wait, the card has nothing to do, and no interrupt will wake it:
no handler is about to wake the queue, and the bits that the next one will find are both
clear or both set. -/
structure Hung (s : System) : Prop where
  asleep : ∃ t k, s.next t = some (.waitEvent k) ∧ s.world.task t = .asleep
  op : s.world.card.op = none
  raising : s.world.card.raising = none
  nobody : ∀ u, s.next u ≠ some .wakeUp
  bits : Outstanding s .mmio ↔ Outstanding s .dma

/-- Steps without a signal with which nothing begins but interrupts. -/
def Winding (s : System) : Step → Prop
  | .call _ cl => (∃ dev, cl = .irq dev) ∧ ∀ u, inHandler s u = false
  | l => unsignalled l = true

/-- Steps without a signal, in which the handler is not entered twice. -/
def Unsignalled (s : System) (l : Step) : Prop := unsignalled l = true ∧ SerialIrq s l

theorem winding_proceeds : Proceeds Winding where
  act _ _ x hx := by cases x <;> first | rfl | exact absurd rfl hx
  ret _ _ := rfl
  env _ _ := rfl

theorem Winding.unsignalled {s : System} {l : Step} (h : Winding s l) : Unsignalled s l := by
  cases l with
  | call t cl => exact ⟨rfl,fun _ => h.2⟩
  | _ => exact ⟨h,trivial⟩

theorem Unsignalled.uncut {s : System} {l : Step} (h : Unsignalled s l) : cutsShort s l = false :=
  cutsShort_of_unsignalled h.1

/-- The actions by which the handler differs from the other entry points. -/
def Act.handles : Act → Bool
  | .ioread .interruptStatus | .wakeUp | .iowrite .interruptAck _ => true
  | _ => false

/-- The handler does nothing else than these, and nobody else does them. -/
def Call.Does (cl : Call) (a : Act) : Prop :=
  if cl.isIrq then a = .configspace ∨ a.handles = true else a.handles = false

/-- What writes and ioctls are made of, every call but the handler is made of. -/
theorem code_always {ok : Act → Prop} (hw : ∀ f ptr len, Always ok (sysWrite f ptr len))
    (hi : ∀ f cmd arg, Always ok (pciUnlockedIoctl f cmd arg))
    (hs : ∀ addr xs, ok (.userStore addr xs)) (hm : ∀ off xs, ok (.mapStore off xs))
    {cl : Call} (hcl : cl.isIrq = false) : Always ok cl.code := by
  have ioctl (cdev cmd : Nat) (arg : List Byte) : Always ok (do
      let r ← pciUnlockedIoctl cdev cmd arg
      if r ≠ 0 then return ERROR else return 0) :=
    (hi _ _ _).bind (fun r => by simp)
  cases cl with
  | write f ptr len => exact hw _ _ _
  | ioctl f cmd arg => exact hi _ _ _
  | setKey cdev a b => exact ioctl _ _ _
  | setConfig cdev type value => exact ioctl _ _ _
  | encrypt cdev addr length isMapped => exact crypt_always hw hi _ _ _ _ _
  | decrypt cdev addr length isMapped => exact crypt_always hw hi _ _ _ _ _
  | irq dev => cases hcl
  | store addr xs => exact ⟨hs _ _,fun _ => trivial⟩
  | mapStore off xs => exact ⟨hm _ _,fun _ => trivial⟩

section
variable {φ : Phase} {a : Act} {r : a.Res} {v t : Nat} {x : Choice} {w w' : World}

/-- A thread is inside the handler once it has read the status or woken the queue. -/
theorem handler_after (hok : φ.Ok a) (h : φ.after a r = .irqWake v ∨ φ.after a r = .irqAck v) :
    a = .wakeUp ∨ a = .ioread .interruptStatus := by
  have moved (hw : a ≠ .wakeUp) (ha : ∀ y, a ≠ .iowrite .interruptAck y)
      (h : φ = .irqWake v ∨ φ = .irqAck v) : False := by
    obtain rfl | rfl := h
    · exact hw (Phase.wakeUp_of_ok hok)
    · exact ha v (Phase.ack_of_ok hok)
  cases a with
  | wakeUp => exact .inl rfl
  | ioread reg =>
    cases reg with
    | interruptStatus => exact .inr rfl
    | _ => exact (moved (by simp) (by simp) h).elim
  | iowrite reg y =>
    cases reg with
    | status => rcases h with h | h <;> cases h
    | interruptAck => rcases h with h | h <;> cases h
    | dataAddr =>
      obtain ⟨i,rfl⟩ := hok
      rcases h with h | h <;> cases h
    | cmd =>
      simp only [Phase.after] at h
      split at h
      · rcases h with h | h <;> cases h
      · exact (moved (by simp) (by simp) h).elim
    | _ => exact (moved (by simp) (by simp) h).elim
  | downInterruptible => cases r <;> rcases h with h | h <;> cases h
  | up => rcases h with h | h <;> cases h
  | pollBusy k => rcases h with h | h <;> cases h
  | waitEvent k => rcases h with h | h <;> cases h
  | _ => exact (moved (by simp) (by simp) h).elim

/-- A thread that is about to wake the queue has just read a single completion bit. -/
theorem irqWake_after (hok : φ.Ok a) (he : World.exec t a x w = some (.done r w'))
    (h : φ.after a r = .irqWake v) :
    v = w.card.interruptStatus ∧ (v = 0x001 ∨ v = 0x100) := by
  obtain rfl | rfl := handler_after hok (.inl h)
  · obtain ⟨y,rfl⟩ := hok
    cases h
  · obtain ⟨_,hr⟩ := World.ioread_done (r := .interruptStatus) (x := x) he
    simp only [Phase.after] at h
    split at h
    · rename_i hv
      cases h
      exact ⟨hr rfl,hv⟩
    · cases h

end

/-- Who does not read the status comes to nothing that the handler does. -/
theorem unhandled {p : Code Int} {φ : Phase} {Q : Int → Phase → Prop} (hp : wp locking p Q φ)
    (hr : Always (fun a => a ≠ .ioread .interruptStatus) p)
    (hφ : ∀ v, φ ≠ .irqWake v ∧ φ ≠ .irqAck v) : Always (fun a => a.handles = false) p := by
  induction p generalizing φ with
  | ret v => trivial
  | act a k ih =>
    obtain ⟨hok,hk⟩ := hp
    have hw : a ≠ .wakeUp := by
      rintro rfl
      obtain ⟨v,hv⟩ := hok
      exact (hφ v).1 hv
    refine ⟨?_,fun r => ih r (hk r _ rfl) (hr.2 r) (fun v => ⟨fun e => ?_,fun e => ?_⟩)⟩
    · cases a with
      | wakeUp => exact absurd rfl hw
      | ioread reg => cases reg <;> first | rfl | exact absurd rfl hr.1
      | iowrite reg v =>
        cases reg <;> first | rfl | exact absurd hok (hφ v).2
      | _ => rfl
    · exact (handler_after hok (.inl e)).elim hw hr.1
    · exact (handler_after hok (.inr e)).elim hw hr.1

theorem code_does (cl : Call) : Always cl.Does cl.code := by
  cases hcl : cl.isIrq with
  | true =>
    cases cl with
    | irq dev => simp [Call.code,pciIrqHandle,Call.Does,Call.isIrq,Act.handles]
    | _ => cases hcl
  | false =>
    have hr : Always (fun a => a ≠ .ioread .interruptStatus) cl.code := by
      refine code_always (fun f ptr len => sysWrite_ofWrite.mono (fun a h => ?_))
        (fun f cmd arg => ?_) (by simp) (by simp) hcl
      · rintro rfl
        cases h
      · unfold pciUnlockedIoctl
        cases ioctlByte arg <;> simp
    refine (unhandled (code_locking cl) hr (fun v => by simp)).mono (fun a h => ?_)
    rw [Call.Does,hcl]
    exact h

/-- The handler acknowledges what it has read. -/
theorem Card.iowrite_ack (c : Card) : c.iowrite .interruptAck c.interruptStatus =
    { c with pending := fun _ => false } := by
  have hp (k : Kind) : (c.pending k && !c.interruptStatus.testBit k.bit) = false := by
    unfold interruptStatus
    cases hm : c.pending .mmio <;> cases hd : c.pending .dma <;> cases k <;>
      simp [hm,hd,Kind.bit] <;> decide
  simp only [iowrite,hp]

/-- The world after an invocation of the handler during which nothing else happens. -/
def World.handled (w : World) : World :=
  { w with
    card := { w.card with pending := fun _ => false }
    task := if w.card.interruptStatus = 0x001 ∨ w.card.interruptStatus = 0x100 then
      fun u => World.wake (w.task u) else w.task }

theorem handler_can (c : Cipher) (t : Nat) (w : World) :
    (machine c).Can t (fun x => x ≠ .signal) (fun _ w' => w' = w.handled)
      (pciIrqHandle true) w := by
  have hack (q : Nat → Wait) (hq : q = w.handled.task) (v : Int) :
      (machine c).Can t (fun x => x ≠ .signal) (fun _ w' => w' = w.handled)
        (do iowrite w.card.interruptStatus .interruptAck; return v) { w with task := q } := by
    refine .step .ok (by simp) rfl (.ret ?_)
    rw [hq,Card.iowrite_ack]
    rfl
  rw [pciIrqHandle,if_neg (by simp)]
  refine .step .ok (by simp) rfl ?_
  rw [if_neg (by simp)]
  refine .step .ok (by simp) (r := w.card.interruptStatus) rfl ?_
  by_cases h1 : w.card.interruptStatus = 0x001
  · rw [if_pos h1]
    refine .step .ok (by simp) rfl (hack (fun u => World.wake (w.task u)) ?_ _)
    simp only [World.handled,h1,true_or,if_true]
  rw [if_neg h1]
  by_cases h2 : w.card.interruptStatus = 0x100
  · rw [if_pos h2]
    refine .step .ok (by simp) rfl (hack (fun u => World.wake (w.task u)) ?_ _)
    simp only [World.handled,h2,or_true,if_true]
  · rw [if_neg h2]
    refine hack w.task ?_ _
    simp only [World.handled,h1,h2,or_self,if_false]

/-- What is left of the shared state to a thread while another one holds the semaphore: the
acknowledgement of interrupts. -/
structure Bystands (a : Act) (w w' : World) : Prop where
  op : w'.card.op = w.card.op
  raising : w'.card.raising = w.card.raising
  task : w'.task = w.task
  pending : w'.card.pending = w.card.pending ∨ ∃ v, a = .iowrite .interruptAck v ∧
    w'.card = w.card.iowrite .interruptAck v

theorem bystands {φ : Nat → Phase} {w w' : World} {t u : Nat} {a : Act} {x : Choice} {r : a.Res}
    (h : LockInv φ w) (ht : (φ t).Holds) (hut : u ≠ t) (hok : (φ u).Ok a) (hx : x ≠ .signal)
    (ha : a ≠ .wakeUp) (he : World.exec u a x w = some (.done r w')) : Bystands a w w' := by
  have out (hu : (φ u).Holds) : Bystands a w w' := absurd (h.sem.unique hu ht) hut
  by_cases hq : a.Quiet = true
  · have hc := World.exec_quiet hq he
    exact ⟨hc.op,hc.raising,hc.task,.inl hc.pending⟩
  · cases a with
    | downInterruptible =>
      obtain ⟨_,_,hsig⟩ | ⟨_,hw,_⟩ := World.downInterruptible_done he
      · exact absurd hsig hx
      · exact (h.sem.free hw t ht).elim
    | up => exact out (Phase.Idle.holds hok)
    | iowrite reg v =>
      cases reg with
      | live =>
        cases he
        exact ⟨rfl,rfl,rfl,.inl rfl⟩
      | interruptAck =>
        cases he
        exact ⟨rfl,rfl,rfl,.inr ⟨v,rfl,rfl⟩⟩
      | dataAddr =>
        obtain ⟨i,hi⟩ := hok
        exact out (by rw [hi]; trivial)
      | _ => exact out (Phase.Idle.holds hok)
    | pollBusy k =>
      have hok : φ u = .busy k false := hok
      exact out (by rw [hok]; trivial)
    | waitEvent k =>
      have hok : φ u = .busy k true := hok
      exact out (by rw [hok]; trivial)
    | wakeUp => exact absurd rfl ha
    | ioread reg =>
      obtain ⟨rfl,_⟩ := World.ioread_done he
      exact ⟨rfl,rfl,rfl,.inl rfl⟩
    | _ => exact absurd rfl hq

section
variable {c : Cipher} {s s' : System} {n t : Nat}

theorem inHandler_update {w : World} {u v : Nat} {θ : Thread Act Act.Res World Call Int}
    {hist : Nat → List (Call × Int)} :
    inHandler ⟨w,Function.update s.thr u θ,hist⟩ v =
      if v = u then isHandler θ else inHandler s v := by
  by_cases hv : v = u <;> simp [inHandler,hv]

/-- One thread at most is in the handler. -/
def OneHandler (s : System) : Prop :=
  ∀ u v, inHandler s u = true → inHandler s v = true → u = v

theorem OneHandler.step (h : OneHandler s) {l : Step} (hl : SerialIrq s l)
    (hs : (machine c).step s l = some s') : OneHandler s' := by
  have fewer (hsub : ∀ v, inHandler s' v = true → inHandler s v = true) : OneHandler s' :=
    fun u v hu hv => h u v (hsub u hu) (hsub v hv)
  cases l with
  | call u cl =>
    simp only [Machine.step] at hs
    split at hs
    · cases hs
      cases hcl : cl.isIrq with
      | false =>
        refine fewer (fun v hv => ?_)
        rw [inHandler_update] at hv
        split at hv
        · rw [isHandler,hcl] at hv
          cases hv
        · exact hv
      | true =>
        have only (v : Nat) (hv : inHandler ⟨s.world,Function.update s.thr u
            (.run cl s.world ((machine c).code cl)),s.hist⟩ v = true) : v = u := by
          by_contra hvu
          rw [inHandler_update,if_neg hvu,hl hcl v] at hv
          cases hv
        exact fun v v' hv hv' => (only v hv).trans (only v' hv').symm
    · cases hs
  | act u x =>
    obtain ⟨cl,w₀,a,k,hu,⟨w,_,rfl⟩ | ⟨r,w,_,rfl⟩ | ⟨w,_,rfl⟩⟩ := Machine.actStep_cases hs
    · exact h
    · refine fewer (fun v hv => ?_)
      rw [inHandler_update] at hv
      split at hv
      · rename_i hvu
        rw [inHandler,hvu,hu]
        exact hv
      · exact hv
    · refine fewer (fun v hv => ?_)
      rw [inHandler_update] at hv
      split at hv
      · cases hv
      · exact hv
  | ret u =>
    simp only [Machine.step] at hs
    split at hs
    · cases hs
      refine fewer (fun v hv => ?_)
      rw [inHandler_update] at hv
      split at hv
      · cases hv
      · exact hv
    · cases hs
  | env e =>
    simp only [Machine.step,Option.map_eq_some_iff] at hs
    obtain ⟨w,_,rfl⟩ := hs
    exact h

theorem OneHandler.reaches (h : OneHandler s) (hr : (machine c).Reaches Unsignalled s s') :
    OneHandler s' := by
  induction hr with
  | refl => exact h
  | tail _ hl hs ih => exact ih.step hl.2 hs

/-- What is known of the handlers in every run: who is in one, and who does what it does. -/
structure Handlers (s : System) : Prop where
  one : OneHandler s
  does : ∀ t cl w₀ p, s.thr t = .run cl w₀ p → Always cl.Does p

theorem Handlers.reaches (h : Handlers s) (hr : (machine c).Reaches Unsignalled s s') :
    Handlers s' :=
  ⟨h.one.reaches hr,hr.always code_does h.does⟩

theorem Handlers.inHandler (h : Handlers s) {u : Nat} {a : Act} (hu : s.next u = some a)
    (ha : a.handles = true) : inHandler s u = true := by
  obtain ⟨cl,w₀,k,hθ⟩ := Sys.next_eq hu
  have hd := (h.does u cl w₀ _ hθ).1
  rw [CryptoCard.inHandler,hθ]
  show cl.isIrq = true
  cases hcl : cl.isIrq with
  | true => rfl
  | false =>
    rw [Call.Does,hcl] at hd
    exact absurd (ha.symm.trans hd) (by simp)

/-- Not hung by what is left: nobody has crashed, and a thread to run the handler is at hand. -/
structure Sane (n : Nat) (s : System) : Prop where
  quiet : s.Quiet n
  alive : ∀ u, s.thr u ≠ .dead

theorem Sane.update (h : Sane n s) {u : Nat} {cl : Call} {w₀ w : World} {p q : Code Int}
    (hu : s.thr u = .run cl w₀ p) :
    Sane n { s with world := w, thr := Function.update s.thr u (.run cl w₀ q) } where
  quiet v hv := by
    have hvu : v ≠ u := fun e => by rw [← e,h.quiet v hv] at hu; cases hu
    simpa [hvu] using h.quiet v hv
  alive v := by
    by_cases hvu : v = u
    · subst v
      simp
    · simpa [hvu] using h.alive v

/-- A thread that is idle can run the handler. -/
theorem handles (h : Sane n s) (hi : ∀ u, inHandler s u = false) : ∃ hist,
    (machine c).Reaches Winding s { s with world := s.world.handled, hist := hist } := by
  have hn : s.thr n = .idle := h.quiet n (Nat.le_refl n)
  have hs : (machine c).step s (.call n (.irq true)) = some { s with
      thr := Function.update s.thr n (.run (.irq true) s.world (pciIrqHandle true)) } := by
    simp only [Machine.step,hn,machine,Call.code]
  obtain ⟨v,w',rfl,hr⟩ := (handler_can c n s.world).returns (P := Winding)
    (s := { s with thr := Function.update s.thr n (.run (.irq true) s.world (pciIrqHandle true)) })
    (fun s x hx => winding_proceeds.act s n x hx) winding_proceeds.env
    (fun s => winding_proceeds.ret s n) (Function.update_self _ _ _)
  have hr := Machine.Reaches.head (P := Winding) (show Winding s (.call n (.irq true)) from
    ⟨⟨true,rfl⟩,hi⟩) hs hr
  simp only [Function.update_idem] at hr
  rw [← hn,Function.update_eq_self] at hr
  exact ⟨_,hr⟩

theorem not_single {C : Card} (h : C.pending .mmio = true ↔ C.pending .dma = true) :
    C.interruptStatus ≠ 0x001 ∧ C.interruptStatus ≠ 0x100 := by
  unfold Card.interruptStatus
  cases hm : C.pending .mmio <;> cases hd : C.pending .dma <;> simp_all

theorem outstanding_of_no_ack (h : ∀ u v, s.next u ≠ some (.iowrite .interruptAck v)) (k : Kind) :
    Outstanding s k ↔ s.world.card.pending k = true :=
  and_iff_left (fun u v hu => absurd hu (h u v))

/-- With the only handler about to clear `v`. -/
theorem outstanding_of_ack {u v : Nat} (hu : s.next u = some (.iowrite .interruptAck v))
    (h : ∀ x y, s.next x = some (.iowrite .interruptAck y) → x = u) (k : Kind) :
    Outstanding s k ↔ (s.world.card.iowrite .interruptAck v).pending k = true := by
  simp only [Outstanding,Card.iowrite,Bool.and_eq_true,Bool.not_eq_true']
  refine and_congr_right (fun _ => ⟨fun hall => hall u v hu,fun hv x y hx => ?_⟩)
  obtain rfl := h x y hx
  cases hu.symm.trans hx
  exact hv

/-- The bits that a handler will find are the same when a thread moves that acknowledges
nothing. -/
theorem outstanding_congr {w : World} {u : Nat} {θ : Thread Act Act.Res World Call Int}
    {hist : Nat → List (Call × Int)} (hp : w.card.pending = s.world.card.pending)
    (h : ∀ v, s.next u ≠ some (.iowrite .interruptAck v))
    (h' : ∀ v, Sys.next (⟨w,Function.update s.thr u θ,hist⟩ : System) u ≠
      some (.iowrite .interruptAck v)) (k : Kind) :
    Outstanding ⟨w,Function.update s.thr u θ,hist⟩ k ↔ Outstanding s k := by
  unfold Outstanding
  rw [hp]
  refine and_congr_right (fun _ => forall_congr' (fun x => forall_congr' (fun v => ?_)))
  by_cases hx : x = u
  · subst x
    exact ⟨fun _ hu => absurd hu (h v),fun _ hu => absurd hu (h' v)⟩
  · rw [Sys.next_of_ne hx]

/-- A thread that moves beside a sleeper on a card at rest. -/
theorem Hung.moved {u : Nat} {k : Kind} {w : World} {θ : Thread Act Act.Res World Call Int}
    {hist : Nat → List (Call × Int)} (hh : Hung s) (ht : s.next t = some (.waitEvent k))
    (htask : s.world.task t = .asleep) (hut : u ≠ t) (hop : w.card.op = s.world.card.op)
    (hr : w.card.raising = s.world.card.raising) (hw : w.task = s.world.task)
    (hnext : Sys.next (⟨w,Function.update s.thr u θ,hist⟩ : System) u ≠ some .wakeUp)
    (hb : Outstanding ⟨w,Function.update s.thr u θ,hist⟩ .mmio ↔
      Outstanding ⟨w,Function.update s.thr u θ,hist⟩ .dma) :
    Hung ⟨w,Function.update s.thr u θ,hist⟩ where
  asleep := ⟨t,k,(Sys.next_of_ne hut.symm).trans ht,by rw [hw]; exact htask⟩
  op := hop.trans hh.op
  raising := hr.trans hh.raising
  nobody v := by
    by_cases hvu : v = u
    · subst v
      exact hnext
    · rw [Sys.next_of_ne hvu]
      exact hh.nobody v
  bits := hb

/-- What is hung stays so when another thread performs an action. -/
theorem Hung.acted {φ : Nat → Phase} (hh : Hung s) (hs : Handlers s)
    (h : (dozeAssertions LockInv).Holds s φ) {k : Kind} (ht : s.next t = some (.waitEvent k))
    (htask : s.world.task t = .asleep) {u : Nat} (hut : u ≠ t) {x : Choice} (hx : x ≠ .signal)
    {cl : Call} {w₀ w : World} {a : Act} {kont : a.Res → Code Int} {r : a.Res}
    (hu : s.thr u = .run cl w₀ (.act a kont)) (he : World.exec u a x s.world = some (.done r w))
    (h' : (dozeAssertions LockInv).Holds { s with
      world := w, thr := Function.update s.thr u (.run cl w₀ (kont r)) }
      (Function.update φ u ((φ u).after a r))) :
    Hung { s with world := w, thr := Function.update s.thr u (.run cl w₀ (kont r)) } := by
  have hφ : φ t = .busy k true := h.next ht
  have hok : (φ u).Ok a := h.ok hu
  have hnu : s.next u = some a := by simp only [Sys.next,hu]
  have ha : a ≠ .wakeUp := fun e => hh.nobody u (e ▸ hnu)
  have hby := bystands h.1.1 (by rw [hφ]; trivial) hut hok hx ha he
  have hnext {b : Act} (hb : Sys.next (⟨w,Function.update s.thr u
      (.run cl w₀ (kont r)),s.hist⟩ : System) u = some b) : ((φ u).after a r).Ok b := by
    have hok' : (Function.update φ u ((φ u).after a r) u).Ok b := h'.next hb
    rwa [Function.update_self] at hok'
  have alone (hin : inHandler s u = true) {v y : Nat}
      (hv : s.next v = some (.iowrite .interruptAck y)) : v = u :=
    hs.one v u (hs.inHandler hv rfl) hin
  refine hh.moved ht htask hut hby.op hby.raising hby.task (fun hb => ?_) ?_
  · -- a handler that reads one bit would find it outstanding
    obtain ⟨v,hv⟩ := hnext hb
    obtain rfl | rfl := handler_after hok (.inl hv)
    · exact ha rfl
    · have hbits := hh.bits
      have hno (x y : Nat) : s.next x ≠ some (.iowrite .interruptAck y) := fun hx => by
        obtain rfl := alone (hs.inHandler hnu rfl) hx
        cases hnu.symm.trans hx
      rw [outstanding_of_no_ack hno,outstanding_of_no_ack hno] at hbits
      obtain ⟨rfl,hone⟩ := irqWake_after hok he hv
      obtain ⟨h1,h2⟩ := not_single hbits
      exact hone.elim h1 h2
  · by_cases hack : ∃ v, a = .iowrite .interruptAck v
    · obtain ⟨v,rfl⟩ := hack
      have hin := hs.inHandler hnu rfl
      cases he
      rw [outstanding_of_no_ack,outstanding_of_no_ack,
        ← outstanding_of_ack hnu (fun x y hx => alone hin hx),
        ← outstanding_of_ack hnu (fun x y hx => alone hin hx)]
      · exact hh.bits
      all_goals
        intro y z hy
        by_cases hyu : y = u
        · subst y
          exact absurd (hnext hy) (by simp [Phase.after,Phase.Ok])
        · rw [Sys.next_of_ne hyu] at hy
          exact hyu (alone hin hy)
    by_cases hread : a = .ioread .interruptStatus
    · subst hread
      have hbits := hh.bits
      have hno (x y : Nat) : s.next x ≠ some (.iowrite .interruptAck y) := fun hx => by
        obtain rfl := alone (hs.inHandler hnu rfl) hx
        cases hnu.symm.trans hx
      rw [outstanding_of_no_ack hno,outstanding_of_no_ack hno] at hbits
      obtain ⟨h1,h2⟩ := not_single hbits
      obtain ⟨rfl,hr⟩ := World.ioread_done (r := .interruptStatus) (x := x) he
      obtain rfl := hr rfl
      -- the handler has read both bits or none, and will clear what it has read
      have hphase : (φ u).after (.ioread .interruptStatus) s.world.card.interruptStatus =
          .irqAck s.world.card.interruptStatus := by
        simp only [Phase.after,h1,h2,or_self,if_false]
      obtain ⟨cl',w₁,b,kont',hθ,hok'⟩ := running_of_phase (t := u) h' (by simp)
        (by rw [Function.update_self,hphase]; simp)
      rw [Function.update_self,hphase] at hok'
      obtain rfl := Phase.ack_of_ok hok'
      have hclear := outstanding_of_ack (u := u) (v := s.world.card.interruptStatus)
        (s := ⟨s.world,Function.update s.thr u
          (.run cl w₀ (kont s.world.card.interruptStatus)),s.hist⟩)
        (by unfold Sys.next; rw [hθ]) (fun y z hy => by
          by_contra hyu
          rw [Sys.next_of_ne hyu] at hy
          exact hno y z hy)
      rw [hclear,hclear,Card.iowrite_ack]
    · have hout (v : Nat) : Sys.next (⟨w,Function.update s.thr u
          (.run cl w₀ (kont r)),s.hist⟩ : System) u ≠ some (.iowrite .interruptAck v) := by
        intro hv
        have hv : (φ u).after a r = .irqAck v := hnext hv
        exact (handler_after hok (.inr hv)).elim ha hread
      have hp : w.card.pending = s.world.card.pending :=
        hby.pending.resolve_right (fun hp => hack (hp.imp fun _ => And.left))
      have hold (v : Nat) : s.next u ≠ some (.iowrite .interruptAck v) := fun hv =>
        hack ⟨v,Option.some.inj (hnu.symm.trans hv)⟩
      rw [outstanding_congr hp hold hout,outstanding_congr hp hold hout]
      exact hh.bits

/-- What is hung stays so, whatever happens but a signal. -/
theorem Hung.step {φ : Nat → Phase} (hh : Hung s) (hs : Handlers s)
    (h : (dozeAssertions LockInv).Holds s φ) {l : Step} (hl : Unsignalled s l)
    (hstep : (machine c).step s l = some s') : Hung s' := by
  obtain ⟨t,k,ht,htask⟩ := hh.asleep
  have hO := (carried_lock c (P := Unsignalled) (fun _ _ h => h.uncut)).outline
  have hrun {u : Nat} (hu : s.next u = none) : u ≠ t := fun e => by
    rw [e,ht] at hu
    cases hu
  -- a thread that neither is at an action nor comes to one of the handler's
  have idle {u : Nat} {θ : Thread Act Act.Res World Call Int} {hist : Nat → List (Call × Int)}
      (hu : s.next u = none) (hθ : ∀ a, Sys.next (⟨s.world,Function.update s.thr u θ,hist⟩ :
        System) u = some a → Phase.Ok .out a) :
      Hung ⟨s.world,Function.update s.thr u θ,hist⟩ := by
    have hno (v : Nat) : s.next u ≠ some (.iowrite .interruptAck v) := by rw [hu]; simp
    have hno' (v : Nat) : Sys.next (⟨s.world,Function.update s.thr u θ,hist⟩ : System) u ≠
        some (.iowrite .interruptAck v) := fun hv => by cases hθ _ hv
    refine hh.moved ht htask (hrun hu) rfl rfl rfl (fun hw => ?_) ?_
    · obtain ⟨v,hv⟩ := hθ _ hw
      cases hv
    · rw [outstanding_congr rfl hno hno',outstanding_congr rfl hno hno']
      exact hh.bits
  cases l with
  | call u cl =>
    simp only [Machine.step] at hstep
    split at hstep
    · rename_i hu
      cases hstep
      obtain ⟨γ,hγ,h'⟩ := hO.called h hl hu
      have hγ : γ = .out := hγ
      refine idle (by simp only [Sys.next,hu]) (fun a ha => ?_)
      have hok : (Function.update φ u γ u).Ok a := h'.next ha
      rwa [Function.update_self,hγ] at hok
    · cases hstep
  | ret u =>
    simp only [Machine.step] at hstep
    split at hstep
    · rename_i cl w₀ v hu
      cases hstep
      exact idle (by simp only [Sys.next,hu]) (fun a ha => by simp [Sys.next] at ha)
    · cases hstep
  | env e =>
    simp only [Machine.step,Option.map_eq_some_iff] at hstep
    obtain ⟨w,he,_⟩ := hstep
    obtain ⟨_,o,ho,_⟩ | ⟨_,k,hk,_⟩ := World.env_cases he
    · rw [hh.op] at ho
      cases ho
    · rw [hh.raising] at hk
      cases hk
  | act u x =>
    have hx : x ≠ .signal := by
      rintro rfl
      cases hl.1
    obtain ⟨cl,w₀,a,kont,hu,hacts⟩ := Machine.actStep_cases hstep
    have hnu : s.next u = some a := by simp only [Sys.next,hu]
    -- a sleeper does not move without a signal
    have hut : u ≠ t := by
      rintro rfl
      rw [ht] at hnu
      cases hnu
      have hnone : World.exec u (.waitEvent k) x s.world = none := by
        simp only [World.exec,World.waitStep,htask]
      obtain ⟨w,he,_⟩ | ⟨r,w,he,_⟩ | ⟨w,he,_⟩ := hacts <;>
        exact absurd (hnone.symm.trans he) (by simp)
    obtain ⟨w,he,rfl⟩ | ⟨r,w,he,rfl⟩ | ⟨w,he,rfl⟩ := hacts
    · obtain ⟨k',rfl,rfl⟩ | ⟨k',rfl,_⟩ := World.exec_stay he
      · exact hh
      · have hok : φ u = .busy k' true := h.ok hu
        have hφ : φ t = .busy k true := h.next ht
        exact absurd (h.1.1.sem.unique (by rw [hok]; trivial) (by rw [hφ]; trivial)) hut
    · obtain ⟨γ,hγ,h'⟩ := hO.did h hl hu he
      have hγ : γ = (φ u).after a r := hγ
      rw [hγ] at h'
      exact hh.acted hs h ht htask hut hx hu he h'
    · obtain ⟨rfl,p,n,hb,_⟩ := World.exec_oops he
      have hno (v : Nat) : s.next u ≠ some (.iowrite .interruptAck v) := fun hv => by
        cases hnu.symm.trans hv
        cases hb
      have hno' (v : Nat) : Sys.next (⟨s.world,Function.update s.thr u .dead,s.hist⟩ : System) u ≠
          some (.iowrite .interruptAck v) := by simp [Sys.next]
      refine hh.moved ht htask hut rfl rfl rfl (by simp [Sys.next]) ?_
      rw [outstanding_congr rfl hno hno',outstanding_congr rfl hno hno']
      exact hh.bits

theorem Hung.reaches {φ : Nat → Phase} (hh : Hung s) (hs : Handlers s)
    (h : (dozeAssertions LockInv).Holds s φ) (hr : (machine c).Reaches Unsignalled s s') :
    Hung s' := by
  induction hr with
  | refl => exact hh
  | tail hr hl hstep ih =>
    obtain ⟨φ',h'⟩ := (carried_lock c (P := Unsignalled)
      (fun _ _ h => h.uncut)).outline.reaches h hr
    exact ih.step (hs.reaches hr) h' hl hstep

/-- Nobody gets the semaphore past a writer that is hung. -/
theorem Hung.locked {φ : Nat → Phase} (hh : Hung s) (h : (dozeAssertions LockInv).Holds s φ) :
    s.world.wsem = 0 := by
  obtain ⟨t,k,ht,_⟩ := hh.asleep
  have hφ : φ t = .busy k true := h.next ht
  by_contra hw
  exact h.1.1.sem.free (Nat.pos_of_ne_zero hw) t (by rw [hφ]; trivial)

end

end CryptoCard
