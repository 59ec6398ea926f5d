import CryptoCard.Balance
set_option autoImplicit false

/-! Invocations of the interrupt handler in between the steps of probe and remove. -/
namespace CryptoCard
open Memory Program Interleave Acquisitions

/-- `init_waitqueue_head` has run since the interrupt was last requested. -/
def queueReady : List (Event (Nat × Resource) Mark) → Bool
  | [] => false
  | .mark .initWaitqueueHead :: _ => true
  | .acquire (_,.irq) :: _ => false
  | _ :: l => queueReady l

/-- The thread is in an invocation of the handler. -/
def Handles : Thread KAct KAct.Res Kern KCall Int → Bool
  | .run (.irq _) _ _ => true
  | _ => false

/-- The handler runs only while the interrupt is requested, and `free_irq` returns when
all its invocations have. -/
def IrqLine (s : KSystem) : KStep → Prop
  | .call _ (.irq _) => s.world.Holds .irq
  | .act t _ => (∃ dev, s.next t = some (.freeIrq dev)) → ∀ u, Handles (s.thr u) = false
  | _ => True

/-- What a read of `interrupt_status` answers under the choice `x`. -/
def Kern.interruptStatus (k : Kern) : Choice → Nat
  | .value v => v
  | _ => k.drv.card.interruptStatus

/-- No completion is read before the wait queue is initialised, and configspace is not
cleared between a handler's test of it and the load. -/
def Attentive (s : KSystem) : KStep → Prop
  | .act t x =>
    (∀ p, s.next t = some (.file p (.ioread .interruptStatus)) →
      completion (s.world.interruptStatus x) → queueReady s.world.log = true) ∧
    (s.next t = some (.setGlobal .configspace none) →
      ∀ u, Handles (s.thr u) = true → s.next u ≠ some (.getGlobal .configspace))
  | _ => True

/-- No invocation is about to access a register without a mapped configspace, or to
wake a wait queue that is not initialised. -/
def HandlerSafe (s : KSystem) : Prop :=
  ∀ t p a, Handles (s.thr t) = true → s.next t = some (.file p a) →
    (a.touchesCard = true → s.world.Maps p) ∧ (a = .wakeUp → queueReady s.world.log = true)

/-- The answer is a completion to report. -/
def KAct.Reports : (a : KAct) → a.Res → Prop
  | .file _ (.ioread .interruptStatus), r => completion r
  | _, _ => False

/-- What an invocation knows of the core. -/
def Visit.Knows (κ : Core) : Visit → Prop
  | .entered => True
  | .tested => κ.mycryptodev .configspace ≠ none
  | .at p => κ.Maps p
  | .saw p => κ.Maps p ∧ queueReady κ.log = true

/-- The published configspace is mapped while the interrupt is requested, which it is
during an invocation. -/
structure Attended (g : Nat → Account) (s : KSystem) : Prop where
  free : (g 0).kind = (some true,false)
  mapped : s.world.Holds .irq → ∀ p, s.world.mycryptodev .configspace = some p →
    s.world.Maps (some p)
  knows : ∀ t a v, s.next t = some a → g t = .handler v →
    s.world.Holds .irq ∧ v.Knows s.world.toCore

/-- The assertions of `balance` with this in addition. -/
@[reducible] def attendance : Assertions loading Kern KCall Int where
  J g s := balance.J g s ∧ Attended g s
  Idle := balance.Idle
  Began := balance.Began
  Post := balance.Post
  Dead := balance.Dead
  Link := balance.Link

theorem attendance_holds {s : KSystem} {g : Nat → Account} (h : attendance.Holds s g) :
    balance.Holds s g := ⟨h.1.1,h.2⟩

section
variable {κ κ' : Core} {p : Option Nat} {r : Resource} {e : Nat × Resource}

theorem Core.maps_of (hs : ∀ q, (κ'.spaces q).start = (κ.spaces q).start)
    (hr : ∀ q w, ∀ r ∈ [Resource.space q,.window w], κ.Holds r → κ'.Holds r)
    (h : κ.Maps p) : κ'.Maps p := by
  obtain ⟨q,hq,hspace,w,hw,hwindow⟩ := h
  exact ⟨q,hq,hr q w _ (by simp) hspace,w,by rw [hs]; exact hw,hr q w _ (by simp) hwindow⟩

theorem Core.holds_acquire (h : κ.Holds r) (e : Nat × Resource) : (κ.acquire e).Holds r :=
  List.mem_cons_of_mem _ h

theorem Core.holds_release (h : κ.Holds r) (hne : r ≠ e.2) : (κ.release e).Holds r := by
  obtain ⟨e',he,hsnd⟩ := List.mem_map.mp h
  refine List.mem_map.mpr ⟨e',mem_held_release he (fun heq => hne ?_),hsnd⟩
  rw [← hsnd,heq]

theorem Core.holds_of_release (h : (κ.release e).Holds r) : κ.Holds r := by
  obtain ⟨e',he,hsnd⟩ := List.mem_map.mp h
  exact List.mem_map.mpr ⟨e',mem_of_held_release he,hsnd⟩

theorem Core.holds_acquire_ne (h : (κ.acquire e).Holds r) (hne : r ≠ e.2) :
    κ.Holds r := by
  rcases List.mem_cons.mp h with heq | h
  · exact absurd heq hne
  · exact h

/-- The actions that change what an invocation of the handler may rely on. -/
def KAct.pivotal : KAct → Bool
  | .requestIrq _ | .freeIrq _ | .setGlobal .configspace _ => true
  | _ => false

/-- Nothing has changed for the handler. -/
structure Steady (κ κ' : Core) : Prop where
  irq : κ.Holds .irq → κ'.Holds .irq
  irq_back : κ'.Holds .irq → κ.Holds .irq
  maps : κ.Holds .irq → ∀ p, κ.Maps p → κ'.Maps p
  ready : queueReady κ.log = true → queueReady κ'.log = true
  config : κ'.mycryptodev .configspace = κ.mycryptodev .configspace

namespace Steady

theorem refl (κ : Core) : Steady κ κ := ⟨id,id,fun _ _ => id,id,rfl⟩

theorem acquire (κ : Core) (hr : e.2 ≠ .irq) : Steady κ (κ.acquire e) where
  irq h := Core.holds_acquire h e
  irq_back h := Core.holds_acquire_ne h (Ne.symm hr)
  maps _ p := Core.maps_of (fun _ => rfl) (fun _ _ _ _ h => Core.holds_acquire h e)
  ready h := by
    obtain ⟨d,r⟩ := e
    cases r with
    | irq => exact absurd rfl hr
    | _ => exact h
  config := rfl

/-- A release of something that no register access goes through, or after `free_irq`. -/
theorem release (hr : e.2 ≠ .irq)
    (hm : κ.Holds .irq → ∀ q w, e.2 ≠ .space q ∧ e.2 ≠ .window w) :
    Steady κ (κ.release e) where
  irq h := Core.holds_release h (Ne.symm hr)
  irq_back := Core.holds_of_release
  maps hirq p := by
    refine Core.maps_of (fun _ => rfl) (fun q w r' hr' h => Core.holds_release h ?_)
    intro heq
    subst heq
    rcases List.mem_cons.mp hr' with hspace | hr'
    · exact (hm hirq q w).1 hspace
    · exact (hm hirq q w).2 (List.mem_singleton.mp hr')
  ready h := h
  config := rfl

theorem tries {failed : Bool} (h : κ.Tries e failed κ') (hr : e.2 ≠ .irq) : Steady κ κ' := by
  rcases h with ⟨_,rfl⟩ | ⟨_,rfl⟩
  · exact .refl _
  · exact .acquire _ hr

theorem allocates {d : Nat} {r : Nat → Resource} {p : Option Nat} (h : κ.Allocates d r p κ')
    (hr : ∀ q, r q ≠ .irq) : Steady κ κ' := by
  rcases h with ⟨_,rfl⟩ | ⟨q,_,_,rfl⟩
  · exact .refl _
  · exact .acquire _ (hr q)

end Steady

/-- Most actions of probe and remove change nothing for the handler. -/
theorem Core.next_steady {a : KAct} {r : a.Res} (h : κ.Next a r κ') (hok : κ.Ok a)
    (ha : a.pivotal = false) : Steady κ κ' := by
  cases a with
  | requestIrq dev => cases ha
  | freeIrq dev => cases ha
  | kzallocSpace => exact .allocates h (by simp)
  | kzallocCdev => exact .allocates h (by simp)
  | pciIoremapBar dev => exact .allocates h (by simp)
  | pciEnableDevice dev => exact .tries h (by simp)
  | pciRequestRegions dev => exact .tries h (by simp)
  | cdevAdd p n => exact .tries h (by simp)
  | allocChrdevRegion =>
    rcases h with ⟨_,rfl⟩ | ⟨_,n,_,rfl⟩
    · exact .refl _
    · have hne : (κ.card,Resource.chrdev n).2 ≠ .irq := fun hr => nomatch hr
      have hs := Steady.acquire κ hne
      exact ⟨hs.irq,hs.irq_back,hs.maps,hs.ready,rfl⟩
  | pciDisableDevice dev => cases h; exact .release (by simp) (by simp)
  | pciReleaseRegions dev => cases h; exact .release (by simp) (by simp)
  | unregisterChrdevRegion n => cases h; exact .release (by simp) (by simp)
  | cdevDel p =>
    obtain ⟨q,rfl,rfl⟩ := h
    exact .release (by simp) (by simp)
  | kfreeCdev p =>
    cases h
    cases p with
    | none => exact .refl _
    | some q => exact .release (by simp) (by simp)
  | kfreeSpace p =>
    cases h
    cases p with
    | none => exact .refl _
    | some q => exact .release (by simp) (fun hirq => absurd hirq hok)
  | iounmap w =>
    cases h
    cases w with
    | none => exact .refl _
    | some w => exact .release (by simp) (fun hirq => absurd hirq hok)
  | setStart p w =>
    cases h
    exact ⟨id,id,fun hirq => absurd hirq hok,id,rfl⟩
  | setupConfigspace p size =>
    cases h
    refine ⟨id,id,fun _ q => Core.maps_of (fun q' => ?_) (fun _ _ _ _ => id),id,rfl⟩
    by_cases hq : q' = p
    · subst hq
      simp [Core.setSpace]
    · simp [Core.setSpace,hq]
  | setGlobal x p =>
    cases h
    cases x with
    | configspace => cases ha
    | cdev => exact ⟨id,id,fun _ _ => id,id,rfl⟩
    | pdev => exact ⟨id,id,fun _ _ => id,id,rfl⟩
  | initWaitqueueHead => cases h; exact ⟨id,id,fun _ _ => id,fun _ => rfl,rfl⟩
  | enter dev => cases h; exact ⟨id,id,fun _ _ => id,id,rfl⟩
  | start p => obtain ⟨rfl,_⟩ := h; exact .refl _
  | devno => obtain ⟨rfl,_⟩ := h; exact .refl _
  | testGlobal x => obtain ⟨rfl,_⟩ := h; exact .refl _
  | getGlobal x => obtain ⟨rfl,_⟩ := h; exact .refl _
  | _ => cases h; exact .refl _

end

section
variable {s : KSystem} {g : Nat → Account} {κ κ' : Core} {u : Nat} {a : KAct} {v : Visit}

/-- Whoever accounts for an invocation is in one. -/
theorem balance_handles (h : balance.Holds s g) (hu : s.next u = some a)
    (hg : g u = .handler v) : Handles (s.thr u) = true ∧ v.Ok a := by
  obtain ⟨cl,w₀,k,ht⟩ := Sys.next_eq hu
  have hok := h.next hu
  rw [hg] at hok
  refine ⟨?_,hok⟩
  obtain ⟨γ₀,hb,hl⟩ := h.began ht
  have hkind : (g u).kind = γ₀.kind := hl
  have hu0 : u ≠ 0 := by
    intro h0
    subst h0
    obtain ⟨_,⟨free,hfree⟩,_⟩ := h.1
    rw [hg] at hfree
    cases hfree
  rw [hg,hb.1 hu0] at hkind
  rw [ht]
  cases cl with
  | irq ours => rfl
  | _ => cases hkind

theorem Visit.Knows.steady (h : v.Knows κ) (hirq : κ.Holds .irq) (hs : Steady κ κ') :
    v.Knows κ' := by
  cases v with
  | entered => trivial
  | tested =>
    intro hn
    rw [hs.config] at hn
    exact h hn
  | «at» p => exact hs.maps hirq p h
  | saw p => exact ⟨hs.maps hirq p h.1,hs.ready h.2⟩

theorem Visit.Knows.next {v' : Visit} {r : a.Res} (h : v.Knows κ) (hok : v.Ok a)
    (hmapped : ∀ p, κ.mycryptodev .configspace = some p → κ.Maps (some p))
    (hready : a.Reports r → queueReady κ.log = true)
    (hn : κ.Next a r κ') (hv : v.Next a r v') : v'.Knows κ := by
  cases v with
  | entered =>
    cases (show a = _ from hok)
    cases (show v' = _ from hv)
    have hr : r = (κ.mycryptodev .configspace).isSome := hn.2
    subst hr
    cases hc : κ.mycryptodev .configspace with
    | none => trivial
    | some p => exact fun hnone => by rw [hc] at hnone; cases hnone
  | tested =>
    cases (show a = _ from hok)
    cases (show v' = _ from hv)
    have hr : r = κ.mycryptodev .configspace := hn.2
    subst hr
    show κ.Maps (κ.mycryptodev .configspace)
    cases hc : κ.mycryptodev .configspace with
    | none => exact absurd hc h
    | some p => exact hmapped p hc
  | «at» p =>
    rcases hok with rfl | ⟨ack,rfl⟩
    · have hv : v' = if completion r then .saw p else .at p := hv
      subst hv
      by_cases hc : completion r
      · rw [if_pos hc]
        exact ⟨h,hready hc⟩
      · rw [if_neg hc]
        exact h
    · cases (show v' = _ from hv)
      exact h
  | saw p =>
    cases (show a = _ from hok)
    cases (show v' = _ from hv)
    exact h.1

/-- A read of the status answers what the line says. -/
theorem Kern.reports_status {t : Nat} {x : Choice} {k k' : Kern} {r : a.Res}
    (h : k.exec t a x = some (.done r k')) (hr : a.Reports r) :
    (∃ p, a = .file p (.ioread .interruptStatus)) ∧ completion (k.interruptStatus x) := by
  cases a with
  | file p b =>
    cases b with
    | ioread reg =>
      cases reg with
      | interruptStatus =>
        refine ⟨⟨p,rfl⟩,?_⟩
        simp only [Kern.exec,Kern.file] at h
        split at h
        · cases h
        · split at h
          · cases h
          · cases x <;> cases h <;> exact hr
      | _ => exact hr.elim
    | _ => exact hr.elim
  | _ => exact hr.elim

end

/-- One card, its interrupt line, and no handler in the two windows. -/
def Attending (dev : Nat) (s : KSystem) (l : KStep) : Prop :=
  OneCard dev s l ∧ IrqLine s l ∧ Attentive s l

section
variable {c : Cipher} {dev t : Nat} {s s' : KSystem} {g g' : Nat → Account}

/-- Steps that neither touch the core nor move a handler on. -/
theorem Attended.congr (h : Attended g s) (hcore : s'.world.toCore = s.world.toCore)
    (hfree : (g' 0).kind = (g 0).kind)
    (hg : ∀ u a v, s'.next u = some a → g' u = .handler v →
      s.next u = some a ∧ g u = .handler v) : Attended g' s' where
  free := hfree.trans h.free
  mapped := by
    rw [hcore]
    exact h.mapped
  knows u a v hu hv := by
    obtain ⟨hu,hv⟩ := hg u a v hu hv
    rw [hcore]
    exact h.knows u a v hu hv

theorem Attended.moved {w : Kern} {κ : Core} {θ : Thread KAct KAct.Res Kern KCall Int}
    (hm : w.Holds .irq → ∀ p, w.mycryptodev .configspace = some p → w.Maps (some p))
    (hk : ∀ u a v, s.next u = some a → g u = .handler v → w.Holds .irq ∧ v.Knows w.toCore) :
    Attended (Function.update g 0 (.loader true κ))
      { s with world := w, thr := Function.update s.thr 0 θ } where
  free := by rw [Function.update_self]; rfl
  mapped := hm
  knows u a v hu hv := by
    have hu0 : u ≠ 0 := by
      intro h0
      subst h0
      rw [Function.update_self] at hv
      cases hv
    rw [Function.update_of_ne hu0] at hv
    exact hk u a v (by simpa [Sys.next,hu0] using hu) hv

theorem Attended.loader {cl : KCall} {w₀ w : Kern} {x : Choice} {a : KAct} {r : a.Res}
    {k : a.Res → KCode Int} (hb : balance.Holds s g) (h : Attended g s)
    (ht : s.thr 0 = .run cl w₀ (.act a k)) (hline : IrqLine s (.act 0 x))
    (hatt : Attentive s (.act 0 x)) (he : s.world.exec 0 a x = some (.done r w)) :
    Attended (Function.update g 0 (.loader true w.toCore))
      { s with world := w, thr := Function.update s.thr 0 (.run cl w₀ (k r)) } := by
  have hnext : s.next 0 = some a := by simp [Sys.next,ht]
  have hn := Kern.exec_done he
  have hok : s.world.Ok a := by
    obtain ⟨_,⟨free,hg0⟩,_⟩ := hb.1
    have hfree := h.free
    rw [hg0] at hfree
    cases hfree
    have hok := hb.ok ht
    rw [hg0] at hok
    exact hok.2
  cases ha : a.pivotal with
  | false =>
    have hs := Core.next_steady hn hok ha
    refine Attended.moved (fun hirq p hp => ?_) (fun u b v hu hv => ?_)
    · have hback := hs.irq_back hirq
      exact hs.maps hback _ (h.mapped hback p (hs.config ▸ hp))
    · obtain ⟨hirq,hk⟩ := h.knows u b v hu hv
      exact ⟨hs.irq hirq,hk.steady hirq hs⟩
  | true =>
    cases a with
    | requestIrq dev =>
      -- nobody can be in the handler yet, and no configspace is published
      have hnone {u : Nat} {b : KAct} {v : Visit} (hu : s.next u = some b)
          (hv : g u = .handler v) : w.Holds .irq ∧ v.Knows w.toCore :=
        absurd (h.knows u b v hu hv).1 hok.2
      refine Attended.moved (fun _ p hp => ?_) (fun u b v => hnone)
      have hsame : w.mycryptodev = s.world.mycryptodev := by
        rcases hn with ⟨_,hw⟩ | ⟨_,hw⟩
        · rw [hw]
        · rw [hw]
          rfl
      rw [hsame,hok.1] at hp
      cases hp
    | freeIrq dev =>
      have hnobody := hline ⟨dev,hnext⟩
      rw [Core.Next] at hn
      refine Attended.moved (fun hirq p hp => ?_) (fun u b v hu hv => ?_)
      · rw [hn] at hirq hp ⊢
        refine Core.maps_of ?_ ?_ (h.mapped (Core.holds_of_release hirq) p hp)
        · exact fun _ => rfl
        · intro q w r hr hh
          refine Core.holds_release hh (fun heq => ?_)
          subst heq
          simp at hr
      · have hbusy := (balance_handles hb hu hv).1
        rw [hnobody u] at hbusy
        cases hbusy
    | setGlobal y q =>
      cases y with
      | cdev => cases ha
      | pdev => cases ha
      | configspace =>
        rw [Core.Next] at hn
        refine Attended.moved (fun hirq p hp => ?_) (fun u b v hu hv => ?_)
        · rw [hn] at hp ⊢
          rw [show q = some p from hp] at hok
          exact hok
        · obtain ⟨hirq,hk⟩ := h.knows u b v hu hv
          rw [hn]
          refine ⟨hirq,?_⟩
          cases v with
          | entered => trivial
          | tested =>
            cases q with
            | some p => exact Option.some_ne_none p
            | none =>
              obtain ⟨hbusy,hb⟩ := balance_handles hb hu hv
              cases (show b = _ from hb)
              exact absurd hu (hatt.2 hnext u hbusy)
          | «at» p => exact hk
          | saw p => exact hk
    | _ => cases ha

theorem Attended.visit {cl : KCall} {w₀ w : Kern} {x : Choice} {a : KAct} {r : a.Res}
    {k : a.Res → KCode Int} {γ : Account} (hb : balance.Holds s g) (h : Attended g s)
    (ht0 : t ≠ 0) (ht : s.thr t = .run cl w₀ (.act a k)) (hatt : Attentive s (.act t x))
    (he : s.world.exec t a x = some (.done r w)) (hγ : loading.next (g t) a r γ) :
    Attended (Function.update g t γ)
      { s with world := w, thr := Function.update s.thr t (.run cl w₀ (k r)) } := by
  have hnext : s.next t = some a := by simp [Sys.next,ht]
  have hn := Kern.exec_done he
  have hcore : w.toCore = s.world.toCore :=
    Core.visits_next (loading_next (hb.1.2.2 t ht0) (hb.ok ht) r).1 hn
  refine ⟨?_,?_,fun u b v hu hv => ?_⟩
  · rw [Function.update_of_ne (Ne.symm ht0)]
    exact h.free
  · show w.Holds .irq → _
    rw [hcore]
    exact h.mapped
  · show w.Holds .irq ∧ v.Knows w.toCore
    rw [hcore]
    by_cases hut : u = t
    · subst hut
      rw [Function.update_self] at hv
      subst hv
      cases hgu : g u with
      | loader free κ => exact absurd (hgu ▸ trivial) (hb.1.2.2 u ht0)
      | visitor =>
        rw [hgu] at hγ
        cases hγ
      | handler v₀ =>
        rw [hgu] at hγ
        obtain ⟨v',hv',heq⟩ := hγ
        cases heq
        obtain ⟨hirq,hk⟩ := h.knows u a v₀ hnext hgu
        refine ⟨hirq,hk.next (balance_handles hb hnext hgu).2 (h.mapped hirq) (fun hr => ?_) hn hv'⟩
        obtain ⟨⟨p,hp⟩,hc⟩ := Kern.reports_status he hr
        exact hatt.1 p (by rw [hnext,hp]) hc
    · rw [Function.update_of_ne hut] at hv
      exact h.knows u b v (by simpa [Sys.next,hut] using hu) hv

end

theorem attendanceOutline (c : Cipher) (dev : Nat) :
    Outline (kernel c) (fun s l => Attending dev s l ∧ OtherNone dev s) attendance where
  call {s g t cl} h hp ht := by
    have hadm := hp.1.1.admitted hp.2
    obtain ⟨γ,hJ,hb,hw⟩ := (balanceOutline c).call (attendance_holds h) hadm ht
    refine ⟨γ,⟨hJ,?_,h.1.2.mapped,fun u a v hu hv => ?_⟩,hb,hw⟩
    · by_cases ht0 : t = 0
      · subst ht0
        rw [Function.update_self]
        cases cl with
        | probe d =>
          have hnone : inService (s.hist 0) = [] := by
            refine List.eq_nil_iff_forall_not_mem.mpr (fun e he => hadm.1.2 ?_)
            rw [hp.1.1.2 d rfl,← hp.2.1 e he]
            exact he
          rw [(hb.2 rfl).2.2,hnone]
          rfl
        | remove d => rw [(hb.2 rfl).2.2]; rfl
        | _ => exact (hb.2 rfl).2.elim
      · rw [Function.update_of_ne (Ne.symm ht0)]
        exact h.1.2.free
    · by_cases hut : u = t
      · subst hut
        rw [Function.update_self] at hv
        subst hv
        by_cases ht0 : u = 0
        · obtain ⟨_,hload⟩ := hb.2 ht0
          cases cl with
          | probe d => cases hload.2
          | remove d => cases hload.2
          | _ => exact hload.elim
        · have hrole := hb.1 ht0
          cases cl with
          | irq ours =>
            cases hrole
            exact ⟨hp.1.2.1,trivial⟩
          | _ => cases hrole
      · rw [Function.update_of_ne hut] at hv
        refine h.1.2.knows u a v ?_ hv
        simpa [Sys.next,Function.update_of_ne hut] using hu
  ret := (balanceOutline c).ret
  leave {s g t cl w₀ v} h ht := by
    refine ⟨(balanceOutline c).leave (attendance_holds h) ht,
      h.1.2.congr rfl rfl (fun u a v hu hv => ⟨?_,hv⟩)⟩
    by_cases hut : u = t
    · subst hut
      simp [Sys.next] at hu
    · simpa [Sys.next,hut] using hu
  link_refl := (balanceOutline c).link_refl
  link := (balanceOutline c).link
  done {s g t x cl w₀ a k r w} h hp ht he := by
    obtain ⟨γ,hn,hJ⟩ := (balanceOutline c).done (attendance_holds h)
      (hp.1.1.admitted hp.2) ht he
    refine ⟨γ,hn,hJ,?_⟩
    by_cases ht0 : t = 0
    · subst ht0
      have hγ : γ = .loader true w.toCore := by
        obtain ⟨free,hfree⟩ := hJ.2.1
        rw [Function.update_self] at hfree
        have hkind : γ.kind = (g 0).kind := (balanceOutline c).link ((balanceOutline c).link_refl _) hn
        rw [hfree,h.1.2.free] at hkind
        cases hkind
        exact hfree
      rw [hγ]
      exact h.1.2.loader (attendance_holds h) ht hp.1.2.1 hp.1.2.2 he
    · exact h.1.2.visit (attendance_holds h) ht0 ht hp.1.2.2 he hn
  stay {s g t x cl w₀ a k w} h hp ht he :=
    ⟨(balanceOutline c).stay (attendance_holds h) (hp.1.1.admitted hp.2) ht he,
      h.1.2.congr (Kern.exec_open_core he (.inl rfl)) rfl (fun _ _ _ hu hv => ⟨hu,hv⟩)⟩
  oops {s g t x cl w₀ a k w} h hp ht he := by
    obtain ⟨hd,hJ⟩ := (balanceOutline c).oops (attendance_holds h) (hp.1.1.admitted hp.2) ht he
    refine ⟨hd,hJ,h.1.2.congr (Kern.exec_open_core he (.inr rfl)) rfl
      (fun u a v hu hv => ⟨?_,hv⟩)⟩
    by_cases hut : u = t
    · subst hut
      simp [Sys.next] at hu
    · simpa [Sys.next,hut] using hu
  env {s g e w} h hp he := by
    refine ⟨(balanceOutline c).env (attendance_holds h) (hp.1.1.admitted hp.2) he,?_⟩
    obtain ⟨u,_,rfl⟩ := Option.map_eq_some_iff.mp he
    exact h.1.2.congr rfl rfl (fun _ _ _ hu hv => ⟨hu,hv⟩)

theorem attendance_start (bars : Nat → Bar) (w : World) :
    attendance.Holds (loaded bars w) (fun t => if t = 0 then
      .loader true (Kern.init bars w).toCore else .visitor) :=
  ⟨⟨(balance_start bars w).1,rfl,(fun _ _ hp => nomatch hp),fun _ _ _ hu => nomatch hu⟩,
    (balance_start bars w).2⟩

theorem Attending.reaches {c : Cipher} {dev : Nat} {s₀ s : KSystem} (h₀ : OtherNone dev s₀)
    (h : (kernel c).Reaches (Attending dev) s₀ s) :
    OtherNone dev s ∧
      (kernel c).Reaches (fun s l => Attending dev s l ∧ OtherNone dev s) s₀ s := by
  induction h with
  | refl => exact ⟨h₀,.refl⟩
  | tail _ hp hs ih => exact ⟨ih.1.step hp.1 hs,.tail ih.2 ⟨hp,ih.1⟩ hs⟩

theorem attendance_visit {s : KSystem} {g : Nat → Account} {t : Nat} (h : attendance.Holds s g)
    (ht : Handles (s.thr t) = true) : ∃ v, g t = .handler v := by
  unfold Handles at ht
  split at ht
  · rename_i ours w₀ p hthr
    obtain ⟨γ₀,hb,hl⟩ := h.began hthr
    have hkind : (g t).kind = γ₀.kind := hl
    have ht0 : t ≠ 0 := fun h0 => (hb.2 h0).2
    rw [hb.1 ht0] at hkind
    cases hg : g t with
    | handler v => exact ⟨v,rfl⟩
    | loader free κ => rw [hg] at hkind; cases hkind
    | visitor => rw [hg] at hkind; cases hkind
  · cases ht

/-- With the queue initialised before a completion is read, and configspace not cleared
between a handler's test and its load, no invocation runs on missing state. -/
theorem handler_never_runs_bare (c : Cipher) (bars : Nat → Bar) (w : World) (dev : Nat)
    {s : KSystem} (h : (kernel c).Reaches (Attending dev) (loaded bars w) s) : HandlerSafe s := by
  have hstart : OtherNone dev (loaded bars w) :=
    ⟨fun d hd => (List.not_mem_nil hd).elim,fun _ _ _ _ ht => nomatch ht⟩
  obtain ⟨g,hg⟩ := (attendanceOutline c dev).reaches (attendance_start bars w)
    (Attending.reaches hstart h).2
  intro t p a hbusy ht
  obtain ⟨v,hv⟩ := attendance_visit hg hbusy
  have hok := (balance_handles (attendance_holds hg) ht hv).2
  have hk := (hg.1.2.knows t _ v ht hv).2
  cases v with
  | entered => cases hok
  | tested => cases hok
  | «at» q =>
    rcases hok with heq | ⟨ack,heq⟩
    · cases heq
      exact ⟨fun _ => hk,fun hwake => nomatch hwake⟩
    · cases heq
      exact ⟨fun _ => hk,fun hwake => nomatch hwake⟩
  | saw q =>
    cases hok
    exact ⟨fun _ => hk.1,fun _ => hk.2⟩

/-- The steps up to a wake-up are not those of `free_irq` or of a failed probe. -/
def plainStep (dev : Nat) (s : KSystem) (l : KStep) : Bool :=
  decide (OneCard dev s l) &&
  match l with
  | .call _ (.irq _) => decide (s.world.Holds .irq)
  | .act t _ =>
    match s.next t with
    | some (.freeIrq _) => false
    | _ => true
  | _ => true

theorem plainStep_line {dev : Nat} {s : KSystem} {l : KStep} (h : plainStep dev s l = true) :
    OneCard dev s l ∧ IrqLine s l := by
  obtain ⟨hone,hline⟩ := Bool.and_eq_true_iff.mp h
  refine ⟨of_decide_eq_true hone,?_⟩
  cases l with
  | call t cl =>
    cases cl with
    | irq ours =>
      have hirq : s.world.Holds .irq := of_decide_eq_true hline
      exact hirq
    | _ => trivial
  | act t x =>
    intro hfree
    obtain ⟨dev,hdev⟩ := hfree
    simp only [hdev] at hline
    cases hline
  | _ => trivial

/-- The step is in none of the two windows. -/
def noWindow (s : KSystem) : KStep → Bool
  | .act t _ =>
    match s.next t with
    | some (.file _ (.ioread .interruptStatus)) => queueReady s.world.log
    | some (.setGlobal .configspace none) => false
    | _ => true
  | _ => true

theorem noWindow_attentive {s : KSystem} {l : KStep} (h : noWindow s l = true) :
    Attentive s l := by
  cases l with
  | act t x =>
    refine ⟨fun p hp _ => ?_,fun hset => ?_⟩
    · simpa only [noWindow,hp] using h
    · simp only [noWindow,hset] at h
      cases h
  | _ => trivial

/-- An invocation that reads a completion once the card is in service. -/
theorem handler_never_runs_bare_in_service : ∃ s,
    (kernel (.bytewise fun _ _ x => x)).Reaches (Attending 7) (loaded oneBar bareWorld) s ∧
    s.next 1 = some (.file (some 0) .wakeUp) ∧ HandlerSafe s := by
  obtain ⟨s,hr,_,hp⟩ := Machine.exists_reaches (M := kernel (.bytewise fun _ _ x => x))
    (P := Attending 7) (n := 2)
    (b := fun s l => plainStep 7 s l && noWindow s l)
    (p := fun s => decide (s.next 1 = some (.file (some 0) .wakeUp)))
    (fun s l _ hb => by
      obtain ⟨hplain,hwin⟩ := Bool.and_eq_true_iff.mp hb
      obtain ⟨hone,hline⟩ := plainStep_line hplain
      exact ⟨hone,hline,noWindow_attentive hwin⟩)
    (probeSteps 7 0 ++ publishSteps 0 ++
      .call 1 (.irq true) :: [.ok,.ok,.value 1].map (.act 1))
    (loaded_quiet oneBar bareWorld 2) (by decide +kernel)
  exact ⟨s,hr,of_decide_eq_true hp,handler_never_runs_bare _ oneBar bareWorld 7 hr⟩

/-- A failed load clears configspace between a handler's test and its load. -/
theorem handler_never_runs_bare_fails :
    ¬ ∀ (c : Cipher) (bars : Nat → Bar) (w : World) (dev : Nat) (s : KSystem),
      (kernel c).Reaches (fun s l => OneCard dev s l ∧ IrqLine s l) (loaded bars w) s →
      HandlerSafe s := by
  intro h
  obtain ⟨s,hr,_,hp⟩ := Machine.exists_reaches (M := kernel (.bytewise fun _ _ x => x))
    (P := fun s l => OneCard 7 s l ∧ IrqLine s l) (n := 2) (b := plainStep 7)
    (p := fun s => Handles (s.thr 1) &&
      decide (s.next 1 = some (.file none (.ioread .interruptStatus))))
    (fun _ _ _ hb => plainStep_line hb)
    (probeSteps 7 0 ++ [.value 0,.ok,.ok,.ok].map (.act 0) ++ [.call 1 (.irq true),.act 1 .ok] ++
      [.ok,.ok,.ok,.ok,.fail,.ok,.ok].map (.act 0) ++ [.act 1 .ok])
    (loaded_quiet oneBar bareWorld 2) (by decide +kernel)
  obtain ⟨hbusy,hnext⟩ := Bool.and_eq_true_iff.mp hp
  obtain ⟨q,hq,_⟩ := (h _ oneBar bareWorld 7 s hr 1 none _ hbusy (of_decide_eq_true hnext)).1 rfl
  cases hq

end CryptoCard
