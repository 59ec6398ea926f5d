import CryptoCard.Unbind
set_option autoImplicit false

/-! The device node: probe adds it when everything else is in place and remove deletes it
before it takes anything away, so that whoever opens the node finds the card. -/
namespace CryptoCard
open Memory Program Interleave Acquisitions

/-- Where thread 0 stands with the node. It is hidden, and `ready` when the wait queue was
initialised and nothing acquired since; it is shown, and the probe is over; or remove is
about to delete it. The other threads only visit. -/
inductive Sight where
  | hidden (ready : Bool)
  | shown
  | leaving
  | visitor

/-- What remove does before it deletes the node, and the deletion. -/
def KAct.unveils : KAct → Bool
  | .enter _ | .getGlobal _ | .cdevDel _ => true
  | _ => false

def KAct.addsNode : KAct → Bool
  | .cdevAdd _ _ => true
  | _ => false

def Sight.Ok : Sight → KAct → Prop
  | .hidden ready, a => a.addsNode = true → ready = true
  | .shown, _ => False
  | .leaving, a => a.unveils = true
  | .visitor, a => a.visits = true

def Sight.next : Sight → (a : KAct) → a.Res → Sight
  | .hidden _, .initWaitqueueHead, _ => .hidden true
  | .hidden ready, .semaInit _, _ | .hidden ready, .cdevInit _, _ => .hidden ready
  | .hidden ready, .devno, _ => .hidden ready
  | .hidden _, .cdevAdd _ _, failed => if failed then .hidden false else .shown
  | .hidden _, _, _ => .hidden false
  | .leaving, .cdevDel _, _ => .hidden false
  | v, _, _ => v

@[reducible] def showing : Discipline KAct KAct.Res where
  Ghost := Sight
  ok := Sight.Ok
  next v a r v' := v' = v.next a r

section
variable {α : Type} {ready : Bool} {Q : α → Sight → Prop} {a : KAct}

theorem Sight.hidden_next (ha : a.addsNode = false) (r : a.Res) :
    ∃ ready', (Sight.hidden ready).next a r = .hidden ready' := by
  cases a <;> first | exact ⟨_,rfl⟩ | cases ha

theorem Sight.visitor_next (a : KAct) (r : a.Res) : Sight.visitor.next a r = .visitor := by
  cases a <;> rfl

theorem Sight.leaving_of_next {v : Sight} {r : a.Res} (h : v.next a r = .leaving) :
    v = .leaving := by
  cases v with
  | hidden ready =>
    cases ha : a.addsNode with
    | false =>
      obtain ⟨ready',hr⟩ : ∃ ready', (Sight.hidden ready).next a r = .hidden ready' :=
        Sight.hidden_next ha r
      rw [hr] at h
      cases h
    | true =>
      cases a with
      | cdevAdd p n => cases r <;> cases h
      | _ => cases ha
  | leaving => rfl
  | shown => cases a <;> cases h
  | visitor => cases a <;> cases h

theorem hidden_step {k : a.Res → KCode α} (ha : a.addsNode = false)
    (h : ∀ r ready, wp showing (k r) Q (.hidden ready)) :
    wp showing (katom a >>= k) Q (.hidden ready) := by
  refine ⟨fun hn => (by rw [ha] at hn; cases hn),fun r v hv => ?_⟩
  obtain ⟨ready',hr⟩ := Sight.hidden_next ha r
  rw [show v = _ from hv,hr]
  exact h r ready'

/-- A program that never adds the node leaves it hidden. -/
theorem hidden_wp {p : KCode α} (h : Always (fun a => a.addsNode = false) p) :
    wp showing p (fun _ _ => True) (.hidden ready) := by
  induction p generalizing ready with
  | ret x => trivial
  | act a k ih => exact hidden_step h.1 (fun r _ => ih r (h.2 r))

end

section
variable {d space cdev : Nat} {ready : Bool}

theorem outIounmap_hides : Always (fun a => a.addsNode = false) (outIounmap d space cdev) := by
  simp [outIounmap,outUnrequest,outDisable,outErr,KAct.addsNode]

theorem outIrqfree_hides : Always (fun a => a.addsNode = false) (outIrqfree d space cdev) :=
  ⟨rfl,fun _ => outIounmap_hides⟩

/-- The node is added by the last action, right after the wait queue is initialised. -/
theorem probePublish_shows :
    wp showing (probePublish d space cdev) (fun _ _ => True) (.hidden ready) := by
  refine hidden_step rfl (fun _ _ => hidden_step rfl (fun _ _ => hidden_step rfl (fun _ _ => ?_)))
  refine ⟨fun hn => (by cases hn),fun _ _ h => ?_⟩
  cases h
  refine ⟨fun hn => (by cases hn),fun _ _ h => ?_⟩
  cases h
  refine ⟨fun hn => (by cases hn),fun _ _ h => ?_⟩
  cases h
  refine ⟨fun hn => (by cases hn),fun n _ h => ?_⟩
  cases h
  refine ⟨fun _ => rfl,fun failed _ h => ?_⟩
  cases h
  cases failed with
  | true =>
    exact hidden_wp ⟨rfl,fun _ => ⟨rfl,fun _ => ⟨rfl,fun _ => ⟨rfl,fun _ => ⟨rfl,fun _ =>
      outIrqfree_hides⟩⟩⟩⟩⟩
  | false => trivial

theorem probeLive_shows :
    wp showing (probeLive d space cdev) (fun _ _ => True) (.hidden ready) := by
  refine hidden_step rfl (fun _ _ => hidden_step rfl (fun failed _ => ?_))
  rw [wp_ite]
  refine ⟨fun _ => hidden_wp outIounmap_hides,fun _ => hidden_step rfl (fun failed _ => ?_)⟩
  rw [wp_ite]
  exact ⟨fun _ => hidden_wp outIrqfree_hides,fun _ => probePublish_shows⟩

theorem probeMapped_shows :
    wp showing (probeMapped d space cdev) (fun _ _ => True) (.hidden ready) := by
  refine hidden_step rfl (fun size _ => hidden_step rfl (fun _ _ => ?_))
  refine hidden_step rfl (fun id _ => ?_)
  rw [wp_ite]
  refine ⟨fun _ => hidden_wp outIounmap_hides,fun _ => ?_⟩
  refine hidden_step rfl (fun _ _ => hidden_step rfl (fun v _ => ?_))
  exact (wp_ite _ _ _ _).mpr ⟨fun _ => hidden_wp outIounmap_hides,fun _ => probeLive_shows⟩

theorem cryptocardProbe_shows :
    wp showing (cryptocardProbe d) (fun _ _ => True) (.hidden ready) := by
  refine hidden_step rfl (fun space _ => ?_)
  cases space with
  | none => trivial
  | some space =>
    refine hidden_step rfl (fun cdev _ => ?_)
    cases cdev with
    | none => exact hidden_step rfl (fun _ _ => trivial)
    | some cdev =>
      refine hidden_step rfl (fun failed _ => ?_)
      rw [wp_ite]
      refine ⟨fun _ => hidden_wp ⟨rfl,fun _ => ⟨rfl,fun _ => trivial⟩⟩,fun _ => ?_⟩
      refine hidden_step rfl (fun failed _ => ?_)
      rw [wp_ite]
      refine ⟨fun _ => hidden_wp (by simp [outDisable,outErr,KAct.addsNode]),fun _ => ?_⟩
      refine hidden_step rfl (fun w _ => hidden_step rfl (fun _ _ => ?_))
      rw [wp_ite]
      exact ⟨fun _ => hidden_wp (by simp [outUnrequest,outDisable,outErr,KAct.addsNode]),
        fun _ => probeMapped_shows⟩

/-- Remove does nothing before it deletes the node. -/
theorem cryptocardRemove_leaves :
    wp showing (cryptocardRemove d) (fun _ _ => True) .leaving := by
  refine ⟨rfl,fun cdev _ h => ?_⟩
  cases h
  refine ⟨rfl,fun _ _ h => ?_⟩
  cases h
  exact hidden_wp (by simp [KAct.addsNode])

end

/-- The node is there for a card that is in service, and was added right after the wait
queue of this probe was initialised. -/
def Published (dev p : Nat) (κ : Core) : Prop :=
  ∃ q w n l, Bound dev q p w n κ ∧
    κ.log = .acquire (dev,.added p) :: .mark .initWaitqueueHead :: l

def Sight.Fits (dev : Nat) (κ : Core) : Sight → Prop
  | .hidden ready => (∀ p, ¬ κ.Holds (.added p)) ∧
      (ready = true → ∃ l, κ.log = .mark .initWaitqueueHead :: l)
  | .shown | .leaving => ∃ p, Published dev p κ
  | .visitor => False

/-- The assertions: thread 0 has the account of the node. -/
@[reducible] def sighting (dev : Nat) : Assertions showing Kern KCall Int where
  J g s := (g 0).Fits dev s.world.toCore ∧ ∀ t, t ≠ 0 → g t = .visitor
  Idle _ _ _ := True
  Began _ cl _ _ γ := γ = .leaving → ∃ d, cl = .remove d
  Post _ _ _ _ _ := True
  Dead _ := True
  Link γ₀ γ := γ = .leaving → γ₀ = .leaving

section
variable {dev p : Nat} {κ κ' : Core}

/-- A node that is there is not hidden. -/
theorem Sight.Fits.published {v : Sight} (h : v.Fits dev κ) (hp : κ.Holds (.added p)) :
    ∃ p, Published dev p κ := by
  cases v with
  | hidden ready => exact absurd hp (h.1 p)
  | shown => exact h
  | leaving => exact h
  | visitor => exact h.elim

theorem Bound.holds_added {q cd w n : Nat} (h : Bound dev q cd w n κ) :
    κ.Holds (.added p) ↔ p = cd := by
  simp [Core.Holds,h.stack,fullSet]

/-- Once the node is deleted nothing of it is left. -/
theorem Bound.node_gone {q cd w n : Nat} (h : Bound dev q cd w n κ) :
    ¬ (κ.release (dev,.added cd)).Holds (.added p) := by
  have hstack : held (κ.release (dev,.added cd)).log = _ := held_pop h.stack
  simp [Core.Holds,hstack]

theorem Unbound.not_holds {r : Resource} (h : Unbound κ) : ¬ κ.Holds r := by
  simp [Core.Holds,h.stack]

/-- Only `cdev_add` makes the node appear. -/
theorem Core.added_of_next {a : KAct} {r : a.Res} (h : κ.Next a r κ') (hp : κ'.Holds (.added p))
    (ha : a.addsNode = false) : κ.Holds (.added p) := by
  have acquired {e : Nat × Resource} (hr : .added p ≠ e.2)
      (hp : (κ.acquire e).Holds (.added p)) : κ.Holds (.added p) :=
    Core.holds_acquire_ne hp hr
  have tries {e : Nat × Resource} {failed : Bool} (hr : .added p ≠ e.2)
      (h : κ.Tries e failed κ') : κ.Holds (.added p) := by
    rcases h with ⟨_,rfl⟩ | ⟨_,rfl⟩
    · exact hp
    · exact acquired hr hp
  have allocates {d : Nat} {r : Nat → Resource} {q : Option Nat} (hr : ∀ q, .added p ≠ r q)
      (h : κ.Allocates d r q κ') : κ.Holds (.added p) := by
    rcases h with ⟨_,rfl⟩ | ⟨q,_,_,rfl⟩
    · exact hp
    · exact acquired (hr q) hp
  cases a with
  | kzallocSpace => exact allocates (by simp) h
  | kzallocCdev => exact allocates (by simp) h
  | pciIoremapBar d => exact allocates (by simp) h
  | pciEnableDevice d => exact tries (by simp) h
  | pciRequestRegions d => exact tries (by simp) h
  | requestIrq d => exact tries (by simp) h
  | cdevAdd c n => cases ha
  | allocChrdevRegion =>
    rcases h with ⟨_,rfl⟩ | ⟨_,n,_,rfl⟩
    · exact hp
    · exact acquired (by simp) hp
  | kfreeSpace q => cases h; cases q <;> first | exact hp | exact Core.holds_of_release hp
  | kfreeCdev q => cases h; cases q <;> first | exact hp | exact Core.holds_of_release hp
  | iounmap w => cases h; cases w <;> first | exact hp | exact Core.holds_of_release hp
  | pciDisableDevice d => cases h; exact Core.holds_of_release hp
  | pciReleaseRegions d => cases h; exact Core.holds_of_release hp
  | freeIrq d => cases h; exact Core.holds_of_release hp
  | unregisterChrdevRegion n => cases h; exact Core.holds_of_release hp
  | cdevDel q =>
    obtain ⟨q,_,rfl⟩ := h
    exact Core.holds_of_release hp
  | start q => obtain ⟨rfl,_⟩ := h; exact hp
  | devno => obtain ⟨rfl,_⟩ := h; exact hp
  | testGlobal x => obtain ⟨rfl,_⟩ := h; exact hp
  | getGlobal x => obtain ⟨rfl,_⟩ := h; exact hp
  | _ => cases h; exact hp

/-- While the node is hidden, what thread 0 does other than add it fits. -/
theorem Sight.hidden_fits {ready : Bool} {a : KAct} {r : a.Res} (h : κ.Next a r κ')
    (hf : (Sight.hidden ready).Fits dev κ) (ha : a.addsNode = false) :
    ((Sight.hidden ready).next a r).Fits dev κ' := by
  have hnone (p : Nat) : ¬ κ'.Holds (.added p) := fun hp => hf.1 p (Core.added_of_next h hp ha)
  cases a with
  | initWaitqueueHead => cases h; exact ⟨hnone,fun _ => ⟨_,rfl⟩⟩
  | semaInit n => cases h; exact hf
  | cdevInit c => cases h; exact hf
  | devno => obtain ⟨rfl,_⟩ := h; exact hf
  | cdevAdd c n => cases ha
  | _ => exact ⟨hnone,fun hr => nomatch hr⟩

end

/-- What the calls of the PCI core have left, along with the discipline of its calls. -/
def InBalance (dev : Nat) (s : KSystem) : Prop := OtherNone dev s ∧ ∃ g, balance.Holds s g

section
variable {c : Cipher} {dev : Nat} {s s' : KSystem} {l : KStep}

theorem InBalance.step (h : InBalance dev s) (hp : OneCard dev s l)
    (hs : (kernel c).step s l = some s') : InBalance dev s' := by
  obtain ⟨hone,g,hg⟩ := h
  exact ⟨hone.step hp hs,(balanceOutline c).step hg (hp.admitted hone) hs⟩

theorem InBalance.start (dev : Nat) (bars : Nat → Bar) (w : World) :
    InBalance dev (loaded bars w) :=
  ⟨⟨fun _ hd => (List.not_mem_nil hd).elim,fun _ _ _ _ ht => nomatch ht⟩,_,
    balance_start bars w⟩

/-- Between the calls of the PCI core. -/
theorem InBalance.rest (h : InBalance dev s) (hidle : s.thr 0 = .idle) :
    (inService (s.hist 0) = [] ∧ Unbound s.world.toCore) ∨
      (inService (s.hist 0) = [dev] ∧ ∃ q p w n, Bound dev q p w n s.world.toCore) := by
  obtain ⟨hone,g,hg⟩ := h
  obtain ⟨_,⟨free,hg0⟩,_⟩ := hg.1
  have h0 := hg.2 0
  rw [hidle] at h0
  obtain ⟨free',κ,hκ,hrest⟩ := h0 rfl
  rw [hg0] at hκ
  cases hκ
  rcases hrest with hrest | ⟨d,q,p,w,n,hs,hb⟩
  · exact .inl hrest
  · have hd : d = dev := hone.1 d (by simp [hs])
    subst hd
    exact .inr ⟨hs,q,p,w,n,hb⟩

/-- Nor does it matter that the call has not returned yet. -/
theorem InBalance.rest_of_ret (h : InBalance dev s) {cl : KCall} {w₀ : Kern} {v : Int}
    (ht : s.thr 0 = .run cl w₀ (.ret v)) :
    Unbound s.world.toCore ∨ ∃ q p w n, Bound dev q p w n s.world.toCore := by
  have hp : OneCard dev s (.ret 0) := ⟨trivial,fun d hd => (by cases hd)⟩
  have hs := Machine.step_ret (M := kernel (.bytewise fun _ _ x => x)) ht
  exact ((h.step hp hs).rest (Function.update_self 0 .idle s.thr)).imp And.right And.right

end

/-- Steps of one card together with the balance before and after them. -/
def Weighed (c : Cipher) (dev : Nat) (s : KSystem) (l : KStep) : Prop :=
  OneCard dev s l ∧ InBalance dev s ∧ ∀ s', (kernel c).step s l = some s' → InBalance dev s'

theorem KCall.code_visits {cl : KCall} (hp : ∀ d, cl ≠ .probe d) (hr : ∀ d, cl ≠ .remove d) :
    Always (fun a => a.visits = true) cl.code := by
  cases cl with
  | probe d => exact absurd rfl (hp d)
  | remove d => exact absurd rfl (hr d)
  | irq ours => exact attach_visits _ _
  | openFile f => exact openFile_visits f
  | write f ptr len => exact attach_visits _ _
  | ioctl f cmd arg => exact attach_visits _ _
  | mmap vmas => exact mmapFile_visits vmas

section
variable {c : Cipher} {dev : Nat} {s : KSystem} {g : Nat → Sight}

/-- A step of thread 0 that fits leaves the others visiting. -/
theorem sighted {v : Sight} {w : Kern} {θ : Thread KAct KAct.Res Kern KCall Int}
    (h : ∀ t, t ≠ 0 → g t = .visitor) (hv : v.Fits dev w.toCore) :
    (sighting dev).J (Function.update g 0 v)
      { s with world := w, thr := Function.update s.thr 0 θ } := by
  refine ⟨?_,fun t ht => ?_⟩
  · rw [Function.update_self]
    exact hv
  · rw [Function.update_of_ne ht]
    exact h t ht

/-- A step of another thread is no step of thread 0. -/
theorem unsighted {t : Nat} {w : Kern} {θ : Thread KAct KAct.Res Kern KCall Int}
    (h : (sighting dev).J g s) (ht : t ≠ 0) (hw : w.toCore = s.world.toCore) :
    (sighting dev).J (Function.update g t .visitor)
      { s with world := w, thr := Function.update s.thr t θ } := by
  refine ⟨?_,fun u hu => ?_⟩
  · rw [Function.update_of_ne (Ne.symm ht)]
    exact hw ▸ h.1
  · by_cases hut : u = t
    · rw [hut,Function.update_self]
    · rw [Function.update_of_ne hut]
      exact h.2 u hu

/-- What thread 0 does to the node. -/
theorem sighting_done {cl : KCall} {w₀ w : Kern} {x : Choice} {a : KAct} {r : a.Res}
    {k : a.Res → KCode Int} (h : (sighting dev).Holds s g) (hp : Weighed c dev s (.act 0 x))
    (ht : s.thr 0 = .run cl w₀ (.act a k)) (he : s.world.exec 0 a x = some (.done r w)) :
    ((g 0).next a r).Fits dev w.toCore := by
  obtain ⟨hfits,_⟩ := h.1
  have hn := Kern.exec_done he
  have hok := h.ok ht
  obtain ⟨γ₀,_,_,hwp⟩ : (sighting dev).ThreadOk 0 (s.hist 0) (.run cl w₀ (.act a k)) (g 0) :=
    ht ▸ h.2 0
  generalize g 0 = v at hfits hok hwp
  cases v with
  | hidden ready =>
    cases ha : a.addsNode with
    | false => exact Sight.hidden_fits hn hfits ha
    | true =>
      cases a with
      | cdevAdd cd n =>
        have hready : ready = true := hok rfl
        obtain ⟨l,hl⟩ := hfits.2 hready
        rcases hn with ⟨rfl,hw⟩ | ⟨rfl,hw⟩
        · rw [hw]
          exact ⟨hfits.1,fun hr => nomatch hr⟩
        · -- nothing is left of the probe, so that the call has bound the card
          have hlast := hwp.2 false _ rfl
          have hbal := hp.2.2 _ (Machine.step_done (M := kernel c) ht he)
          cases hk : k false with
          | act b k' =>
            rw [hk] at hlast
            exact hlast.1.elim
          | ret u =>
            have hadded : w.Holds (.added cd) := by
              rw [hw]
              simp [Core.Holds,Core.acquire]
            rw [hk] at hbal
            have hrest := hbal.rest_of_ret (Function.update_self 0 _ s.thr)
            rcases hrest with hu | ⟨q,p,m,n,hb⟩
            · exact absurd hadded hu.not_holds
            · have hp := hb.holds_added.mp hadded
              subst hp
              refine ⟨cd,q,m,n,l,hb,?_⟩
              have hstack := hb.stack
              rw [hw] at hstack ⊢
              simp only [Core.acquire,held_acquire,fullSet,List.map_cons,List.cons.injEq,
                Prod.mk.injEq,and_true] at hstack
              simp only [Core.acquire,hl,hstack.1]
      | _ => cases ha
  | shown => exact hok.elim
  | leaving =>
    cases a with
    | enter d =>
      rw [show w.toCore = { s.world.toCore with card := d } from hn]
      obtain ⟨p,q,m,n,l,hb,hl⟩ := hfits
      exact ⟨p,q,m,n,l,⟨hb.lifo,hb.stack,hb.cdev,hb.configspace,hb.pdev,hb.devno,hb.start⟩,hl⟩
    | getGlobal y =>
      rw [hn.1]
      exact hfits
    | cdevDel p =>
      -- what is deleted is the last thing acquired
      obtain ⟨cd,q,m,n,l,hb,_⟩ := hfits
      obtain ⟨d,rfl,hw⟩ := hn
      obtain ⟨_,g',hg'⟩ := hp.2.1
      obtain ⟨_,⟨free,hg0⟩,_⟩ := hg'.1
      have hperm := hg'.ok ht
      rw [hg0] at hperm
      obtain ⟨T,htop⟩ := hperm.1 _ rfl
      have hlast : s.world.acquired (.added d) = (dev,.added cd) :=
        (List.cons.inj (htop.symm.trans hb.stack)).1
      refine ⟨fun p hp => ?_,fun hr => nomatch hr⟩
      rw [hw,hlast] at hp
      exact hb.node_gone hp
    | _ => cases hok
  | visitor => exact hfits.elim

theorem sightingOutline (c : Cipher) (dev : Nat) :
    Outline (kernel c) (Weighed c dev) (sighting dev) where
  call {s g t cl} h hp ht := by
    by_cases ht0 : t = 0
    · subst ht0
      have hrest := hp.2.1.rest ht
      cases cl with
      | probe d =>
        have hdev : d = dev := hp.1.2 d rfl
        have hout : d ∉ inService (s.hist 0) := hp.1.1.2
        refine ⟨.hidden false,sighted h.1.2 ⟨fun p => ?_,fun hr => nomatch hr⟩,
          (fun hl => nomatch hl),hidden_step rfl (fun _ _ => cryptocardProbe_shows)⟩
        rcases hrest with ⟨_,hu⟩ | ⟨hin,_⟩
        · exact hu.not_holds
        · rw [hin,hdev] at hout
          exact absurd (List.mem_singleton_self dev) hout
      | remove d =>
        have hin : d ∈ inService (s.hist 0) := hp.1.1.2
        refine ⟨.leaving,sighted h.1.2 ?_,fun _ => ⟨d,rfl⟩,rfl,fun _ _ hv => ?_⟩
        · rcases hrest with ⟨hout,_⟩ | ⟨_,q,p,w,n,hb⟩
          · rw [hout] at hin
            cases hin
          · exact h.1.1.published (hb.holds_added.mpr rfl)
        · cases hv
          exact cryptocardRemove_leaves
      | _ => exact absurd rfl hp.1.1
    · have hrole : (∀ d, cl ≠ .probe d) ∧ ∀ d, cl ≠ .remove d :=
        ⟨fun d hd => by subst hd; exact ht0 hp.1.1.1,fun d hd => by subst hd; exact ht0 hp.1.1.1⟩
      exact ⟨.visitor,unsighted h.1 ht0 rfl,(fun hl => nomatch hl),
        (KCall.code_visits hrole.1 hrole.2).wp (fun _ ha => ha)
          (fun a r _ _ hv => hv.trans (Sight.visitor_next a r))⟩
  ret _ _ _ := trivial
  leave h _ := h.1
  link_refl _ hl := hl
  link {γ₀ γ a r γ'} hl hn hγ := hl (Sight.leaving_of_next (hn.symm.trans hγ))
  done {s g t x cl w₀ a k r w} h hp ht he := by
    by_cases ht0 : t = 0
    · subst ht0
      exact ⟨_,rfl,sighted h.1.2 (sighting_done h hp ht he)⟩
    · have hv := h.1.2 t ht0
      have hok := h.ok ht
      rw [hv] at hok ⊢
      exact ⟨.visitor,(Sight.visitor_next a r).symm,
        unsighted h.1 ht0 (Core.visits_next hok (Kern.exec_done he))⟩
  stay h _ _ he := by
    have hsame := Kern.exec_open_core he (.inl rfl)
    exact ⟨hsame ▸ h.1.1,h.1.2⟩
  oops h _ _ he := by
    have hsame := Kern.exec_open_core he (.inr rfl)
    exact ⟨trivial,hsame ▸ h.1.1,h.1.2⟩
  env h _ he := by
    obtain ⟨u,_,rfl⟩ := Option.map_eq_some_iff.mp he
    exact h.1

end

theorem sighting_start (dev : Nat) (bars : Nat → Bar) (w : World) :
    (sighting dev).Holds (loaded bars w) (fun t => if t = 0 then .hidden false else .visitor) :=
  ⟨⟨⟨fun _ hp => (by cases hp),fun hr => nomatch hr⟩,fun t ht => if_neg ht⟩,fun _ => trivial⟩

/-- In every run of one card, with probes that fail and removes among them, the node is
there only while the card is in service with everything it needs. -/
theorem node_shows_card_in_service (c : Cipher) (bars : Nat → Bar) (w : World) {dev p : Nat}
    {s : KSystem} (h : (kernel c).Reaches (OneCard dev) (loaded bars w) s)
    (hp : s.world.Holds (.added p)) : Published dev p s.world.toCore := by
  have hw := h.along (fun _ _ _ h hp hs => h.step hp hs) (InBalance.start dev bars w)
  obtain ⟨g,hg⟩ := (sightingOutline c dev).reaches (sighting_start dev bars w) hw.2
  obtain ⟨p',q,m,n,l,hb,hl⟩ := hg.1.1.published hp
  cases hb.holds_added.mp hp
  exact ⟨q,m,n,l,hb,hl⟩

theorem node_shows_card_in_service_again : ∃ s,
    (kernel (.bytewise fun _ _ x => x)).Reaches (OneCard 7) (loaded oneBar bareWorld) s ∧
    waitqueueInits s.world.log = 2 ∧ Published 7 1 s.world.toCore := by
  obtain ⟨s,hr,_,hp⟩ := Machine.exists_reaches (M := kernel (.bytewise fun _ _ x => x))
    (P := OneCard 7) (n := 1) (b := fun s l => decide (OneCard 7 s l))
    (s := loaded oneBar bareWorld)
    (p := fun s => decide (waitqueueInits s.world.log = 2 ∧ s.world.Holds (.added 1)))
    (fun _ _ _ hb => of_decide_eq_true hb)
    (probeSteps 7 0 ++ publishSteps 0 ++ removeSteps 7 ++ .ret 0 ::
      probeSteps 7 1 ++ (publishSteps 1).dropLast)
    (fun _ _ => rfl) (by decide +kernel)
  obtain ⟨hi,ha⟩ := of_decide_eq_true hp
  exact ⟨s,hr,hi,node_shows_card_in_service _ _ _ hr ha⟩

/-- The node is there. -/
def HasNode (s : KSystem) : Prop := ∃ p, s.world.Holds (.added p)

def Opened (s : KSystem) (f : Nat) : Prop := ∃ t, (.openFile f,0) ∈ s.hist t

/-- Files are opened at the node, and the other file operations are made on open files. -/
def ThroughNode (s : KSystem) : KStep → Prop
  | .call _ (.openFile _) => HasNode s
  | .call _ (.write f _ _) | .call _ (.ioctl f _ _) => Opened s f
  | .call _ (.mmap _) => ∃ f, Opened s f
  | _ => True

/-- Probes of one card, which fail or not, with file operations and interrupts. -/
def Raising (dev : Nat) (s : KSystem) (l : KStep) : Prop :=
  OneCard dev s l ∧ ThroughNode s l ∧ ∀ t d, l ≠ .call t (.remove d)

/-- The file operation `p` goes to the card by the configspace that is published. -/
def Guided (κ : Core) (p : KCode Int) : Prop :=
  ∀ q, κ.mycryptodev .configspace = some q →
    ¬ Needs (Routed q) (KAct.Strays q) (fun _ => False) p

theorem Guided.past {κ κ' : Core} {a : KAct} {r : a.Res} {k : a.Res → KCode Int}
    (h : Guided κ (.act a k)) (hn : κ.Next a r κ') : Guided κ (k r) := by
  intro q hq
  refine Needs.past (h q hq) ?_
  unfold Routed
  split
  · exact hn.2.trans hq
  · trivial

/-- The node is there as soon as somebody has come through it. -/
structure Rooted (s : KSystem) : Prop where
  loads : ∀ cl w₀ p, s.thr 0 = .run cl w₀ p → ∃ d, cl = .probe d
  opened : ∀ f, Opened s f → HasNode s
  found : ∀ t p, InFile s t p → HasNode s ∧ Guided s.world.toCore p

section
variable {c : Cipher} {dev : Nat} {s s' : KSystem} {l : KStep} {g : Nat → Sight}

/-- Once the node is there, only a remove changes the core. -/
theorem Rooted.core_eq (h : Rooted s) (hg : (sighting dev).Holds s g) (hshown : HasNode s)
    (hs : (kernel c).step s l = some s') : s'.world.toCore = s.world.toCore := by
  obtain ⟨p,hp⟩ := hshown
  cases l with
  | call t cl =>
    simp only [Machine.step] at hs
    split at hs <;> cases hs
    rfl
  | ret t =>
    simp only [Machine.step] at hs
    split at hs <;> cases hs
    rfl
  | env e =>
    simp only [Machine.step,Option.map_eq_some_iff] at hs
    obtain ⟨_,he,rfl⟩ := hs
    obtain ⟨u,_,rfl⟩ := Option.map_eq_some_iff.mp he
    rfl
  | act t x =>
    obtain ⟨cl,w₀,a,k,ht,⟨w,he,rfl⟩ | ⟨r,w,he,rfl⟩ | ⟨w,he,rfl⟩⟩ := Machine.actStep_cases hs
    · exact Kern.exec_open_core he (.inl rfl)
    · have hok := hg.ok ht
      by_cases ht0 : t = 0
      · subst ht0
        obtain ⟨γ₀,hb,hl⟩ := hg.began ht
        obtain ⟨d,hd⟩ := h.loads _ _ _ ht
        have hfits := hg.1.1
        generalize g 0 = v at hok hl hfits
        cases v with
        | hidden ready => exact absurd hp (hfits.1 p)
        | shown => exact hok.elim
        | leaving =>
          obtain ⟨e,he⟩ := hb (hl rfl)
          rw [hd] at he
          cases he
        | visitor => exact hfits.elim
      · rw [hg.1.2 t ht0] at hok
        exact Core.visits_next hok (Kern.exec_done he)
    · exact Kern.exec_open_core he (.inr rfl)

/-- The thread that moves is the one to look at. -/
theorem Rooted.loads_update (h : Rooted s) {t : Nat} {θ : Thread KAct KAct.Res Kern KCall Int}
    (hθ : t = 0 → ∀ cl w₀ p, θ = .run cl w₀ p → ∃ d, cl = .probe d) (cl : KCall) (w₀ : Kern)
    (p : KCode Int) (ht : Function.update s.thr t θ 0 = .run cl w₀ p) : ∃ d, cl = .probe d := by
  by_cases ht0 : t = 0
  · subst ht0
    rw [Function.update_self] at ht
    exact hθ rfl cl w₀ p ht
  · rw [Function.update_of_ne (Ne.symm ht0)] at ht
    exact h.loads cl w₀ p ht

theorem Rooted.found_update (h : Rooted s) {t : Nat} {θ : Thread KAct KAct.Res Kern KCall Int}
    (hθ : ∀ cl w₀ p, θ = .run cl w₀ p → cl.isFile = true → HasNode s ∧ Guided s.world.toCore p)
    {w : Kern} {hist : Nat → List (KCall × Int)} {u : Nat} {p : KCode Int}
    (hu : InFile ⟨w,Function.update s.thr t θ,hist⟩ u p) : HasNode s ∧ Guided s.world.toCore p := by
  rcases InFile.update hu with ⟨_,hu⟩ | ⟨_,cl,w₀,heq,hfile⟩
  · exact h.found u p hu
  · exact hθ cl w₀ p heq hfile

/-- A file operation that is called finds the node. -/
theorem Rooted.called (h : Rooted s) {t : Nat} {cl : KCall} (hp : Raising dev s (.call t cl))
    (hfile : cl.isFile = true) : HasNode s ∧ Guided s.world.toCore cl.code := by
  refine ⟨?_,fun q _ => (show Provided q s.world.toCore cl.code from .code hfile).routed⟩
  have hnode := hp.2.1
  cases cl with
  | openFile f => exact hnode
  | write f ptr len => exact h.opened f hnode
  | ioctl f cmd arg => exact h.opened f hnode
  | mmap vmas => exact hnode.elim h.opened
  | _ => cases hfile

theorem Rooted.step (h : Rooted s) (hg : (sighting dev).Holds s g) (hp : Raising dev s l)
    (hs : (kernel c).step s l = some s') : Rooted s' := by
  have hkeep (hshown : HasNode s) : HasNode s' ∧ s'.world.toCore = s.world.toCore := by
    have hcore := h.core_eq hg hshown hs
    obtain ⟨p,hp⟩ := hshown
    exact ⟨⟨p,hcore ▸ hp⟩,hcore⟩
  have hopened (f : Nat) (ho : Opened s f) : HasNode s' := (hkeep (h.opened f ho)).1
  have hfound {p : KCode Int} (hf : HasNode s ∧ Guided s.world.toCore p) :
      HasNode s' ∧ Guided s'.world.toCore p := by
    obtain ⟨hshown,hcore⟩ := hkeep hf.1
    exact ⟨hshown,hcore ▸ hf.2⟩
  cases l with
  | call t cl =>
    simp only [Machine.step] at hs
    split at hs <;> cases hs
    refine ⟨h.loads_update (fun ht cl' _ _ heq => ?_),hopened,
      fun u p hu => hfound (h.found_update (fun cl' _ p heq hfile => ?_) hu)⟩
    · cases heq
      subst ht
      cases cl with
      | probe d => exact ⟨d,rfl⟩
      | remove d => exact absurd rfl (hp.2.2 0 d)
      | _ => exact absurd rfl hp.1.1
    · cases heq
      exact h.called hp hfile
  | act t x =>
    obtain ⟨cl,w₀,a,k,ht,⟨w,_,rfl⟩ | ⟨r,w,he,rfl⟩ | ⟨w,_,rfl⟩⟩ := Machine.actStep_cases hs
    · exact ⟨h.loads,hopened,fun u p hu => hfound (h.found u p hu)⟩
    · refine ⟨h.loads_update (fun h0 cl' _ _ heq => ?_),hopened,
        fun u p hu => hfound (h.found_update (fun cl' _ p heq hfile => ?_) hu)⟩
      · cases heq
        subst h0
        exact h.loads _ _ _ ht
      · cases heq
        obtain ⟨hshown,hguided⟩ := h.found t _ ⟨cl,w₀,ht,hfile⟩
        exact ⟨hshown,hguided.past (Kern.exec_done he)⟩
    · exact ⟨h.loads_update (fun _ _ _ _ heq => by cases heq),hopened,
        fun u p hu => hfound (h.found_update (fun _ _ _ heq _ => by cases heq) hu)⟩
  | ret t =>
    simp only [Machine.step] at hs
    split at hs <;> cases hs
    rename_i cl w₀ v ht
    refine ⟨h.loads_update (fun _ _ _ _ heq => by cases heq),fun f ho => ?_,
      fun u p hu => hfound (h.found_update (fun _ _ _ heq _ => by cases heq) hu)⟩
    -- an open that has just returned was under way
    obtain ⟨u,hu⟩ := ho
    have hu : (.openFile f,0) ∈ Function.update s.hist t ((cl,v) :: s.hist t) u := hu
    by_cases hut : u = t
    · subst hut
      rw [Function.update_self] at hu
      rcases List.mem_cons.mp hu with heq | hu
      · cases heq
        exact (hkeep (h.found u _ ⟨_,w₀,ht,rfl⟩).1).1
      · exact hopened f ⟨u,hu⟩
    · rw [Function.update_of_ne hut] at hu
      exact hopened f ⟨u,hu⟩
  | env e =>
    simp only [Machine.step,Option.map_eq_some_iff] at hs
    obtain ⟨w,_,rfl⟩ := hs
    exact ⟨h.loads,hopened,fun u p hu => hfound (h.found u p hu)⟩

/-- What holds along the runs in which nothing is removed. -/
theorem raising_reaches {bars : Nat → Bar} {w : World}
    (h : (kernel c).Reaches (Raising dev) (loaded bars w) s) :
    (∃ g, (sighting dev).Holds s g) ∧ Rooted s := by
  let I (s : KSystem) : Prop := InBalance dev s ∧ (∃ g, (sighting dev).Holds s g) ∧ Rooted s
  have hstart : I (loaded bars w) :=
    ⟨.start dev bars w,⟨_,sighting_start dev bars w⟩,(fun _ _ _ ht => nomatch ht),
      (fun f ho => by obtain ⟨_,ho⟩ := ho; cases ho),
      (fun t p hin => by obtain ⟨_,_,ht,_⟩ := hin; cases ht)⟩
  have hstep (s : KSystem) (l : KStep) (s' : KSystem) (hI : I s) (hp : Raising dev s l)
      (hs : (kernel c).step s l = some s') : I s' := by
    obtain ⟨hbal,⟨g,hg⟩,hroot⟩ := hI
    exact ⟨hbal.step hp.1 hs,
      (sightingOutline c dev).step hg ⟨hp.1,hbal,fun s' hs => hbal.step hp.1 hs⟩ hs,
      hroot.step hg hp hs⟩
  exact (h.along hstep hstart).1.2

end

/-- Until the card is removed, every file operation finds it in service, and none is about
to miss its registers, its `pdev` or its interrupt. -/
theorem opened_files_find_the_card (c : Cipher) (bars : Nat → Bar) (w : World) {dev : Nat}
    {s : KSystem} (h : (kernel c).Reaches (Raising dev) (loaded bars w) s) :
    (∀ t p, InFile s t p → ∃ q cd m n, Bound dev q cd m n s.world.toCore) ∧ UnbindSafe s := by
  obtain ⟨⟨g,hg⟩,hroot⟩ := raising_reaches h
  have hbound {t : Nat} {p : KCode Int} (hin : InFile s t p) :
      ∃ q cd m n, Bound dev q cd m n s.world.toCore := by
    obtain ⟨⟨cd,hcd⟩,_⟩ := hroot.found t p hin
    obtain ⟨cd,q,m,n,_,hb,_⟩ := hg.1.1.published hcd
    exact ⟨q,cd,m,n,hb⟩
  refine ⟨fun t p hin => hbound hin,fun t p hin a ha => ?_⟩
  obtain ⟨q,cd,m,n,hb⟩ := hbound hin
  have hirq : s.world.Holds .irq := by simp [Core.Holds,hb.stack,fullSet]
  obtain ⟨hmaps,hpdev⟩ := hb.standing.irq hirq
  refine ⟨fun r b hab hb' => ?_,fun _ => hpdev,fun _ _ => hirq⟩
  obtain ⟨cl,w₀,ht,hfile⟩ := hin
  obtain ⟨cl',w₀',k,ht'⟩ := Sys.next_eq ha
  rw [ht] at ht'
  cases ht'
  have hguided := (hroot.found t _ ⟨_,_,ht,hfile⟩).2 q hb.configspace
  by_cases hr : r = some q
  · rw [hr]
    exact hmaps
  · exact absurd (.here ⟨r,b,hab,hb',hr⟩) hguided

/-- The steps of a run in which thread 1 opens files and uses them. -/
def viaNode (s : KSystem) (l : KStep) : Bool :=
  decide (OneCard 7 s l) &&
  match l with
  | .call _ (.openFile _) => decide (s.world.Holds (.added 0))
  | .call _ (.write f _ _) | .call _ (.ioctl f _ _) =>
    (s.hist 1).any (fun e => match e with
      | (.openFile f',r) => decide (f' = f ∧ r = 0)
      | _ => false)
  | .call _ (.mmap _) | .call _ (.remove _) => false
  | _ => true

theorem viaNode_raising {s : KSystem} {l : KStep} (h : viaNode s l = true) : Raising 7 s l := by
  obtain ⟨hone,hvia⟩ := Bool.and_eq_true_iff.mp h
  refine ⟨of_decide_eq_true hone,?_,fun t d hl => by subst hl; cases hvia⟩
  have hopen {f : Nat} (h : ((s.hist 1).any (fun e => match e with
      | (.openFile f',r) => decide (f' = f ∧ r = 0)
      | _ => false)) = true) : Opened s f := by
    obtain ⟨⟨cl,r⟩,he,hf⟩ := List.any_eq_true.mp h
    cases cl with
    | openFile f' =>
      obtain ⟨rfl,rfl⟩ := of_decide_eq_true hf
      exact ⟨1,he⟩
    | _ => cases hf
  cases l with
  | call t cl =>
    cases cl with
    | openFile f => exact ⟨0,of_decide_eq_true hvia⟩
    | write f ptr len => exact hopen hvia
    | ioctl f cmd arg => exact hopen hvia
    | mmap vmas => cases hvia
    | _ => trivial
  | _ => trivial

/-- A probe fails at `cdev_add`, the next one succeeds, and a write on a file that was opened
then is about to reach the card. -/
theorem opened_files_find_the_card_live : ∃ s,
    (kernel (.bytewise fun _ _ x => x)).Reaches (Raising 7) (loaded oneBar bareWorld) s ∧
    waitqueueInits s.world.log = 2 ∧
    s.next 1 = some (.file (some 0) (.iowrite .live 0x0fffffff)) ∧ UnbindSafe s := by
  obtain ⟨s,hr,_,hp⟩ := Machine.exists_reaches (M := kernel (.bytewise fun _ _ x => x))
    (P := Raising 7) (n := 2) (b := viaNode) (s := loaded oneBar bareWorld)
    (p := fun s => decide (waitqueueInits s.world.log = 2 ∧
      s.next 1 = some (.file (some 0) (.iowrite .live 0x0fffffff))))
    (fun _ _ _ hb => viaNode_raising hb)
    (probeSteps 7 0 ++ unpublishSteps 0 ++ probeSteps 7 0 ++ publishSteps 0 ++
      [.call 1 (.openFile 0),.act 1 .ok,.ret 1,.call 1 (.write 0 0 1)] ++
      List.replicate 5 (.act 1 .ok))
    (fun _ _ => rfl) (by decide +kernel)
  obtain ⟨hi,hn⟩ := of_decide_eq_true hp
  exact ⟨s,hr,hi,hn,(opened_files_find_the_card _ _ _ hr).2⟩

end CryptoCard
