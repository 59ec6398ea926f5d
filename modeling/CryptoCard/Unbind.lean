import CryptoCard.Interrupts
import CryptoCard.Draining
set_option autoImplicit false

/-! The driver is unbound while file operations on handles opened before are in
progress. -/
namespace CryptoCard
open Memory Program Interleave Acquisitions

/-- One of the entry points behind an open handle. -/
def KCall.isFile : KCall → Bool
  | .openFile _ | .write _ _ _ | .ioctl _ _ _ | .mmap _ => true
  | _ => false

/-- The thread runs the file operation `p`. -/
def InFile (s : KSystem) (t : Nat) (p : KCode Int) : Prop :=
  ∃ cl w₀, s.thr t = .run cl w₀ p ∧ cl.isFile = true

/-- The PCI core removes card `d` once and probes none; the other threads make file
operations and take interrupts. -/
def Unbinding (d : Nat) (s : KSystem) : KStep → Prop
  | .call t (.remove e) => t = 0 ∧ e = d ∧ s.hist 0 = []
  | .call _ (.probe _) => False
  | .call t _ => t ≠ 0
  | _ => True

/-- The action waits on `wq`. -/
def KAct.sleeps : KAct → Bool
  | .file _ (.waitEvent _) => true
  | _ => false

/-- The action loads configspace or goes through it to the card. -/
def KAct.reachesCard : KAct → Bool
  | .getGlobal .configspace => true
  | .file _ a => a.touchesCard
  | _ => false

/-- The action goes through `pdev`. -/
def KAct.usesPdev : KAct → Bool
  | .pciResourceStart => true
  | .file _ a => a.usesPdev
  | _ => false

/-- The answers while the pointers in `xs` are NULL. -/
def Cleared (xs : List Global) : (a : KAct) → a.Res → Prop
  | .testGlobal x, r => x ∈ xs → r = false
  | _, _ => True

/-- The file operation `p` can still come to an action in `rd` when the pointers in `xs`
that it has not tested yet are cleared. -/
def Still (xs : List Global) (rd : KAct → Bool) (p : KCode Int) : Prop :=
  Needs (Cleared xs) (fun a => rd a = true) (fun _ => False) p

/-- Remove takes nothing away that a file operation past its test can still come to use,
and no file operation tests configspace between `free_irq` and its being cleared. -/
def InOrder (s : KSystem) : KStep → Prop
  | .act t _ =>
    (∀ dev, s.next t = some (.freeIrq dev) →
      ∀ u p, InFile s u p → ¬ Still [.configspace] KAct.sleeps p) ∧
    (∀ w, s.next t = some (.iounmap w) →
      ∀ u p, InFile s u p → ¬ Still [.configspace] KAct.reachesCard p) ∧
    (s.next t = some (.setGlobal .pdev none) →
      ∀ u p, InFile s u p → ¬ Still [.configspace,.pdev] KAct.usesPdev p) ∧
    (∀ p, InFile s t p → s.next t = some (.testGlobal .configspace) →
      s.world.Holds .irq ∨ s.world.mycryptodev .configspace = none)
  | _ => True

/-- No file operation is about to access the card through a configspace that is freed or
whose window is unmapped, to use a `pdev` that is NULL, or to go on sleeping on `wq`
after `free_irq`. -/
def UnbindSafe (s : KSystem) : Prop :=
  ∀ t p, InFile s t p → ∀ a, s.next t = some a →
    (∀ q b, a = .file q b → b.touchesCard = true → s.world.Maps q) ∧
    (a.usesPdev = true → s.world.mycryptodev .pdev ≠ none) ∧
    (a.sleeps = true → s.world.drv.task t = .asleep → s.world.Holds .irq)

/-- What remove owes while `q` is the published configspace. -/
def Core.Withdraws (q : Nat) (κ : Core) : KAct → Prop
  | .enter _ | .getGlobal _ | .devno | .start _ => True
  | .cdevDel _ | .kfreeCdev _ | .unregisterChrdevRegion _ | .freeIrq _ => True
  | .pciReleaseRegions _ | .pciDisableDevice _ | .setGlobal .cdev none => True
  | .iounmap _ => ¬ κ.Holds .irq
  | .kfreeSpace _ | .setGlobal .configspace none => ¬ κ.Maps (some q)
  | .setGlobal .pdev none => κ.mycryptodev .configspace = none
  | _ => False

/-- Remove keeps an account of the core, the other threads only visit. -/
@[reducible] def unbinding (q : Nat) : Discipline KAct KAct.Res where
  Ghost := Option Core
  ok
    | some κ, a => κ.Withdraws q a
    | none, a => a.visits = true
  next
    | some κ, a, r, γ' => ∃ κ', κ.Next a r κ' ∧ γ' = some κ'
    | none, _, _, γ' => γ' = none

section
variable {q : Nat} {κ κ' : Core} {p : Option Nat} {a : KAct}

theorem Core.Maps.of_release {e : Nat × Resource} (h : (κ.release e).Maps p) : κ.Maps p := by
  obtain ⟨s,hs,hspace,w,hw,hwindow⟩ := h
  exact ⟨s,hs,Core.holds_of_release hspace,w,hw,Core.holds_of_release hwindow⟩

/-- Other releases leave a mapping alone. -/
theorem Core.Maps.release {e : Nat × Resource} (h : κ.Maps p) (hs : ∀ s, e.2 ≠ .space s)
    (hw : ∀ w, e.2 ≠ .window w) : (κ.release e).Maps p := by
  obtain ⟨s,hp,hspace,w,hstart,hwindow⟩ := h
  exact ⟨s,hp,Core.holds_release hspace (Ne.symm (hs s)),w,hstart,
    Core.holds_release hwindow (Ne.symm (hw w))⟩

/-- What an action of remove can take away. -/
structure Withdrawn (q : Nat) (a : KAct) (κ κ' : Core) : Prop where
  irq : κ.Holds .irq → κ'.Holds .irq ∨ ∃ dev, a = .freeIrq dev
  irq_back : κ'.Holds .irq → κ.Holds .irq
  maps : κ.Maps (some q) → κ'.Maps (some q) ∨ (∃ w, a = .iounmap w) ∧ ¬ κ.Holds .irq
  maps_back : κ'.Maps (some q) → κ.Maps (some q)
  config : κ'.mycryptodev .configspace = κ.mycryptodev .configspace ∨
    κ'.mycryptodev .configspace = none ∧ ¬ κ.Maps (some q)
  pdev : κ'.mycryptodev .pdev = κ.mycryptodev .pdev ∨
    a = .setGlobal .pdev none ∧ κ.mycryptodev .configspace = none

namespace Withdrawn

theorem refl (q : Nat) (a : KAct) (κ : Core) : Withdrawn q a κ κ :=
  ⟨.inl,id,.inl,id,.inl rfl,.inl rfl⟩

theorem release {e : Nat × Resource} (hirq : e.2 = .irq → ∃ dev, a = .freeIrq dev)
    (hmap : κ.Maps (some q) → ((∀ s, e.2 ≠ .space s) ∧ ∀ w, e.2 ≠ .window w) ∨
      (∃ w, a = .iounmap w) ∧ ¬ κ.Holds .irq) : Withdrawn q a κ (κ.release e) where
  irq h := by
    by_cases hr : e.2 = .irq
    · exact .inr (hirq hr)
    · exact .inl (Core.holds_release h (Ne.symm hr))
  irq_back := Core.holds_of_release
  maps h := by
    rcases hmap h with ⟨hs,hw⟩ | hw
    · exact .inl (h.release hs hw)
    · exact .inr hw
  maps_back := Core.Maps.of_release
  config := .inl rfl
  pdev := .inl rfl

end Withdrawn

theorem Core.next_withdrawn {r : a.Res} (h : κ.Next a r κ') (hok : κ.Withdraws q a) :
    Withdrawn q a κ κ' := by
  cases a with
  | enter dev => cases h; exact ⟨.inl,id,.inl,id,.inl rfl,.inl rfl⟩
  | getGlobal x => obtain ⟨rfl,_⟩ := h; exact .refl _ _ _
  | devno => obtain ⟨rfl,_⟩ := h; exact .refl _ _ _
  | start p => obtain ⟨rfl,_⟩ := h; exact .refl _ _ _
  | cdevDel p =>
    obtain ⟨s,rfl,rfl⟩ := h
    exact .release (by simp) (fun _ => .inl (by simp))
  | kfreeCdev p =>
    cases h
    cases p with
    | none => exact .refl _ _ _
    | some s => exact .release (by simp) (fun _ => .inl (by simp))
  | unregisterChrdevRegion n => cases h; exact .release (by simp) (fun _ => .inl (by simp))
  | pciReleaseRegions dev => cases h; exact .release (by simp) (fun _ => .inl (by simp))
  | pciDisableDevice dev => cases h; exact .release (by simp) (fun _ => .inl (by simp))
  | freeIrq dev => cases h; exact .release (fun _ => ⟨dev,rfl⟩) (fun _ => .inl (by simp))
  | iounmap w =>
    cases h
    cases w with
    | none => exact .refl _ _ _
    | some w => exact .release (by simp) (fun _ => .inr ⟨⟨_,rfl⟩,hok⟩)
  | kfreeSpace p =>
    cases h
    cases p with
    | none => exact .refl _ _ _
    | some s => exact .release (by simp) (fun hmaps => absurd hmaps hok)
  | setGlobal x p =>
    cases h
    cases p with
    | some p => cases x <;> exact hok.elim
    | none =>
      cases x with
      | cdev => exact ⟨.inl,id,.inl,id,.inl rfl,.inl rfl⟩
      | configspace => exact ⟨.inl,id,.inl,id,.inr ⟨rfl,hok⟩,.inl rfl⟩
      | pdev => exact ⟨.inl,id,.inl,id,.inl rfl,.inr ⟨rfl,hok⟩⟩
  | _ => exact hok.elim

end

section
variable {α : Type} {q d c w n : Nat} {κ κ₀ κ' : Core} {Q : α → Option Core → Prop}

theorem remover_step {a : KAct} {k : a.Res → KCode α} (hok : κ.Withdraws q a)
    (h : ∀ r κ', κ.Next a r κ' → wp (unbinding q) (k r) Q (some κ')) :
    wp (unbinding q) (katom a >>= k) Q (some κ) :=
  ⟨hok,fun r _ ⟨κ',hn,hγ⟩ => hγ ▸ h r κ' hn⟩

/-- One action of remove whose effect does not depend on the answer. -/
theorem remover_do {a : KAct} {k : a.Res → KCode α} (hok : κ.Withdraws q a)
    (hn : ∀ r κ'', κ.Next a r κ'' → κ'' = κ') (h : ∀ r, wp (unbinding q) (k r) Q (some κ')) :
    wp (unbinding q) (katom a >>= k) Q (some κ) :=
  remover_step hok (fun r κ'' hr => hn r κ'' hr ▸ h r)

theorem remover_give {a : KAct} {e : Nat × Resource} {k : a.Res → KCode α}
    (hg : κ.gives a = some e) (hok : κ.Withdraws q a)
    (h : ∀ r, wp (unbinding q) (k r) Q (some (κ.release e))) :
    wp (unbinding q) (katom a >>= k) Q (some κ) :=
  remover_do hok (fun _ _ hn => Core.next_gives hg hn) h

/-- Without its window configspace is not mapped. -/
theorem Leaving.not_maps {rest : List (Nat × Resource)} (hb : Bound d q c w n κ₀)
    (h : Leaving κ₀ rest κ) (hw : .window w ∉ rest.map Prod.snd) : ¬ κ.Maps (some q) := by
  intro hmaps
  obtain ⟨s,hs,_,w',hw',hheld⟩ := hmaps
  cases Option.mem_some_iff.mp hs
  rw [h.spaces,hb.start] at hw'
  cases Option.mem_some_iff.mp hw'
  exact h.not_holds hw hheld

theorem removeFree_withdraws (hb : Bound d q c w n κ₀)
    (h : Leaving κ₀ [(d,.cdev c),(d,.space q)] κ) :
    wp (unbinding q) (do
      let cdev ← katom (.getGlobal .cdev)
      katom (.kfreeCdev cdev)
      let space ← katom (.getGlobal .configspace)
      katom (.kfreeSpace space)
      katom (.setGlobal .configspace none)
      katom (.setGlobal .cdev none)
      katom (.setGlobal .pdev none)
      return (0 : Int)) (fun _ _ => True) (some κ) := by
  refine remover_step trivial (fun r κ' hr => ?_)
  obtain ⟨rfl,rfl⟩ := hr
  rw [h.globals,hb.cdev]
  refine remover_give (congrArg some h.acquired) trivial (fun _ => ?_)
  refine remover_step trivial (fun r κ'' hr => ?_)
  obtain ⟨rfl,rfl⟩ := hr
  have hlast := h.pop
  rw [hlast.globals,hb.configspace]
  refine remover_give (congrArg some hlast.acquired) (hlast.not_maps hb (by simp)) (fun _ => ?_)
  refine remover_do (hlast.pop.not_maps hb (by simp)) (fun _ _ hn => hn) (fun _ => ?_)
  refine remover_do trivial (fun _ _ hn => hn) (fun _ => ?_)
  exact remover_do rfl (fun _ _ hn => hn) (fun _ => trivial)

/-- Remove takes the interrupt first, then the window, then the pointers to them. -/
theorem cryptocardRemove_withdraws (hb : Bound d q c w n κ) :
    wp (unbinding q) (cryptocardRemove d) (fun _ _ => True) (some κ) := by
  have h₀ : Leaving κ (held κ.log) κ := ⟨hb.lifo,⟨[],rfl,rfl⟩,rfl,rfl,rfl⟩
  rw [hb.stack] at h₀
  refine remover_step trivial (fun r κ' hr => ?_)
  obtain ⟨rfl,rfl⟩ := hr
  rw [hb.cdev]
  refine remover_give (congrArg some h₀.acquired) trivial (fun _ => ?_)
  have h₁ := h₀.pop
  refine remover_step trivial (fun r κ'' hr => ?_)
  obtain ⟨rfl,rfl⟩ := hr
  rw [h₁.devno,hb.devno]
  refine remover_give (congrArg some h₁.acquired) trivial (fun _ => ?_)
  refine remover_give rfl trivial (fun _ => ?_)
  have h₃ := h₁.pop.pop
  refine remover_step trivial (fun r κ'' hr => ?_)
  obtain ⟨rfl,rfl⟩ := hr
  rw [h₃.globals,hb.configspace]
  refine remover_step trivial (fun r κ'' hr => ?_)
  obtain ⟨rfl,s,hs,rfl⟩ := hr
  cases Option.mem_some_iff.mp hs
  rw [h₃.spaces,hb.start]
  refine remover_give (congrArg some h₃.acquired) (h₃.not_holds (by simp)) (fun _ => ?_)
  refine remover_give rfl trivial (fun _ => ?_)
  refine remover_give rfl trivial (fun _ => ?_)
  exact removeFree_withdraws hb h₃.pop.pop.pop

end

/-- The answers while configspace is published at `q`. -/
def Routed (q : Nat) : (a : KAct) → a.Res → Prop
  | .getGlobal .configspace, r => r = some q
  | _, _ => True

/-- The action goes to the card by another way than `q`. -/
def KAct.Strays (q : Nat) (a : KAct) : Prop :=
  ∃ p b, a = .file p b ∧ b.touchesCard = true ∧ p ≠ some q

/-- The file operation `p` will not miss what has been taken away from the core. -/
structure Provided (q : Nat) (κ : Core) (p : KCode Int) : Prop where
  sleeps : ¬ κ.Holds .irq → ¬ Still [.configspace] KAct.sleeps p
  reaches : ¬ κ.Maps (some q) → ¬ Still [.configspace] KAct.reachesCard p
  pdev : κ.mycryptodev .pdev = none → ¬ Still [.configspace,.pdev] KAct.usesPdev p
  routed : ¬ Needs (Routed q) (KAct.Strays q) (fun _ => False) p

/-- What is there while the interrupt is requested, and while configspace is published. -/
structure Standing (q : Nat) (κ : Core) : Prop where
  irq : κ.Holds .irq → κ.Maps (some q) ∧ κ.mycryptodev .pdev ≠ none
  config : κ.mycryptodev .configspace = some q ∨
    κ.mycryptodev .configspace = none ∧ ¬ κ.Maps (some q)

section
variable {q : Nat} {κ κ' : Core} {a : KAct}

/-- Ioctls go nowhere near the card. -/
def Act.quiet (a : Act) : Bool :=
  !a.touchesCard && !a.usesPdev && decide (a ≠ .configspace)

theorem attach_quiet {α : Type} (space : Option Nat) {p : Code α}
    (h : Always (fun a => a.quiet = true) p) :
    Always (fun a => ∃ b, a = .file space b ∧ b.quiet = true) (attach space p) := by
  induction p with
  | ret x => trivial
  | act a k ih =>
    have ha : a ≠ .configspace := by
      intro hc
      subst hc
      exact absurd h.1 (by decide)
    rw [attach_act space k ha]
    exact ⟨⟨a,rfl,h.1⟩,fun r => ih r (h.2 r)⟩

theorem pciUnlockedIoctl_quiet (f cmd : Nat) (arg : List Byte) :
    Always (fun a => a.quiet = true) (pciUnlockedIoctl f cmd arg) := by
  unfold pciUnlockedIoctl
  cases ioctlByte arg <;> simp [Act.quiet,Act.touchesCard,Act.usesPdev]

theorem KAct.Strays.reaches (h : a.Strays q) : a.reachesCard = true := by
  obtain ⟨p,b,rfl,hb,_⟩ := h
  exact hb

theorem KAct.sleeps_reaches (h : a.sleeps = true) : a.reachesCard = true := by
  cases a with
  | file p b =>
    cases b with
    | waitEvent k => rfl
    | _ => cases h
  | _ => cases h

/-- A program that goes nowhere near the card has nothing to miss but `pdev`. -/
theorem Provided.away {p : KCode Int} (h : Always (fun a => a.reachesCard = false) p)
    (hp : κ.mycryptodev .pdev = none → ¬ Still [.configspace,.pdev] KAct.usesPdev p) :
    Provided q κ p where
  sleeps _ := h.not_needs (fun a ha hs => by rw [KAct.sleeps_reaches hs] at ha; cases ha)
  reaches _ := h.not_needs (fun a ha hr => by rw [ha] at hr; cases hr)
  pdev := hp
  routed := h.not_needs (fun a ha hs => by rw [hs.reaches] at ha; cases ha)

theorem attach_routed {α : Type} (p : Code α) :
    ¬ Needs (Routed q) (KAct.Strays q) (fun _ => False) (attach (some q) p) := by
  induction p with
  | ret x => exact fun h => nomatch h
  | act a k ih =>
    by_cases ha : a = .configspace
    · subst ha
      intro h
      cases h with
      | here h => exact absurd h.reaches (by simp [KAct.reachesCard])
      | later r _ _ h =>
        cases r with
        | false => exact ih false h
        | true =>
          cases h with
          | here h =>
            obtain ⟨_,_,heq,_⟩ := h
            cases heq
          | later space _ hs h =>
            cases hs
            exact ih true h
    · rw [attach_act _ k ha]
      intro h
      cases h with
      | here h =>
        obtain ⟨p,b,heq,_,hp⟩ := h
        cases heq
        exact hp rfl
      | later r _ _ h => exact ih r h

/-- A write tests configspace before anything else. -/
theorem Provided.write (f ptr len : Nat) : Provided q κ (attach none (sysWrite f ptr len)) := by
  have hstill (xs : List Global) (rd : KAct → Bool) (hx : .configspace ∈ xs)
      (hrd : ∀ a, rd a = true → a ≠ .testGlobal .configspace ∧
        a ≠ .file none (.privateData f)) :
      ¬ Still xs rd (attach none (sysWrite f ptr len)) := by
    intro h
    cases h with
    | here h => exact (hrd _ h).2 rfl
    | later r _ _ h =>
      cases r with
      | false => cases h
      | true =>
        cases h with
        | here h => exact (hrd _ h).1 rfl
        | later r _ hr h =>
          cases (show r = false from hr hx)
          cases h
  refine ⟨fun _ => hstill _ _ (by simp) ?_,fun _ => hstill _ _ (by simp) ?_,
    fun _ => hstill _ _ (by simp) ?_,fun h => ?_⟩
  · rintro a ha
    constructor <;> (rintro rfl; cases ha)
  · rintro a ha
    constructor <;> (rintro rfl; cases ha)
  · rintro a ha
    constructor <;> (rintro rfl; cases ha)
  · cases h with
    | here h => exact absurd h.reaches (by simp [KAct.reachesCard,Act.touchesCard])
    | later r _ _ h =>
      cases r with
      | false => cases h
      | true =>
        cases h with
        | here h => exact absurd h.reaches (by simp [KAct.reachesCard])
        | later r _ _ h =>
          cases r with
          | false => cases h
          | true =>
            cases h with
            | here h =>
              obtain ⟨_,_,heq,_⟩ := h
              cases heq
            | later space _ hs h =>
              cases hs
              exact attach_routed _ h

theorem mmapFile_away (vmas : Vma Unit) :
    Always (fun a => a.reachesCard = false) (mmapFile vmas) := by
  refine ⟨rfl,fun r => ?_⟩
  cases r with
  | true => exact ⟨rfl,fun _ => ⟨rfl,fun _ => trivial⟩⟩
  | false => trivial

theorem Provided.mmap (vmas : Vma Unit) : Provided q κ (mmapFile vmas) := by
  refine .away (mmapFile_away vmas) (fun _ h => ?_)
  cases h with
  | here h => cases h
  | later r _ hr h =>
    cases (show r = false from hr (by simp))
    cases h

theorem Provided.ioctl (f cmd : Nat) (arg : List Byte) :
    Provided q κ (attach none (pciUnlockedIoctl f cmd arg)) := by
  have h := attach_quiet none (pciUnlockedIoctl_quiet f cmd arg)
  have hquiet {b : Act} (hb : b.quiet = true) : b.touchesCard = false ∧ b.usesPdev = false := by
    simp only [Act.quiet,Bool.and_eq_true,Bool.not_eq_true'] at hb
    exact hb.1
  refine .away (h.mono ?_) (fun _ => h.not_needs ?_)
  · rintro _ ⟨b,rfl,hb⟩
    exact (hquiet hb).1
  · rintro _ ⟨b,rfl,hb⟩ hp
    have hp : b.usesPdev = true := hp
    rw [(hquiet hb).2] at hp
    cases hp

/-- File operations that are called now are provided for. -/
theorem Provided.code {cl : KCall} (h : cl.isFile = true) : Provided q κ cl.code := by
  cases cl with
  | openFile f =>
    have hopen : Always (fun a => a = .kzallocJob f) (openFile f) :=
      ⟨rfl,fun r => by cases r <;> trivial⟩
    refine .away (hopen.mono (by rintro _ rfl; rfl)) (fun _ => hopen.not_needs ?_)
    rintro _ rfl hp
    cases hp
  | write f ptr len => exact .write f ptr len
  | ioctl f cmd arg => exact .ioctl f cmd arg
  | mmap vmas => exact .mmap vmas
  | _ => cases h

/-- What remove takes away in order nobody misses. -/
theorem Provided.withdrawn {p : KCode Int} (h : Provided q κ p) (hw : Withdrawn q a κ κ')
    (hirq : (∃ dev, a = .freeIrq dev) → ¬ Still [.configspace] KAct.sleeps p)
    (hmap : (∃ w, a = .iounmap w) → ¬ Still [.configspace] KAct.reachesCard p)
    (hpdev : a = .setGlobal .pdev none → ¬ Still [.configspace,.pdev] KAct.usesPdev p) :
    Provided q κ' p where
  sleeps hi := by
    by_cases hk : κ.Holds .irq
    · exact hirq ((hw.irq hk).resolve_left hi)
    · exact h.sleeps hk
  reaches hm := by
    by_cases hk : κ.Maps (some q)
    · exact hmap ((hw.maps hk).resolve_left hm).1
    · exact h.reaches hk
  pdev hn := by
    rcases hw.pdev with hp | hp
    · exact h.pdev (hp ▸ hn)
    · exact hpdev hp.1
  routed := h.routed

theorem Standing.withdrawn (h : Standing q κ) (hw : Withdrawn q a κ κ') : Standing q κ' where
  irq hi := by
    have hk := hw.irq_back hi
    obtain ⟨hmaps,hpdev⟩ := h.irq hk
    refine ⟨(hw.maps hmaps).resolve_right (fun hu => hu.2 hk),?_⟩
    rcases hw.pdev with hp | ⟨_,hc⟩
    · rw [hp]
      exact hpdev
    · rcases h.config with hq | ⟨_,hq⟩
      · rw [hq] at hc
        cases hc
      · exact absurd hmaps hq
  config := by
    rcases hw.config with hc | ⟨hc,hm⟩
    · rcases h.config with hq | ⟨hq,hm⟩
      · exact .inl (hc.trans hq)
      · exact .inr ⟨hc.trans hq,fun hmaps => hm (hw.maps_back hmaps)⟩
    · exact .inr ⟨hc,fun hmaps => hm (hw.maps_back hmaps)⟩

theorem Cleared.of_next {xs : List Global} {r : a.Res} (hn : κ.Next a r κ)
    (hx : ∀ x ∈ xs, a = .testGlobal x → κ.mycryptodev x = none) : Cleared xs a r := by
  cases a with
  | testGlobal x =>
    intro hmem
    rw [hn.2,hx x hmem rfl]
    rfl
  | _ => trivial

/-- An action of a file operation that does not test configspace at the wrong time. -/
theorem Provided.next {r : a.Res} {k : a.Res → KCode Int} (hs : Standing q κ)
    (h : Provided q κ (.act a k)) (hn : κ.Next a r κ)
    (htest : a = .testGlobal .configspace → κ.Holds .irq ∨ κ.mycryptodev .configspace = none) :
    Provided q κ (k r) := by
  have hclear (hirq : ¬ κ.Holds .irq) (x : Global) (hx : x ∈ [Global.configspace])
      (ha : a = .testGlobal x) : κ.mycryptodev x = none := by
    cases List.mem_singleton.mp hx
    exact (htest ha).resolve_left hirq
  refine ⟨fun hi => ?_,fun hm => ?_,fun hp => ?_,?_⟩
  · exact Needs.past (h.sleeps hi) (.of_next hn (hclear hi))
  · exact Needs.past (h.reaches hm) (.of_next hn (hclear (fun hi => hm (hs.irq hi).1)))
  · refine Needs.past (h.pdev hp) (.of_next hn (fun x hx ha => ?_))
    rcases List.mem_cons.mp hx with rfl | hx
    · exact hclear (fun hi => (hs.irq hi).2 hp) _ (List.mem_singleton_self _) ha
    · cases List.mem_singleton.mp hx
      exact hp
  · refine Needs.past h.routed ?_
    unfold Routed
    split
    · -- a load after the pointer was cleared would be one that remove did not wait for
      rcases hs.config with hq | ⟨_,hm⟩
      · exact hn.2.trans hq
      · exact absurd (.here rfl) (h.reaches hm)
    · trivial

end

/-- The assertions: thread 0 accounts for the core, and every file operation is provided for. -/
@[reducible] def sheltered (d q : Nat) : Assertions (unbinding q) Kern KCall Int where
  J g s := g 0 = some s.world.toCore ∧ (∀ t, t ≠ 0 → g t = none) ∧
    Standing q s.world.toCore ∧ ∀ t p, InFile s t p → Provided q s.world.toCore p
  Idle t hs γ := t = 0 → hs = [] → ∃ κ c w n, γ = some κ ∧ Bound d q c w n κ
  Began t cl _ _ _ := t = 0 → cl.isFile = false
  Post _ _ _ _ _ := True
  Dead _ := True
  Link _ _ := True

section
variable {d q t : Nat} {s : KSystem} {κ : Core}

theorem Bound.standing {c w n : Nat} (h : Bound d q c w n κ) : Standing q κ where
  irq _ := by
    refine ⟨⟨q,rfl,?_,w,h.start,?_⟩,by rw [h.pdev]; exact fun hn => nomatch hn⟩
    all_goals
      unfold Core.Holds
      rw [h.stack]
      simp [fullSet]
  config := .inl h.configspace

/-- After a step of thread `t` the other file operations run what they ran before. -/
theorem InFile.update {θ : Thread KAct KAct.Res Kern KCall Int} {w : Kern}
    {hist : Nat → List (KCall × Int)} {u : Nat} {p : KCode Int}
    (h : InFile ⟨w,Function.update s.thr t θ,hist⟩ u p) :
    (u ≠ t ∧ InFile s u p) ∨ (u = t ∧ ∃ cl w₀, θ = .run cl w₀ p ∧ cl.isFile = true) := by
  obtain ⟨cl,w₀,hu,hfile⟩ := h
  by_cases hut : u = t
  · subst hut
    exact .inr ⟨rfl,cl,w₀,by simpa using hu,hfile⟩
  · exact .inl ⟨hut,cl,w₀,by simpa [hut] using hu,hfile⟩

end

theorem shelteredOutline (c : Cipher) (d q : Nat) :
    Outline (kernel c) (fun s l => Unbinding d s l ∧ InOrder s l) (sheltered d q) where
  call {s g t cl} h hp ht := by
    obtain ⟨hg,hothers,hstand,hfits⟩ := h.1
    have hfits' : ∀ u p, InFile ⟨s.world,Function.update s.thr t (.run cl s.world cl.code),s.hist⟩
        u p → Provided q s.world.toCore p := by
      intro u p hu
      rcases InFile.update hu with ⟨_,hu⟩ | ⟨_,cl',w₀,heq,hfile⟩
      · exact hfits u p hu
      · cases heq
        exact .code hfile
    by_cases ht0 : t = 0
    · subst ht0
      have hidle := h.2 0
      rw [ht] at hidle
      cases cl with
      | remove e =>
        obtain ⟨_,rfl,hhist⟩ := hp.1
        obtain ⟨κ,cd,w,n,hκ,hb⟩ := hidle rfl hhist
        rw [hg] at hκ
        cases hκ
        refine ⟨some s.world.toCore,⟨?_,?_,hstand,hfits'⟩,fun _ => rfl,?_⟩
        · exact Function.update_self _ _ _
        · intro u hu
          rw [Function.update_of_ne hu]
          exact hothers u hu
        · refine remover_do trivial (fun _ _ hn => hn) (fun _ => ?_)
          exact cryptocardRemove_withdraws
            (⟨hb.lifo,hb.stack,hb.cdev,hb.configspace,hb.pdev,hb.devno,hb.start⟩ :
              Bound e q cd w n { s.world.toCore with card := e })
      | probe e => exact hp.1.elim
      | _ => exact absurd rfl hp.1
    · refine ⟨none,⟨?_,?_,hstand,hfits'⟩,fun h0 => absurd h0 ht0,?_⟩
      · rw [Function.update_of_ne (Ne.symm ht0)]
        exact hg
      · intro u hu
        by_cases hut : u = t
        · subst hut
          exact Function.update_self _ _ _
        · rw [Function.update_of_ne hut]
          exact hothers u hu
      · have hv : Always (fun a => a.visits = true) cl.code := by
          cases cl with
          | probe e => exact hp.1.elim
          | remove e => exact absurd hp.1.1 ht0
          | irq ours => exact attach_visits _ _
          | openFile f => exact openFile_visits f
          | write f ptr len => exact attach_visits _ _
          | ioctl f cmd arg => exact attach_visits _ _
          | mmap vmas => exact mmapFile_visits vmas
        exact hv.wp (fun _ ha => ha) (fun _ _ _ _ hγ => hγ)
  ret _ _ _ ht hnil := nomatch hnil
  leave {s g t cl w₀ v} h ht := by
    obtain ⟨hg,hothers,hstand,hfits⟩ := h.1
    refine ⟨hg,hothers,hstand,fun u p hu => ?_⟩
    rcases InFile.update hu with ⟨_,hu⟩ | ⟨_,_,_,heq,_⟩
    · exact hfits u p hu
    · cases heq
  link_refl _ := trivial
  link _ _ := trivial
  done {s g t x cl w₀ a k r w} h hp ht he := by
    obtain ⟨hg,hothers,hstand,hfits⟩ := h.1
    have hnext : s.next t = some a := by simp [Sys.next,ht]
    have hcore := Kern.exec_done he
    obtain ⟨_,hirq,hmap,hpdev,htest⟩ := hp
    by_cases ht0 : t = 0
    · subst ht0
      have hok := h.ok ht
      rw [hg] at hok
      have hw := Core.next_withdrawn hcore hok
      refine ⟨some w.toCore,by rw [hg]; exact ⟨_,hcore,rfl⟩,Function.update_self _ _ _,?_,
        hstand.withdrawn hw,fun u p hu => ?_⟩
      · intro u hu
        rw [Function.update_of_ne hu]
        exact hothers u hu
      · rcases InFile.update hu with ⟨_,hold⟩ | ⟨_,_,_,heq,hfile⟩
        · refine (hfits u p hold).withdrawn hw ?_ ?_ ?_
          · rintro ⟨dev,rfl⟩
            exact hirq dev hnext u p hold
          · rintro ⟨w,rfl⟩
            exact hmap w hnext u p hold
          · rintro rfl
            exact hpdev hnext u p hold
        · cases heq
          obtain ⟨_,hb,_⟩ := h.began ht
          rw [hb rfl] at hfile
          cases hfile
    · have hnone := hothers t ht0
      have hv : a.visits = true := by
        have hok := h.ok ht
        rw [hnone] at hok
        exact hok
      have hsame := Core.visits_next hv hcore
      rw [hsame] at hcore
      refine ⟨none,by rw [hnone],?_,?_,?_,fun u p hu => ?_⟩
      · rw [Function.update_of_ne (Ne.symm ht0),hg,hsame]
      · intro u hu
        by_cases hut : u = t
        · subst hut
          exact Function.update_self _ _ _
        · rw [Function.update_of_ne hut]
          exact hothers u hu
      · rw [hsame]
        exact hstand
      · rw [hsame]
        rcases InFile.update hu with ⟨_,hu⟩ | ⟨_,_,_,heq,hfile⟩
        · exact hfits u p hu
        · cases heq
          have hin : InFile s t (.act a k) := ⟨cl,w₀,ht,hfile⟩
          exact (hfits t _ hin).next hstand hcore (fun hc => htest _ hin (hc ▸ hnext))
  stay {s g t x cl w₀ a k w} h _ _ he := by
    obtain ⟨hg,hothers,hstand,hfits⟩ := h.1
    have hsame := Kern.exec_open_core he (.inl rfl)
    refine ⟨by rw [hsame]; exact hg,hothers,by rw [hsame]; exact hstand,fun u p hu => ?_⟩
    rw [hsame]
    exact hfits u p hu
  oops {s g t x cl w₀ a k w} h _ _ he := by
    obtain ⟨hg,hothers,hstand,hfits⟩ := h.1
    have hsame := Kern.exec_open_core he (.inr rfl)
    refine ⟨trivial,by rw [hsame]; exact hg,hothers,by rw [hsame]; exact hstand,fun u p hu => ?_⟩
    rw [hsame]
    rcases InFile.update hu with ⟨_,hu⟩ | ⟨_,_,_,heq,_⟩
    · exact hfits u p hu
    · cases heq
  env {s g e w} h _ he := by
    obtain ⟨u,_,rfl⟩ := Option.map_eq_some_iff.mp he
    exact h.1

/-- The driver is bound and nobody is in a call. -/
def bound (k : Kern) : KSystem := ⟨k,fun _ => .idle,fun _ => []⟩

theorem sheltered_start {d q cd w n : Nat} {k : Kern} (hb : Bound d q cd w n k.toCore) :
    (sheltered d q).Holds (bound k) (fun t => if t = 0 then some k.toCore else none) := by
  refine ⟨⟨rfl,fun t ht => if_neg ht,hb.standing,?_⟩,?_⟩
  · rintro t p ⟨_,_,ht,_⟩
    cases ht
  · rintro t rfl _
    exact ⟨_,cd,w,n,rfl,hb⟩

/-- Remove is safe for open handles as long as it takes nothing away that a file operation
past its test can still come to use, and none tests configspace in the middle of it. -/
theorem remove_spares_file_operations (c : Cipher) (k : Kern) {d q cd w n : Nat}
    (hb : Bound d q cd w n k.toCore) {s : KSystem}
    (h : (kernel c).Reaches (fun s l => Unbinding d s l ∧ InOrder s l) (bound k) s) :
    UnbindSafe s := by
  obtain ⟨g,hg⟩ := (shelteredOutline c d q).reaches (sheltered_start hb) h
  obtain ⟨_,_,hstand,hfits⟩ := hg.1
  intro t p hp a ha
  obtain ⟨cl,w₀,ht,hfile⟩ := id hp
  obtain ⟨cl',w₀',k',ht'⟩ := Sys.next_eq ha
  rw [ht] at ht'
  cases ht'
  have hfit := hfits t _ hp
  refine ⟨?_,fun hpdev hnone => hfit.pdev hnone (.here hpdev),fun hsleep _ => ?_⟩
  · rintro p b rfl hb
    have hm : s.world.Maps (some q) := by
      by_contra hm
      exact hfit.reaches hm (.here hb)
    by_cases hpq : p = some q
    · rw [hpq]
      exact hm
    · exact absurd (.here ⟨p,b,rfl,hb,hpq⟩) hfit.routed
  · by_contra hirq
    exact hfit.sleeps hirq (.here hsleep)

instance (d : Nat) (s : KSystem) : DecidablePred (Unbinding d s)
  | .call _ (.remove _) => inferInstanceAs (Decidable (_ ∧ _))
  | .call _ (.probe _) => inferInstanceAs (Decidable False)
  | .call _ (.irq _) | .call _ (.openFile _) | .call _ (.write _ _ _) =>
    inferInstanceAs (Decidable (_ ≠ _))
  | .call _ (.ioctl _ _ _) | .call _ (.mmap _) => inferInstanceAs (Decidable (_ ≠ _))
  | .act _ _ | .ret _ | .env _ => inferInstanceAs (Decidable True)

/-- Card 7 in service, every one of its resources at address 0. -/
def cardInService : Kern where
  card := 7
  log := (fullSet 0 0 0 0).map (fun r => .acquire (7,r))
  mycryptodev
    | .pdev => some 7
    | _ => some 0
  devno := 0
  spaces _ := ⟨some 0,1048576⟩
  bars := oneBar
  drv := bareWorld

theorem cardInService_bound : Bound 7 0 0 0 0 cardInService.toCore :=
  ⟨⟨⟩,rfl,rfl,rfl,rfl,rfl,rfl⟩

/-- The thread is in a file operation. -/
def Operates : Thread KAct KAct.Res Kern KCall Int → Bool
  | .run cl _ _ => cl.isFile
  | _ => false

/-- The thread is in no file operation but perhaps in an mmap. -/
def MapsOnly : Thread KAct KAct.Res Kern KCall Int → Bool
  | .run (.mmap _) _ _ => true
  | θ => !Operates θ

/-- Remove takes the interrupt and the window away while no file operations but mmaps are in
progress, and leaves `pdev`; nobody tests configspace in the middle of it. -/
def apart (s : KSystem) (l : KStep) : Bool :=
  decide (Unbinding 7 s l) &&
  match l with
  | .act t _ =>
    match s.next t with
    | some (.freeIrq _) | some (.iounmap _) =>
      MapsOnly (s.thr 0) && MapsOnly (s.thr 1) && MapsOnly (s.thr 2)
    | some (.setGlobal .pdev _) => false
    | some (.testGlobal .configspace) => decide (s.world.Holds .irq)
    | _ => true
  | _ => true

/-- What an mmap keeps away from. -/
def KCall.keepsAway : KCall → KAct → Prop
  | .mmap _, a => a.reachesCard = false
  | _, _ => True

theorem keepsAway_code (cl : KCall) : Always cl.keepsAway cl.code := by
  cases cl with
  | mmap vmas => exact mmapFile_away vmas
  | _ => exact always_of_forall (fun _ => trivial) _

theorem apart_inOrder {s : KSystem} {l : KStep} (hq : s.Quiet 3)
    (haway : ∀ t cl w₀ p, s.thr t = .run cl w₀ p → Always cl.keepsAway p)
    (h : apart s l = true) : Unbinding 7 s l ∧ InOrder s l := by
  obtain ⟨hu,ha⟩ := Bool.and_eq_true_iff.mp h
  refine ⟨of_decide_eq_true hu,?_⟩
  cases l with
  | act t x =>
    have hmaps (hm : (MapsOnly (s.thr 0) && MapsOnly (s.thr 1) && MapsOnly (s.thr 2)) = true)
        (u : Nat) (p : KCode Int) (hin : InFile s u p) :
        ¬ Still [.configspace] KAct.reachesCard p := by
      obtain ⟨cl,w₀,hu,hfile⟩ := hin
      have honly : MapsOnly (.run cl w₀ p) = true := by
        simp only [Bool.and_eq_true] at hm
        match u with
        | 0 => rw [← hu]; exact hm.1.1
        | 1 => rw [← hu]; exact hm.1.2
        | 2 => rw [← hu]; exact hm.2
        | u + 3 => rw [hq (u+3) (by omega)] at hu; cases hu
      cases cl with
      | mmap vmas =>
        exact (haway u _ _ _ hu).not_needs (fun a ha hr => Bool.false_ne_true (ha.symm.trans hr))
      | write f ptr len | ioctl f cmd arg | openFile f => cases honly
      | _ => cases hfile
    refine ⟨fun dev hn u p hin hs => ?_,fun w hn => ?_,fun hn => ?_,fun p _ hn => ?_⟩ <;>
      simp only [hn] at ha
    · exact hmaps ha u p hin (hs.mono (fun a => KAct.sleeps_reaches))
    · exact hmaps ha
    · cases ha
    · exact .inl (of_decide_eq_true ha)
  | _ => trivial

theorem apart_reaches {c : Cipher} {s : KSystem}
    (h : (kernel c).Reaches (fun s l => s.Quiet 3 ∧ apart s l = true) (bound cardInService) s) :
    (kernel c).Reaches (fun s l => Unbinding 7 s l ∧ InOrder s l) (bound cardInService) s :=
  h.strengthen (fun _ _ hr hp => apart_inOrder hp.1
    (hr.always keepsAway_code (fun _ _ _ _ ht => nomatch ht)) hp.2)

/-- A write is called before remove and is about to access the card when its node and number
are gone; it ends before remove goes on, and then an mmap is about to use `pdev` when
everything else has been torn down. -/
theorem remove_spares_file_operations_apart : ∃ s s',
    (kernel (.bytewise fun _ _ x => x)).Reaches (fun s l => Unbinding 7 s l ∧ InOrder s l)
      (bound cardInService) s ∧
    s.next 0 = some (.freeIrq 7) ∧ s.next 1 = some (.file (some 0) (.iowrite .live 0x0fffffff)) ∧
    UnbindSafe s ∧
    (kernel (.bytewise fun _ _ x => x)).Reaches (fun s l => Unbinding 7 s l ∧ InOrder s l)
      (bound cardInService) s' ∧
    s'.next 0 = some (.setGlobal .pdev none) ∧ s'.next 2 = some .pciResourceStart ∧
    UnbindSafe s' := by
  obtain ⟨s,hr,_,hp⟩ := Machine.exists_reaches (M := kernel (.bytewise fun _ _ x => x))
    (P := fun s l => s.Quiet 3 ∧ apart s l = true) (n := 3) (b := apart)
    (s := bound cardInService)
    (p := fun s => decide (s.next 0 = some (.freeIrq 7) ∧
      s.next 1 = some (.file (some 0) (.iowrite .live 0x0fffffff))))
    (fun _ _ hq hb => ⟨hq,hb⟩)
    (.call 1 (.write 0 0 1) :: List.replicate 5 (.act 1 .ok) ++
      .call 0 (.remove 7) :: List.replicate 5 (.act 0 .ok))
    (fun _ _ => rfl) (by decide +kernel)
  obtain ⟨s',hr',_,hp'⟩ := Machine.exists_reaches (M := kernel (.bytewise fun _ _ x => x))
    (P := fun s l => s.Quiet 3 ∧ apart s l = true) (n := 3) (b := apart)
    (s := bound cardInService)
    (p := fun s => decide (s.next 0 = some (.setGlobal .pdev none) ∧
      s.next 2 = some .pciResourceStart))
    (fun _ _ hq hb => ⟨hq,hb⟩)
    (.call 1 (.write 0 0 1) :: List.replicate 5 (.act 1 .ok) ++
      .call 0 (.remove 7) :: List.replicate 5 (.act 0 .ok) ++
      [.act 1 .ok,.act 1 (.value 1),.ret 1,.call 2 (.mmap ⟨0,4096,0,()⟩),.act 2 .ok] ++
      List.replicate 12 (.act 0 .ok))
    (fun _ _ => rfl) (by decide +kernel)
  obtain ⟨h₀,h₁⟩ := of_decide_eq_true hp
  obtain ⟨h₀',h₂⟩ := of_decide_eq_true hp'
  exact ⟨s,s',apart_reaches hr,h₀,h₁,
    remove_spares_file_operations _ _ cardInService_bound (apart_reaches hr),apart_reaches hr',
    h₀',h₂,remove_spares_file_operations _ _ cardInService_bound (apart_reaches hr')⟩

/-- A write passes its test, and its next access goes through a window that remove has
unmapped. -/
theorem remove_spares_file_operations_fails :
    ¬ ∀ (c : Cipher) (k : Kern) (d q cd w n : Nat) (s : KSystem), Bound d q cd w n k.toCore →
      (kernel c).Reaches (Unbinding d) (bound k) s → UnbindSafe s := by
  intro h
  obtain ⟨s,hr,_,hp⟩ := Machine.exists_reaches (M := kernel (.bytewise fun _ _ x => x))
    (P := Unbinding 7) (n := 2) (b := fun s l => decide (Unbinding 7 s l))
    (s := bound cardInService)
    (p := fun s => Operates (s.thr 1) && !decide (s.world.Maps (some 0)) &&
      decide (s.next 1 = some (.file (some 0) (.iowrite .live 0x0fffffff))))
    (fun _ _ _ hb => of_decide_eq_true hb)
    (.call 1 (.write 0 0 1) :: List.replicate 5 (.act 1 .ok) ++
      .call 0 (.remove 7) :: List.replicate 9 (.act 0 .ok))
    (fun _ _ => rfl) (by decide +kernel)
  simp only [Bool.and_eq_true,Bool.not_eq_true',decide_eq_true_eq,decide_eq_false_iff_not] at hp
  obtain ⟨⟨hop,hm⟩,hn⟩ := hp
  obtain ⟨cl,w₀,k,ht⟩ := Sys.next_eq hn
  rw [ht] at hop
  exact hm ((h _ _ _ _ _ _ _ s cardInService_bound hr 1 _ ⟨cl,w₀,ht,hop⟩ _ hn).1 _ _ rfl rfl)

end CryptoCard
