import CryptoCard.Buffers
import CryptoCard.Semaphore
set_option autoImplicit false

/-! Bare system calls on handles that may be shared: as long as nobody stores to a
field of a job that a write still has to read, every write finds what it left there. -/
namespace CryptoCard
open Memory Program Interleave

section
variable {t u : Nat} {v v' : Ledger} {w w' : World} {p : Code Int}

/-- A flag is read as it is. -/
theorem Act.allows_of_exec {f : Nat} {a : Act} {x : Choice} {r : a.Res}
    (he : World.exec t a x w = some (.done r w')) : a.Allows f (w.jobs f).isNotMM r := by
  cases a with
  | flag f' y =>
    cases y with
    | isNotMM =>
      cases he
      intro hf
      rw [hf]
      rfl
    | _ => trivial
  | _ => trivial

/-- The flag does not matter to a program that does not read it any more. -/
theorem Pending.congr {f : Nat} {b b' : Bool} {y : Slot} (h : Pending f b' y p)
    (hno : ¬ Pending f b .isNotMM p) : Pending f b y p := by
  refine Needs.congr h (fun a r ha hr => ?_) (fun a ha => ?_) hno
  · cases a with
    | flag f' z =>
      cases z with
      | isNotMM => exact fun hf => absurd (by rw [hf]; rfl) ha
      | _ => trivial
    | _ => trivial
  · cases a <;> cases ha

namespace Ledger

/-- A step of the thread itself leaves it with what it knows. -/
theorem Knows.own {a : Act} {k : a.Res → Code Int} {x : Choice} {r : a.Res}
    (h : v.Knows (.act a k) w.jobs) (hok : v.Ok a) (hn : v.Next a r v')
    (he : World.exec t a x w = some (.done r w')) : v'.Knows (k r) w'.jobs := by
  have hs := next_stays hn
  have hjobs := World.exec_jobs he
  intro f hf hw y hy
  rw [hs.file] at hf
  rw [hs.writes] at hw
  have before {b : Bool} (hb : b = (w.jobs f).isNotMM) (hy : Pending f b y (k r))
      (hput : a.puts ≠ some (f,y)) : v.Matches (w.jobs f) y := by
    subst hb
    exact h f hf hw y (.later r hput (Act.allows_of_exec he) hy)
  have other (hj : a.stored w.jobs = w.jobs) (hput : a.puts = none)
      (hM : v.Matches (w.jobs f) y → v'.Matches (w.jobs f) y) : v'.Matches (w'.jobs f) y := by
    rw [hjobs,hj] at hy ⊢
    exact hM (before rfl hy (by rw [hput]; simp))
  have same (hv : v'.isM = v.isM) (hl : v'.len = v.len) (hm : v'.msg = v.msg)
      (hM : v.Matches (w.jobs f) y) : v'.Matches (w.jobs f) y := by
    cases y with
    | isNotMM => exact hM.trans hs.notMM.symm
    | isM => rw [Matches,hs.notMM,hv]; exact hM
    | len => exact hM.trans hl.symm
    | msg => exact hM.trans hm.symm
  cases a with
  | setFlag f' z b => exact absurd (hok.2.symm.trans hw) (by simp)
  | copyKey f' arg => exact absurd (hok.2.symm.trans hw) (by simp)
  | setLen f' n =>
    obtain rfl : f' = f := Option.some.inj (hok.1.symm.trans hf)
    simp only [hjobs,Act.stored,Function.update_self] at hy ⊢
    have hM := before rfl hy
    cases y with
    | len => rw [hn]; rfl
    | isNotMM => exact (hM (by simp [Act.puts])).trans hs.notMM.symm
    | isM =>
      rw [Matches,hs.notMM,hs.isM (by simp)]
      exact hM (by simp [Act.puts])
    | msg => exact (hM (by simp [Act.puts])).trans (hs.msg (by simp)).symm
  | setMsg f' q =>
    obtain rfl : f' = f := Option.some.inj (hok.1.symm.trans hf)
    simp only [hjobs,Act.stored,Function.update_self] at hy ⊢
    have hM := before rfl hy
    cases y with
    | msg => rw [hn]; rfl
    | isNotMM => exact (hM (by simp [Act.puts])).trans hs.notMM.symm
    | isM =>
      rw [Matches,hs.notMM,hs.isM (by simp)]
      exact hM (by simp [Act.puts])
    | len => exact (hM (by simp [Act.puts])).trans (hs.len (by simp)).symm
  | flag f' z =>
    by_cases hz : z = .isM
    · subst hz
      obtain rfl : f' = f := Option.some.inj (hok.1.symm.trans hf)
      refine other rfl rfl (fun hM => ?_)
      cases y with
      | isM =>
        cases he
        rw [Matches,hn.1]
        exact ⟨hM.1,fun _ h => h⟩
      | isNotMM => exact hM.trans hs.notMM.symm
      | len => exact hM.trans (hs.len (by simp)).symm
      | msg => exact hM.trans (hs.msg (by simp)).symm
    · exact other rfl rfl (same (hs.isM (by simp [hz])) (hs.len (by simp)) (hs.msg (by simp)))
  | _ => exact other rfl rfl (same (hs.isM (by simp)) (hs.len (by simp)) (hs.msg (by simp)))

/-- A step of another thread does so unless it disturbs it. -/
theorem Knows.other {a : Act} {x : Choice} {r : a.Res} (h : v.Knows p w.jobs)
    (he : World.exec t a x w = some (.done r w'))
    (hno : ∀ f y, v.file = some f → v.writes = true → a.Disturbs f (w.jobs f) y →
      ¬ Pending f (w.jobs f).isNotMM y p) : v.Knows p w'.jobs := by
  rw [World.exec_jobs he]
  intro f hf hw y hy
  have hM := h f hf hw
  have hno := hno f
  cases a with
  | setFlag f' z b =>
    by_cases hff : f' = f
    · subst hff
      simp only [Act.stored,Function.update_self] at hy ⊢
      cases z with
      | isE => cases y <;> exact hM _ hy
      | isI => cases y <;> exact hM _ hy
      | isM =>
        have hM := hM y hy
        cases y with
        | isM =>
          refine ⟨hM.1,fun hN hm => ?_⟩
          have hold := hM.2 hN hm
          cases b with
          | true => rfl
          | false => exact absurd hy (hno .isM hf hw ⟨rfl,rfl,rfl,hold,hM.1.trans hN⟩)
        | _ => exact hM
      | isNotMM =>
        by_cases hb : b = (w.jobs f').isNotMM
        · have hj : (w.jobs f').setFlag .isNotMM b = w.jobs f' := by rw [hb]; rfl
          rw [hj] at hy ⊢
          exact hM y hy
        · have hread : ¬ Pending f' (w.jobs f').isNotMM .isNotMM p :=
            hno .isNotMM hf hw ⟨rfl,.inl rfl,hb⟩
          have hy := hy.congr hread
          cases y with
          | isNotMM => exact absurd hy hread
          | isM => exact absurd hy (hno .isM hf hw ⟨rfl,.inr rfl,hb⟩)
          | len => exact hM .len hy
          | msg => exact hM .msg hy
    · simp only [Act.stored,Function.update_of_ne (Ne.symm hff)] at hy ⊢
      exact hM y hy
  | setLen f' n =>
    by_cases hff : f' = f
    · subst hff
      simp only [Act.stored,Function.update_self] at hy ⊢
      cases y with
      | len =>
        by_cases hn : n = (w.jobs f').len
        · exact hn.trans (hM .len hy)
        · exact absurd hy (hno .len hf hw ⟨rfl,rfl,hn⟩)
      | _ => exact hM _ hy
    · simp only [Act.stored,Function.update_of_ne (Ne.symm hff)] at hy ⊢
      exact hM y hy
  | setMsg f' q =>
    by_cases hff : f' = f
    · subst hff
      simp only [Act.stored,Function.update_self] at hy ⊢
      cases y with
      | msg =>
        by_cases hq : q = (w.jobs f').msg
        · exact hq.trans (hM .msg hy)
        · exact absurd hy (hno .msg hf hw ⟨rfl,rfl,hq⟩)
      | _ => exact hM _ hy
    · simp only [Act.stored,Function.update_of_ne (Ne.symm hff)] at hy ⊢
      exact hM y hy
  | copyKey f' arg =>
    by_cases hff : f' = f
    · subst hff
      simp only [Act.stored,Function.update_self] at hy ⊢
      cases y <;> exact hM _ hy
    · simp only [Act.stored,Function.update_of_ne (Ne.symm hff)] at hy ⊢
      exact hM y hy
  | _ => exact hM y hy

end Ledger

end

/-- A bare system call, an interrupt or a plain store. -/
def Call.isSystem : Call → Bool
  | .write _ _ _ | .ioctl _ _ _ | .irq _ | .store _ _ | .mapStore _ _ => true
  | _ => false

/-- The ledger that a call begins with. -/
def Call.ledger (w : World) : Call → Ledger
  | .write f _ len =>
    ⟨some f,true,min len MAX_RW_COUNT,(w.jobs f).isNotMM,false,(w.jobs f).len,(w.jobs f).msg,
      none,none,none,none⟩
  | call => ⟨call.handle,false,0,false,false,0,none,none,none,none,none⟩

theorem Call.ledger_cleared (w : World) (call : Call) : (call.ledger w).Cleared := by
  cases call <;> exact ⟨rfl,rfl,rfl,rfl⟩

theorem Call.ledger_file (w : World) (call : Call) : (call.ledger w).file = call.handle := by
  cases call <;> rfl

theorem Call.ledger_writes {w : World} {call : Call} (h : (call.ledger w).writes = true) :
    ∃ f ptr len, call = .write f ptr len := by
  cases call <;> first | exact ⟨_,_,_,rfl⟩ | cases h

theorem Call.ledger_knows (w : World) (call : Call) (p : Code Int) :
    (call.ledger w).Knows p w.jobs := by
  intro f hf hw y _
  obtain ⟨f',ptr,len,rfl⟩ := Call.ledger_writes hw
  cases hf
  cases y with
  | isM => exact ⟨rfl,fun _ h => by cases h⟩
  | _ => rfl

theorem code_ledger {call : Call} (h : call.isSystem = true) (w : World) :
    wp bookkeeping call.code Ledger.Left (call.ledger w) := by
  have hc := Call.ledger_cleared w call
  have hlt (n : Nat) : min n MAX_RW_COUNT < 2^32 := Nat.lt_of_le_of_lt (Nat.min_le_right n _) (by decide)
  cases call with
  | write f ptr len => exact Ledger.pciWrite_ledger hc rfl rfl rfl (hlt len)
  | ioctl f cmd arg => exact Ledger.pciUnlockedIoctl_ledger hc rfl rfl
  | irq dev => exact Ledger.pciIrqHandle_ledger hc
  | store addr xs => exact ⟨trivial,fun _ _ hn => by cases hn; exact hc⟩
  | mapStore off xs => exact ⟨trivial,fun _ _ hn => by cases hn; exact hc⟩
  | _ => cases h

/-- Every write in progress knows its job. -/
def Known (g : Nat → Ledger) (thr : Nat → Thread Act Act.Res World Call Int)
    (jobs : Nat → Job) : Prop :=
  ∀ u call w₀ p, thr u = .run call w₀ p → (g u).Knows p jobs

theorem Known.update {g : Nat → Ledger} {thr : Nat → Thread Act Act.Res World Call Int}
    {jobs : Nat → Job} {t : Nat} {v : Ledger} {θ : Thread Act Act.Res World Call Int}
    (h : ∀ u, u ≠ t → ∀ call w₀ p, thr u = .run call w₀ p → (g u).Knows p jobs)
    (ht : ∀ call w₀ p, θ = .run call w₀ p → v.Knows p jobs) :
    Known (Function.update g t v) (Function.update thr t θ) jobs := by
  intro u call w₀ p hu
  by_cases hut : u = t
  · subst u
    rw [Function.update_self] at hu ⊢
    exact ht call w₀ p hu
  · rw [Function.update_of_ne hut] at hu ⊢
    exact h u hut call w₀ p hu

/-- `allow` restricts who may make which call. -/
def ledgerAssertions (allow : Nat → Call → Prop) : Assertions bookkeeping World Call Int where
  J g s := Books g s.world ∧ Known g s.thr s.world.jobs
  Idle _ _ v := v.Cleared
  Began t call _ w v := v = call.ledger w ∧ allow t call
  Post _ _ _ _ v := v.Cleared
  Dead _ := False
  Link := Ledger.Link

/-- The steps are system calls that are allowed; no signal ends a wait for a DMA
operation before the operation does, and no step disturbs another thread's write. -/
structure Considerate (allow : Nat → Call → Prop) (P : System → Step → Prop) : Prop where
  call : ∀ {s t call}, P s (.call t call) → call.isSystem = true ∧ allow t call
  uncut : ∀ {s t x}, P s (.act t x) → s.next t = some (.waitEvent .dma) →
    cutsShort s (.act t x) = false
  apart : ∀ {s g t x a u call w₀ p f y}, (ledgerAssertions allow).Holds s g → P s (.act t x) →
    s.next t = some a → u ≠ t → s.thr u = .run call w₀ p → (g u).file = some f →
    (g u).writes = true → a.Disturbs f (s.world.jobs f) y →
    ¬ Pending f (s.world.jobs f).isNotMM y p

section
variable {allow : Nat → Call → Prop} {P : System → Step → Prop} {c : Cipher}
variable {s : System} {g : Nat → Ledger} {t : Nat}

theorem ledgerOutline (hP : Considerate allow P) :
    Outline (machine c) P (ledgerAssertions allow) where
  call {s g t call} h hp ht := by
    obtain ⟨hsys,hallow⟩ := hP.call hp
    have hc : (g t).Cleared := by
      have hi := h.2 t
      rwa [ht] at hi
    refine ⟨call.ledger s.world,⟨h.1.1.begin_call hc (Call.ledger_cleared _ _),?_⟩,⟨rfl,hallow⟩,
      code_ledger hsys _⟩
    exact .update (fun u _ => h.1.2 u) (fun _ _ _ hu => by cases hu; exact Call.ledger_knows _ _ _)
  ret _ _ hp := hp
  leave {s g t call w₀ v} h ht := by
    have hk : Known (Function.update g t (g t)) (Function.update s.thr t .idle) s.world.jobs :=
      .update (fun u _ => h.1.2 u) (fun _ _ _ hu => by cases hu)
    rw [Function.update_eq_self] at hk
    exact ⟨h.1.1,hk⟩
  link_refl := .refl
  link hl hn := hl.trans (Ledger.next_stays hn).toLink
  done {s g t x call w₀ a k r w} h hp ht he := by
    have hok := h.ok ht
    have hnext : s.next t = some a := by simp [Sys.next,ht]
    have hknow := h.1.2 t call w₀ _ ht
    have hreads (f : Nat) (y : Slot) (hy : a.reads = some (f,y)) :
        (g t).Matches (s.world.jobs f) y := by
      have hj : (g t).file = some f ∧ (g t).writes = true := by
        cases a with
        | flag f' z => cases z <;> cases hy <;> exact hok
        | len f' => cases hy; exact hok
        | msg f' => cases hy; exact hok
        | _ => cases hy
      exact hknow f hj.1 hj.2 y (.here hy)
    have hcut (ha : a = .waitEvent .dma) : a.cut r = false :=
      cut_eq_false (hP.uncut hp (by rw [hnext,ha])) ht he
    obtain ⟨v',hn,hB⟩ := h.1.1.done hok hreads hcut he
    refine ⟨v',hn,hB,.update (fun u hut call' w₀' p hu => ?_) (fun _ _ _ hu => ?_)⟩
    · exact (h.1.2 u call' w₀' p hu).other he
        (fun f y hf hw hd => hP.apart h hp hnext hut hu hf hw hd)
    · cases hu
      exact hknow.own hok hn he
  stay {s g t x call w₀ a k w} h hp ht he := by
    have hB := h.1.1.stay he
    obtain ⟨_,rfl⟩ := World.stay_task he
    exact ⟨hB,h.1.2⟩
  oops h _ ht he := (h.1.1.no_oops (h.ok ht) he).elim
  env {s g e w} h _ he := by
    have hjobs : w.jobs = s.world.jobs := by
      obtain ⟨_,_,_,_,rfl⟩ | ⟨_,_,_,rfl⟩ := World.env_cases he
      · exact World.transform_jobs _ _ _
      · rfl
    exact ⟨h.1.1.env he,fun u => hjobs ▸ h.1.2 u⟩

theorem ledger_start (umem mem : Nat → Byte) :
    (ledgerAssertions allow).Holds (start (World.boot umem mem))
      (fun _ => ⟨none,false,0,false,false,0,none,none,none,none,none⟩) :=
  ⟨⟨Books.boot umem mem (fun _ => ⟨rfl,rfl,rfl,rfl⟩),fun _ _ _ _ h => by cases h⟩,
    fun _ => ⟨rfl,rfl,rfl,rfl⟩⟩

end

end CryptoCard
