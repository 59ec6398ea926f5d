import CryptoCard.Handles
import CryptoCard.Syscalls
import CryptoCard.Journal
set_option autoImplicit false

/-! Ioctls that fail: when one leaves the job as it was, and what a handle is set to after
any sequence of ioctls on it. -/
namespace CryptoCard
open Memory Program Interleave

/-- The key is copied whole, or what comes of it is the key that is there. -/
def Job.Spares (j : Job) (cmd : Nat) (arg : List Byte) : Prop :=
  cmd = SET_KEY → 4 ≤ arg.length ∨ le32 arg = j.keyab

/-- The flag that a successful ioctl on `f` has set. -/
def Call.flagSet (f : Nat) : Call × Int → Option (Flag × Bool)
  | (.ioctl g cmd arg,r) => if g = f ∧ r = 0 then (ioctlByte arg).bind (settingOf cmd) else none
  | _ => none

/-- The key that a successful ioctl on `f` has set. -/
def Call.keySet (f : Nat) : Call × Int → Option Nat
  | (.ioctl g cmd arg,r) => if g = f ∧ r = 0 ∧ cmd = SET_KEY then some (le32 arg) else none
  | _ => none

/-- The flag as the last successful ioctl for it has set it, `b` before the first. -/
def flagSince (f : Nat) (x : Flag) (b : Bool) (hs : List (Call × Int)) : Bool :=
  (hs.findSome? (fun e => ((Call.flagSet f e).filter (fun p => p.1 = x)).map Prod.snd)).getD b

def keySince (f k : Nat) (hs : List (Call × Int)) : Nat :=
  (hs.findSome? (Call.keySet f)).getD k

/-- `j`, which was `j₀`, is set as the last successful ioctls of each kind have it. -/
structure Job.Told (j : Job) (f : Nat) (j₀ : Job) (hs : List (Call × Int)) : Prop where
  keyab : j.keyab = keySince f j₀.keyab hs
  flag : ∀ x, j.flag x = flagSince f x (j₀.flag x) hs

/-- What a write does when key, direction and mode are those of `j`. -/
def Act.GoesBy (j : Job) : Act → Prop
  | .setFlag _ _ _ | .copyKey _ _ => False
  | .iowrite .keys v => v = j.keyab
  | .iowrite .status v => j.isM = true ∧ v.testBit 1 = !j.isE ∧ v.testBit 7 = j.isI
  | .iowrite .lenMsg _ | .iowrite .dataAddr _ => j.isM = true
  | .iowrite .cmd v => j.isM = false ∧ v.testBit 1 = !j.isE ∧ v.testBit 2 = j.isI
  | .iowrite .addrOp _ | .iowrite .dlenMsg _ => j.isM = false
  | .vmalloc _ | .vfree _ | .copyFromUser _ _ _ | .memcpyToio _ _ | .memcpyFromio _ _ =>
    j.isNotMM = true
  | .waitEvent _ => j.isI = true
  | .pollBusy _ => j.isI = false
  | _ => True

def Call.ioctlOn (f : Nat) : Call → Bool
  | .ioctl g _ _ => g == f
  | _ => false

/-- System calls by any number of threads, an ioctl on `f` never next to another call on `f`,
and never with a key that is cut short and would change the one there. -/
def OneByOne (f : Nat) (s : System) : Step → Prop
  | .call _ cl => cl.isSystem = true ∧ ∀ u d w, s.turn u = some (d,w) →
      (cl.ioctlOn f = true → d.handle ≠ some f) ∧ (cl.handle = some f → d.ioctlOn f = false)
  | .act t _ => ∀ arg, s.next t = some (.copyKey f arg) →
      4 ≤ arg.length ∨ le32 arg = (s.world.jobs f).keyab
  | _ => True

/-- After the calls `hs`: an ioctl that is about to return an error has changed nothing,
and a write goes by the last successful ioctl of each kind. -/
structure Obeyed (f : Nat) (j₀ : Job) (hs : List (Call × Int)) (s : System) : Prop where
  spared : ∀ t cmd arg w r, s.thr t = .run (.ioctl f cmd arg) w (.ret r) → r ≠ 0 →
    s.world.jobs f = w.jobs f
  told : (∀ t cl w, s.turn t = some (cl,w) → cl.ioctlOn f = false) →
    (s.world.jobs f).Told f j₀ hs
  used : ∀ t ptr len w a, s.turn t = some (.write f ptr len,w) → s.next t = some a →
    (s.world.jobs f).Told f j₀ hs ∧ a.GoesBy (s.world.jobs f)

/-- A call that has nothing to do with the handle, an ioctl on it that has made `j` of the
job, or a write that goes by `j`. -/
inductive Stand where
  | off
  | sets (j : Job)
  | uses (j : Job)

/-- The action leaves the job of `f` alone. -/
def Act.Elsewhere (f : Nat) (a : Act) : Prop := ∀ jobs, a.stored jobs f = jobs f

namespace Stand

def Ok (f : Nat) : Stand → Act → Prop
  | .off,a => a.Elsewhere f
  | .sets _,.copyKey g _ | .sets _,.setFlag g _ _ => g = f
  | .sets _,.setLen _ _ | .sets _,.setMsg _ _ => False
  | .sets _,a => a.buffer = none
  | .uses j,a => a.GoesBy j

def Next (f : Nat) : Stand → (a : Act) → a.Res → Stand → Prop
  | .sets j,.privateData _,r,γ => r = true ∧ γ = .sets j
  | .sets j,.copyKey _ arg,r,γ => (4 ≤ arg.length ∨ le32 arg = j.keyab) ∧ r = 4-arg.length ∧
      γ = .sets { j with keyab := le32 arg }
  | .sets j,.setFlag _ x b,_,γ => γ = .sets (j.setFlag x b)
  | .uses j,.flag g x,r,γ => γ = .uses j ∧ (g = f → r = j.flag x)
  | .uses j,.keyab g,r,γ => γ = .uses j ∧ (g = f → r = j.keyab)
  | γ₀,_,_,γ => γ = γ₀

end Stand

@[reducible] def heeding (f : Nat) : Discipline Act Act.Res where
  Ghost := Stand
  ok := Stand.Ok f
  next := Stand.Next f

/-- The stand that a call begins with. -/
def Call.stand (f : Nat) (w : World) : Call → Stand
  | .ioctl g _ _ => if g = f then .sets (w.jobs f) else .off
  | .write g _ _ => if g = f then .uses (w.jobs f) else .off
  | _ => .off

section
variable {f ptr len : Nat} {err : Int} {j : Job}

attribute [local simp] Stand.Ok Stand.Next Act.GoesBy Act.buffer Job.flag

theorem releaseMsg_uses {Q : Unit → Stand → Prop} (h : Q () (.uses j)) :
    wp (heeding f) (releaseMsg f) Q (.uses j) := by
  simp [releaseMsg,h]

theorem outFree_uses : wp (heeding f) (outFree f err) (fun _ _ => True) (.uses j) := by
  rw [outFree,wp_bind]
  exact releaseMsg_uses trivial

theorem outUp_uses : wp (heeding f) (outUp f err) (fun _ _ => True) (.uses j) := by
  simp only [outUp,wp_bind,wp_perform,Stand.Ok,Stand.Next,Act.GoesBy,forall_eq,true_and]
  exact fun _ => outFree_uses

theorem writeDone_uses : wp (heeding f) (writeDone f) (fun _ _ => True) (.uses j) := by
  simp only [writeDone,wp_bind,wp_perform,Stand.Ok,Stand.Next,Act.GoesBy,forall_eq,true_and]
  exact fun _ => releaseMsg_uses trivial

theorem copyBack_uses : wp (heeding f) (copyBack f ptr) (fun _ _ => True) (.uses j) := by
  simp only [copyBack,wp_bind,wp_perform,wp_ite,Stand.Ok,Stand.Next,Act.GoesBy,forall_eq,true_and]
  exact fun _ _ _ => ⟨fun _ => outUp_uses,fun _ => writeDone_uses⟩

theorem mmioCopyIn_uses {Q : Unit → Stand → Prop} (h : Q () (.uses j)) :
    wp (heeding f) (mmioCopyIn f) Q (.uses j) := by
  simp [mmioCopyIn,h]

theorem mmioCopyOut_uses : wp (heeding f) (mmioCopyOut f ptr) (fun _ _ => True) (.uses j) := by
  simp only [mmioCopyOut,wp_bind,wp_perform,wp_ite,Stand.Ok,Stand.Next,Act.GoesBy,forall_eq,
    true_and,forall_const,and_imp,Job.flag]
  exact ⟨fun hN => ⟨hN,copyBack_uses⟩,fun _ => writeDone_uses⟩

/-- The operation is started in the direction of the job. -/
theorem mmioStart_uses {mode : Nat} {Q : Unit → Stand → Prop} (hM : j.isM = true)
    (hdir : mode.testBit 1 = false) (hintr : mode.testBit 7 = j.isI) (h : Q () (.uses j)) :
    wp (heeding f) (mmioStart f mode) Q (.uses j) := by
  have htwo : Nat.testBit 2 1 = true ∧ Nat.testBit 2 7 = false := by decide
  simp only [mmioStart,wp_bind,wp_perform,wp_ite,Stand.Ok,Stand.Next,Act.GoesBy,forall_eq,
    true_and,forall_const,and_imp,Job.flag]
  exact ⟨fun hE => ⟨⟨hM,by simp [hE,hdir],by simp [hintr]⟩,hM,fun _ => h⟩,
    fun hE => ⟨⟨hM,by simp [hE,htwo],by simp [hintr,htwo]⟩,hM,fun _ => h⟩⟩

theorem mmioWait_uses {Q : Bool → Stand → Prop} (hM : j.isM = true) (h : ∀ b, Q b (.uses j)) :
    wp (heeding f) (mmioWait f) Q (.uses j) := by
  simp only [mmioWait,wp_bind,wp_perform,wp_ite,wp_pure,Stand.Ok,Stand.Next,Act.GoesBy,forall_eq,
    true_and,forall_const,and_imp,Job.flag]
  refine ⟨fun hI => mmioStart_uses hM (by decide) ?_ ⟨hI,h⟩,
    fun hI => mmioStart_uses hM (by decide) ?_ ⟨by simpa using hI,h false⟩⟩
  · rw [hI]
    decide
  · rw [Bool.not_eq_true _ |>.mp hI]
    decide

theorem dmaStart_uses {mode : Nat} {Q : Unit → Stand → Prop} (hM : j.isM = false)
    (hdir : mode.testBit 1 = false) (hintr : mode.testBit 2 = j.isI) (h : Q () (.uses j)) :
    wp (heeding f) (dmaStart f mode) Q (.uses j) := by
  have htwo : Nat.testBit 2 1 = true ∧ Nat.testBit 2 2 = false := by decide
  have hone : Nat.testBit 1 1 = false ∧ Nat.testBit 1 2 = false := by decide
  simp only [dmaStart,wp_bind,wp_perform,wp_ite,Stand.Ok,Stand.Next,Act.GoesBy,forall_eq,
    true_and,forall_const,and_imp,Job.flag]
  exact ⟨fun hE => ⟨⟨hM,by simp [hE,hdir,hone],by simp [hintr,hone]⟩,fun _ => h⟩,
    fun hE => ⟨⟨hM,by simp [hE,htwo],by simp [hintr,htwo,hone]⟩,fun _ => h⟩⟩

theorem dmaWait_uses {Q : Bool → Stand → Prop} (hM : j.isM = false) (h : ∀ b, Q b (.uses j)) :
    wp (heeding f) (dmaWait f) Q (.uses j) := by
  simp only [dmaWait,wp_bind,wp_perform,wp_ite,wp_pure,Stand.Ok,Stand.Next,Act.GoesBy,forall_eq,
    true_and,forall_const,and_imp,Job.flag]
  refine ⟨fun hI => dmaStart_uses hM (by decide) ?_ ⟨hI,h⟩,
    fun hI => dmaStart_uses hM (by decide) ?_ ⟨by simpa using hI,h false⟩⟩
  · rw [hI]
    decide
  · rw [Bool.not_eq_true _ |>.mp hI]
    decide

theorem mmioBranch_uses (hM : j.isM = true) :
    wp (heeding f) (mmioBranch f ptr) (fun _ _ => True) (.uses j) := by
  simp only [mmioBranch,wp_bind,wp_perform,wp_ite,Stand.Ok,Stand.Next,Act.GoesBy,forall_eq,
    true_and]
  refine fun _ => ⟨hM,fun _ => mmioCopyIn_uses (mmioWait_uses hM ?_)⟩
  exact fun b => ⟨fun _ => outUp_uses,fun _ => mmioCopyOut_uses⟩

theorem dmaBranch_uses (hM : j.isM = false) :
    wp (heeding f) (dmaBranch f ptr) (fun _ _ => True) (.uses j) := by
  simp only [dmaBranch,wp_bind,wp_perform,Stand.Ok,Stand.Next,Act.GoesBy,forall_eq,true_and]
  intro _ _ handle
  cases handle with
  | none => exact outUp_uses
  | some handle =>
    simp only [dmaMapped,wp_bind,wp_perform,wp_ite,Stand.Ok,Stand.Next,Act.GoesBy,forall_eq,
      true_and]
    refine ⟨hM,fun _ _ => ⟨hM,fun _ => dmaWait_uses hM ?_⟩⟩
    exact fun b => ⟨fun _ => outUp_uses,
      fun _ => ⟨trivial,fun _ => ⟨trivial,fun _ => copyBack_uses⟩⟩⟩

theorem writeLocked_uses : wp (heeding f) (writeLocked f ptr) (fun _ _ => True) (.uses j) := by
  simp only [writeLocked,wp_bind,wp_perform,wp_ite,Stand.Ok,Stand.Next,Act.GoesBy,forall_eq,
    true_and,and_imp,forall_const,Job.flag,Bool.not_eq_true]
  exact fun _ => ⟨fun _ => outFree_uses,fun _ => ⟨mmioBranch_uses,dmaBranch_uses⟩⟩

theorem writeCopyIn_uses (hN : j.isNotMM = true) :
    wp (heeding f) (writeCopyIn f ptr len) (fun _ _ => True) (.uses j) := by
  simp only [writeCopyIn,wp_bind,wp_perform,wp_ite,wp_pure,Stand.Ok,Stand.Next,Act.GoesBy,
    forall_eq,true_and,implies_true,hN]
  exact fun _ _ _ _ _ _ _ => ⟨fun _ => outFree_uses,fun _ => writeLocked_uses⟩

theorem writeBody_uses : wp (heeding f) (writeBody f ptr len) (fun _ _ => True) (.uses j) := by
  simp only [writeBody,wp_bind,wp_perform,wp_ite,Stand.Ok,Stand.Next,Act.GoesBy,forall_eq,
    true_and,and_imp,forall_const,Job.flag]
  exact ⟨writeCopyIn_uses,fun _ => writeLocked_uses⟩

theorem writeLive_uses : wp (heeding f) (writeLive f ptr len) (fun _ _ => True) (.uses j) := by
  simp only [writeLive,isNotLive,wp_bind,wp_perform,wp_ite,wp_pure,Stand.Ok,Stand.Next,
    Act.GoesBy,forall_eq,true_and,implies_true]
  exact fun _ _ _ => writeBody_uses

theorem sysWrite_uses : wp (heeding f) (sysWrite f ptr len) (fun _ _ => True) (.uses j) := by
  simp only [sysWrite,pciWrite,wp_bind,wp_perform,wp_ite,wp_pure,Stand.Ok,Stand.Next,Act.GoesBy,
    forall_eq,true_and,implies_true,and_imp,forall_const,Job.flag]
  exact fun _ _ _ _ =>
    ⟨fun _ => writeLive_uses,fun _ => ⟨fun _ => writeLive_uses,trivial⟩⟩

theorem applySetting_sets {cmd : Nat} {arg : List Byte} {o : Option (Flag × Bool)}
    (hsp : j.Spares cmd arg) (h : j.ioctl cmd arg = j.put o) :
    wp (heeding f) (applySetting f o) (fun r γ => j.Spares cmd arg ∧
      r = (j.ioctl cmd arg).1 ∧ γ = .sets (j.ioctl cmd arg).2) (.sets j) := by
  rw [h]
  cases o with
  | none => exact ⟨hsp,rfl,rfl⟩
  | some p =>
    obtain ⟨x,v⟩ := p
    refine ⟨rfl,fun _ γ hγ => ?_⟩
    obtain rfl : γ = .sets (j.setFlag x v) := hγ
    exact ⟨hsp,rfl,rfl⟩

/-- An ioctl answers as it does to the job it finds, and makes of it what it makes of it. -/
theorem pciUnlockedIoctl_sets (f cmd : Nat) (arg : List Byte) :
    wp (heeding f) (pciUnlockedIoctl f cmd arg) (fun r γ => j.Spares cmd arg ∧
      r = (j.ioctl cmd arg).1 ∧ γ = .sets (j.ioctl cmd arg).2) (.sets j) := by
  rw [pciUnlockedIoctl_eq]
  simp only [wp_bind,wp_perform,wp_ite,wp_pure,Stand.Ok,Stand.Next,Act.buffer,true_and,and_imp]
  rintro b γ rfl rfl
  refine ⟨fun h => absurd h (by decide),fun _ => ⟨fun hkey => ⟨rfl,fun r γ hn => ?_⟩,
    fun hkey => ?_⟩⟩
  · obtain ⟨hsp,rfl,rfl⟩ := hn
    simp only [Job.ioctl,if_pos hkey]
    exact ⟨fun h => ⟨fun _ => hsp,(if_pos h).symm,trivial⟩,
      fun h => ⟨fun _ => hsp,(if_neg h).symm,trivial⟩⟩
  · have hsp : j.Spares cmd arg := fun h => absurd h hkey
    refine ⟨fun hset => ?_,fun hset => ⟨hsp,?_⟩⟩
    · cases hb : ioctlByte arg with
      | none =>
        simp only [wp_pure,Job.ioctl,if_neg hkey,if_pos hset,hb]
        exact ⟨hsp,trivial,trivial⟩
      | some b => exact applySetting_sets hsp (by rw [Job.ioctl,if_neg hkey,if_pos hset,hb])
    · rw [Job.ioctl,if_neg hkey,if_neg hset]
      exact ⟨rfl,rfl⟩

end

/-- The job of `f` is as the call knows it. -/
def Stand.Knows (f : Nat) (w : World) : Stand → Prop
  | .off => True
  | .sets j => w.jobs f = j
  | .uses j => (w.jobs f).mode = j.mode

/-- An ioctl on `f` in progress is the only call on `f`, and the calls know the job. -/
structure Heeded (f : Nat) (g : Nat → Stand) (s : System) : Prop where
  one : ∀ t u c d w₀ w₁, s.turn t = some (c,w₀) → s.turn u = some (d,w₁) →
    c.ioctlOn f = true → d.handle = some f → t = u
  knows : ∀ t c w₀, s.turn t = some (c,w₀) → (g t).Knows f s.world

/-- The same kind of call; what a write goes by stays. -/
def Stand.Link : Stand → Stand → Prop
  | .sets _,γ => ∃ j, γ = .sets j
  | γ₀,γ => γ = γ₀

def heedingAssertions (f : Nat) : Assertions (heeding f) World Call Int where
  J := Heeded f
  Idle _ _ _ := True
  Began _ c _ w γ := γ = c.stand f w
  Post _ c γ₀ r γ := ∀ j cmd arg, γ₀ = .sets j → c = .ioctl f cmd arg →
    j.Spares cmd arg ∧ r = (j.ioctl cmd arg).1 ∧ γ = .sets (j.ioctl cmd arg).2
  Dead _ := True
  Link := Stand.Link

section
variable {f t : Nat} {c : Cipher} {w : World} {s : System} {g : Nat → Stand}

theorem elsewhere_wp {α : Type} {p : Code α} (h : Always (Act.Elsewhere f) p) :
    wp (heeding f) p (fun _ _ => True) .off :=
  h.wp (fun _ ha => ha) (fun _ _ _ _ hn => hn)

theorem Act.OfWrite.elsewhere {a : Act} {d : Nat} (h : a.OfWrite d) (hd : d ≠ f) :
    a.Elsewhere f := by
  intro jobs
  cases a with
  | setLen _ n =>
    obtain rfl := h
    exact Function.update_of_ne hd.symm _ _
  | setMsg _ p =>
    obtain rfl := h
    exact Function.update_of_ne hd.symm _ _
  | setFlag d' x b => exact h.elim
  | copyKey d' arg => exact h.elim
  | _ => rfl

theorem pciUnlockedIoctl_elsewhere {d cmd : Nat} {arg : List Byte} (h : d ≠ f) :
    Always (Act.Elsewhere f) (pciUnlockedIoctl d cmd arg) := by
  unfold pciUnlockedIoctl
  cases ioctlByte arg <;> simp [Act.Elsewhere,Act.stored,h.symm]

theorem code_heeding {cl : Call} (hsys : cl.isSystem = true) (w : World) :
    wp (heeding f) cl.code ((heedingAssertions f).Post t cl (cl.stand f w)) (cl.stand f w) := by
  have other {p : Code Int} (hst : cl.stand f w = .off) (hp : wp (heeding f) p (fun _ _ => True) .off) :
      wp (heeding f) p ((heedingAssertions f).Post t cl (cl.stand f w)) (cl.stand f w) := by
    rw [hst]
    refine wp_mono (fun r γ _ j cmd arg hj _ => ?_) hp
    cases hj
  cases cl with
  | write g ptr len =>
    by_cases hg : g = f
    · subst hg
      simp only [Call.stand,if_true]
      refine wp_mono (fun r γ _ j cmd arg hj _ => ?_) sysWrite_uses
      cases hj
    · exact other (if_neg hg) (elsewhere_wp (sysWrite_ofWrite.mono (fun _ ha => ha.elsewhere hg)))
  | ioctl g cmd arg =>
    by_cases hg : g = f
    · subst hg
      simp only [Call.stand,if_true]
      refine wp_mono (fun r γ h j cmd' arg' hj hc => ?_) (pciUnlockedIoctl_sets g cmd arg)
      cases hj
      cases hc
      exact h
    · exact other (if_neg hg) (elsewhere_wp (pciUnlockedIoctl_elsewhere hg))
  | irq dev =>
    exact other rfl (elsewhere_wp (by simp [Call.code,pciIrqHandle,Act.Elsewhere,Act.stored]))
  | store addr xs => exact other rfl (elsewhere_wp (by simp [Call.code,Act.Elsewhere,Act.stored]))
  | mapStore off xs => exact other rfl (elsewhere_wp (by simp [Call.code,Act.Elsewhere,Act.stored]))
  | _ => cases hsys

theorem Call.stand_knows (cl : Call) (w : World) : (cl.stand f w).Knows f w := by
  cases cl with
  | write d ptr len =>
    by_cases hd : d = f
    · simp [Call.stand,hd,Stand.Knows]
    · simp [Call.stand,hd,Stand.Knows]
  | ioctl d cmd arg =>
    by_cases hd : d = f
    · simp [Call.stand,hd,Stand.Knows]
    · simp [Call.stand,hd,Stand.Knows]
  | _ => trivial

theorem heeding_stand (h : (heedingAssertions f).Holds s g) {cl : Call} {p : Code Int}
    (ht : s.thr t = .run cl w p) :
    cl.ioctlOn f = true ∧ cl.handle = some f ∧ (∃ j, g t = .sets j) ∨
      cl.ioctlOn f = false ∧ cl.handle = some f ∧ g t = .uses (w.jobs f) ∨
      cl.ioctlOn f = false ∧ g t = .off := by
  obtain ⟨γ₀,hb,hl⟩ := h.began ht
  obtain rfl : γ₀ = cl.stand f w := hb
  have off (ho : cl.ioctlOn f = false) (hst : cl.stand f w = .off) :
      cl.ioctlOn f = true ∧ cl.handle = some f ∧ (∃ j, g t = .sets j) ∨
      cl.ioctlOn f = false ∧ cl.handle = some f ∧ g t = .uses (w.jobs f) ∨
      cl.ioctlOn f = false ∧ g t = .off := by
    rw [hst] at hl
    exact .inr (.inr ⟨ho,hl⟩)
  cases cl with
  | write d ptr len =>
    by_cases hd : d = f
    · subst hd
      simp only [Call.stand,if_true] at hl
      exact .inr (.inl ⟨rfl,rfl,hl⟩)
    · exact off rfl (if_neg hd)
  | ioctl d cmd arg =>
    by_cases hd : d = f
    · subst hd
      simp only [Call.stand,if_true] at hl
      exact .inl ⟨by simp [Call.ioctlOn],rfl,hl⟩
    · exact off (by simp [Call.ioctlOn,hd]) (if_neg hd)
  | _ => exact off rfl rfl

/-- What a write does to its job leaves the mode alone. -/
theorem Act.GoesBy.mode {a : Act} {j : Job} (h : a.GoesBy j) (jobs : Nat → Job) (d : Nat) :
    (a.stored jobs d).mode = (jobs d).mode := by
  cases a with
  | setLen d' n =>
    by_cases hd : d = d'
    · subst hd
      simp [Act.stored,Job.mode]
    · simp [Act.stored,hd]
  | setMsg d' p =>
    by_cases hd : d = d'
    · subst hd
      simp [Act.stored,Job.mode]
    · simp [Act.stored,hd]
  | setFlag d' x b => exact h.elim
  | copyKey d' arg => exact h.elim
  | _ => rfl

theorem Job.flag_of_mode {j j' : Job} (h : j.mode = j'.mode) (x : Flag) : j.flag x = j'.flag x := by
  obtain ⟨hE,hM,hI,hN,_⟩ := View.mode_eq h
  cases x <;> assumption

/-- The answers of an action to a write that goes by the job. -/
theorem uses_next {a : Act} {x : Choice} {r : a.Res} {j : Job} {w' : World}
    (hj : (w.jobs f).mode = j.mode) (he : World.exec t a x w = some (.done r w')) :
    Stand.Next f (.uses j) a r (.uses j) := by
  cases a with
  | flag d y =>
    cases he
    refine ⟨rfl,fun hd => ?_⟩
    rw [hd]
    exact Job.flag_of_mode hj y
  | keyab d =>
    cases he
    refine ⟨rfl,fun hd => ?_⟩
    rw [hd]
    exact (View.mode_eq hj).2.2.2.2
  | _ => exact rfl

/-- The answers of an action to an ioctl, and what it makes of the job. -/
theorem sets_next {a : Act} {x : Choice} {r : a.Res} {w' : World}
    (hok : Stand.Ok f (.sets (w.jobs f)) a)
    (hsp : ∀ arg, a = .copyKey f arg → 4 ≤ arg.length ∨ le32 arg = (w.jobs f).keyab)
    (he : World.exec t a x w = some (.done r w')) :
    Stand.Next f (.sets (w.jobs f)) a r (.sets (w'.jobs f)) := by
  have hjobs := World.exec_jobs he
  cases a with
  | privateData d =>
    cases he
    exact ⟨rfl,rfl⟩
  | copyKey d arg =>
    obtain rfl := hok
    cases he
    exact ⟨hsp arg rfl,rfl,by simp [World.setJob]⟩
  | setFlag d y b =>
    obtain rfl := hok
    cases he
    simp [Stand.Next,World.setJob]
  | setLen d n => exact hok.elim
  | setMsg d p => exact hok.elim
  | _ => exact congrArg (fun jobs => Stand.sets (jobs f)) hjobs

theorem Stand.uses_next_eq {j : Job} {a : Act} {r : a.Res} {γ : Stand}
    (h : Stand.Next f (.uses j) a r γ) : γ = .uses j := by
  cases a with
  | flag d x => exact h.1
  | keyab d => exact h.1
  | _ => exact h

theorem Stand.sets_next_eq {j : Job} {a : Act} {r : a.Res} {γ : Stand}
    (h : Stand.Next f (.sets j) a r γ) : ∃ j', γ = .sets j' := by
  cases a with
  | privateData d => exact ⟨_,h.2⟩
  | copyKey d arg => exact ⟨_,h.2.2⟩
  | setFlag d x b => exact ⟨_,h⟩
  | _ => exact ⟨_,h⟩

/-- Steps in which nobody gets into a call. -/
theorem Heeded.move {g' : Nat → Stand} {s' : System} (h : Heeded f g s)
    (hsub : ∀ u d w, s'.turn u = some (d,w) → s.turn u = some (d,w))
    (hk : ∀ u d w, s'.turn u = some (d,w) → (g u).Knows f s.world → (g' u).Knows f s'.world) :
    Heeded f g' s' where
  one t u _ _ _ _ ht hu := h.one t u _ _ _ _ (hsub _ _ _ ht) (hsub _ _ _ hu)
  knows u d w hu := hk u d w hu (h.knows u d w (hsub _ _ _ hu))

theorem Stand.Knows.congr {w' : World} {γ : Stand} (h : γ.Knows f w) (hj : w'.jobs f = w.jobs f) :
    γ.Knows f w' := by
  cases γ with
  | off => trivial
  | sets j => exact hj.trans h
  | uses j => exact (congrArg Job.mode hj).trans h

/-- An action of a thread leaves what all others know. -/
theorem heeded_others (h : (heedingAssertions f).Holds s g) {cl : Call} {w₀ w' : World} {a : Act}
    {k : a.Res → Code Int} (ht : s.thr t = .run cl w₀ (.act a k))
    (hj : w'.jobs = a.stored s.world.jobs) {u : Nat} {d : Call} {w : World} (hut : u ≠ t)
    (hu : s.turn u = some (d,w)) (hk : (g u).Knows f s.world) : (g u).Knows f w' := by
  have hok : Stand.Ok f (g t) a := h.ok ht
  obtain ⟨hf,hh,j,hg⟩ | ⟨_,hh,hg⟩ | ⟨_,hg⟩ := heeding_stand h ht
  · obtain ⟨q,hu'⟩ := Sys.turn_eq hu
    have hno : d.handle ≠ some f := fun hd =>
      hut (h.1.one t u cl d w₀ w (Sys.turn_run ht) hu hf hd).symm
    obtain ⟨_,hd,_⟩ | ⟨_,hd,_⟩ | ⟨_,hgu⟩ := heeding_stand h hu'
    · exact absurd hd hno
    · exact absurd hd hno
    · rw [hgu]
      trivial
  · rw [hg] at hok
    have hmode : (w'.jobs f).mode = (s.world.jobs f).mode := by
      rw [hj]
      exact Act.GoesBy.mode hok s.world.jobs f
    obtain ⟨q,hu'⟩ := Sys.turn_eq hu
    obtain ⟨hd,_⟩ | ⟨_,_,hgu⟩ | ⟨_,hgu⟩ := heeding_stand h hu'
    · exact absurd (h.1.one u t d cl w w₀ hu (Sys.turn_run ht) hd hh) hut
    · rw [hgu] at hk ⊢
      exact hmode.trans hk
    · rw [hgu]
      trivial
  · rw [hg] at hok
    exact hk.congr (by rw [hj]; exact hok s.world.jobs)

theorem Act.Elsewhere.jobs {a : Act} (h : a.Elsewhere f) {w w' : World}
    (hj : w'.jobs = a.stored w.jobs) : w'.jobs f = w.jobs f := by
  rw [hj]
  exact h w.jobs

theorem heedingOutline (c : Cipher) (f : Nat) :
    Outline (machine c) (OneByOne f) (heedingAssertions f) where
  call {s g t cl} h hp ht := by
    obtain ⟨hsys,hp⟩ := hp
    refine ⟨cl.stand f s.world,⟨?_,?_⟩,rfl,code_heeding hsys s.world⟩
    · intro u v d e w₀ w₁ hu hv hd he
      rw [turn_update] at hu hv
      by_cases hut : u = t
      · subst u
        rw [Function.update_self] at hu
        cases hu
        by_contra hvt
        rw [Function.update_of_ne (Ne.symm hvt)] at hv
        exact (hp v e w₁ hv).1 hd he
      · rw [Function.update_of_ne hut] at hu
        by_cases hvt : v = t
        · subst v
          rw [Function.update_self] at hv
          cases hv
          have hno := (hp u d w₀ hu).2 he
          rw [hd] at hno
          cases hno
        · rw [Function.update_of_ne hvt] at hv
          exact h.1.one u v d e w₀ w₁ hu hv hd he
    · intro u d w₀ hu
      rw [turn_update] at hu
      by_cases hut : u = t
      · subst u
        rw [Function.update_self]
        exact Call.stand_knows cl s.world
      · rw [Function.update_of_ne hut] at hu ⊢
        exact h.1.knows u d w₀ hu
  ret _ _ _ := trivial
  leave {s g t cl w₀ v} h ht := by
    refine h.1.move (fun u d w hu => ?_) (fun _ _ _ _ hk => hk)
    rw [turn_update] at hu
    exact of_update_none hu
  link_refl γ := by
    cases γ with
    | sets j => exact ⟨j,rfl⟩
    | _ => exact rfl
  link {γ₀ γ a r γ'} hl hn := by
    cases γ₀ with
    | off =>
      obtain rfl : γ = .off := hl
      exact hn
    | uses j =>
      obtain rfl : γ = .uses j := hl
      exact Stand.uses_next_eq hn
    | sets j₀ =>
      obtain ⟨j,rfl⟩ : ∃ j, γ = .sets j := hl
      exact Stand.sets_next_eq hn
  done {s g t x cl w₀ a k r w} h hp ht he := by
    have hself := Sys.turn_run ht
    have hknow := h.1.knows t cl w₀ hself
    have hjobs := World.exec_jobs he
    have hok : Stand.Ok f (g t) a := h.ok ht
    have next (γ : Stand) (hn : Stand.Next f (g t) a r γ) (hγ : γ.Knows f w) :
        ∃ γ, Stand.Next f (g t) a r γ ∧ Heeded f (Function.update g t γ)
          { s with world := w, thr := Function.update s.thr t (.run cl w₀ (k r)) } := by
      refine ⟨γ,hn,h.1.move (fun u d w' hu => ?_) (fun u d w' hu hk => ?_)⟩
      · rwa [Turns.turn_update_run ht] at hu
      · rw [Turns.turn_update_run ht] at hu
        by_cases hut : u = t
        · subst u
          rw [Function.update_self]
          exact hγ
        · rw [Function.update_of_ne hut]
          exact heeded_others h ht hjobs hut hu hk
    obtain ⟨_,_,j,hg⟩ | ⟨_,_,hg⟩ | ⟨_,hg⟩ := heeding_stand h ht
    · rw [hg] at hknow hok
      obtain rfl : s.world.jobs f = j := hknow
      refine next (.sets (w.jobs f)) ?_ rfl
      rw [hg]
      refine sets_next hok (fun arg ha => hp arg ?_) he
      rw [← ha]
      simp [Sys.next,ht]
    · rw [hg] at hknow hok
      refine next (.uses (w₀.jobs f)) ?_ ?_
      · rw [hg]
        exact uses_next hknow he
      · refine Eq.trans ?_ hknow
        rw [hjobs]
        exact Act.GoesBy.mode hok s.world.jobs f
    · refine next .off ?_ trivial
      rw [hg]
      exact rfl
  stay h _ _ he := by
    have hj := (World.stay_settles (c := c) he).jobs
    exact h.1.move (fun _ _ _ hu => hu) (fun _ _ _ _ hk => hk.congr (congrFun hj f))
  oops {s g t x cl w₀ a k w} h _ ht he := by
    obtain ⟨rfl,_⟩ := World.exec_oops he
    refine ⟨trivial,h.1.move (fun u d w hu => ?_) (fun _ _ _ _ hk => hk)⟩
    rw [turn_update] at hu
    exact of_update_none hu
  env h _ he := by
    have hj := (World.env_settles he).jobs
    exact h.1.move (fun _ _ _ hu => hu) (fun _ _ _ _ hk => hk.congr (congrFun hj f))

end

section
variable {f : Nat} {j j' j₀ : Job} {hs : List (Call × Int)} {e : Call × Int}

theorem Job.Told.congr (h : j.Told f j₀ hs) (hm : j'.mode = j.mode) : j'.Told f j₀ hs where
  keyab := (View.mode_eq hm).2.2.2.2.trans h.keyab
  flag x := (Job.flag_of_mode hm x).trans (h.flag x)

theorem Job.told_nil (f : Nat) (j : Job) : j.Told f j [] := ⟨rfl,fun _ => rfl⟩

theorem Job.Told.skip (h : j.Told f j₀ hs) (hk : Call.keySet f e = none)
    (hf : Call.flagSet f e = none) : j.Told f j₀ (e :: hs) where
  keyab := by simpa [keySince,hk] using h.keyab
  flag x := by simpa [flagSince,hf] using h.flag x

theorem Job.Told.key (h : j.Told f j₀ hs) {k : Nat} (hk : Call.keySet f e = some k)
    (hf : Call.flagSet f e = none) : { j with keyab := k }.Told f j₀ (e :: hs) where
  keyab := by simp [keySince,hk]
  flag x := by
    have hx := h.flag x
    cases x <;> simpa [flagSince,hf,Job.flag] using hx

theorem Job.setFlag_flag (j : Job) (x y : Flag) (b : Bool) :
    (j.setFlag x b).flag y = if x = y then b else j.flag y := by
  cases x <;> cases y <;> rfl

theorem Job.Told.set (h : j.Told f j₀ hs) {x : Flag} {b : Bool} (hk : Call.keySet f e = none)
    (hf : Call.flagSet f e = some (x,b)) : (j.setFlag x b).Told f j₀ (e :: hs) where
  keyab := by
    have hj : (j.setFlag x b).keyab = j.keyab := by cases x <;> rfl
    rw [hj]
    simpa [keySince,hk] using h.keyab
  flag y := by
    rw [Job.setFlag_flag]
    by_cases hxy : x = y
    · simp [flagSince,hf,hxy,Option.filter]
    · simpa [flagSince,hf,hxy] using h.flag y

theorem settingOf_key (b : Byte) : settingOf SET_KEY b = none := by
  rw [settingOf,if_neg (by decide),if_neg (by decide),if_neg (by decide)]

theorem Call.flagSet_key (f : Nat) (arg : List Byte) (r : Int) :
    Call.flagSet f (.ioctl f SET_KEY arg,r) = none := by
  rw [Call.flagSet]
  split
  · cases ioctlByte arg with
    | none => rfl
    | some b => exact settingOf_key b
  · rfl

theorem Job.Told.failed (h : j.Told f j₀ hs) {cl : Call} {r : Int} (hr : r ≠ 0) :
    j.Told f j₀ ((cl,r) :: hs) := by
  refine h.skip ?_ ?_
  · cases cl <;> simp [Call.keySet,hr]
  · cases cl <;> simp [Call.flagSet,hr]

/-- An ioctl that spares the job, be it answered an error or not. -/
theorem Job.Told.ioctl (h : j.Told f j₀ hs) {cmd : Nat} {arg : List Byte}
    (hsp : j.Spares cmd arg) :
    (j.ioctl cmd arg).2.Told f j₀ ((.ioctl f cmd arg,(j.ioctl cmd arg).1) :: hs) := by
  by_cases hkey : cmd = SET_KEY
  · subst hkey
    rw [Job.ioctl,if_pos rfl]
    by_cases hlen : 4-arg.length ≠ 0
    · have hk : le32 arg = j.keyab := (hsp rfl).resolve_left (by omega)
      rw [if_pos hlen,hk]
      exact h.failed (r := -eAGAIN) (by decide)
    · rw [if_neg hlen]
      exact h.key (by simp [Call.keySet]) (Call.flagSet_key f arg 0)
  · have hk (r : Int) : Call.keySet f (.ioctl f cmd arg,r) = none := by simp [Call.keySet,hkey]
    rw [Job.ioctl,if_neg hkey]
    by_cases hset : cmd = SET_CONFIG ∨ cmd = SET_ENCRYP ∨ cmd = SET_MMAP
    · rw [if_pos hset]
      cases hb : ioctlByte arg with
      | none => exact h.failed (r := -eAGAIN) (by decide)
      | some b =>
        dsimp only
        cases ho : settingOf cmd b with
        | none => exact h.failed (r := -eINVAL) (by decide)
        | some p => exact h.set (hk 0) (by simp [Call.flagSet,Job.put,hb,ho])
    · rw [if_neg hset]
      exact h.failed (r := -eINVAL) (by decide)

end

/-- What a handle is set to in every state of a run, after the calls `hs`. -/
structure Logged (f : Nat) (j₀ : Job) (hs : List (Call × Int)) (s : System) : Prop where
  still : (∀ t cl w, s.turn t = some (cl,w) → cl.ioctlOn f = false) →
    (s.world.jobs f).Told f j₀ hs
  busy : ∀ t cl w, s.turn t = some (cl,w) → cl.ioctlOn f = true → (w.jobs f).Told f j₀ hs

section
variable {f t : Nat} {c : Cipher} {s : System} {g : Nat → Stand} {j₀ : Job}
variable {hs : List (Call × Int)}

theorem Call.ioctlOn_eq {cl : Call} (h : cl.ioctlOn f = true) :
    ∃ cmd arg, cl = .ioctl f cmd arg := by
  cases cl with
  | ioctl d cmd arg =>
    obtain rfl : d = f := eq_of_beq h
    exact ⟨cmd,arg,rfl⟩
  | _ => cases h

theorem Call.ioctlOn_handle {cl : Call} (h : cl.ioctlOn f = true) : cl.handle = some f := by
  obtain ⟨cmd,arg,rfl⟩ := Call.ioctlOn_eq h
  rfl

/-- A call that is no ioctl on the handle sets nothing. -/
theorem Job.Told.other {j : Job} (h : j.Told f j₀ hs) {cl : Call} {r : Int}
    (hcl : cl.ioctlOn f = false) : j.Told f j₀ ((cl,r) :: hs) := by
  cases cl with
  | ioctl d cmd arg =>
    have hd : d ≠ f := by simpa [Call.ioctlOn] using hcl
    exact h.skip (by simp [Call.keySet,hd]) (by simp [Call.flagSet,hd])
  | _ => exact h.skip rfl rfl

/-- What an ioctl that has returned `r` was answered. -/
theorem heeding_answer (h : (heedingAssertions f).Holds s g) {cmd : Nat} {arg : List Byte}
    {w : World} {r : Int} (ht : s.thr t = .run (.ioctl f cmd arg) w (.ret r)) :
    (w.jobs f).Spares cmd arg ∧ r = ((w.jobs f).ioctl cmd arg).1 ∧
      s.world.jobs f = ((w.jobs f).ioctl cmd arg).2 := by
  obtain ⟨γ₀,hb,_,hpost⟩ := h.post ht
  obtain rfl : γ₀ = .sets (w.jobs f) := hb.trans (if_pos rfl)
  obtain ⟨hsp,hr,hg⟩ := hpost _ _ _ rfl rfl
  have hk := h.1.knows t _ _ (Sys.turn_run ht)
  rw [hg] at hk
  exact ⟨hsp,hr,hk⟩

/-- Steps that bring no call to its end and leave key, direction and mode alone. -/
theorem Logged.move {s' : System} (h : Logged f j₀ hs s) (hturn : s'.turn = s.turn)
    (hj : (∀ t cl w, s.turn t = some (cl,w) → cl.ioctlOn f = false) →
      (s'.world.jobs f).mode = (s.world.jobs f).mode) : Logged f j₀ hs s' where
  still hno := by
    rw [hturn] at hno
    exact (h.still hno).congr (hj hno)
  busy := by
    rw [hturn]
    exact h.busy

theorem logged_step {s' : System} {l : Step} (h : (heedingAssertions f).Holds s g)
    (hL : Logged f j₀ hs s) (hp : OneByOne f s l) (hstep : (machine c).step s l = some s') :
    Logged f j₀ (s.ended l ++ hs) s' := by
  cases l with
  | call t cl =>
    simp only [Machine.step] at hstep
    split at hstep
    · rename_i hidle
      cases hstep
      refine ⟨fun hno => ?_,fun u d w hu hd => ?_⟩
      · refine hL.still (fun u d w hu => hno u d w ?_)
        rw [turn_update,Function.update_of_ne]
        · exact hu
        · rintro rfl
          simp [Sys.turn,hidle] at hu
      · rw [turn_update] at hu
        by_cases hut : u = t
        · subst u
          rw [Function.update_self] at hu
          cases hu
          refine hL.still (fun u d' w hu => ?_)
          by_contra hd'
          exact (hp.2 u d' w hu).1 hd (Call.ioctlOn_handle (by simpa using hd'))
        · rw [Function.update_of_ne hut] at hu
          exact hL.busy u d w hu hd
    · cases hstep
  | act t x =>
    obtain ⟨cl,w₀,a,k,ht,⟨w,he,rfl⟩ | ⟨r,w,he,rfl⟩ | ⟨w,he,rfl⟩⟩ := Machine.actStep_cases hstep
    · have hj := (World.stay_settles (c := c) he).jobs
      exact hL.move rfl (fun _ => by rw [hj])
    · refine hL.move (Turns.turn_update_run ht) (fun hno => ?_)
      have hok : Stand.Ok f (g t) a := h.ok ht
      have hjobs := World.exec_jobs he
      obtain ⟨hf,_⟩ | ⟨_,_,hg⟩ | ⟨_,hg⟩ := heeding_stand h ht
      · rw [hno t cl w₀ (Sys.turn_run ht)] at hf
        cases hf
      · rw [hg] at hok
        dsimp only
        rw [hjobs]
        exact Act.GoesBy.mode hok s.world.jobs f
      · rw [hg] at hok
        exact congrArg Job.mode (Act.Elsewhere.jobs hok hjobs)
    · obtain ⟨rfl,p,n,hb,_⟩ := World.exec_oops he
      have hok : Stand.Ok f (g t) a := h.ok ht
      have hcl : cl.ioctlOn f = false := by
        obtain ⟨_,_,j,hg⟩ | ⟨hcl,_⟩ | ⟨hcl,_⟩ := heeding_stand h ht
        · rw [hg] at hok
          cases a <;> first | (cases hb; done) | cases hok
        · exact hcl
        · exact hcl
      refine ⟨fun hno => hL.still (fun u d w hu => ?_),fun u d w hu hd => ?_⟩
      · by_cases hut : u = t
        · subst u
          cases (Sys.turn_run ht).symm.trans hu
          exact hcl
        · refine hno u d w ?_
          rw [turn_update,Function.update_of_ne hut]
          exact hu
      · rw [turn_update] at hu
        exact hL.busy u d w (of_update_none hu) hd
  | ret t =>
    simp only [Machine.step] at hstep
    split at hstep
    · rename_i cl w₀ v ht
      cases hstep
      have hended : s.ended (.ret t : Step) = [(cl,v)] := by simp [Sys.ended,Sys.returns,ht]
      rw [hended]
      cases hcl : cl.ioctlOn f with
      | true =>
        have alone (u : Nat) (d : Call) (w : World) (hu : s.turn u = some (d,w))
            (hd : d.ioctlOn f = true) : u = t :=
          (h.1.one t u cl d w₀ w (Sys.turn_run ht) hu hcl (Call.ioctlOn_handle hd)).symm
        refine ⟨fun _ => ?_,fun u d w hu hd => ?_⟩
        · have htold := hL.busy t cl w₀ (Sys.turn_run ht) hcl
          obtain ⟨cmd,arg,rfl⟩ := Call.ioctlOn_eq hcl
          obtain ⟨hsp,rfl,hj⟩ := heeding_answer h ht
          rw [hj]
          exact htold.ioctl hsp
        · rw [turn_update] at hu
          obtain rfl := alone u d w (of_update_none hu) hd
          simp [Thread.turn] at hu
      | false =>
        refine ⟨fun hno => (hL.still (fun u d w hu => ?_)).other hcl,fun u d w hu hd => ?_⟩
        · by_cases hut : u = t
          · subst u
            cases (Sys.turn_run ht).symm.trans hu
            exact hcl
          · refine hno u d w ?_
            rw [turn_update,Function.update_of_ne hut]
            exact hu
        · rw [turn_update] at hu
          exact (hL.busy u d w (of_update_none hu) hd).other hcl
    · cases hstep
  | env e =>
    simp only [Machine.step,Option.map_eq_some_iff] at hstep
    obtain ⟨w,he,rfl⟩ := hstep
    have hj := (World.env_settles he).jobs
    exact hL.move rfl (fun _ => by rw [hj])

/-- An ioctl on its own, with the card and its interrupts at work. -/
theorem ioctl_can {Q : Int → World → Prop} {ok : Choice → Prop} {cmd : Nat} {arg : List Byte}
    {w : World} (h : (machine c).Can t ok Q (pciUnlockedIoctl f cmd arg) w) :
    ∃ w', w'.jobs f = ((w.jobs f).ioctl cmd arg).2 ∧ Q ((w.jobs f).ioctl cmd arg).1 w' := by
  have env {jobs : Nat → Job} (e : World.Env) (w₁ w₂ : World) (h₁ : w₁.jobs = jobs)
      (he : World.env c e w₁ = some w₂) : w₂.jobs = jobs := (World.env_settles he).jobs.trans h₁
  have last {w₁ : World} {v : Int} (h₁ : w₁.jobs f = ((w.jobs f).ioctl cmd arg).2)
      (hv : v = ((w.jobs f).ioctl cmd arg).1) (h : (machine c).Can t ok Q (pure v) w₁) :
      ∃ w', w'.jobs f = ((w.jobs f).ioctl cmd arg).2 ∧ Q ((w.jobs f).ioctl cmd arg).1 w' := by
    obtain ⟨w',hw',hq⟩ := h.ret_inv (I := fun w' => w'.jobs = w₁.jobs) env rfl
    exact ⟨w',by rw [hw',h₁],hv ▸ hq⟩
  rw [pciUnlockedIoctl_eq] at h
  obtain ⟨x,r,w₁,w₂,h₁,he,h⟩ := h.step_inv (I := fun w' => w'.jobs = w.jobs) env rfl
  cases he
  rw [if_neg (by decide)] at h
  by_cases hkey : cmd = SET_KEY
  · rw [if_pos hkey] at h
    obtain ⟨x,r,w₂,w₃,h₂,he,h⟩ := h.step_inv (I := fun w' => w'.jobs = w.jobs) env h₁
    cases he
    have hj : (w₂.setJob f { w₂.jobs f with keyab := le32 arg }).jobs f =
        { w.jobs f with keyab := le32 arg } := by simp [World.setJob,h₂]
    have hio : (w.jobs f).ioctl cmd arg =
        (if 4-arg.length ≠ 0 then -eAGAIN else 0,{ w.jobs f with keyab := le32 arg }) := by
      rw [Job.ioctl,if_pos hkey]
    by_cases hlen : 4-arg.length ≠ 0
    · rw [if_pos hlen] at h hio
      exact last (by rw [hio]; exact hj) (by rw [hio]) h
    · rw [if_neg hlen] at h hio
      exact last (by rw [hio]; exact hj) (by rw [hio]) h
  · rw [if_neg hkey] at h
    by_cases hset : cmd = SET_CONFIG ∨ cmd = SET_ENCRYP ∨ cmd = SET_MMAP
    · rw [if_pos hset] at h
      cases hb : ioctlByte arg with
      | none =>
        have hio : (w.jobs f).ioctl cmd arg = (-eAGAIN,w.jobs f) := by
          rw [Job.ioctl,if_neg hkey,if_pos hset,hb]
        rw [hb] at h
        exact last (by rw [hio,h₁]) (by rw [hio]) h
      | some b =>
        have hio : (w.jobs f).ioctl cmd arg = (w.jobs f).put (settingOf cmd b) := by
          rw [Job.ioctl,if_neg hkey,if_pos hset,hb]
        rw [hb] at h
        dsimp only at h
        cases ho : settingOf cmd b with
        | none =>
          rw [ho] at h hio
          exact last (by rw [hio,h₁]; rfl) (by rw [hio]; rfl) h
        | some p =>
          obtain ⟨y,v⟩ := p
          rw [ho] at h hio
          obtain ⟨x,r,w₂,w₃,h₂,he,h⟩ := h.step_inv (I := fun w' => w'.jobs = w.jobs) env h₁
          cases he
          have hj : (w₂.setJob f ((w₂.jobs f).setFlag y v)).jobs f = (w.jobs f).setFlag y v := by
            simp [World.setJob,h₂]
          exact last (by rw [hio]; exact hj) (by rw [hio]; rfl) h
    · rw [if_neg hset] at h
      have hio : (w.jobs f).ioctl cmd arg = (-eINVAL,w.jobs f) := by
        rw [Job.ioctl,if_neg hkey,if_neg hset]
      exact last (by rw [hio,h₁]) (by rw [hio]) h

theorem Job.Spares.kept {j : Job} {cmd : Nat} {arg : List Byte} (h : j.Spares cmd arg)
    (hr : (j.ioctl cmd arg).1 ≠ 0) : (j.ioctl cmd arg).2 = j := by
  unfold Job.ioctl at hr ⊢
  split
  · rename_i hkey
    rw [if_pos hkey] at hr
    have hlen : ¬ 4 ≤ arg.length := fun hlen => hr (if_neg (by omega))
    rw [(h hkey).resolve_left hlen]
  · rename_i hkey
    rw [if_neg hkey] at hr
    split
    · rename_i hset
      rw [if_pos hset] at hr
      cases hb : ioctlByte arg with
      | none => rfl
      | some b =>
        rw [hb] at hr
        dsimp only at hr ⊢
        cases ho : settingOf cmd b with
        | none => rfl
        | some p =>
          rw [ho] at hr
          exact absurd rfl hr
    · rfl

/-- A copy of the key that is cut short leaves its beginning and zeros. -/
theorem ioctl_clobbers {arg : List Byte} {w : World} (hlen : arg.length < 4)
    (hkey : le32 arg ≠ (w.jobs f).keyab) :
    (machine c).Can t (fun _ => True) (fun r w' => r ≠ 0 ∧ w'.jobs f ≠ w.jobs f)
      (Call.ioctl f SET_KEY arg).code w := by
  have hr : 4-arg.length ≠ 0 := by omega
  refine .step .ok trivial rfl ?_
  rw [if_neg (by decide),if_pos rfl]
  refine .step .ok trivial rfl ?_
  rw [if_pos hr]
  refine .ret ⟨by decide,fun hj => hkey ?_⟩
  have hk := congrArg Job.keyab hj
  simpa [World.setJob] using hk

theorem Act.GoesBy.congr {a : Act} {j j' : Job} (h : a.GoesBy j) (hm : j'.mode = j.mode) :
    a.GoesBy j' := by
  obtain ⟨hE,hM,hI,hN,hk⟩ := View.mode_eq hm
  cases a with
  | iowrite r v =>
    cases r with
    | keys => exact h.trans hk.symm
    | status => exact ⟨hM.trans h.1,by rw [hE]; exact h.2.1,by rw [hI]; exact h.2.2⟩
    | cmd => exact ⟨hM.trans h.1,by rw [hE]; exact h.2.1,by rw [hI]; exact h.2.2⟩
    | _ => first | exact hM.trans h | exact h
  | waitEvent k => exact hI.trans h
  | pollBusy k => exact hI.trans h
  | _ => first | exact hN.trans h | exact h

theorem heeding_start (f : Nat) (w : World) :
    (heedingAssertions f).Holds (start w) (fun _ => .off) :=
  ⟨⟨fun _ _ _ _ _ _ ht => (nomatch ht),fun _ _ _ ht => (nomatch ht)⟩,fun _ => trivial⟩

theorem obeyed (h : (heedingAssertions f).Holds s g) (hL : Logged f j₀ hs s) :
    Obeyed f j₀ hs s where
  spared t cmd arg w r ht hr := by
    obtain ⟨hsp,rfl,hj⟩ := heeding_answer h ht
    rw [hj]
    exact hsp.kept hr
  told := hL.still
  used t ptr len w a ht hn := by
    obtain ⟨p,hp⟩ := Sys.turn_eq ht
    have hok : Stand.Ok f (g t) a := h.next hn
    have hknow := h.1.knows t _ w ht
    refine ⟨hL.still (fun u d w' hu => ?_),?_⟩
    · by_contra hd
      obtain rfl := h.1.one u t d _ w' w hu ht (by simpa using hd) rfl
      cases ht.symm.trans hu
      exact hd rfl
    · obtain ⟨γ₀,hb,hl⟩ := h.began hp
      obtain rfl : γ₀ = .uses (w.jobs f) := hb.trans (if_pos rfl)
      have hg : g t = .uses (w.jobs f) := hl
      rw [hg] at hok hknow
      exact Act.GoesBy.congr hok hknow

/-- A failing ioctl leaves every field of the job alone exactly if it is not one that sets
the key from a copy that is cut short, and changes the key that is there. With no such ioctl,
after any sequence of ioctls on a handle, its writes use the key, direction and mode of the
last successful one of each kind. -/
theorem ioctl_spares_iff (c : Cipher) :
    (∀ (t f cmd : Nat) (arg : List Byte) (w : World),
      ¬ (machine c).Can t (fun _ => True) (fun r w' => r ≠ 0 ∧ w'.jobs f ≠ w.jobs f)
        (Call.ioctl f cmd arg).code w ↔ (w.jobs f).Spares cmd arg) ∧
    ∀ (f : Nat) (w : World) (hs : List (Call × Int)) (s : System),
      (machine c).Logs (OneByOne f) (start w) hs s → Obeyed f (w.jobs f) hs s := by
  refine ⟨fun t f cmd arg w => ⟨fun h => ?_,fun hsp h => ?_⟩,fun f w hs s hr => ?_⟩
  · rintro rfl
    by_contra hno
    rw [not_or] at hno
    exact h (ioctl_clobbers (by omega) hno.2)
  · obtain ⟨w',hj,hr,hne⟩ := ioctl_can h
    exact hne (hj.trans (hsp.kept hr))
  · obtain ⟨hL,g,hg⟩ := (heedingOutline c f).logs (L := Logged f (w.jobs f)) logged_step
      (heeding_start f w) ⟨fun _ => Job.told_nil f _,fun _ _ _ ht => nomatch ht⟩ hr
    exact obeyed hg hL

end

/-- Steps of one thread, with keys that are copied whole. -/
def wholeStep (s : System) : Step → Bool
  | .call _ cl => cl.isSystem && s.isIdle 0
  | .act t _ =>
    match s.next t with
    | some (.copyKey _ arg) => 4 ≤ arg.length
    | _ => true
  | _ => true

theorem oneByOne_of_whole {f : Nat} {s : System} {l : Step} (hq : s.Quiet 1)
    (h : wholeStep s l = true) : OneByOne f s l := by
  cases l with
  | call t cl =>
    obtain ⟨hsys,hidle⟩ := Bool.and_eq_true_iff.mp h
    refine ⟨hsys,fun u d w hu => ?_⟩
    have hu0 : s.thr u = .idle := by
      by_cases h0 : u = 0
      · rw [h0]
        exact Sys.idle_of_isIdle hidle
      · exact hq u (by omega)
    simp [Sys.turn,hu0] at hu
  | act t x =>
    intro arg hn
    simp only [wholeStep,hn] at h
    exact .inl (of_decide_eq_true h)
  | _ => trivial

/-- A key is set, a direction is refused, and a write programs the key. -/
def keyedWrite : List Step :=
  .call 0 (.ioctl 0 SET_KEY [7,0,0,0]) :: List.replicate 2 (.act 0 .ok) ++ .ret 0 ::
  .call 0 (.ioctl 0 SET_ENCRYP [1]) :: .act 0 .ok :: .ret 0 ::
  .call 0 (.write 0 0 1) :: List.replicate 5 (.act 0 .ok) ++ .act 0 (.value 0) ::
  List.replicate 4 (.act 0 .ok)

theorem ioctl_spares_iff_keyed :
    ∃ s, (machine (.bytewise fun _ _ x => x)).Logs (OneByOne 0)
      (start (World.boot (fun _ => 0) (fun _ => 0)))
      [(.ioctl 0 SET_ENCRYP [1],-eINVAL),(.ioctl 0 SET_KEY [7,0,0,0],0)] s ∧
      s.next 0 = some (.iowrite .keys 7) ∧
      Obeyed 0 pciOpen [(.ioctl 0 SET_ENCRYP [1],-eINVAL),(.ioctl 0 SET_KEY [7,0,0,0],0)] s := by
  let M := machine (.bytewise fun _ _ x => x)
  let s₀ := start (World.boot (fun _ => 0) (fun _ => 0))
  have hrun : (M.runIf 1 wholeStep s₀ keyedWrite).any
      (fun s => s.next 0 == some (.iowrite .keys 7)) = true := by decide +kernel
  have hlog : M.log [] s₀ keyedWrite =
      [(.ioctl 0 SET_ENCRYP [1],-eINVAL),(.ioctl 0 SET_KEY [7,0,0,0],0)] := by decide +kernel
  obtain ⟨s,hs,hp⟩ := (Option.any_eq_true _ _).mp hrun
  have hr := Machine.logs_of_runIf (P := OneByOne 0) (fun _ _ => oneByOne_of_whole) keyedWrite
    (start_quiet _ 1) .refl hs
  rw [hlog] at hr
  exact ⟨s,hr,eq_of_beq hp,(ioctl_spares_iff _).2 0 _ _ s hr⟩

/-- A key is set, and then another one is asked for at an address that cannot be read. -/
theorem ioctl_changes_key :
    ¬ ∀ (c : Cipher) (umem mem : Nat → Byte) (s : System) (t f cmd : Nat) (arg : List Byte),
      (machine c).Reaches (fun _ _ => True) (start (World.boot umem mem)) s →
      s.thr t = .idle →
      ¬ (machine c).Can t (fun _ => True) (fun r w' => r ≠ 0 ∧ w'.jobs f ≠ s.world.jobs f)
        (Call.ioctl f cmd arg).code s.world := by
  intro h
  obtain ⟨s,hr,_,hp⟩ := Machine.exists_reaches (M := machine (.bytewise fun _ _ x => x))
    (P := fun _ _ => True) (n := 1) (b := fun _ _ => true)
    (p := fun s => s.isIdle 0 && (s.world.jobs 0).keyab == 7) (fun _ _ _ _ => trivial)
    (.call 0 (.ioctl 0 SET_KEY [7,0,0,0]) :: List.replicate 2 (.act 0 .ok) ++ [.ret 0])
    (start_quiet (World.boot (fun _ => 0) (fun _ => 0)) 1) (by decide +kernel)
  obtain ⟨hidle,hkey⟩ := Bool.and_eq_true_iff.mp hp
  refine h _ _ _ s 0 0 SET_KEY [] hr (Sys.idle_of_isIdle hidle) (ioctl_clobbers (by decide) ?_)
  rw [eq_of_beq hkey]
  decide

end CryptoCard
