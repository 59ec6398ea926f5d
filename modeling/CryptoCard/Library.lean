import CryptoCard.Chunks
import CryptoCard.Session
set_option autoImplicit false

/-! What the calls of the library do to the view of the client that makes them. -/
namespace CryptoCard
open Memory Chunks Program Interleave

/-- What of a handle's job outlives a call. -/
structure Config where
  key : Nat
  dma : Bool
  intr : Bool
  deriving DecidableEq, Repr

def Job.config (j : Job) : Config := ⟨j.keyab,!j.isM,j.isI⟩

/-- What the byte that set_config sends makes of a configuration. -/
def Config.send (s : Config) (value : Byte) : Config :=
  if value = 40 then { s with dma := true }
  else if value = 30 then { s with dma := false }
  else if value = 10 then { s with intr := true }
  else { s with intr := false }

/-- The configuration of handle `f` after a call. -/
def Call.configure (f : Nat) (s : Config) : Call → Config
  | .setKey cdev a b => if cdev = f then { s with key := 256*a.toNat+b.toNat } else s
  | .setConfig cdev type value => if cdev = f then s.send (configByte type value) else s
  | _ => s

/-- The configuration of handle `f` after the calls of a history. -/
def configured (f : Nat) (hs : List (Call × Int)) : Config :=
  hs.foldr (fun e s => e.1.configure f s) ⟨0,false,false⟩

/-- How an encrypt or decrypt of a handle so configured uses the card. -/
def Config.setting (s : Config) (decrypt : Bool) (isMapped : Byte) : Setting :=
  ⟨decrypt,s.key,s.dma,s.intr,isMapped != 0⟩

namespace Call

/-- A call of the library, or a store of a client; not a bare system call. -/
def isLibrary : Call → Bool
  | .write _ _ _ | .ioctl _ _ _ | .irq _ => false
  | _ => true

def role : Call → Role
  | .irq _ => .handler
  | .mapStore _ _ => .mapper
  | _ => .client

def handle : Call → Option Nat
  | .write f _ _ | .ioctl f _ _ | .setKey f _ _ | .setConfig f _ _ => some f
  | .encrypt f _ _ _ | .decrypt f _ _ _ => some f
  | _ => none

/-- The user memory that a call works on. -/
def range : Call → Nat × Nat
  | .encrypt _ addr length isMapped | .decrypt _ addr length isMapped =>
    if isMapped = 0 then (addr,length) else (0,0)
  | .store addr xs => (addr,xs.length)
  | _ => (0,0)

def setting (s : Config) : Call → Setting
  | .decrypt _ _ _ isMapped => s.setting true isMapped
  | .encrypt _ _ _ isMapped => s.setting false isMapped
  | _ => s.setting false 0

end Call

namespace View

/-- What the window holds after a mapped call of `length` bytes that began with `m`. -/
def windowAfter (v : View) (c : Cipher) (length : Nat) (m : Nat → Byte) : Nat → Byte :=
  chunkFold (fun n m => store m r1Start (v.transform c (load m r1Start n))) BUFFERSIZE length m

/-- The chunk loop that began with `v₀` has returned `r`. -/
structure Looped (c : Cipher) (addr length : Nat) (v₀ : View) (r : Int) (v : View) : Prop where
  link : v₀.Link v
  modes : v₀.SameModes v
  clean : v.Clean
  um : v₀.want.mapped = false → r = 0 → v.um = store v₀.um addr
    (chunkMap (v₀.transform c) BUFFERSIZE (load v₀.um addr length))
  kept : v₀.want.mapped = true → v.um = v₀.um
  outside : ∀ x, ¬ Within addr length x → v.um x = v₀.um x
  own : v₀.want.mapped = true → r = 0 → v.own = v₀.own.map (v₀.windowAfter c length)
  refused : (v₀.want.dma && v₀.want.mapped) = true → r = ERROR

section
variable {c : Cipher} {f addr length : Nat} {r : Int} {v v₀ v₁ v₂ : View}

theorem Ready.of_wrote {n : Nat} (hr : Ready f v₀) (h : Wrote c f addr n v₀ r v) : Ready f v := by
  obtain ⟨hE,hM,hI,hN,hk⟩ := mode_eq (h.modes f)
  exact ⟨h.link.role.trans hr.role,h.link.file.trans hr.file,h.clean,
    by rw [hE,h.link.want]; exact hr.isE,by rw [hM,h.link.want]; exact hr.isM,
    by rw [hI,h.link.want]; exact hr.isI,by rw [hN,h.link.want]; exact hr.isNotMM,
    by rw [hk,h.link.want]; exact hr.keyab⟩

theorem Link.transform (h : v₀.Link v) (xs : List Byte) :
    v.transform c xs = v₀.transform c xs := by
  rw [View.transform,View.transform,h.want]

/-- No byte outside of the chunk is touched. -/
theorem Wrote.outside {n x : Nat} (h : Wrote c f addr n v₀ r v) (hx : ¬ Within addr n x) :
    v.um x = v₀.um x := by
  obtain ⟨m,hum,_⟩ := h.um
  rw [hum]
  refine store_outside _ _ _ _ (fun hin => hx ⟨hin.1,?_⟩)
  have hlt := hin.2
  rw [List.length_take,transform_length,load_length] at hlt
  omega

/-- A write that fails ends the loop. -/
theorem Looped.failed {n : Nat} (h : Wrote c f addr n v₀ r v) (hn : n ≤ length) :
    Looped c addr length v₀ ERROR v where
  link := h.link
  modes := h.modes
  clean := h.clean
  um _ h0 := absurd h0 (by decide)
  kept hm := by
    obtain ⟨m,hum,_,h0⟩ := h.um
    rw [hum,h0 hm,List.take_zero,store_nil]
  outside x hx := h.outside (fun hin => hx ⟨hin.1,by have := hin.2; omega⟩)
  own _ h0 := absurd h0 (by decide)
  refused _ := rfl

theorem Wrote.um_eq {n : Nat} (h : Wrote c f addr n v₀ 0 v) (hm : v₀.want.mapped = false) :
    v.um = store v₀.um addr (v₀.transform c (load v₀.um addr n)) := by
  obtain ⟨m,hum,hle,_⟩ := h.um
  rw [hum,List.take_of_length_le (by simpa using hle hm rfl)]

theorem Wrote.um_kept {n : Nat} (h : Wrote c f addr n v₀ r v) (hm : v₀.want.mapped = true) :
    v.um = v₀.um := by
  obtain ⟨m,hum,_,h0⟩ := h.um
  rw [hum,h0 hm,List.take_zero,store_nil]

theorem Looped.last (h : Wrote c f addr length v₀ 0 v)
    (hd : (v₀.want.dma && v₀.want.mapped) = false) (hl : length ≤ BUFFERSIZE) :
    Looped c addr length v₀ 0 v where
  link := h.link
  modes := h.modes
  clean := h.clean
  um hm _ := by rw [h.um_eq hm,chunkMap_short _ _ _ (by simpa using hl)]
  kept := h.um_kept
  outside _ hx := h.outside hx
  own hm _ := by
    rw [h.own hm rfl]
    congr 1
    funext m
    rw [windowAfter,chunkFold_short _ _ _ _ hl]
  refused h0 := absurd (hd.symm.trans h0) (by decide)

theorem Looped.next (h : Wrote c f addr BUFFERSIZE v₀ 0 v₁)
    (h' : Looped c (addr+BUFFERSIZE) (length-BUFFERSIZE) v₁ r v₂) (hl : BUFFERSIZE < length) :
    Looped c addr length v₀ r v₂ where
  link := h.link.trans h'.link
  modes f' := (h'.modes f').trans (h.modes f')
  clean := h'.clean
  um hm hr := by
    have hxs : load v₁.um (addr+BUFFERSIZE) (length-BUFFERSIZE) =
        (load v₀.um addr length).drop BUFFERSIZE := by
      rw [load_drop _ _ _ _ (Nat.le_of_lt hl),h.um_eq hm]
      refine load_store_disjoint _ _ _ _ _ (fun x hx => ?_)
      simp only [Within,transform_length,load_length] at hx ⊢
      omega
    have hf : v₁.transform c = v₀.transform c := funext h.link.transform
    rw [h'.um (by rw [h.link.want]; exact hm) hr,hxs,hf,h.um_eq hm]
    rw [chunkMap_long _ _ (load v₀.um addr length) BUFFERSIZE_pos (by simpa using hl),
      load_take _ _ _ _ (Nat.le_of_lt hl),store_append]
    simp
  kept hm := (h'.kept (by rw [h.link.want]; exact hm)).trans (h.um_kept hm)
  outside x hx := by
    rw [h'.outside x (fun hin => hx (by have := hin.1; have := hin.2; unfold Within; omega))]
    exact h.outside (fun hin => hx (by have := hin.1; have := hin.2; unfold Within; omega))
  own hm hr := by
    have hf : v₁.transform c = v₀.transform c := funext h.link.transform
    rw [h'.own (by rw [h.link.want]; exact hm) hr,h.own hm rfl,Option.map_map]
    congr 1
    funext m
    rw [Function.comp_apply,windowAfter,windowAfter,hf,
      chunkFold_long _ _ _ _ BUFFERSIZE_pos hl]
  refused hd := h'.refused (by rw [h.link.want]; exact hd)

theorem sysWrite_view {n : Nat} (hr : Ready f v) (hn : n ≤ BUFFERSIZE)
    (hc : v.want.mapped = false → v.Covers addr n) :
    wp (viewing c) (sysWrite f addr n) (fun r v' => Wrote c f addr n v r v' ∧
      ((v.want.dma && v.want.mapped) = true → r ≠ 0)) v := by
  rw [sysWrite_eq _ _ _ (by unfold BUFFERSIZE at hn; unfold MAX_RW_COUNT; omega)]
  exact pciWrite_view hr (by unfold BUFFERSIZE at hn; omega) hc

/-- The chunks of encrypt and decrypt are written one after the other. -/
theorem cryptLoop_view {fuel : Nat} (hr : Ready f v) (hfuel : length / BUFFERSIZE < fuel)
    (hc : v.want.mapped = false → v.Covers addr length) :
    wp (viewing c) (cryptLoop f fuel addr length) (Looped c addr length v) v := by
  induction fuel generalizing addr length v with
  | zero => exact absurd hfuel (Nat.not_lt_zero _)
  | succ fuel ih =>
    rw [cryptLoop_succ]
    by_cases hl : length > BUFFERSIZE
    · simp only [if_pos hl,wp_bind]
      have hrest : length-BUFFERSIZE > 0 := by omega
      have hdiv := div_BUFFERSIZE hl
      have hc₀ (hm : v.want.mapped = false) : v.Covers addr BUFFERSIZE :=
        ⟨(hc hm).1,by have := (hc hm).2; omega⟩
      refine wp_mono ?_ (sysWrite_view hr (Nat.le_refl _) hc₀)
      rintro r v₁ ⟨hw,_⟩
      rw [wp_ite]
      refine ⟨fun _ => .failed hw (by omega),fun hr0 => ?_⟩
      obtain rfl : r = 0 := not_not.mp hr0
      rw [if_pos hrest]
      refine wp_mono (fun r v₂ h' => .next hw h' hl) (ih (hr.of_wrote hw) (by omega) ?_)
      intro hm
      obtain ⟨h1,h2⟩ := hc (by rw [← hw.link.want]; exact hm)
      exact ⟨by rw [hw.link.lo]; omega,by rw [hw.link.lo,hw.link.size]; omega⟩
    · simp only [if_neg hl,wp_bind]
      refine wp_mono ?_ (sysWrite_view hr (by omega) hc)
      rintro r v₁ ⟨hw,hd⟩
      rw [wp_ite]
      refine ⟨fun _ => .failed hw (Nat.le_refl _),fun hr0 => ?_⟩
      obtain rfl : r = 0 := not_not.mp hr0
      rw [if_neg (by omega)]
      refine .last hw ?_ (by omega)
      rw [← Bool.not_eq_true]
      exact fun h => hd h rfl

/-- What a job's settings are set to by the first two ioctls of a library call. -/
theorem setEncryp_view {Q : Int → View → Prop} {value : Byte} (hf : v.file = some f)
    (hfree : v.Free) (hv : value = 50 ∨ value = 60)
    (h : Q 0 (v.setJob f { v.jobs f with isE := value == 50 })) :
    wp (viewing c) (pciUnlockedIoctl f SET_ENCRYP [value]) Q v := by
  refine wp_step.mpr ⟨⟨hf,hfree⟩,?_⟩
  rintro _ _ ⟨rfl,rfl⟩
  obtain rfl | rfl := hv
  · refine wp_step.mpr ⟨⟨hf,hfree⟩,?_⟩
    rintro _ _ rfl
    exact h
  · refine wp_step.mpr ⟨⟨hf,hfree⟩,?_⟩
    rintro _ _ rfl
    exact h

theorem setMmap_view {Q : Int → View → Prop} {isMapped : Byte} (hf : v.file = some f)
    (hfree : v.Free)
    (h : Q 0 (v.setJob f { v.jobs f with isNotMM := isMapped == 0 })) :
    wp (viewing c) (pciUnlockedIoctl f SET_MMAP [if isMapped ≠ 0 then 70 else 80]) Q v := by
  refine wp_step.mpr ⟨⟨hf,hfree⟩,?_⟩
  rintro _ _ ⟨rfl,rfl⟩
  by_cases hm : isMapped = 0
  · subst hm
    refine wp_step.mpr ⟨⟨hf,hfree⟩,?_⟩
    rintro _ _ rfl
    exact h
  · rw [if_pos hm]
    refine wp_step.mpr ⟨⟨hf,hfree⟩,?_⟩
    rintro _ _ rfl
    rwa [show (isMapped == 0) = false by simpa using hm] at h

theorem setKey_view {Q : Int → View → Prop} {a b : Byte} (hf : v.file = some f) (hfree : v.Free)
    (h : Q 0 (v.setJob f { v.jobs f with keyab := 256*a.toNat+b.toNat })) :
    wp (viewing c) (CryptoCard.setKey f a b) Q v := by
  refine wp_step.mpr ⟨⟨hf,hfree⟩,?_⟩
  rintro _ _ ⟨rfl,rfl⟩
  refine wp_step.mpr ⟨⟨hf,hfree⟩,?_⟩
  rintro r v' ⟨rfl,rfl⟩
  rw [le32_packKey]
  exact h

theorem setConfig_view {Q : Int → View → Prop} {type : Nat} {value : Byte}
    (hf : v.file = some f) (hfree : v.Free)
    (h : ∀ j, j.config = (v.jobs f).config.send (configByte type value) →
      j.isE = (v.jobs f).isE → j.isNotMM = (v.jobs f).isNotMM → Q 0 (v.setJob f j)) :
    wp (viewing c) (CryptoCard.setConfig f type value) Q v := by
  unfold CryptoCard.setConfig
  refine wp_step.mpr ⟨⟨hf,hfree⟩,?_⟩
  rintro _ _ ⟨rfl,rfl⟩
  obtain hb | hb | hb | hb := configByte_cases type value <;> rw [hb] at h ⊢
  all_goals
    refine wp_step.mpr ⟨⟨hf,hfree⟩,?_⟩
    rintro _ _ rfl
    exact h _ rfl rfl rfl

end

/-- The view of a client that has just made a call. -/
structure Calling (call : Call) (v : View) : Prop where
  clean : v.Clean
  role : v.role = call.role
  file : v.file = call.handle
  lo : v.lo = call.range.1
  size : v.size = call.range.2
  want : ∀ f, call.handle = some f → v.want = call.setting (v.jobs f).config

/-- What a call does to the bytes in sight. -/
def Effect (c : Cipher) (v₀ : View) (r : Int) (v : View) : Call → Prop
  | .encrypt _ addr length _ | .decrypt _ addr length _ =>
    (v₀.want.mapped = false → r = 0 → v.um = store v₀.um addr
      (chunkMap (v₀.transform c) BUFFERSIZE (load v₀.um addr length))) ∧
    (v₀.want.mapped = true → v.um = v₀.um) ∧ (∀ x, ¬ Within addr length x → v.um x = v₀.um x) ∧
    (v₀.want.mapped = true → r = 0 → v.own = v₀.own.map (v₀.windowAfter c length)) ∧
    ((v₀.want.dma && v₀.want.mapped) = true → r = ERROR)
  | .setKey _ _ _ | .setConfig _ _ _ => r = 0 ∧ v.um = v₀.um ∧ v.own = v₀.own
  | .store addr xs => v.um = store v₀.um addr xs ∧ v.own = v₀.own
  | .mapStore off xs => v.um = v₀.um ∧ v.own = v₀.own.map (fun m => store m off xs)
  | .irq _ => v.um = v₀.um ∧ v.own = v₀.own
  | .write _ _ _ | .ioctl _ _ _ => True

structure Returned (c : Cipher) (call : Call) (v₀ : View) (r : Int) (v : View) : Prop where
  clean : v.Clean
  config : ∀ f, (v.jobs f).config = call.configure f (v₀.jobs f).config
  effect : Effect c v₀ r v call

section
variable {c : Cipher} {f addr length : Nat} {v : View}

theorem config_eq {j j' : Job} (h : j.mode = j'.mode) : j.config = j'.config := by
  obtain ⟨_,hM,hI,_,hk⟩ := mode_eq h
  rw [Job.config,Job.config,hM,hI,hk]

/-- The two ioctls of encrypt and decrypt make the handle ready for the chunks. -/
theorem crypt_ready {value isMapped : Byte} {Q : Int → View → Prop} (hcl : v.Clean)
    (hclient : v.role = .client) (hf : v.file = some f) (hv : value = 50 ∨ value = 60)
    (hw : v.want = (v.jobs f).config.setting (value == 60) isMapped)
    (h : ∀ jobs, Ready f { v with jobs := jobs } →
      (∀ f', (jobs f').config = (v.jobs f').config) →
      wp (viewing c) (cryptLoop f (length/BUFFERSIZE+1) addr length) Q { v with jobs := jobs }) :
    wp (viewing c) (crypt value f addr length isMapped) Q v := by
  have hfree : v.Free := Free.of_bar hcl.2.2
  refine (wp_bind _ _ _ _).mpr (setEncryp_view hf hfree hv ?_)
  rw [if_neg (by decide)]
  let v₁ := v.setJob f { v.jobs f with isE := value == 50 }
  refine (wp_bind _ _ _ _).mpr (setMmap_view (v := v₁) hf (Free.of_bar hcl.2.2) ?_)
  rw [if_neg (by decide)]
  let v₂ := v₁.setJob f { v₁.jobs f with isNotMM := isMapped == 0 }
  have hcfg (f' : Nat) : (v₂.jobs f').config = (v.jobs f').config := by
    by_cases hf' : f' = f
    · subst f'
      simp [v₂,v₁,View.setJob,Job.config]
    · simp [v₂,v₁,View.setJob,hf']
  have hr : Ready f v₂ := by
    refine ⟨hclient,hf,hcl,?_,?_,?_,?_,?_⟩
    all_goals
      simp only [v₂,v₁,View.setJob,Function.update_self,hw,Config.setting,Job.config]
    · obtain rfl | rfl := hv <;> rfl
    · exact (Bool.not_not _).symm
    · exact (Bool.not_not _).symm
  exact h v₂.jobs hr hcfg

theorem crypt_view {value isMapped : Byte} (hcl : v.Clean) (hclient : v.role = .client)
    (hf : v.file = some f) (hlo : isMapped = 0 → v.lo = addr)
    (hsize : isMapped = 0 → v.size = length) (hv : value = 50 ∨ value = 60)
    (hw : v.want = (v.jobs f).config.setting (value == 60) isMapped) :
    wp (viewing c) (crypt value f addr length isMapped) (fun r v' => v'.Clean ∧
      (∀ f', (v'.jobs f').config = (v.jobs f').config) ∧
      ∀ cdev, Effect c v r v' (.encrypt cdev addr length isMapped)) v := by
  refine crypt_ready hcl hclient hf hv hw (fun jobs hr hcfg => ?_)
  refine wp_mono ?_ (cryptLoop_view hr (Nat.lt_succ_self _) ?_)
  · rintro r v' h
    exact ⟨h.clean,fun f' => (config_eq (h.modes f')).trans (hcfg f'),
      fun _ => ⟨h.um,h.kept,h.outside,h.own,h.refused⟩⟩
  · intro hm
    have hm : isMapped = 0 := by
      have hm : v.want.mapped = false := hm
      rw [hw] at hm
      simpa [Config.setting] using hm
    exact ⟨Nat.le_of_eq (hlo hm),Nat.le_of_eq (by
      show addr+length = v.lo+v.size
      rw [hlo hm,hsize hm])⟩

/-- Every library call of a client does to its view what it says. -/
theorem code_view {call : Call} (hlib : call.isLibrary = true ∨ ∃ dev, call = .irq dev)
    (h : Calling call v) : wp (viewing c) call.code (Returned c call v) v := by
  have hfree : v.Free := Free.of_bar h.clean.2.2
  have hcrypt (value : Byte) {isMapped : Byte} {f addr length : Nat} (hclient : v.role = .client)
      (hf : v.file = some f) (hlo : v.lo = (if isMapped = 0 then (addr,length) else (0,0)).1)
      (hsize : v.size = (if isMapped = 0 then (addr,length) else (0,0)).2)
      (hv : value = 50 ∨ value = 60)
      (hw : v.want = (v.jobs f).config.setting (value == 60) isMapped) :=
    crypt_view (c := c) h.clean hclient hf (fun hm => by rw [hlo,if_pos hm])
      (fun hm => by rw [hsize,if_pos hm]) hv hw
  cases call with
  | write f ptr len => obtain h | ⟨dev,h⟩ := hlib <;> cases h
  | ioctl f cmd arg => obtain h | ⟨dev,h⟩ := hlib <;> cases h
  | setKey f a b =>
    refine setKey_view h.file hfree ⟨h.clean,fun f' => ?_,rfl,rfl,rfl⟩
    by_cases hf' : f = f'
    · subst f'
      simp [View.setJob,Call.configure,Job.config]
    · simp [View.setJob,Call.configure,hf',Ne.symm hf']
  | setConfig f type value =>
    refine setConfig_view h.file hfree (fun j hj _ _ => ⟨h.clean,fun f' => ?_,rfl,rfl,rfl⟩)
    by_cases hf' : f = f'
    · subst f'
      simp [View.setJob,Call.configure,hj]
    · simp [View.setJob,Call.configure,hf',Ne.symm hf']
  | encrypt f addr length isMapped =>
    refine wp_mono ?_ (hcrypt 50 h.role h.file h.lo h.size (.inl rfl) (h.want f rfl))
    exact fun r v' h' => ⟨h'.1,h'.2.1,h'.2.2 f⟩
  | decrypt f addr length isMapped =>
    refine wp_mono ?_ (hcrypt 60 h.role h.file h.lo h.size (.inr rfl) (h.want f rfl))
    exact fun r v' h' => ⟨h'.1,h'.2.1,h'.2.2 f⟩
  | irq dev =>
    have hout (g : Card → Card) := iowrite_out (v := v) h.clean.2.2 g
    have hret (r : Int) : Returned c (.irq dev) v r v := ⟨h.clean,fun _ => rfl,rfl,rfl⟩
    have hrole : (v.role = .handler) = True := eq_true h.role
    simp only [Call.code,pciIrqHandle,wp_ite,wp_bind,wp_perform,wp_pure,Ok,Next,OkWrite,hout,
      and_imp,forall_eq,forall_const,hfree,hret,hrole,and_true,implies_true]
  | store addr xs =>
    refine wp_step.mpr ⟨⟨⟨Nat.le_of_eq h.lo,Nat.le_of_eq ?_⟩,hfree⟩,?_⟩
    · rw [h.lo,h.size]
      rfl
    · rintro _ _ rfl
      exact ⟨h.clean,fun _ => rfl,rfl,rfl⟩
  | mapStore off xs =>
    refine wp_step.mpr ⟨⟨h.role,h.clean.2.2⟩,?_⟩
    rintro _ _ rfl
    exact ⟨h.clean,fun _ => rfl,rfl,rfl⟩

end

end View

end CryptoCard
