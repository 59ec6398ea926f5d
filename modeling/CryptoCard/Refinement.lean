import CryptoCard.Service
import CryptoCard.Releases
set_option autoImplicit false

/-! Runs in which handles are opened, duplicated, mapped and closed are runs of the model where
every file is open throughout. -/
namespace CryptoCard
open Program Interleave

def Sysc.toCall : Sysc → Call
  | .ioctl cdev cmd arg => .ioctl cdev cmd arg
  | .write cdev addr count => .write cdev addr count

/-- The action is one of the driver. -/
def FAct.isDrv : FAct → Bool
  | .drv _ => true
  | _ => false

/-- System calls and interrupts. -/
def Call.isRaw (call : Call) : Prop := ∃ cl : KCall, cl.served = some call

/-- The program is made of actions of the file layer and of whole calls of the driver. -/
inductive Composed : FCode Int → Prop where
  | ret (v : Int) : Composed (.ret v)
  | act {a : FAct} {k : a.Res → FCode Int} :
      a.isDrv = false → (∀ r, Composed (k r)) → Composed (.act a k)
  | call {call : Call} {k : Int → FCode Int} :
      call.isRaw → (∀ r, Composed (k r)) → Composed (onFile call.code >>= k)

/-- A thread is in a call of the driver in both, at the same point, or in none. -/
inductive Tracks : Thread FAct FAct.Res Vfs FCall Int → Thread Act Act.Res World Call Int →
    Prop where
  | idle : Tracks .idle .idle
  | ret {cl : FCall} {v₀ : Vfs} (v : Int) : Tracks (.run cl v₀ (.ret v)) .idle
  | act {cl : FCall} {v₀ : Vfs} {a : FAct} {k : a.Res → FCode Int} :
      a.isDrv = false → (∀ r, Composed (k r)) → Tracks (.run cl v₀ (.act a k)) .idle
  | inside {cl : FCall} {v₀ : Vfs} {call : Call} {w₀ : World} {a : Act} {k : a.Res → Code Int}
      {k' : Int → FCode Int} : (∀ r, Composed (k' r)) →
      Tracks (.run cl v₀ (.act (.drv a) (fun r => onFile (k r) >>= k'))) (.run call w₀ (.act a k))
  | dead : Tracks .dead .dead

/-- `hands` is the invariant of the files. A job that has not been allocated yet is as
`pci_open` will leave it. -/
structure Traced (s : FSystem) (z : System) : Prop where
  hands : ∃ g, handAssertions.Holds s g
  world : z.world = s.world.drv
  thr : ∀ t, Tracks (s.thr t) (z.thr t)
  raw : ∀ f, (s.world.files f).live = false → (s.world.files f).frees = 0 →
    s.world.drv.jobs f = pciOpen

section
variable {α : Type} {p : FCode Int}

theorem Composed.bind {g : Int → FCode Int} (hp : Composed p) (hg : ∀ v, Composed (g v)) :
    Composed (p >>= g) := by
  induction hp with
  | ret v => exact hg v
  | act ha _ ih => exact .act ha ih
  | @call call k hc _ ih =>
    have hassoc : (onFile call.code >>= k) >>= g = onFile call.code >>= fun r => k r >>= g :=
      bind_bind _ _ _
    rw [hassoc]
    exact .call hc ih

theorem composed_bind {p : FCode α} {k : α → FCode Int}
    (hp : Always (fun a => a.isDrv = false) p) (hk : ∀ x, Composed (k x)) :
    Composed (p >>= k) := by
  induction p with
  | ret x => exact hk x
  | act a k' ih => exact .act hp.1 (fun r => ih r (hp.2 r))

theorem putFile_aside (f : Nat) : Always (fun a => a.isDrv = false) (putFile f) :=
  ⟨rfl,fun b => by cases b <;> [trivial; exact ⟨rfl,fun _ => ⟨rfl,fun _ => trivial⟩⟩]⟩

theorem sysOpen_aside : Always (fun a => a.isDrv = false) sysOpen := by
  refine ⟨rfl,fun r => ?_⟩
  cases r with
  | none => trivial
  | some f => exact ⟨rfl,fun b => by cases b <;> exact ⟨rfl,fun _ => trivial⟩⟩

theorem sysClose_aside (fd : Nat) : Always (fun a => a.isDrv = false) (sysClose fd) := by
  refine (always_step _ _ _).mpr ⟨rfl,fun r => ?_⟩
  cases r with
  | none => trivial
  | some f => exact (putFile_aside f).bind (fun _ => trivial)

theorem sysDup_aside (fd : Nat) : Always (fun a => a.isDrv = false) (sysDup fd) := by
  refine ⟨rfl,fun r => ?_⟩
  cases r with
  | none => trivial
  | some f => exact ⟨rfl,fun _ => trivial⟩

theorem mmapRegion_aside (f : Nat) : Always (fun a => a.isDrv = false) (mmapRegion f) := by
  refine ⟨rfl,fun b => ?_⟩
  cases b with
  | false => trivial
  | true =>
    refine (always_step _ _ _).mpr ⟨rfl,fun failed => ?_⟩
    cases failed with
    | true => trivial
    | false => exact ⟨rfl,fun _ => trivial⟩

theorem sysMmap_aside (fd : Nat) : Always (fun a => a.isDrv = false) (sysMmap fd) := by
  refine (always_step _ _ _).mpr ⟨rfl,fun r => ?_⟩
  cases r with
  | none => trivial
  | some f => exact (mmapRegion_aside f).bind (fun _ => (putFile_aside f).bind (fun _ => trivial))

theorem unmapPages_aside (p n : Nat) : Always (fun a => a.isDrv = false) (unmapPages p n) := by
  induction n generalizing p with
  | zero => trivial
  | succ n ih =>
    refine (always_step _ _ _).mpr ⟨rfl,fun r => ?_⟩
    cases r with
    | none => exact ih (p+1)
    | some f => exact (putFile_aside f).bind (fun _ => ih (p+1))

theorem sysMunmap_aside (addr len : UInt64) :
    Always (fun a => a.isDrv = false) (sysMunmap addr len) := by
  refine (always_ite _ _ _).mpr ⟨fun _ => ?_,fun _ => trivial⟩
  exact (unmapPages_aside _ _).bind (fun _ => trivial)

theorem composed_of_aside {p : FCode Int} (hp : Always (fun a => a.isDrv = false) p) :
    Composed p := by
  induction p with
  | ret v => exact .ret v
  | act a k ih => exact .act hp.1 (fun r => ih r (hp.2 r))

theorem Sysc.isRaw (a : Sysc) : a.toCall.isRaw := by
  cases a with
  | ioctl cdev cmd arg => exact ⟨.ioctl cdev cmd arg,rfl⟩
  | write cdev addr count => exact ⟨.write cdev addr count,rfl⟩

theorem Sysc.toCall_code (a : Sysc) : a.toCall.code = a.code := by
  cases a <;> rfl

theorem onFd_composed (a : Sysc) : Composed a.onFd := by
  refine .act rfl (fun r => ?_)
  cases r with
  | none => exact .ret _
  | some f =>
    show Composed (onFile (a.at f).code >>= fun r => putFile f >>= fun _ => pure r)
    rw [← Sysc.toCall_code]
    exact .call (a.at f).isRaw (fun r => composed_bind (putFile_aside f) (fun _ => .ret r))

theorem fcode_composed (cl : FCall) : Composed cl.code := by
  cases cl with
  | createHandle =>
    refine composed_bind sysOpen_aside (fun cdev => ?_)
    split <;> exact .ret _
  | closeHandle cdev => exact composed_bind (sysClose_aside cdev) (fun _ => .ret _)
  | dup fd => exact composed_of_aside (sysDup_aside fd)
  | mapCard cdev size =>
    show Composed (sysMapCard cdev size)
    unfold sysMapCard
    split
    · exact .ret _
    · refine composed_bind (sysMmap_aside cdev) (fun addr => ?_)
      split <;> exact .ret _
  | unmapCard cdev addr => exact composed_bind (sysMunmap_aside _ _) (fun _ => .ret _)
  | calls p =>
    induction p with
    | ret v => exact .ret v
    | act a k ih => exact (onFd_composed a).bind ih
  | irq dev =>
    have hirq : Composed (onFile (Call.irq dev).code >>= .ret) := .call ⟨.irq dev,rfl⟩ .ret
    rwa [show onFile (Call.irq dev).code >>= .ret = onFile (Call.irq dev).code from bind_ret _]
      at hirq

end

section
variable {c : Cipher} {s : FSystem} {z : System} {t : Nat} {cl : FCall} {v₀ : Vfs}

/-- `z'` is reached from `z` without a step of the world or of a thread other than `t`. -/
structure Follows (c : Cipher) (t : Nat) (z z' : System) : Prop where
  run : (machine c).Reaches Raw z z'
  world : z'.world = z.world
  thr : ∀ u, u ≠ t → z'.thr u = z.thr u

theorem Follows.refl (c : Cipher) (t : Nat) (z : System) : Follows c t z z :=
  ⟨.refl,rfl,fun _ _ => rfl⟩

theorem Follows.trans {z' z'' : System} (h : Follows c t z z') (h' : Follows c t z' z'') :
    Follows c t z z'' :=
  ⟨h.run.trans h'.run,h'.world.trans h.world,fun u hu => (h'.thr u hu).trans (h.thr u hu)⟩

/-- A call of the driver that is over returns. -/
theorem follow_ret {call : Call} {w₀ : World} {v : Int} (ht : z.thr t = .run call w₀ (.ret v)) :
    ∃ z', Follows c t z z' ∧ z'.thr t = .idle := by
  have hret : Raw z (.ret t) := trivial
  refine ⟨_,⟨.tail .refl hret (Machine.step_ret ht),rfl,fun u hu => ?_⟩,?_⟩
  · simp [hu]
  · simp

/-- At whatever point of a call of the driver a thread is, it can be followed there. -/
theorem follow_inside {call : Call} {w₀ : World} {p : Code Int} {k : Int → FCode Int}
    (ht : z.thr t = .run call w₀ p) (hk : ∀ r, Composed (k r))
    (hnext : ∀ v z, z.thr t = .idle →
      ∃ z', Follows c t z z' ∧ Tracks (.run cl v₀ (k v)) (z'.thr t)) :
    ∃ z', Follows c t z z' ∧ Tracks (.run cl v₀ (onFile p >>= k)) (z'.thr t) := by
  cases p with
  | ret v =>
    obtain ⟨z₁,h₁,hidle⟩ := follow_ret (c := c) ht
    obtain ⟨z₂,h₂,htr⟩ := hnext v z₁ hidle
    exact ⟨z₂,h₁.trans h₂,htr⟩
  | act a k' =>
    refine ⟨z,.refl c t z,?_⟩
    rw [ht]
    exact .inside hk

theorem follow_composed {p : FCode Int} (hp : Composed p) (ht : z.thr t = .idle) :
    ∃ z', Follows c t z z' ∧ Tracks (.run cl v₀ p) (z'.thr t) := by
  induction hp generalizing z with
  | ret v => exact ⟨z,.refl c t z,by rw [ht]; exact .ret v⟩
  | act ha hk _ => exact ⟨z,.refl c t z,by rw [ht]; exact .act ha hk⟩
  | @call call k hraw hk ih =>
    have hcall : Raw z (.call t call) := hraw
    have h₁ : Follows c t z { z with
        thr := Function.update z.thr t (.run call z.world call.code) } :=
      ⟨.tail .refl hcall (Machine.step_call ht),rfl,fun u hu => by simp [hu]⟩
    have ht₁ : Function.update z.thr t (.run call z.world call.code) t =
        .run call z.world call.code := Function.update_self ..
    obtain ⟨z₂,h₂,htr⟩ := follow_inside (c := c)
      (z := { z with thr := Function.update z.thr t (.run call z.world call.code) })
      ht₁ hk (fun v z hz => ih v hz)
    exact ⟨z₂,h₁.trans h₂,htr⟩

end

section
variable {c : Cipher} {s s' : FSystem} {z z' : System} {v v' : Vfs} {t : Nat} {x : Choice}

/-- The driver finds every job that it goes to, and does what it does where they are always
there. -/
theorem Vfs.drvExec_eq {a : Act} (h : ∀ f, a.job = some f →
    (v.files f).live = true ∧ (v.files f).privateData = true) :
    v.drvExec t a x = (World.exec t a x v.drv).map v.ofDrv := by
  have hall : a.job.all (fun f => (v.files f).live) = true := by
    cases hj : a.job with
    | none => rfl
    | some f => exact (h f hj).1
  cases a with
  | privateData f =>
    show some (Out.done (v.files f).privateData v) = _
    rw [(h f rfl).2]
    rfl
  | _ =>
    simp only [Vfs.drvExec]
    exact if_pos hall

/-- What the file layer does leaves the driver's world as it is, and gives no job back. -/
theorem Vfs.exec_aside {a : FAct} {o : Out Vfs a.Res} (ha : a.isDrv = false)
    (hjob : ∀ f, a = .kzallocJob f → v.drv.jobs f = pciOpen)
    (hnew : v.files v.nfile = ⟨[],false,false,0⟩) (he : v.exec t a x = some o) :
    ∃ r v', o = .done r v' ∧ v'.drv = v.drv ∧ ∀ e, (v'.files e).live = false →
      (v'.files e).frees = 0 → (v.files e).live = false ∧ (v.files e).frees = 0 := by
  have setFile {f : Nat} {F : File} (hF : F.live = false → F.frees = 0 →
      (v.files f).live = false ∧ (v.files f).frees = 0) (e : Nat) :
      (Function.update v.files f F e).live = false → (Function.update v.files f F e).frees = 0 →
      (v.files e).live = false ∧ (v.files e).frees = 0 := by
    by_cases hef : e = f
    · subst e
      rwa [Function.update_self]
    · rw [Function.update_of_ne hef]
      exact fun hl hf => ⟨hl,hf⟩
  cases a with
  | drv a => cases ha
  | getFile =>
    simp only [Vfs.exec] at he
    split at he <;> cases he
    · exact ⟨_,_,rfl,rfl,setFile (fun _ _ => by rw [hnew]; exact ⟨rfl,rfl⟩)⟩
    · exact ⟨_,_,rfl,rfl,fun e hl hf => ⟨hl,hf⟩⟩
  | fdInstall f | vmaLink f =>
    simp only [Vfs.exec] at he
    split at he
    · split at he <;> cases he
      exact ⟨_,_,rfl,rfl,setFile (fun hl hf => ⟨hl,hf⟩)⟩
    · cases he
  | vmaAlloc | ioRemapPfnRange =>
    simp only [Vfs.exec] at he
    split at he <;> cases he <;> exact ⟨_,_,rfl,rfl,fun e hl hf => ⟨hl,hf⟩⟩
  | fdget n | takeSite k =>
    simp only [Vfs.exec] at he
    split at he <;> cases he
    · exact ⟨_,_,rfl,rfl,setFile (fun hl hf => ⟨hl,hf⟩)⟩
    · exact ⟨_,_,rfl,rfl,fun e hl hf => ⟨hl,hf⟩⟩
  | kzallocJob f =>
    simp only [Vfs.exec] at he
    split at he <;> cases he
    · refine ⟨_,_,rfl,?_,setFile (fun hl _ => by cases hl)⟩
      show v.drv.setJob f pciOpen = v.drv
      rw [World.setJob,← hjob f rfl,Function.update_eq_self]
    · exact ⟨_,_,rfl,rfl,fun e hl hf => ⟨hl,hf⟩⟩
  | kfreeJob f =>
    cases he
    exact ⟨_,_,rfl,rfl,setFile (fun _ hf => by cases hf)⟩
  | dropFile f | putRef f | clearPrivateData f =>
    cases he
    exact ⟨_,_,rfl,rfl,setFile (fun hl hf => ⟨hl,hf⟩)⟩

theorem Act.stored_other {a : Act} {jobs : Nat → Job} {e : Nat} (h : a.job ≠ some e) :
    a.stored jobs e = jobs e := by
  have hne (f : Nat) (hf : a.job = some f) : e ≠ f := by
    rintro rfl
    exact h hf
  cases a with
  | setFlag f y b | setLen f n | setMsg f p | copyKey f arg =>
    simp [Act.stored,hne f rfl]
  | _ => rfl

theorem Tracks.of_idle {θ : Thread Act Act.Res World Call Int} (h : Tracks .idle θ) :
    θ = .idle := by
  cases h
  rfl

theorem Tracks.of_ret {cl : FCall} {v₀ : Vfs} {r : Int} {θ : Thread Act Act.Res World Call Int}
    (h : Tracks (.run cl v₀ (.ret r)) θ) : θ = .idle := by
  cases h
  rfl

/-- Only thread `t` has moved. -/
theorem Traced.update (h : Traced s z) {θ : Thread FAct FAct.Res Vfs FCall Int}
    {hist : Nat → List (FCall × Int)}
    (hands : ∃ g, handAssertions.Holds ⟨v,Function.update s.thr t θ,hist⟩ g)
    (hw : z'.world = v.drv) (hthr : ∀ u, u ≠ t → z'.thr u = z.thr u) (ht : Tracks θ (z'.thr t))
    (hraw : ∀ f, (v.files f).live = false → (v.files f).frees = 0 → v.drv.jobs f = pciOpen) :
    Traced ⟨v,Function.update s.thr t θ,hist⟩ z' where
  hands := hands
  world := hw
  thr u := by
    show Tracks (Function.update s.thr t θ u) (z'.thr u)
    by_cases hu : u = t
    · subst u
      rw [Function.update_self]
      exact ht
    · rw [Function.update_of_ne hu,hthr u hu]
      exact h.thr u
  raw := hraw

/-- A step of a thread inside the driver. -/
theorem Traced.drive (h : Traced s z) {cl : FCall} {v₀ : Vfs} {call : Call} {w₀ : World} {a : Act}
    {k : a.Res → Code Int} {k' : Int → FCode Int} (hk : ∀ r, Composed (k' r))
    (ht : s.thr t = .run cl v₀ (.act (.drv a) (fun r => onFile (k r) >>= k')))
    (hz : z.thr t = .run call w₀ (.act a k)) (hs : (fileSystem c).step s (.act t x) = some s') :
    ∃ z', (machine c).Reaches Raw z z' ∧ Traced s' z' := by
  obtain ⟨g,hg⟩ := h.hands
  have hands := (handOutline c).step hg trivial hs
  have hK : Kept g s.world := hg.1
  have hjob (f : Nat) (hf : a.job = some f) :
      (s.world.files f).live = true ∧ (s.world.files f).privateData = true := by
    obtain ⟨b,hb⟩ := hg.ok ht f hf
    have hat : Hand.at (g t) f = some (.inside b) := by rw [hb,hand_some]
    obtain ⟨_,hp,hl,_⟩ := (hK.sound f).stands.of_uses hat rfl
    exact ⟨hl,hp⟩
  have hexec {o : Out Vfs a.Res} (he : s.world.exec t (.drv a) x = some o) :
      ∃ u, World.exec t a x z.world = some u ∧ o = s.world.ofDrv u := by
    obtain ⟨u,hu,ho⟩ := Option.map_eq_some_iff.mp ((Vfs.drvExec_eq hjob).symm.trans he)
    exact ⟨u,h.world ▸ hu,ho.symm⟩
  have one {l : Step} {z' : System} (hl : Raw z l) (hz : (machine c).step z l = some z') :
      (machine c).Reaches Raw z z' := .tail .refl hl hz
  have hact : Raw z (.act t x) := trivial
  obtain ⟨_,_,_,_,ht',hcases⟩ := Machine.actStep_cases hs
  rw [ht] at ht'
  cases ht'
  obtain ⟨v,he,rfl⟩ | ⟨r,v,he,rfl⟩ | ⟨v,he,rfl⟩ := hcases
  · obtain ⟨u,hu,ho⟩ := hexec he
    cases u with
    | stay w =>
      cases ho
      rw [h.world] at hu
      obtain ⟨_,rfl⟩ := World.stay_task hu
      exact ⟨_,one hact (Machine.step_stay hz (h.world ▸ hu)),hands,rfl,h.thr,h.raw⟩
    | _ => cases ho
  · obtain ⟨u,hu,ho⟩ := hexec he
    cases u with
    | done r w =>
      cases ho
      have hraw (f : Nat) (hl : (s.world.files f).live = false)
          (hf : (s.world.files f).frees = 0) : w.jobs f = pciOpen := by
        rw [World.exec_jobs hu,h.world,Act.stored_other]
        · exact h.raw f hl hf
        · intro hj
          rw [(hjob f hj).1] at hl
          cases hl
      have ht₁ : Function.update z.thr t (.run call w₀ (k r)) t = .run call w₀ (k r) :=
        Function.update_self ..
      have hfollow : ∃ z₂, Follows c t ⟨w,Function.update z.thr t (.run call w₀ (k r)),z.hist⟩ z₂ ∧
          Tracks (.run cl v₀ (onFile (k r) >>= k')) (z₂.thr t) :=
        follow_inside ht₁ hk (fun v z hz => follow_composed (hk v) hz)
      obtain ⟨z₂,h₂,htr⟩ := hfollow
      refine ⟨z₂,(one hact (Machine.step_done hz hu)).trans h₂.run,?_⟩
      refine h.update hands h₂.world (fun u hu => ?_) htr hraw
      rw [h₂.thr u hu]
      exact Function.update_of_ne hu _ _
    | _ => cases ho
  · obtain ⟨u,hu,ho⟩ := hexec he
    cases u with
    | oops w =>
      cases ho
      have hoops := hu
      rw [h.world] at hoops
      obtain ⟨rfl,_⟩ := World.exec_oops hoops
      refine ⟨_,one hact (Machine.step_oops hz hu),h.update hands rfl (fun u hu => ?_) ?_ h.raw⟩
      · exact Function.update_of_ne hu _ _
      · show Tracks .dead (Function.update z.thr t .dead t)
        rw [Function.update_self]
        exact .dead
    | _ => cases ho

theorem Traced.step (h : Traced s z) {l : Label FCall World.Env Choice}
    (hs : (fileSystem c).step s l = some s') :
    ∃ z', (machine c).Reaches Raw z z' ∧ Traced s' z' := by
  obtain ⟨g,hg⟩ := h.hands
  have hands := (handOutline c).step hg trivial hs
  have hK : Kept g s.world := hg.1
  cases l with
  | call t cl =>
    simp only [Machine.step] at hs
    split at hs
    · rename_i ht
      cases hs
      have hz := h.thr t
      rw [ht] at hz
      have hfollow : ∃ z', Follows c t z z' ∧
          Tracks (.run cl s.world ((fileSystem c).code cl)) (z'.thr t) :=
        follow_composed (fcode_composed cl) hz.of_idle
      obtain ⟨z',hz',htr⟩ := hfollow
      exact ⟨z',hz'.run,h.update hands (hz'.world.trans h.world) hz'.thr htr h.raw⟩
    · cases hs
  | act t x =>
    obtain ⟨cl,v₀,a,kont,ht,hcases⟩ := Machine.actStep_cases hs
    have htr := h.thr t
    rw [ht] at htr
    generalize hθ : z.thr t = θ at htr
    cases htr with
    | inside hk => exact h.drive hk ht hθ hs
    | act ha hk =>
      have hjob (f : Nat) (hf : a = .kzallocJob f) : s.world.drv.jobs f = pciOpen := by
        subst a
        have hok : g t = some (f,.fresh) := hg.ok ht
        have hat : Hand.at (g t) f = some .fresh := by rw [hok,hand_some]
        obtain ⟨_,hf,_,hl,_⟩ := (hK.sound f).stands.of_fresh hat
        exact h.raw f hl hf
      have hout {o : Out Vfs a.Res} (he : s.world.exec t a x = some o) :=
        Vfs.exec_aside ha hjob (hK.new _ (Nat.le_refl _)) he
      obtain ⟨v,he,_⟩ | ⟨r,v,he,rfl⟩ | ⟨v,he,_⟩ := hcases
      · obtain ⟨_,_,ho,_⟩ := hout he
        cases ho
      · obtain ⟨_,_,ho,hdrv,hback⟩ := hout he
        cases ho
        have hfollow : ∃ z', Follows c t z z' ∧ Tracks (.run cl v₀ (kont r)) (z'.thr t) :=
          follow_composed (hk r) hθ
        obtain ⟨z',hz',htr⟩ := hfollow
        refine ⟨z',hz'.run,h.update hands ?_ hz'.thr htr (fun f hl hf => ?_)⟩
        · rw [hz'.world,h.world,hdrv]
        · obtain ⟨hl,hf⟩ := hback f hl hf
          rw [hdrv]
          exact h.raw f hl hf
      · obtain ⟨_,_,ho,_⟩ := hout he
        cases ho
  | ret t =>
    simp only [Machine.step] at hs
    split at hs
    · rename_i cl v₀ r ht
      cases hs
      have hz := h.thr t
      rw [ht] at hz
      refine ⟨z,.refl,h.update hands h.world (fun _ _ => rfl) ?_ h.raw⟩
      rw [hz.of_ret]
      exact .idle
    · cases hs
  | env e =>
    simp only [Machine.step,Option.map_eq_some_iff] at hs
    obtain ⟨v,he,rfl⟩ := hs
    obtain ⟨w,hw,rfl⟩ := Option.map_eq_some_iff.mp he
    have henv : Raw z (.env e) := trivial
    have hz : (machine c).env e z.world = some w := by rw [h.world]; exact hw
    refine ⟨_,.tail .refl henv (Machine.step_env hz),hands,rfl,h.thr,fun f hl hf => ?_⟩
    show w.jobs f = pciOpen
    rw [World.env_jobs hw]
    exact h.raw f hl hf

/-- Every run with handles that come and go is, step of the driver for step of the driver,
one of the model where all files are open from the start. -/
theorem handles_refine (c : Cipher) (umem mem : Nat → Byte) {s : FSystem}
    (hr : (fileSystem c).Reaches (fun _ _ => True) (unopened (World.boot umem mem)) s) :
    ∃ z, (machine c).Reaches Raw (start (World.boot umem mem)) z ∧ z.world = s.world.drv ∧
      (∀ t a, z.next t = some a ↔ s.next t = some (.drv a)) ∧
      ∀ t, s.thr t = .dead ↔ z.thr t = .dead := by
  have hstart : Traced (unopened (World.boot umem mem)) (start (World.boot umem mem)) :=
    ⟨⟨_,unopened_holds umem mem⟩,rfl,fun _ => .idle,fun _ _ _ => rfl⟩
  obtain ⟨z,hz,h⟩ := hr.mimicked (fun s z l s' h _ hs => h.step hs) hstart
  refine ⟨z,hz,h.world,fun t a => ?_,fun t => ?_⟩
  · have htr := h.thr t
    simp only [Sys.next]
    generalize s.thr t = θ at htr ⊢
    generalize z.thr t = θ' at htr ⊢
    cases htr with
    | @act _ _ b _ ha _ =>
      have hne : b ≠ .drv a := by
        rintro rfl
        cases ha
      simp [hne]
    | _ => simp
  · have htr := h.thr t
    generalize s.thr t = θ at htr ⊢
    generalize z.thr t = θ' at htr ⊢
    cases htr <;> simp

end

/-- The key that a thread has set on a handle it shares is there in the other model. -/
theorem handles_refine_closed : ∃ s z,
    (fileSystem (.bytewise fun _ _ x => x)).Reaches (fun _ _ => True)
      (unopened (World.boot (fun _ => 0) (fun _ => 0))) s ∧
    (machine (.bytewise fun _ _ x => x)).Reaches Raw
      (start (World.boot (fun _ => 0) (fun _ => 0))) z ∧
    z.world = s.world.drv ∧ (z.world.jobs 0).keyab = 7 := by
  obtain ⟨s,hr,_,hp⟩ := Machine.exists_reaches (M := fileSystem (.bytewise fun _ _ x => x))
    (P := fun _ _ => True) (n := 2) (b := fun _ _ => true)
    (p := fun s => (s.world.drv.jobs 0).keyab == 7) (fun _ _ _ _ => trivial) closedInIoctl
    (s := unopened (World.boot (fun _ => 0) (fun _ => 0))) (fun _ _ => rfl) (by decide +kernel)
  obtain ⟨z,hz,hw,_⟩ := handles_refine _ _ _ hr
  refine ⟨s,z,hr,hz,hw,?_⟩
  rw [hw]
  exact beq_iff_eq.mp hp

end CryptoCard
