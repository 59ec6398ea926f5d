import CryptoCard.Unbind
set_option autoImplicit false

/-! While a card is in service, file operations that go through the pointers of the driver
and those of the model without them do the same. -/
namespace CryptoCard
open Program Interleave

/-- The call in the model where the card is always bound. -/
def KCall.served : KCall → Option Call
  | .write f ptr len => some (.write f ptr len)
  | .ioctl f cmd arg => some (.ioctl f cmd arg)
  | .irq ours => some (.irq ours)
  | _ => none

/-- The program comes to the card only after it has loaded configspace. -/
def LoadsFirst (p : Code Int) : Prop :=
  ¬ Needs (fun _ _ => True) (fun a => a.touchesCard = true) (fun a => a = .configspace) p

/-- Actions of opening and of mapping. -/
def KAct.aside : KAct → Bool
  | .testGlobal _ | .kzallocJob _ | .pciResourceStart | .ioRemapPfnRange => true
  | _ => false

/-- The two programs are at the same point, with the pointer loaded or still to load. -/
inductive Attached (q : Nat) : KCode Int → Code Int → Prop where
  | fresh {p : Code Int} : LoadsFirst p → Attached q (attach none p) p
  | loaded {p : Code Int} : Attached q (attach (some q) p) p

/-- The threads are at the same point of the same call. -/
inductive Twin (q : Nat) : Thread KAct KAct.Res Kern KCall Int →
    Thread Act Act.Res World Call Int → Prop where
  | idle : Twin q .idle .idle
  | run {cl : KCall} {call : Call} {k₀ : Kern} {p : KCode Int} {p' : Code Int} :
      cl.served = some call → Attached q p p' → Twin q (.run cl k₀ p) (.run call k₀.drv p')
  | dead : Twin q .dead .dead

/-- The same, with a thread possibly between the test of configspace and its load, or in a
call that the other model does not have. -/
inductive Shadow (q : Nat) : Thread KAct KAct.Res Kern KCall Int →
    Thread Act Act.Res World Call Int → Prop where
  | twin {θ : Thread KAct KAct.Res Kern KCall Int} {θ' : Thread Act Act.Res World Call Int} :
      Twin q θ θ' → Shadow q θ θ'
  | tested {cl : KCall} {call : Call} {k₀ : Kern} (k : Bool → Code Int) :
      cl.served = some call →
      Shadow q (.run cl k₀ (katom (.getGlobal .configspace) >>= fun space => attach space (k true)))
        (.run call k₀.drv (.act .configspace k))
  | aside {cl : KCall} {k₀ : Kern} {p : KCode Int} :
      cl.served = none → Always (fun a => a.aside = true) p → Shadow q (.run cl k₀ p) .idle

/-- The calls of a history that the other model has too. -/
def servedCalls (hs : List (KCall × Int)) : List (Call × Int) :=
  hs.filterMap (fun e => e.1.served.map (fun call => (call,e.2)))

/-- The worlds and the histories agree, and the threads by `Sim`. -/
structure Alongside (Sim : Thread KAct KAct.Res Kern KCall Int → Thread Act Act.Res World Call Int →
    Prop) (κ : Core) (s : KSystem) (z : System) : Prop where
  core : s.world.toCore = κ
  world : z.world = s.world.drv
  thr : ∀ t, Sim (s.thr t) (z.thr t)
  hist : ∀ t, z.hist t = servedCalls (s.hist t)

/-- No probe and no remove; a handle is opened before its use, and the handler reads the
interrupt status that is there. -/
def ServiceStep (s : KSystem) : KStep → Prop
  | .call _ (.probe _) | .call _ (.remove _) => False
  | .act t x => (∀ f, s.next t = some (.kzallocJob f) → s.world.drv.jobs f = pciOpen) ∧
    ∀ p v, s.next t = some (.file p (.ioread .interruptStatus)) → x = .value v →
      v = s.world.drv.card.interruptStatus
  | _ => True

/-- System calls and interrupts. -/
def Raw (_ : System) : Step → Prop
  | .call _ call => ∃ cl : KCall, cl.served = some call
  | _ => True

section
variable {q d cd w n : Nat} {κ : Core} {k : Kern} {t : Nat} {x : Choice}

theorem Bound.maps (hb : Bound d q cd w n κ) : κ.Maps (some q) := by
  refine ⟨q,rfl,?_,w,hb.start,?_⟩ <;>
  · unfold Core.Holds
    rw [hb.stack]
    simp [fullSet]

/-- With the window mapped, an action of the driver does what it does without pointers. -/
theorem Kern.exec_file {space : Option Nat} {a : Act} (hb : Bound d q cd w n k.toCore)
    (hs : space = some q ∨ a.touchesCard = false)
    (hx : ∀ v, a = .ioread .interruptStatus → x = .value v → v = k.drv.card.interruptStatus) :
    k.exec t (.file space a) x = (World.exec t a x k.drv).map k.ofDrv := by
  have hmaps : ¬ (a.touchesCard ∧ ¬ k.Maps space) := by
    rintro ⟨ha,hm⟩
    obtain rfl := hs.resolve_right (by rw [ha]; simp)
    exact hm hb.maps
  have hpdev : ¬ (a.usesPdev ∧ k.mycryptodev .pdev = none) := by
    rintro ⟨_,hn⟩
    rw [hb.pdev] at hn
    cases hn
  simp only [Kern.exec,Kern.file,if_neg hmaps,if_neg hpdev]
  split
  · rename_i r v
    cases r with
    | interruptStatus =>
      rw [hx v rfl rfl]
      rfl
    | _ => rfl
  · rfl

/-- Opening a handle that nobody uses yet, and mapping, leave things as they are. -/
theorem Kern.exec_aside {a : KAct} {o : Out Kern a.Res} (hb : Bound d q cd w n k.toCore)
    (ha : a.aside = true) (hjob : ∀ f, a = .kzallocJob f → k.drv.jobs f = pciOpen)
    (he : k.exec t a x = some o) : ∃ r, o = .done r k := by
  cases a with
  | testGlobal y =>
    cases he
    exact ⟨_,rfl⟩
  | kzallocJob f =>
    simp only [Kern.exec] at he
    split at he
    · cases he
      refine ⟨true,?_⟩
      rw [World.setJob,← hjob f rfl,Function.update_eq_self]
    · cases he
      exact ⟨false,rfl⟩
    · cases he
  | pciResourceStart =>
    simp only [Kern.exec,hb.pdev] at he
    cases he
    exact ⟨_,rfl⟩
  | ioRemapPfnRange =>
    simp only [Kern.exec] at he
    split at he
    · cases he
      exact ⟨_,rfl⟩
    · cases he
      exact ⟨_,rfl⟩
    · cases he
  | _ => cases ha

/-- Either program of a file operation loads configspace before it comes to the card. -/
theorem served_loads {cl : KCall} {call : Call} (h : cl.served = some call) :
    cl.code = attach none call.code ∧ LoadsFirst call.code := by
  cases cl with
  | write f ptr len =>
    cases h
    refine ⟨rfl,fun hn => ?_⟩
    cases hn with
    | here h => cases h
    | later r _ _ h =>
      cases r with
      | false => cases h
      | true =>
        cases h with
        | here h => cases h
        | later r hw _ h => exact hw rfl
  | ioctl f cmd arg =>
    cases h
    refine ⟨rfl,(pciUnlockedIoctl_quiet f cmd arg).not_needs (fun a ha hc => ?_)⟩
    rw [Act.quiet,hc] at ha
    cases ha
  | irq ours =>
    cases h
    refine ⟨rfl,fun hn => ?_⟩
    cases ours with
    | false => cases hn
    | true =>
      cases hn with
      | here h => cases h
      | later r hw _ h => exact hw rfl
  | _ => cases h

theorem aside_code {cl : KCall} (hp : ∀ dev, cl ≠ .probe dev) (hr : ∀ dev, cl ≠ .remove dev)
    (h : cl.served = none) : Always (fun a => a.aside = true) cl.code := by
  cases cl with
  | probe dev => exact absurd rfl (hp dev)
  | remove dev => exact absurd rfl (hr dev)
  | openFile f => exact ⟨rfl,fun r => by cases r <;> trivial⟩
  | mmap vmas =>
    refine ⟨rfl,fun r => ?_⟩
    cases r with
    | true => exact ⟨rfl,fun _ => ⟨rfl,fun _ => trivial⟩⟩
    | false => trivial
  | _ => cases h

/-- Programs at the same point return the same value. -/
theorem Attached.ret {p : KCode Int} {p' : Code Int} (h : Attached q p p') (v : Int) :
    p = .ret v ↔ p' = .ret v := by
  have hatt (space : Option Nat) (p' : Code Int) : attach space p' = .ret v ↔ p' = .ret v := by
    cases p' with
    | ret r => exact ⟨fun h => by cases h; rfl,fun h => by cases h; rfl⟩
    | act a k =>
      refine ⟨fun h => ?_,fun h => by cases h⟩
      by_cases ha : a = .configspace
      · subst ha
        cases h
      · rw [attach_act _ _ ha] at h
        cases h
  cases h with
  | fresh _ => exact hatt _ _
  | loaded => exact hatt _ _

/-- At a test of configspace. -/
theorem Attached.test {p : KCode Int} {k : Bool → Code Int}
    (h : Attached q p (.act .configspace k)) :
    ∃ r' : KCode Int, p = .act (.testGlobal .configspace) (fun r => if r = true then
      katom (.getGlobal .configspace) >>= fun space => attach space (k true) else r') := by
  cases h with
  | fresh _ => exact ⟨attach none (k false),rfl⟩
  | loaded => exact ⟨attach (some q) (k false),rfl⟩

/-- At any other action: it goes through a pointer that leads to the card if need be. -/
theorem Attached.act {p : KCode Int} {a : Act} {k : a.Res → Code Int}
    (h : Attached q p (.act a k)) (ha : a ≠ .configspace) :
    ∃ space, p = .act (.file space a) (fun r => attach space (k r)) ∧
      (space = some q ∨ a.touchesCard = false) ∧ ∀ r, Attached q (attach space (k r)) (k r) := by
  cases h with
  | fresh hl =>
    refine ⟨none,attach_act _ _ ha,.inr ?_,fun r => .fresh (fun hn => hl (.later r ha trivial hn))⟩
    rw [← Bool.not_eq_true]
    exact fun hc => hl (.here hc)
  | loaded => exact ⟨some q,attach_act _ _ ha,.inl rfl,fun r => .loaded⟩

end

section
variable {q : Nat} {cl : KCall} {k₀ : Kern} {θ' : Thread Act Act.Res World Call Int}

theorem Shadow.of_idle (h : Shadow q .idle θ') : θ' = .idle := by
  cases h with
  | twin h =>
    cases h
    rfl

theorem Shadow.of_ret {v : Int} (h : Shadow q (.run cl k₀ (.ret v)) θ') :
    (∃ call, cl.served = some call ∧ θ' = .run call k₀.drv (.ret v)) ∨
      (cl.served = none ∧ θ' = .idle) := by
  cases h with
  | twin h =>
    cases h with
    | @run _ call _ _ p' hcl hp =>
      obtain rfl := (hp.ret v).mp rfl
      exact .inl ⟨call,hcl,rfl⟩
  | aside hcl _ => exact .inr ⟨hcl,rfl⟩

/-- The action of a thread that is at the same point in both. -/
theorem Twin.of_act {b : KAct} {kont : b.Res → KCode Int}
    (h : Twin q (.run cl k₀ (.act b kont)) θ') :
    ∃ call a, ∃ k : a.Res → Code Int, cl.served = some call ∧ θ' = .run call k₀.drv (.act a k) ∧
      Attached q (.act b kont) (.act a k) := by
  cases h with
  | @run _ call _ _ p' hcl hp =>
    cases p' with
    | ret v => cases (hp.ret v).mpr rfl
    | act a k => exact ⟨call,a,k,hcl,rfl,hp⟩

theorem Twin.of_run {θ : Thread KAct KAct.Res Kern KCall Int} {call : Call} {w₀ : World}
    {p' : Code Int} (h : Twin q θ (.run call w₀ p')) : ∃ cl k₀ p, θ = .run cl k₀ p ∧
      cl.served = some call ∧ k₀.drv = w₀ ∧ Attached q p p' := by
  cases h with
  | run hcl hp => exact ⟨_,_,_,rfl,hcl,rfl,hp⟩

theorem Twin.of_rest {θ : Thread KAct KAct.Res Kern KCall Int} (h : Twin q θ .idle) :
    θ = .idle := by
  cases h
  rfl

end

section
variable {q d cd w n : Nat} {κ : Core} {s : KSystem} {z : System} {t : Nat}

/-- One thread moves in both systems. -/
theorem Alongside.update {Sim : Thread KAct KAct.Res Kern KCall Int →
    Thread Act Act.Res World Call Int → Prop} (h : Alongside Sim κ s z) (t : Nat) {k : Kern}
    (hκ : k.toCore = κ) {w : World} (hw : w = k.drv) {θ : Thread KAct KAct.Res Kern KCall Int}
    {θ' : Thread Act Act.Res World Call Int} (hθ : Sim θ θ') :
    Alongside Sim κ ⟨k,Function.update s.thr t θ,s.hist⟩ ⟨w,Function.update z.thr t θ',z.hist⟩ := by
  refine ⟨hκ,hw,fun u => ?_,h.hist⟩
  by_cases hu : u = t
  · subst u
    simpa using hθ
  · simpa [hu] using h.thr u

/-- One thread moves in the first system only. -/
theorem Alongside.stutter {Sim : Thread KAct KAct.Res Kern KCall Int →
    Thread Act Act.Res World Call Int → Prop} (h : Alongside Sim κ s z) {k : Kern}
    (hκ : k.toCore = κ) (hw : z.world = k.drv) {θ : Thread KAct KAct.Res Kern KCall Int}
    (hθ : Sim θ (z.thr t)) : Alongside Sim κ ⟨k,Function.update s.thr t θ,s.hist⟩ z := by
  have h := h.update t hκ hw hθ
  rwa [Function.update_eq_self] at h

/-- One thread returns in both systems. -/
theorem Alongside.returned {Sim : Thread KAct KAct.Res Kern KCall Int →
    Thread Act Act.Res World Call Int → Prop} (h : Alongside Sim κ s z) (hidle : Sim .idle .idle)
    {cl : KCall} {call : Call} (hcl : cl.served = some call) (v : Int) :
    Alongside Sim κ { s with thr := Function.update s.thr t .idle
                             hist := Function.update s.hist t ((cl,v) :: s.hist t) }
      { z with thr := Function.update z.thr t .idle
               hist := Function.update z.hist t ((call,v) :: z.hist t) } := by
  refine ⟨h.core,h.world,fun u => ?_,fun u => ?_⟩ <;> by_cases hu : u = t
  · subst u
    simpa using hidle
  · simpa [hu] using h.thr u
  · subst u
    have hh := h.hist t
    unfold servedCalls at hh
    simp [servedCalls,hcl,hh]
  · simpa [hu] using h.hist u

/-- While the card is in service, each step of the kernel is one of the model without
pointers, or one that it does not have. -/
theorem kernel_step_shadowed (c : Cipher) (hb : Bound d q cd w n κ) {l : KStep} {s' : KSystem}
    (h : Alongside (Shadow q) κ s z) (hl : ServiceStep s l) (hs : (kernel c).step s l = some s') :
    ∃ z', (machine c).Reaches Raw z z' ∧ Alongside (Shadow q) κ s' z' := by
  have hb : Bound d q cd w n s.world.toCore := h.core.symm ▸ hb
  have one {l : Step} {z' : System} (hz : (machine c).step z l = some z') (hl : Raw z l) :
      (machine c).Reaches Raw z z' := .tail .refl hl hz
  cases l with
  | call t cl =>
    simp only [Machine.step] at hs
    split at hs
    · rename_i ht
      cases hs
      have hz := h.thr t
      rw [ht] at hz
      have hz := hz.of_idle
      cases hcl : cl.served with
      | none =>
        have hp : (∀ dev, cl ≠ .probe dev) ∧ ∀ dev, cl ≠ .remove dev :=
          ⟨fun dev e => by subst e; exact hl,fun dev e => by subst e; exact hl⟩
        refine ⟨z,.refl,h.stutter h.core h.world ?_⟩
        rw [hz]
        exact .aside hcl (aside_code hp.1 hp.2 hcl)
      | some call =>
        obtain ⟨hcode,hloads⟩ := served_loads hcl
        refine ⟨_,one (Machine.step_call hz) ⟨cl,hcl⟩,h.update t h.core h.world ?_⟩
        have hcode : (kernel c).code cl = attach none call.code := hcode
        rw [hcode,h.world]
        exact .twin (.run hcl (.fresh hloads))
    · cases hs
  | act t x =>
    obtain ⟨cl,k₀,b,kont,ht,hcases⟩ := Machine.actStep_cases hs
    have hsh := h.thr t
    rw [ht] at hsh
    generalize hθ : z.thr t = θ' at hsh
    cases hsh with
    | twin htw =>
      obtain ⟨call,a,k,hcl,rfl,hatt⟩ := htw.of_act
      by_cases ha : a = .configspace
      · subst ha
        obtain ⟨r',hp⟩ := hatt.test
        cases hp
        obtain ⟨k',he,_⟩ | ⟨r,k',he,rfl⟩ | ⟨k',he,_⟩ := hcases
        · cases he
        · cases he
          refine ⟨z,.refl,h.stutter h.core h.world ?_⟩
          rw [hθ,hb.configspace]
          exact .tested k hcl
        · cases he
      · obtain ⟨space,hp,hspace,hnext⟩ := hatt.act ha
        cases hp
        have hexec (o : Out Kern a.Res)
            (he : (kernel c).exec t (.file space a) x s.world = some o) :
            ∃ u, World.exec t a x z.world = some u ∧ o = s.world.ofDrv u := by
          have hfile := Kern.exec_file (t := t) (x := x) hb hspace (fun v hv hx => by
            subst hv
            exact hl.2 space v (by simp only [Sys.next,ht]) hx)
          obtain ⟨u,hu,ho⟩ := Option.map_eq_some_iff.mp (hfile.symm.trans he)
          exact ⟨u,h.world ▸ hu,ho.symm⟩
        obtain ⟨k',he,rfl⟩ | ⟨r,k',he,rfl⟩ | ⟨k',he,rfl⟩ := hcases
        · obtain ⟨u,hu,ho⟩ := hexec _ he
          cases u with
          | stay w' =>
            cases ho
            exact ⟨_,one (Machine.step_stay hθ hu) trivial,h.core,rfl,h.thr,h.hist⟩
          | _ => cases ho
        · obtain ⟨u,hu,ho⟩ := hexec _ he
          cases u with
          | done r w' =>
            cases ho
            exact ⟨_,one (Machine.step_done hθ hu) trivial,
              h.update t (k := { s.world with drv := w' }) h.core rfl (.twin (.run hcl (hnext r)))⟩
          | _ => cases ho
        · obtain ⟨u,hu,ho⟩ := hexec _ he
          cases u with
          | oops w' =>
            cases ho
            exact ⟨_,one (Machine.step_oops hθ hu) trivial,
              h.update t (k := { s.world with drv := w' }) h.core rfl (.twin .dead)⟩
          | _ => cases ho
    | tested k hcl =>
      obtain ⟨k',he,_⟩ | ⟨r,k',he,rfl⟩ | ⟨k',he,_⟩ := hcases
      · cases he
      · cases he
        refine ⟨_,one (Machine.step_done (x := .ok) hθ rfl) trivial,
          h.update t h.core h.world ?_⟩
        rw [hb.configspace]
        exact .twin (.run hcl .loaded)
      · cases he
    | aside hcl hal =>
      have hidle (r : b.Res) : Shadow q (.run cl k₀ (kont r)) (z.thr t) := by
        rw [hθ]
        exact .aside hcl (hal.2 r)
      have hjob (f : Nat) (hf : b = .kzallocJob f) : s.world.drv.jobs f = pciOpen :=
        hl.1 f (by simp only [Sys.next,ht,hf])
      obtain ⟨k',he,_⟩ | ⟨r,k',he,rfl⟩ | ⟨k',he,_⟩ := hcases
      · obtain ⟨r,ho⟩ := Kern.exec_aside hb hal.1 hjob he
        cases ho
      · obtain ⟨r',ho⟩ := Kern.exec_aside hb hal.1 hjob he
        cases ho
        exact ⟨z,.refl,h.stutter h.core h.world (hidle _)⟩
      · obtain ⟨r,ho⟩ := Kern.exec_aside hb hal.1 hjob he
        cases ho
  | ret t =>
    simp only [Machine.step] at hs
    split at hs
    · rename_i cl k₀ v ht
      cases hs
      have hsh := h.thr t
      rw [ht] at hsh
      rcases hsh.of_ret with ⟨call,hcl,hz⟩ | ⟨hcl,hz⟩
      · exact ⟨_,one (Machine.step_ret hz) trivial,h.returned (.twin .idle) hcl v⟩
      · have hidle : Shadow q .idle (z.thr t) := by
          rw [hz]
          exact .twin .idle
        have h := h.stutter h.core h.world hidle
        refine ⟨z,.refl,h.core,h.world,h.thr,fun u => ?_⟩
        by_cases hu : u = t
        · subst u
          simpa [servedCalls,hcl] using h.hist t
        · simpa [hu] using h.hist u
    · cases hs
  | env e =>
    simp only [Machine.step,Option.map_eq_some_iff] at hs
    obtain ⟨k,he,rfl⟩ := hs
    obtain ⟨w',hw,rfl⟩ := Option.map_eq_some_iff.mp he
    rw [← h.world] at hw
    exact ⟨_,one (Machine.step_env hw) trivial,h.core,rfl,h.thr,h.hist⟩

/-- Each step of the model without pointers is one or two of the kernel while the card is
in service. -/
theorem model_step_served (c : Cipher) (hb : Bound d q cd w n κ) {l : Step} {z' : System}
    (h : Alongside (Twin q) κ s z) (hl : Raw z l) (hz : (machine c).step z l = some z') :
    ∃ s', (kernel c).Reaches ServiceStep s s' ∧ Alongside (Twin q) κ s' z' := by
  have hb : Bound d q cd w n s.world.toCore := h.core.symm ▸ hb
  cases l with
  | call t call =>
    simp only [Machine.step] at hz
    split at hz
    · rename_i ht
      cases hz
      obtain ⟨cl,hcl⟩ := hl
      have hs := h.thr t
      rw [ht] at hs
      obtain ⟨hcode,hloads⟩ := served_loads hcl
      have hserves : ServiceStep s (.call t cl) := by
        cases cl with
        | probe dev => cases hcl
        | remove dev => cases hcl
        | _ => trivial
      refine ⟨_,.tail .refl hserves (Machine.step_call hs.of_rest),h.update t h.core h.world ?_⟩
      have hcode : (kernel c).code cl = attach none call.code := hcode
      rw [hcode,h.world]
      exact .run hcl (.fresh hloads)
    · cases hz
  | act t x =>
    obtain ⟨call,w₀,a,k,ht,hcases⟩ := Machine.actStep_cases hz
    have hs := h.thr t
    rw [ht] at hs
    obtain ⟨cl,k₀,p,hθ,hcl,rfl,hatt⟩ := hs.of_run
    by_cases ha : a = .configspace
    · subst ha
      obtain ⟨r',rfl⟩ := hatt.test
      obtain ⟨w',he,_⟩ | ⟨r,w',he,rfl⟩ | ⟨w',he,_⟩ := hcases
      · cases he
      · cases he
        -- the test, then the load
        let s₁ : KSystem := ⟨s.world,Function.update s.thr t (.run cl k₀
          (katom (.getGlobal .configspace) >>= fun space => attach space (k true))),s.hist⟩
        have h₁ : (kernel c).step s (.act t .ok) = some s₁ := by
          have he : (kernel c).exec t (.testGlobal .configspace) .ok s.world =
              some (.done true s.world) := by
            show some (Out.done (s.world.mycryptodev .configspace).isSome s.world) = _
            rw [hb.configspace]
            rfl
          exact Machine.step_done hθ he
        have h₂ : (kernel c).step s₁ (.act t .ok) = some ⟨s.world,Function.update s₁.thr t
            (.run cl k₀ (attach (some q) (k true))),s.hist⟩ := by
          have he : (kernel c).exec t (.getGlobal .configspace) .ok s.world =
              some (.done (some q) s.world) := by
            show some (Out.done (s.world.mycryptodev .configspace) s.world) = _
            rw [hb.configspace]
          exact Machine.step_done (s := s₁) (Function.update_self _ _ _) he
        have hserves₁ : ServiceStep s (.act t .ok) := by
          simp [ServiceStep,Sys.next,hθ]
        have hserves₂ : ServiceStep s₁ (.act t .ok) := by
          constructor
          · intro f hf
            simp only [Sys.next,s₁,Function.update_self] at hf
            cases hf
          · intro _ _ _ hx
            cases hx
        refine ⟨_,.tail (.tail .refl hserves₁ h₁) hserves₂ h₂,?_⟩
        simp only [s₁,Function.update_idem]
        exact h.update t h.core h.world (.run hcl .loaded)
      · cases he
    · obtain ⟨space,rfl,hspace,hnext⟩ := hatt.act ha
      -- the handler reads what is there, whatever the choice
      obtain ⟨y,hy,hread⟩ : ∃ y, World.exec t a y z.world = World.exec t a x z.world ∧
          ∀ v, a = .ioread .interruptStatus → y = .value v →
            v = s.world.drv.card.interruptStatus := by
        by_cases hi : a = .ioread .interruptStatus
        · subst hi
          exact ⟨.ok,rfl,fun _ _ hv => by cases hv⟩
        · exact ⟨x,rfl,fun v hv => absurd hv hi⟩
      have hexec (u : Out World a.Res) (hu : World.exec t a x z.world = some u) :
          (kernel c).exec t (.file space a) y s.world = some (s.world.ofDrv u) := by
        rw [← hy,h.world] at hu
        show Kern.exec t (.file space a) y s.world = _
        rw [Kern.exec_file hb hspace hread,hu,Option.map_some]
      have hserves : ServiceStep s (.act t y) := by
        refine ⟨fun f hf => ?_,fun p v hf hv => ?_⟩
        · simp only [Sys.next,hθ] at hf
          cases hf
        · simp only [Sys.next,hθ] at hf
          cases hf
          exact hread v rfl hv
      obtain ⟨w',he,rfl⟩ | ⟨r,w',he,rfl⟩ | ⟨w',he,rfl⟩ := hcases
      · exact ⟨_,.tail .refl hserves (Machine.step_stay hθ (hexec _ he)),h.core,rfl,h.thr,h.hist⟩
      · exact ⟨_,.tail .refl hserves (Machine.step_done hθ (hexec _ he)),
          h.update t (k := { s.world with drv := w' }) h.core rfl (.run hcl (hnext r))⟩
      · exact ⟨_,.tail .refl hserves (Machine.step_oops hθ (hexec _ he)),
          h.update t (k := { s.world with drv := w' }) h.core rfl .dead⟩
  | ret t =>
    simp only [Machine.step] at hz
    split at hz
    · rename_i call w₀ v ht
      cases hz
      have hs := h.thr t
      rw [ht] at hs
      obtain ⟨cl,k₀,p,hθ,hcl,rfl,hatt⟩ := hs.of_run
      obtain rfl := (hatt.ret v).mpr rfl
      have hserves : ServiceStep s (.ret t) := trivial
      exact ⟨_,.tail .refl hserves (Machine.step_ret hθ),h.returned .idle hcl v⟩
    · cases hz
  | env e =>
    simp only [Machine.step,Option.map_eq_some_iff] at hz
    obtain ⟨w',he,rfl⟩ := hz
    have he : World.env c e s.world.drv = some w' := h.world ▸ he
    have hstep : (kernel c).env e s.world = some { s.world with drv := w' } := by
      show (World.env c e s.world.drv).map _ = _
      rw [he,Option.map_some]
    have hserves : ServiceStep s (.env e) := trivial
    exact ⟨_,.tail .refl hserves (Machine.step_env hstep),h.core,rfl,h.thr,h.hist⟩

end

/-- While a card is in service, what the file operations and the handler do through the
pointers of the driver is what they do in the model without pointers, and nothing is lost
in between: the runs of either reach the same worlds with the same calls done. -/
theorem service_agrees (c : Cipher) (k : Kern) {d q cd w n : Nat} (hb : Bound d q cd w n k.toCore) :
    (∀ s, (kernel c).Reaches ServiceStep (bound k) s →
      ∃ z, (machine c).Reaches Raw (start k.drv) z ∧
      z.world = s.world.drv ∧ (∀ t, z.hist t = servedCalls (s.hist t)) ∧
      ∀ t, s.thr t = .dead ↔ z.thr t = .dead) ∧
    (∀ z, (machine c).Reaches Raw (start k.drv) z →
      ∃ s, (kernel c).Reaches ServiceStep (bound k) s ∧
      s.world.drv = z.world ∧ (∀ t, servedCalls (s.hist t) = z.hist t) ∧
      ∀ t, s.thr t = .dead ↔ z.thr t = .dead) := by
  constructor
  · intro s hr
    have hstart : Alongside (Shadow q) k.toCore (bound k) (start k.drv) :=
      ⟨rfl,rfl,fun _ => .twin .idle,fun _ => rfl⟩
    obtain ⟨z,hz,h⟩ := hr.mimicked
      (fun s z l s' h hl hs => kernel_step_shadowed c hb h hl hs) hstart
    refine ⟨z,hz,h.world,h.hist,fun t => ?_⟩
    have hsh := h.thr t
    constructor <;> intro ht <;> rw [ht] at hsh
    · cases hsh with
      | twin hsh =>
        generalize z.thr t = θ at hsh
        cases hsh
        rfl
    · generalize s.thr t = θ at hsh
      cases hsh with
      | twin hsh =>
        cases hsh
        rfl
  · intro z hr
    have hstart : Alongside (Twin q) k.toCore (bound k) (start k.drv) :=
      ⟨rfl,rfl,fun _ => .idle,fun _ => rfl⟩
    have hsim (z : System) (s : KSystem) (l : Step) (z' : System)
        (h : Alongside (Twin q) k.toCore s z) (hl : Raw z l) (hz : (machine c).step z l = some z') :
        ∃ s', (kernel c).Reaches ServiceStep s s' ∧ Alongside (Twin q) k.toCore s' z' :=
      model_step_served c hb h hl hz
    obtain ⟨s,hs,h⟩ := hr.mimicked hsim hstart
    refine ⟨s,hs,h.world.symm,fun t => (h.hist t).symm,fun t => ?_⟩
    have htw := h.thr t
    constructor <;> intro ht <;> rw [ht] at htw
    · generalize z.thr t = θ at htw
      cases htw
      rfl
    · generalize s.thr t = θ at htw
      cases htw
      rfl

/-- Neither a probe nor a remove, no new handle, and no answer for `interrupt_status`. -/
def serviceStep (s : KSystem) (l : KStep) : Bool :=
  match l with
  | .call _ cl => match cl with | .probe _ | .remove _ => false | _ => true
  | .act t x => (match s.next t with | some (.kzallocJob _) => false | _ => true) &&
    match s.next t, x with
    | some (.file _ (.ioread .interruptStatus)), .value _ => false
    | _, _ => true
  | _ => true

theorem service_of_step {s : KSystem} {l : KStep} (h : serviceStep s l = true) :
    ServiceStep s l := by
  cases l with
  | call t cl => cases cl <;> trivial
  | act t x =>
    obtain ⟨hjob,hread⟩ := Bool.and_eq_true_iff.mp h
    refine ⟨fun f hf => ?_,fun p v hf hx => ?_⟩
    · rw [hf] at hjob
      cases hjob
    · rw [hf,hx] at hread
      cases hread
  | _ => trivial

/-- A mapping is set up while another thread writes one mapped byte. -/
theorem service_agrees_mapped :
    ∃ s z, (kernel (.bytewise fun _ _ x => x+1)).Reaches ServiceStep (bound cardInService) s ∧
      (machine (.bytewise fun _ _ x => x+1)).Reaches Raw (start cardInService.drv) z ∧
      z.world = s.world.drv ∧ (s.hist 1).length = 1 ∧ z.hist 1 = [] ∧
      z.hist 0 = [(.write 0 0 1,0)] := by
  obtain ⟨s,hr,_,hp⟩ := Machine.exists_reaches (M := kernel (.bytewise fun _ _ x => x+1))
    (P := ServiceStep) (n := 2) (b := serviceStep) (s := bound cardInService)
    (p := fun s => (s.hist 1).length == 1 && servedCalls (s.hist 1) == [] &&
      servedCalls (s.hist 0) == [(.write 0 0 1,0)])
    (fun _ _ _ h => service_of_step h)
    (.call 1 (.mmap ⟨0,4096,0,()⟩) :: .call 0 (.write 0 0 1) :: List.replicate 6 (.act 0 .ok) ++
      .act 0 (.value 0) :: List.replicate 3 (.act 1 .ok) ++ List.replicate 13 (.act 0 .ok) ++
      .env .finish :: .ret 1 :: List.replicate 5 (.act 0 .ok) ++ [.ret 0])
    (fun _ _ => rfl) (by decide +kernel)
  simp only [Bool.and_eq_true,beq_iff_eq] at hp
  obtain ⟨z,hz,hw,hh,_⟩ := (service_agrees _ _ cardInService_bound).1 s hr
  exact ⟨s,z,hr,hz,hw,hp.1.1,(hh 1).trans hp.1.2,(hh 0).trans hp.2⟩

end CryptoCard
