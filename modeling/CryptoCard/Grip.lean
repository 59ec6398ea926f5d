import CryptoCard.Buffers
set_option autoImplicit false

/-! What a call may lay its hands on: the job of its own handle, its own user memory, the
buffer of its own job, and so much of the data window as it has filled itself. -/
namespace CryptoCard
open Memory Program Interleave

/-- `lo` and `size` are the call's range of user memory, `jobs` the jobs of its client,
`buf` the buffer it allocated last and `put` the number of bytes at the start of the
window that it has copied there since it took the semaphore. -/
structure Grip where
  file : Option Nat
  lo : Nat
  size : Nat
  jobs : Nat → Job
  buf : Option Nat
  held : Bool
  put : Nat

namespace Grip

def setJob (v : Grip) (f : Nat) (j : Job) : Grip :=
  { v with jobs := Function.update v.jobs f j }

/-- `p` is the buffer of the job. -/
def Uses (v : Grip) (p : Option Nat) : Prop := ∃ f, v.file = some f ∧ p = (v.jobs f).msg

/-- The `n` bytes of user memory from `ptr` on belong to the call. -/
def Covers (v : Grip) (ptr n : Nat) : Prop := v.lo ≤ ptr ∧ ptr+n ≤ v.lo+v.size

def Ok (v : Grip) : Act → Prop
  | .flag f _ | .len f | .msg f | .keyab f => v.file = some f
  | .setFlag f _ _ | .setLen f _ | .copyKey f _ => v.file = some f
  | .setMsg f p => v.file = some f ∧ (p = none ∨ p = v.buf)
  | .copyFromUser p ptr n | .copyToUser ptr p n => v.Uses p ∧ v.Covers ptr n
  | .memcpyToio p _ => v.Uses p ∧ v.held = true
  | .memcpyFromio p n => v.Uses p ∧ n ≤ v.put
  | .downInterruptible => v.held = false
  | .up => v.held = true
  | .iowrite .dataAddr a => a = r1Start
  | .userStore addr xs => v.Covers addr xs.length
  | _ => True

def Next (v : Grip) : (a : Act) → a.Res → Grip → Prop
  | .flag f x, r, v' => v' = v ∧ r = (v.jobs f).flag x
  | .len f, r, v' => v' = v ∧ r = (v.jobs f).len
  | .msg f, r, v' => v' = v ∧ r = (v.jobs f).msg
  | .setFlag f x b, _, v' => v' = v.setJob f ((v.jobs f).setFlag x b)
  | .setLen f n, _, v' => v' = v.setJob f { v.jobs f with len := n }
  | .setMsg f p, _, v' => v' = v.setJob f { v.jobs f with msg := p }
  | .copyKey f arg, _, v' => v' = v.setJob f { v.jobs f with keyab := le32 arg }
  | .vmalloc _, r, v' => v' = { v with buf := r }
  | .downInterruptible, r, v' => v' = { v with held := !r, put := 0 }
  | .up, _, v' => v' = { v with held := false, put := 0 }
  | .memcpyToio _ n, _, v' => v' = { v with put := n }
  | _, _, v' => v' = v

end Grip

/-- The user memory that a call works on, bare writes included. -/
def Call.area : Call → Nat × Nat
  | .write _ ptr len => (ptr,min len MAX_RW_COUNT)
  | call => call.range

namespace Grip

/-- Outside of the semaphore, with the handle and the range of `v₀`. -/
structure Rests (v₀ v : Grip) : Prop where
  file : v.file = v₀.file
  lo : v.lo = v₀.lo
  size : v.size = v₀.size
  held : v.held = false
  put : v.put = 0

/-- In a write on `f` that began with `v₀`. -/
structure Amid (f : Nat) (v₀ v : Grip) : Prop where
  file : v.file = some f
  lo : v.lo = v₀.lo
  size : v.size = v₀.size
  same : v.file = v₀.file
  notMM : (v.jobs f).isNotMM = (v₀.jobs f).isNotMM

/-- After a write on `f` that began with `v₀`. -/
structure Past (f : Nat) (v₀ v : Grip) : Prop extends Rests v₀ v where
  notMM : (v.jobs f).isNotMM = (v₀.jobs f).isNotMM

section
attribute [local simp] Ok Next
variable {f ptr n : Nat} {err : Int} {v v₀ : Grip}

theorem Amid.past (h : Amid f v₀ v) (hh : v.held = false) (hp : v.put = 0) : Past f v₀ v :=
  ⟨⟨h.same,h.lo,h.size,hh,hp⟩,h.notMM⟩

theorem Amid.setJob (h : Amid f v₀ v) {j : Job} (hj : j.isNotMM = (v.jobs f).isNotMM) :
    Amid f v₀ (v.setJob f j) :=
  ⟨h.file,h.lo,h.size,h.same,by simpa [Grip.setJob,hj] using h.notMM⟩

/-- What a call begins with. -/
structure Calling (call : Call) (v : Grip) : Prop where
  rests : Rests v v
  file : v.file = call.handle
  lo : v.lo = call.area.1
  size : v.size = call.area.2

end

end Grip

/-- A call that thread `t` may make: on its own handles and in its own user memory. -/
def Call.Minds (holder owner : Nat → Nat) (t : Nat) (call : Call) : Prop :=
  (∀ f, call.handle = some f → holder f = t) ∧
  ∀ x, Within call.area.1 call.area.2 x → owner x = t

/-- The threads keep to what they may lay their hands on. -/
structure Grips (holder owner : Nat → Nat) (g : Nat → Grip) (w : World) : Prop where
  sem : Sem (fun t => (g t).held = true) w
  jobs : ∀ f, w.jobs f = (g (holder f)).jobs f
  msg : ∀ f b, (w.jobs f).msg = some b → b < w.nbuf ∧ (w.heap b).owner = holder f
  buf : ∀ t b, (g t).buf = some b → b < w.nbuf ∧ (w.heap b).owner = t
  put : ∀ t, 0 < (g t).put → (g t).held = true
  file : ∀ t f, (g t).file = some f → holder f = t
  range : ∀ t x, Within (g t).lo (g t).size x → owner x = t
  op : ∀ o, w.card.op = some o → o.kind = .mmio → o.addr = r1Start

/-- What becomes of a grip with an action and its answer. -/
def Grip.after (v : Grip) (a : Act) (r : a.Res) : Grip :=
  { v with
    jobs := a.stored v.jobs
    buf := match a, r with
      | .vmalloc _, r => r
      | _, _ => v.buf
    held := match a, r with
      | .downInterruptible, r => !r
      | .up, _ => false
      | _, _ => v.held
    put := match a with
      | .downInterruptible | .up => 0
      | .memcpyToio _ n => n
      | _ => v.put }

section
variable {holder owner : Nat → Nat} {g : Nat → Grip} {w w' : World} {t : Nat} {v : Grip}

/-- No buffer gets lost or changes hands. -/
theorem World.exec_owner {a : Act} {x : Choice} {r : a.Res}
    (he : World.exec t a x w = some (.done r w')) {b : Nat} (hb : b < w.nbuf) :
    b < w'.nbuf ∧ (w'.heap b).owner = (w.heap b).owner := by
  by_cases ha : a.keepsStore = true
  · have hs := World.exec_store ha he
    rw [hs.nbuf]
    exact ⟨hb,(Buf.shape_eq (hs.heap b)).1⟩
  · cases a with
    | vmalloc n =>
      obtain ⟨_,rfl⟩ | ⟨_,_,g,rfl⟩ := World.vmalloc_done he
      · exact ⟨hb,rfl⟩
      · exact ⟨Nat.lt_succ_of_lt hb,by simp [World.allocate,World.setBuf,Nat.ne_of_lt hb]⟩
    | vfree p =>
      cases he
      cases p with
      | none => exact ⟨hb,rfl⟩
      | some b' =>
        refine ⟨hb,?_⟩
        by_cases hbb : b = b'
        · subst hbb
          simp [World.release,World.setBuf]
        · simp [World.release,World.setBuf,hbb]
    | dmaMapSingle p n => obtain ⟨_,rfl⟩ | ⟨_,rfl⟩ := World.dmaMapSingle_done he <;> exact ⟨hb,rfl⟩
    | dmaUnmapSingle h n => cases he; exact ⟨hb,rfl⟩
    | _ => exact absurd rfl ha

namespace Grip

/-- An action stores to the job of the call's handle only. -/
theorem Ok.stored {a : Act} (hok : v.Ok a) {f : Nat} (hf : v.file ≠ some f) (jobs : Nat → Job) :
    a.stored jobs f = jobs f := by
  have hne {f' : Nat} (h : v.file = some f') : f ≠ f' := fun e => hf (e ▸ h)
  cases a with
  | setFlag f' y b => exact Function.update_of_ne (hne hok) _ _
  | setLen f' n => exact Function.update_of_ne (hne hok) _ _
  | setMsg f' p => exact Function.update_of_ne (hne hok.1) _ _
  | copyKey f' arg => exact Function.update_of_ne (hne hok) _ _
  | _ => rfl

/-- What it stores depends on that job only. -/
theorem stored_congr (a : Act) {jobs jobs' : Nat → Job} {f : Nat} (h : jobs f = jobs' f) :
    a.stored jobs f = a.stored jobs' f := by
  have hupdate {f' : Nat} {j j' : Job} (hj : f = f' → j = j') :
      Function.update jobs f' j f = Function.update jobs' f' j' f := by
    by_cases hf : f = f'
    · subst hf
      rw [Function.update_self,Function.update_self,hj rfl]
    · rw [Function.update_of_ne hf,Function.update_of_ne hf,h]
  cases a with
  | setFlag f' y b => exact hupdate (fun e => by rw [← e,h])
  | setLen f' n => exact hupdate (fun e => by rw [← e,h])
  | setMsg f' p => exact hupdate (fun e => by rw [← e,h])
  | copyKey f' arg => exact hupdate (fun e => by rw [← e,h])
  | _ => exact h

/-- The buffer of a job is the one that the call stores. -/
theorem Ok.stored_msg {a : Act} (hok : v.Ok a) {jobs : Nat → Job} {f b : Nat}
    (hb : (a.stored jobs f).msg = some b) :
    (jobs f).msg = some b ∨ (v.file = some f ∧ v.buf = some b) := by
  have hupdate {f' : Nat} (j : Job) (hj : j.msg = (jobs f').msg)
      (h : (Function.update jobs f' j f).msg = some b) : (jobs f).msg = some b := by
    by_cases hf : f = f'
    · subst hf
      rwa [Function.update_self,hj] at h
    · rwa [Function.update_of_ne hf] at h
  cases a with
  | setFlag f' y c => exact .inl (hupdate _ (by cases y <;> rfl) hb)
  | setLen f' n => exact .inl (hupdate { jobs f' with len := n } rfl hb)
  | copyKey f' arg => exact .inl (hupdate { jobs f' with keyab := le32 arg } rfl hb)
  | setMsg f' p =>
    by_cases hf : f = f'
    · subst hf
      rw [Act.stored,Function.update_self] at hb
      obtain ⟨hfile,rfl | rfl⟩ := hok
      · cases hb
      · exact .inr ⟨hfile,hb⟩
    · rw [Act.stored,Function.update_of_ne hf] at hb
      exact .inl hb
  | _ => exact .inl hb

/-- The answers to reads of the job are what the job says. -/
theorem next_after {a : Act} {x : Choice} {r : a.Res} (hok : v.Ok a)
    (hj : ∀ f, v.file = some f → w.jobs f = v.jobs f)
    (he : World.exec t a x w = some (.done r w')) : v.Next a r (v.after a r) := by
  cases a with
  | flag f y => cases he; exact ⟨rfl,by rw [hj f hok]⟩
  | len f => cases he; exact ⟨rfl,by rw [hj f hok]⟩
  | msg f => cases he; exact ⟨rfl,by rw [hj f hok]⟩
  | _ => rfl

end Grip

namespace Grips

theorem done (h : Grips holder owner g w) {a : Act} {x : Choice} {r : a.Res}
    (hok : (g t).Ok a) (he : World.exec t a x w = some (.done r w')) :
    (g t).Next a r ((g t).after a r) ∧
      Grips holder owner (Function.update g t ((g t).after a r)) w' := by
  have hown (f : Nat) (hf : (g t).file = some f) : w.jobs f = (g t).jobs f := by
    rw [h.jobs f,h.file t f hf]
  have hjobs := World.exec_jobs he
  refine ⟨Grip.next_after hok hown he,?_,fun f => ?_,fun f b hb => ?_,fun u b hb => ?_,fun u hu => ?_,
    fun u f hf => ?_,fun u y hy => ?_,fun o ho hk => ?_⟩
  · refine Sem.next (H := fun v : Grip => v.held = true) h.sem he (fun hu => ?_) (fun hu => ?_)
    · cases a with
      | up => exact absurd rfl hu
      | downInterruptible =>
        have hheld : (g t).held = false := hok
        simp [Grip.after,Act.takes,hheld]
      | _ => simp [Grip.after,Act.takes]
    · subst hu
      have hheld : (g t).held = true := hok
      simp [Grip.after,hheld]
  · rw [hjobs]
    by_cases hf : holder f = t
    · rw [hf,Function.update_self]
      exact Grip.stored_congr a (by rw [h.jobs f,hf])
    · rw [Function.update_of_ne hf,hok.stored (fun e => hf (h.file t f e))]
      exact h.jobs f
  · rw [hjobs] at hb
    have hold : b < w.nbuf ∧ (w.heap b).owner = holder f := by
      obtain hb | ⟨hf,hb⟩ := hok.stored_msg hb
      · exact h.msg f b hb
      · rw [h.file t f hf]
        exact h.buf t b hb
    obtain ⟨hlt,ho⟩ := World.exec_owner he hold.1
    exact ⟨hlt,ho.trans hold.2⟩
  · have hold (hb : (g u).buf = some b) : b < w'.nbuf ∧ (w'.heap b).owner = u := by
      obtain ⟨hlt,ho⟩ := h.buf u b hb
      obtain ⟨hlt',ho'⟩ := World.exec_owner he hlt
      exact ⟨hlt',ho'.trans ho⟩
    by_cases hut : u = t
    · subst hut
      rw [Function.update_self] at hb
      cases a with
      | vmalloc n =>
        have hb : r = some b := hb
        obtain ⟨rfl,_⟩ | ⟨_,rfl,g,rfl⟩ := World.vmalloc_done he
        · cases hb
        · cases hb
          exact ⟨Nat.lt_succ_self _,by simp [World.allocate,World.setBuf]⟩
      | _ => exact hold hb
    · rw [Function.update_of_ne hut] at hb
      exact hold hb
  · by_cases hut : u = t
    · subst hut
      rw [Function.update_self] at hu ⊢
      cases a with
      | downInterruptible => exact absurd hu (Nat.lt_irrefl 0)
      | up => exact absurd hu (Nat.lt_irrefl 0)
      | memcpyToio p n => exact hok.2
      | _ => exact h.put u hu
    · rw [Function.update_of_ne hut] at hu ⊢
      exact h.put u hu
  · refine h.file u f ?_
    by_cases hut : u = t
    · subst hut
      rwa [Function.update_self] at hf
    · rwa [Function.update_of_ne hut] at hf
  · refine h.range u y ?_
    by_cases hut : u = t
    · subst hut
      rwa [Function.update_self] at hy
    · rwa [Function.update_of_ne hut] at hy
  · by_cases ha : ∃ reg n, a = .iowrite reg n
    · obtain ⟨reg,n,rfl⟩ := ha
      cases he
      obtain ho | ⟨rfl,rfl⟩ | ⟨_,rfl⟩ := Card.iowrite_op ho
      · exact h.op o ho hk
      · exact hok
      · cases hk
    · rw [(World.exec_regs (fun reg n e => ha ⟨reg,n,e⟩) he).2] at ho
      exact h.op o ho hk

/-- Nothing is in hand but what the world is asked for. -/
theorem congr (h : Grips holder owner g w) (hj : w'.jobs = w.jobs) (hb : w'.nbuf = w.nbuf)
    (hh : ∀ b, (w'.heap b).owner = (w.heap b).owner) (hs : w'.wsem = w.wsem)
    (hl : w'.holders = w.holders) (ho : ∀ o, w'.card.op = some o → w.card.op = some o) :
    Grips holder owner g w' where
  sem := h.sem.congr hs hl (fun _ => Iff.rfl)
  jobs := by rw [hj]; exact h.jobs
  msg f b hf := by rw [hb,hh]; exact h.msg f b (hj ▸ hf)
  buf t b ht := by rw [hb,hh]; exact h.buf t b ht
  put := h.put
  file := h.file
  range := h.range
  op o hop := h.op o (ho o hop)

theorem stay (h : Grips holder owner g w) {a : Act} {x : Choice}
    (he : World.exec t a x w = some (.stay w')) : Grips holder owner g w' := by
  obtain ⟨_,rfl⟩ := World.stay_task he
  exact h.congr rfl rfl (fun _ => rfl) rfl rfl (fun _ ho => ho)

theorem env (h : Grips holder owner g w) {c : Cipher} {e : World.Env}
    (he : World.env c e w = some w') : Grips holder owner g w' := by
  obtain ⟨_,o,_,_,rfl⟩ | ⟨_,k,_,rfl⟩ := World.env_cases he
  · have hc := World.transform_control c w o
    have hs := World.transform_store c w o
    exact h.congr (World.transform_jobs c w o) hs.nbuf (fun b => (Buf.shape_eq (hs.heap b)).1)
      hc.wsem hc.holders (fun _ ho => by cases ho)
  · exact h.congr rfl rfl (fun _ => rfl) rfl rfl (fun _ ho => ho)

theorem begin_call (h : Grips holder owner g w) {call : Call} (hc : call.Minds holder owner t)
    (hheld : (g t).held = false) : Grips holder owner (Function.update g t
      ⟨call.handle,call.area.1,call.area.2,(g t).jobs,none,false,0⟩) w where
  sem := h.sem.congr rfl rfl (fun u => by by_cases hu : u = t <;> simp [hu,hheld])
  jobs f := by
    rw [h.jobs f]
    by_cases hf : holder f = t <;> simp [hf]
  msg := h.msg
  buf u b hb := by
    by_cases hu : u = t
    · subst hu
      simp at hb
    · exact h.buf u b (by simpa [hu] using hb)
  put u hu := by
    by_cases hut : u = t
    · subst hut
      simp at hu
    · simpa [hut] using h.put u (by simpa [hut] using hu)
  file u f hf := by
    by_cases hu : u = t
    · subst hu
      exact hc.1 f (by simpa using hf)
    · exact h.file u f (by simpa [hu] using hf)
  range u x hx := by
    by_cases hu : u = t
    · subst hu
      exact hc.2 x (by simpa using hx)
    · exact h.range u x (by simpa [hu] using hx)
  op := h.op

end Grips

end

end CryptoCard
