import CryptoCard.Progress
set_option autoImplicit false

/-! One handle shared by any number of threads: when the library calls that have returned
are those of some sequential order. -/
namespace CryptoCard
open Memory Chunks Program Interleave

/-- No system call is in progress. -/
def Between (s : System) : Prop := ∀ t cl w, s.turn t = some (cl,w) → cl.front = false

/-- System calls are made one after the other, each when the card has finished. -/
def Atomic (s : System) : Step → Prop
  | .call _ cl => cl.front = true → Between s ∧ s.world.card.op = none
  | _ => True

/-- A write of an encrypt or decrypt, the `n`-th library call of its thread, finds the
direction of its own call, and the key `K n`. -/
def Place.finds (f : Nat) (K : Nat → Nat) (w : World) (p : Place) : Call → Bool
  | .write _ _ _ =>
    match p.ahead f with
    | some (.crypt d _ _,_) => (w.jobs f).isE == !d && (w.jobs f).keyab == K p.done.length
    | _ => true
  | _ => true

/-- Every write of one encrypt or decrypt finds its direction and one and the same key. -/
def Found (f : Nat) (prog : Nat → List LibCall) (K : Nat → Nat → Nat) (s : System) : Step → Prop
  | .call t cl => (place f (prog t) (syscalls s t)).finds f (K t) s.world cl = true
  | _ => True

/-- The bytes that a library call works on. -/
def LibCall.touches : LibCall → Nat → Prop
  | .crypt _ addr length => Within addr length
  | .setKey _ _ => fun _ => False

def area (ls : List LibCall) (x : Nat) : Prop := ∃ l ∈ ls, l.touches x

/-- What the threads share of the handle and of the memory. -/
structure Shared where
  key : Nat
  mem : Nat → Byte

/-- A library call that has returned `v`, with nobody else around. -/
def LibCall.Effect (c : Cipher) (v : Int) (a b : Shared) : LibCall → Prop
  | .crypt d addr length => b.key = a.key ∧ ∃ k, Leaves (c.run d a.key) addr length k v a.mem b.mem
  | .setKey x y => b.mem = a.mem ∧ (v = 0 ∧ b.key = 256*x.toNat+y.toNat ∨ v = ERROR)

/-- The calls `σ`, last one first, one after the other. -/
def InTurn (c : Cipher) : List (Nat × LibCall × Int) → Shared → Shared → Prop
  | [],a,b => b = a
  | (_,l,v) :: σ,a,b => ∃ a', InTurn c σ a a' ∧ l.Effect c v a' b

/-- The calls that have returned, with their results, are those of `σ`, and `b` is what they
come to; where no call is under way this is what there is. -/
structure Serial (c : Cipher) (f : Nat) (prog : Nat → List LibCall) (w : World) (s : System)
    (σ : List (Nat × LibCall × Int)) (b : Shared) : Prop where
  order : ∀ t, (σ.filter (fun e => e.1 == t)).map Prod.snd =
    (place f (prog t) (syscalls s t)).done
  turn : InTurn c σ ⟨(w.jobs f).keyab,w.umem⟩ b
  key : b.key = (s.world.jobs f).keyab
  mem : ∀ x, (∀ t l q, (place f (prog t) (syscalls s t)).cur = some (l,q) → ¬ l.touches x) →
    s.world.umem x = b.mem x

/-- Where a thread stands in its library call, with the key that its writes find, when the
memory was `m` before. -/
def Engaged (c : Cipher) (f K : Nat) (m : Nat → Byte) (j : Job) (m' : Nat → Byte) :
    Option (LibCall × LibCode × List LibCall) → Prop
  | none => m' = m
  | some (.setKey x y,q,_) => q = sysSetKey f x y ∧ m' = m
  | some (.crypt d addr length,q,_) => ∃ k,
      Midcall c f d addr length m q { j with isE := !d, keyab := K } k m'

/-- The threads, after the system calls `hs`, have come to `b` by the calls `σ`. -/
structure Tally (c : Cipher) (f : Nat) (prog : Nat → List LibCall) (K : Nat → Nat → Nat)
    (w₀ : World) (hs : Nat → List (Call × Int)) (w : World) (σ : List (Nat × LibCall × Int))
    (b : Shared) : Prop where
  order : ∀ t, (σ.filter (fun e => e.1 == t)).map Prod.snd = (place f (prog t) (hs t)).done
  turn : InTurn c σ ⟨(w₀.jobs f).keyab,w₀.umem⟩ b
  key : b.key = (w.jobs f).keyab
  each : ∀ t, ∃ m, AgreeOn (area (prog t)) w.umem m ∧
    Engaged c f (K t (place f (prog t) (hs t)).done.length) b.mem (w.jobs f) m
      ((place f (prog t) (hs t)).ahead f)
  elsewhere : ∀ x, (∀ t, ¬ area (prog t) x) → w.umem x = b.mem x

section
variable {c : Cipher} {f t addr length k : Nat} {d : Bool} {m m' m₂ : Nat → Byte} {q : LibCode}
variable {j i : Job} {X : Nat → Prop}

theorem AgreeOn.trans (h : AgreeOn X m m') (h' : AgreeOn X m' m₂) : AgreeOn X m m₂ :=
  fun x hx => (h x hx).trans (h' x hx)

/-- The stage of a call depends on the job and on the memory only so far. -/
theorem Midcall.change (h : Midcall c f d addr length m q j k m') (hE : i.isE = j.isE)
    (hN : j.isNotMM = true → i.isNotMM = true) (hk : k = 0 ∨ i.keyab = j.keyab)
    (hm : AgreeOn X m m₂) (hX : ∀ x, Within addr length x → X x) :
    ∃ m₂', AgreeOn X m' m₂' ∧ Midcall c f d addr length m₂ q i k m₂' := by
  obtain ⟨hq,rfl,rfl⟩ | ⟨hq,rfl,hjE,rfl⟩ | ⟨fuel,hq,hfuel,hlt,hjE,hjN,rfl⟩ := h
  · exact ⟨m₂,hm,.inl ⟨hq,rfl,rfl⟩⟩
  · exact ⟨m₂,hm,.inr (.inl ⟨hq,rfl,hE.trans hjE,rfl⟩)⟩
  · refine ⟨chunked (c.run d i.keyab) addr (BUFFERSIZE*k) m₂,?_,
      .inr (.inr ⟨fuel,hq,hfuel,hlt,hE.trans hjE,hN hjN,rfl⟩)⟩
    rcases hk with rfl | hk
    · rw [Nat.mul_zero,chunked_zero (c.run_length d _),chunked_zero (c.run_length d _)]
      exact hm
    · have hle := le_of_lt_chunks hlt
      have hload : load m addr (BUFFERSIZE*k) = load m₂ addr (BUFFERSIZE*k) :=
        hm.load (fun x hx => hX x ⟨hx.1,by have := hx.2; omega⟩)
      rw [hk,chunked,chunked,hload]
      exact hm.store _

/-- The system call that an encrypt or decrypt makes next. -/
theorem Midcall.issues {a : Sysc} {kont : Int → LibCode}
    (h : Midcall c f d addr length m (.act a kont) j k m') :
    (∃ cmd b x y, a = .ioctl f cmd [b] ∧ cmd ≠ SET_KEY ∧
      (cmd = SET_CONFIG ∨ cmd = SET_ENCRYP ∨ cmd = SET_MMAP) ∧ settingOf cmd b = some (x,y) ∧
      ((x,y) = (.isE,!d) ∨ (x,y) = (.isNotMM,true)) ∧ k = 0) ∨
    ∃ p n, a = .write f p n := by
  obtain ⟨hq,rfl,_⟩ | ⟨hq,rfl,_⟩ | ⟨fuel,hq,_⟩ := h
  · cases hq
    refine .inl ⟨SET_ENCRYP,_,.isE,!d,rfl,by decide,.inr (.inl rfl),?_,.inl rfl,rfl⟩
    cases d <;> rfl
  · cases hq
    exact .inl ⟨SET_MMAP,_,.isNotMM,true,rfl,by decide,.inr (.inr rfl),rfl,.inr rfl,rfl⟩
  · obtain ⟨kont',hact,_⟩ := sysLoop_step f fuel (addr+BUFFERSIZE*k) (length-BUFFERSIZE*k)
    obtain ⟨ha,_⟩ := Prog.act.inj (hact.symm.trans hq.symm)
    exact .inr ⟨_,_,ha.symm⟩

/-- A call that has not begun has changed nothing. -/
theorem Midcall.fresh {v : Byte} (h : Midcall c f d addr length m (sysCrypt v f addr length 0) j k m') :
    m' = m := by
  obtain ⟨_,_,hm⟩ | ⟨_,_,_,hm⟩ | ⟨fuel,hq,_⟩ := h
  · exact hm
  · exact hm
  · obtain ⟨kont,hact,_⟩ := sysLoop_step f fuel (addr+BUFFERSIZE*k) (length-BUFFERSIZE*k)
    obtain ⟨ha,_⟩ := Prog.act.inj (hq.trans hact)
    cases ha

theorem Midcall.outside (h : Midcall c f d addr length m q j k m') {x : Nat}
    (hx : ¬ Within addr length x) : m' x = m x := by
  obtain ⟨_,_,rfl⟩ | ⟨_,_,_,rfl⟩ | ⟨_,_,_,hlt,_,_,rfl⟩ := h
  · rfl
  · rfl
  · have hle := le_of_lt_chunks hlt
    exact chunked_outside (c.run_length d _) (fun hin => hx ⟨hin.1,by have := hin.2; omega⟩)

/-- A place whose calls are all among `ls`. -/
def Place.From (ls : List LibCall) (p : Place) : Prop :=
  (∀ l q, p.cur = some (l,q) → l ∈ ls) ∧ ∀ l ∈ p.todo, l ∈ ls

theorem Place.From.ahead {p : Place} {ls ls' : List LibCall} {l : LibCall} (h : p.From ls)
    (ha : p.ahead f = some (l,q,ls')) : l ∈ ls ∧ ∀ l' ∈ ls', l' ∈ ls := by
  obtain ⟨done,cur,todo⟩ := p
  obtain ⟨hcur,htodo⟩ := h
  cases cur with
  | some e =>
    obtain ⟨l₁,q₁⟩ := e
    cases ha
    exact ⟨hcur _ _ rfl,htodo⟩
  | none =>
    cases todo with
    | nil => cases ha
    | cons l₁ todo =>
      cases ha
      exact ⟨htodo _ List.mem_cons_self,fun l' hl => htodo _ (List.mem_cons_of_mem _ hl)⟩

theorem Place.From.took {p : Place} {ls : List LibCall} {v : Int} (h : p.From ls) :
    (p.took f v).From ls := by
  unfold Place.took
  split
  · rename_i l a k ls' ha
    obtain ⟨hl,hls⟩ := h.ahead ha
    split
    · exact ⟨(fun l' q' hl' => nomatch hl'),hls⟩
    · refine ⟨fun l' q' hl' => ?_,hls⟩
      cases hl'
      exact hl
  · exact h

/-- A thread makes no other library calls than its own. -/
theorem place_from (ls : List LibCall) (hs : List (Call × Int)) : (place f ls hs).From ls := by
  induction hs with
  | nil => exact ⟨(fun l q h => nomatch h),fun l h => h⟩
  | cons e hs ih => exact ih.took

theorem engaged_fresh (K : Nat) (done : List (LibCall × Int)) (ls : List LibCall) :
    Engaged c f K m j m (Place.ahead f ⟨done,none,ls⟩) := by
  cases ls with
  | nil => exact rfl
  | cons l ls =>
    cases l with
    | crypt d addr length => exact ⟨0,.inl ⟨rfl,rfl,rfl⟩⟩
    | setKey x y => exact ⟨rfl,rfl⟩

/-- Other threads can go on when the job and the memory outside change this much. -/
theorem Engaged.change {K : Nat} {o : Option (LibCall × LibCode × List LibCall)}
    (h : Engaged c f K m j m' o) (hN : j.isNotMM = true → i.isNotMM = true)
    (hm : AgreeOn X m m₂) (hX : ∀ l q ls, o = some (l,q,ls) → ∀ x, l.touches x → X x) :
    ∃ m₂', AgreeOn X m' m₂' ∧ Engaged c f K m₂ i m₂' o := by
  cases o with
  | none =>
    obtain rfl := h
    exact ⟨m₂,hm,rfl⟩
  | some e =>
    obtain ⟨l,q,ls⟩ := e
    cases l with
    | setKey x y =>
      obtain ⟨hq,rfl⟩ := h
      exact ⟨m₂,hm,hq,rfl⟩
    | crypt d addr length =>
      obtain ⟨k,hmid⟩ := h
      obtain ⟨m₂',hm₂,hmid₂⟩ := hmid.change (i := { i with isE := !d, keyab := K }) rfl hN
        (.inr rfl) hm (hX _ _ _ rfl)
      exact ⟨m₂',hm₂,k,hmid₂⟩

end

section
variable {c : Cipher} {Al : World → (a : Act) → a.Res → Prop} {f t : Nat}
variable {prog : Nat → List LibCall} {K : Nat → Nat → Nat} {w₀ w w₁ : World}
variable {hs : Nat → List (Call × Int)} {σ : List (Nat × LibCall × Int)} {b b' : Shared}
variable {l : LibCall} {a : Sysc} {kont : Int → LibCode} {ls : List LibCall} {cl : Call} {v : Int}

/-- What the step of thread `t`, in the library call `l`, keeps for all others. -/
structure Beside (f : Nat) (l : LibCall) (w w₁ : World) (b b' : Shared) : Prop where
  mapped : (w.jobs f).isNotMM = true → (w₁.jobs f).isNotMM = true
  umem : ∀ x, ¬ l.touches x → w₁.umem x = w.umem x
  mem : ∀ x, ¬ l.touches x → b'.mem x = b.mem x

theorem Tally.others (h : Tally c f prog K w₀ hs w σ b)
    (hdis : ∀ t u x, t ≠ u → area (prog t) x → ¬ area (prog u) x)
    (hl : l ∈ prog t) (hb : Beside f l w w₁ b b') {u : Nat} (hu : u ≠ t) :
    ∃ m, AgreeOn (area (prog u)) w₁.umem m ∧
      Engaged c f (K u (place f (prog u) (hs u)).done.length) b'.mem (w₁.jobs f) m
        ((place f (prog u) (hs u)).ahead f) := by
  have hout (x : Nat) (hx : area (prog u) x) : ¬ l.touches x :=
    fun htx => hdis u t x hu hx ⟨l,hl,htx⟩
  obtain ⟨m,hm,heng⟩ := h.each u
  obtain ⟨m₂,hm₂,heng₂⟩ := heng.change (X := area (prog u)) hb.mapped
    (fun x hx => (hb.mem x (hout x hx)).symm)
    (fun l' q ls ho x hx => ⟨l',((place_from _ _).ahead ho).1,hx⟩)
  exact ⟨m₂,AgreeOn.trans (fun x hx => (hb.umem x (hout x hx)).trans (hm x hx)) hm₂,heng₂⟩

theorem Tally.elsewhere_step (h : Tally c f prog K w₀ hs w σ b) (hl : l ∈ prog t)
    (hb : Beside f l w w₁ b b') (x : Nat) (hx : ∀ t, ¬ area (prog t) x) :
    w₁.umem x = b'.mem x := by
  have hout : ¬ l.touches x := fun htx => hx t ⟨l,hl,htx⟩
  rw [hb.umem x hout,hb.mem x hout]
  exact h.elsewhere x hx

theorem Tally.ends (h : Tally c f prog K w₀ hs w σ b)
    (hdis : ∀ t u x, t ≠ u → area (prog t) x → ¬ area (prog u) x)
    (ha : (place f (prog t) (hs t)).ahead f = some (l,.act a kont,ls)) {r : Int}
    (hk : kont v = .ret r) (hb : Beside f l w w₁ b b') (heff : l.Effect c r b b')
    (hkey : b'.key = (w₁.jobs f).keyab) (hself : AgreeOn (area (prog t)) w₁.umem b'.mem) :
    Tally c f prog K w₀ (Function.update hs t ((cl,v) :: hs t)) w₁ ((t,l,r) :: σ) b' := by
  have hl := ((place_from _ _).ahead ha).1
  refine ⟨fun u => ?_,⟨b,h.turn,heff⟩,hkey,fun u => ?_,h.elsewhere_step hl hb⟩
  · by_cases hu : u = t
    · subst u
      rw [Function.update_self,place_cons,Place.took_ret ha hk,List.filter_cons_of_pos (by simp),
        List.map_cons,h.order t]
    · rw [Function.update_of_ne hu,List.filter_cons_of_neg (by simpa using fun h => hu h.symm)]
      exact h.order u
  · by_cases hu : u = t
    · subst u
      rw [Function.update_self,place_cons,Place.took_ret ha hk]
      exact ⟨b'.mem,hself,engaged_fresh _ _ _⟩
    · rw [Function.update_of_ne hu]
      exact h.others hdis hl hb hu

theorem Tally.goes (h : Tally c f prog K w₀ hs w σ b)
    (hdis : ∀ t u x, t ≠ u → area (prog t) x → ¬ area (prog u) x)
    (ha : (place f (prog t) (hs t)).ahead f = some (l,.act a kont,ls)) {a' : Sysc}
    {kont' : Int → LibCode} (hk : kont v = .act a' kont') (hb : Beside f l w w₁ b b)
    (hkey : (w₁.jobs f).keyab = (w.jobs f).keyab) {m : Nat → Byte}
    (hself : AgreeOn (area (prog t)) w₁.umem m)
    (heng : Engaged c f (K t (place f (prog t) (hs t)).done.length) b.mem (w₁.jobs f) m
      (some (l,.act a' kont',ls))) :
    Tally c f prog K w₀ (Function.update hs t ((cl,v) :: hs t)) w₁ σ b := by
  have hl := ((place_from _ _).ahead ha).1
  refine ⟨fun u => ?_,h.turn,h.key.trans hkey.symm,fun u => ?_,h.elsewhere_step hl hb⟩
  · by_cases hu : u = t
    · subst u
      rw [Function.update_self,place_cons,Place.took_act ha hk]
      exact h.order t
    · rw [Function.update_of_ne hu]
      exact h.order u
  · by_cases hu : u = t
    · subst u
      rw [Function.update_self,place_cons,Place.took_act ha hk]
      exact ⟨m,hself,heng⟩
    · rw [Function.update_of_ne hu]
      exact h.others hdis hl hb hu

/-- The world in which the job has the direction that a call asks for. -/
def World.asked (w : World) (f : Nat) (d : Bool) : World :=
  w.setJob f { w.jobs f with isE := !d }

variable {d : Bool}

theorem World.asked_job : (w.asked f d).jobs f = { w.jobs f with isE := !d } :=
  Function.update_self _ _ _

theorem World.asked_eq (h : (w.jobs f).isE = !d) : w.asked f d = w := by
  rw [World.asked,World.setJob,← h,Function.update_eq_self]

theorem Switched.asked {cmd : Nat} {arg : List Byte} {y : Byte} {x : Flag} {z : Bool}
    (h : Switched c f cmd arg w v w₁) (hkey : cmd ≠ SET_KEY)
    (hcmd : cmd = SET_CONFIG ∨ cmd = SET_ENCRYP ∨ cmd = SET_MMAP)
    (hy : settingOf cmd y = some (x,z)) (hx : (x,z) = (.isE,!d) ∨ (x,z) = (.isNotMM,true))
    (harg : arg.isPrefixOf [y] = true) :
    Switched c f cmd arg (w.asked f d) v (w₁.asked f d) ∧
      ((w.jobs f).isNotMM = true → (w₁.jobs f).isNotMM = true) := by
  have hj : w₁.jobs f = ((w.jobs f).ioctl cmd arg).2 := by rw [h.jobs,Function.update_self]
  have hset (j : Job) :
      Job.ioctl { j with isE := !d } cmd arg =
        ((j.ioctl cmd arg).1,{ (j.ioctl cmd arg).2 with isE := !d }) ∧
      (j.isNotMM = true → (j.ioctl cmd arg).2.isNotMM = true) := by
    rcases Job.ioctl_byte hkey hcmd hy harg with hio | hio
    · rw [hio,hio]
      rcases hx with hx | hx <;> cases hx <;> exact ⟨rfl,fun h => by first | exact h | rfl⟩
    · rw [hio,hio]
      exact ⟨rfl,id⟩
  obtain ⟨hio,hN⟩ := hset (w.jobs f)
  refine ⟨⟨?_,?_,h.umem,h.settled,h.idle⟩,fun hm => ?_⟩
  · rw [World.asked_job,hio]
    exact h.result
  · rw [World.asked_job,hio]
    simp only [World.asked,World.setJob,hj]
    rw [h.jobs,Function.update_idem,Function.update_idem]
  · rw [hj]
    exact hN hm

theorem Tally.step_setKey {x y : Byte} (h : Tally c f prog K w₀ hs w σ b)
    (hdis : ∀ t u x, t ≠ u → area (prog t) x → ¬ area (prog u) x)
    (ha : (place f (prog t) (hs t)).ahead f = some (.setKey x y,.act a kont,ls))
    (hiss : cl.issues a = true) (hd : Does c Al cl w v w₁) : ∃ σ' b',
      Tally c f prog K w₀ (Function.update hs t ((cl,v) :: hs t)) w₁ σ' b' := by
  obtain ⟨m,hm,heng⟩ := h.each t
  rw [ha] at heng
  obtain ⟨hq,rfl⟩ := heng
  cases hq
  obtain ⟨arg,rfl,harg⟩ := Call.issues_ioctl hiss
  have hsw : Switched c f SET_KEY arg w v w₁ := hd
  have hj : w₁.jobs f = { w.jobs f with keyab := le32 arg } := by
    rw [hsw.jobs,Function.update_self]
    rfl
  have hr : ∃ r : Int, (if v ≠ 0 then (.ret ERROR : LibCode) else .ret 0) = .ret r ∧
      (r = 0 ∧ le32 arg = 256*x.toNat+y.toNat ∨ r = ERROR) := by
    by_cases hv : v = 0
    · refine ⟨0,if_neg (fun hn => hn hv),.inl ⟨rfl,?_⟩⟩
      have hlen : 4 ≤ arg.length := by
        have hres := hsw.result
        rw [hv,Job.ioctl,if_pos rfl] at hres
        by_contra hlt
        rw [if_pos (by omega)] at hres
        cases hres
      rw [(List.isPrefixOf_iff_prefix.mp harg).eq_of_length_le hlen]
      exact le32_packKey x y
    · exact ⟨ERROR,if_pos hv,.inr rfl⟩
  obtain ⟨r,hk,hkey⟩ := hr
  refine ⟨_,⟨le32 arg,b.mem⟩,h.ends hdis ha hk ⟨fun hN => ?_,fun x _ => by rw [hsw.umem],
    fun _ _ => rfl⟩ ⟨rfl,?_⟩ ?_ ?_⟩
  · rw [hj]
    exact hN
  · rcases hkey with ⟨h0,hkey⟩ | hr
    · exact .inl ⟨h0,hkey⟩
    · exact .inr hr
  · rw [hj]
  · rw [hsw.umem]
    exact hm

theorem Tally.step_crypt {addr length : Nat} (h : Tally c f prog K w₀ hs w σ b)
    (hdis : ∀ t u x, t ≠ u → area (prog t) x → ¬ area (prog u) x)
    (ha : (place f (prog t) (hs t)).ahead f = some (.crypt d addr length,.act a kont,ls))
    (hiss : cl.issues a = true) (hfound : (place f (prog t) (hs t)).finds f (K t) w cl = true)
    (hd : Does c Al cl w v w₁) : ∃ σ' b',
      Tally c f prog K w₀ (Function.update hs t ((cl,v) :: hs t)) w₁ σ' b' := by
  obtain ⟨m,hm,heng⟩ := h.each t
  rw [ha] at heng
  obtain ⟨k,hmid⟩ := heng
  let n := (place f (prog t) (hs t)).done.length
  have hX (x : Nat) (hx : Within addr length x) : area (prog t) x :=
    ⟨_,((place_from _ _).ahead ha).1,hx⟩
  -- An ioctl of the call does what it does whatever the direction was before; a write finds
  -- the direction that it needs.
  have hstep : Does c Al cl (w.asked f d) v (w₁.asked f d) ∧
      ((w.jobs f).isNotMM = true → (w₁.jobs f).isNotMM = true) ∧
      (k = 0 ∨ (w.jobs f).keyab = K t n) ∧
      ((if won (cl,v) then k+1 else k) = 0 ∨ (w.jobs f).keyab = K t n) := by
    rcases hmid.issues with ⟨cmd,y,x,z,rfl,hkey,hcmd,hy,hx,hk⟩ | ⟨p,n',rfl⟩
    · obtain ⟨arg,rfl,harg⟩ := Call.issues_ioctl hiss
      obtain ⟨hasked,hN⟩ := Switched.asked hd hkey hcmd hy hx harg
      exact ⟨hasked,hN,.inl hk,.inl hk⟩
    · obtain rfl := Call.issues_write hiss
      simp only [Place.finds,ha,Bool.and_eq_true,beq_iff_eq] at hfound
      obtain ⟨hE,hK⟩ := hfound
      have hw : Attempt c Al f p (min n' MAX_RW_COUNT) w v w₁ := hd
      obtain ⟨hE₁,_,_,hN₁,_⟩ := View.mode_eq (hw.modes f)
      refine ⟨?_,fun hN => hN₁.trans hN,.inr hK,.inr hK⟩
      rw [World.asked_eq hE,World.asked_eq (hE₁.trans hE)]
      exact hd
  obtain ⟨hasked,hN,hk,hk₁⟩ := hstep
  obtain ⟨m₁,hm₁,hmid₁⟩ := hmid.change (i := (w.asked f d).jobs f) (X := area (prog t))
    (by rw [World.asked_job]) (by rw [World.asked_job]; exact id)
    (by rw [World.asked_job]; exact hk) (fun _ _ => rfl) hX
  have hadv := hmid₁.advance (w := w.asked f d) hiss hX (AgreeOn.trans hm hm₁) hasked
  have hkeyab := hadv.keyab
  rw [World.asked_job,World.asked_job] at hkeyab
  obtain ⟨m₂,hm₂,hlead⟩ := hadv.leads
  rcases hlead with ⟨r,hr,hleaves⟩ | ⟨⟨a',kont',hact⟩,hmid₂⟩
  · refine ⟨_,⟨b.key,m₂⟩,h.ends hdis ha hr ⟨hN,hadv.outside,fun x hx => ?_⟩ ⟨rfl,?_⟩ ?_ hm₂⟩
    · exact hleaves.outside (c.run_length d _) hx
    · rw [World.asked_job] at hleaves
      rw [h.key]
      exact ⟨_,hleaves⟩
    · exact h.key.trans hkeyab.symm
  · obtain ⟨m₃,hm₃,hmid₃⟩ := hmid₂.change (i := { w₁.jobs f with isE := !d, keyab := K t n })
      (X := area (prog t)) (by rw [World.asked_job]) (by rw [World.asked_job]; exact id)
      (by rw [World.asked_job]; exact hk₁.imp_right (fun hK => hK.symm.trans hkeyab.symm))
      (fun _ _ => rfl) hX
    rw [hact] at hmid₃
    exact ⟨σ,b,h.goes hdis ha hact ⟨hN,hadv.outside,fun _ _ => rfl⟩ hkeyab (AgreeOn.trans hm₂ hm₃)
      ⟨_,hmid₃⟩⟩

end

def sharing (c : Cipher) (f : Nat) (prog : Nat → List LibCall) (K : Nat → Nat → Nat)
    (w₀ : World) : Turns.Protocol World Call Int where
  Rest hs w := ∃ σ b, Tally c f prog K w₀ hs w σ b
  Open hs w t cl := w.card.op = none ∧ (place f (prog t) (hs t)).admits f cl = true ∧
    (place f (prog t) (hs t)).finds f (K t) w cl = true ∧ ∃ σ b, Tally c f prog K w₀ hs w σ b
  Spec _ := Does c anyAnswer

section
variable {c : Cipher} {f : Nat} {prog : Nat → List LibCall} {K : Nat → Nat → Nat} {w w₀ w₁ : World}
variable {hs : Nat → List (Call × Int)} {σ : List (Nat × LibCall × Int)} {b : Shared}

theorem Tally.settles (h : Tally c f prog K w₀ hs w σ b) (hw : Settles c w w₁) :
    Tally c f prog K w₀ hs w₁ σ b := by
  refine ⟨h.order,h.turn,?_,?_,?_⟩
  · rw [hw.jobs]
    exact h.key
  · rw [hw.jobs,hw.umem]
    exact h.each
  · rw [hw.umem]
    exact h.elsewhere

theorem sharing_follows (hdis : ∀ t u x, t ≠ u → area (prog t) x → ¬ area (prog u) x) :
    (solo c (.of c anyAnswer)).Follows (machine c)
      (fun s l => Serves f prog s l ∧ Atomic s l ∧ Found f prog K s l)
      (sharing c f prog K w₀) where
  bears := solo_bears c _
  alone := fun hp hcl _ _ => (hp.2.1 hcl).1
  begins := fun hp hcl hrest => ⟨(hp.2.1 hcl).2,hp.1 hcl,hp.2.2,hrest⟩
  code := by
    intro hs w t cl hcl hopen
    obtain ⟨l,a,k,ls,_,hiss⟩ := Place.admits_eq hopen.2.1
    exact does_code hiss hopen.1 w (.refl w)
  back := by
    intro s t cl hp hcl
    cases cl with
    | irq dev => exact pciIrqHandle_meek dev
    | _ => cases hcl
  allows := fun _ _ _ _ => trivial
  good := fun _ _ => trivial
  rely := by
    intro hs w w' hrest hw
    obtain ⟨σ,b,h⟩ := hrest
    exact ⟨σ,b,h.settles hw⟩
  closes := by
    intro hs w t cl v w₁ w₂ hcl hopen hspec _ hw
    obtain ⟨_,hadm,hfinds,σ,b,h⟩ := hopen
    obtain ⟨l,a,k,ls,ha,hiss⟩ := Place.admits_eq hadm
    have hd : Does c anyAnswer cl w v w₂ := Does.settles hspec hw
    cases l with
    | crypt d addr length => exact h.step_crypt hdis ha hiss hfinds hd
    | setKey x y => exact h.step_setKey hdis ha hiss hd

theorem Engaged.outside {K : Nat} {m m' : Nat → Byte} {j : Job} {p : Place}
    (h : Engaged c f K m j m' (p.ahead f)) {x : Nat}
    (hx : ∀ l q, p.cur = some (l,q) → ¬ l.touches x) : m' x = m x := by
  obtain ⟨done,cur,todo⟩ := p
  cases cur with
  | none =>
    cases todo with
    | nil => rw [show m' = m from h]
    | cons l ls =>
      cases l with
      | setKey y z => rw [show m' = m from h.2]
      | crypt d addr length =>
        obtain ⟨k,hmid⟩ := h
        rw [hmid.fresh]
  | some e =>
    obtain ⟨l,q⟩ := e
    cases l with
    | setKey y z => rw [show m' = m from h.2]
    | crypt d addr length =>
      obtain ⟨k,hmid⟩ := h
      exact hmid.outside (hx _ q rfl)

/-- Outside the buffers of the calls under way there is what the finished calls come to. -/
theorem Tally.serial {s : System} (h : Tally c f prog K w₀ (syscalls s) s.world σ b) :
    Serial c f prog w₀ s σ b := by
  refine ⟨h.order,h.turn,h.key,fun x hx => ?_⟩
  by_cases hin : ∃ t, area (prog t) x
  · obtain ⟨t,hxt⟩ := hin
    obtain ⟨m,hm,heng⟩ := h.each t
    rw [hm x hxt]
    exact heng.outside (hx t)
  · exact h.elsewhere x (fun t ht => hin ⟨t,ht⟩)

end

/-- Library calls that share a handle come to what they come to in some sequential order, if
the writes of each find the direction that it asked for and one and the same key. -/
theorem shared_calls_serial (c : Cipher) (w : World) (f : Nat) (prog : Nat → List LibCall)
    (K : Nat → Nat → Nat) (hdis : ∀ t u x, t ≠ u → area (prog t) x → ¬ area (prog u) x)
    {s : System} (hr : (machine c).Reaches
      (fun s l => Serves f prog s l ∧ Atomic s l ∧ Found f prog K s l) (start w) s)
    (hs : Between s) : ∃ σ b, Serial c f prog w s σ b := by
  have hstart : (sharing c f prog K w).Rest (fun _ => []) w :=
    ⟨[],⟨(w.jobs f).keyab,w.umem⟩,fun _ => rfl,rfl,rfl,
      fun t => ⟨w.umem,fun _ _ => rfl,engaged_fresh _ _ _⟩,fun _ _ => rfl⟩
  obtain ⟨hrest,_⟩ := (sharing_follows hdis).reaches hstart hr
  obtain ⟨σ,b,h⟩ := hrest hs
  exact ⟨σ,b,h.serial⟩

/-- No thread below `n` has a system call in progress. -/
def between (n : Nat) (s : System) : Bool :=
  (List.range n).all fun t => (s.turn t).all fun e => !e.1.front

theorem Between.of_quiet {n : Nat} {s : System} (hq : s.Quiet n) (h : between n s = true) :
    Between s := by
  intro t cl w ht
  obtain ⟨p,hp⟩ := Sys.turn_eq ht
  have hlt : t < n := by
    by_contra hn
    rw [hq t (by omega)] at hp
    cases hp
  have hall := List.all_eq_true.mp h t (List.mem_range.mpr hlt)
  rw [ht] at hall
  simpa using hall

/-- One system call after the other, among the threads below `n`. -/
def atomic (n : Nat) (s : System) : Step → Bool
  | .call _ cl => !cl.front || (between n s && s.world.card.op.isNone)
  | _ => true

theorem Atomic.of_quiet {n : Nat} {s : System} {l : Step} (hq : s.Quiet n)
    (h : atomic n s l = true) : Atomic s l := by
  cases l with
  | call t cl =>
    intro hcl
    simp only [atomic,hcl,Bool.not_true,Bool.false_or,Bool.and_eq_true] at h
    exact ⟨.of_quiet hq h.1,Option.isNone_iff_eq_none.mp h.2⟩
  | _ => trivial

instance (f : Nat) (prog : Nat → List LibCall) (K : Nat → Nat → Nat) (s : System) (l : Step) :
    Decidable (Found f prog K s l) :=
  match l with
  | .call t cl => inferInstanceAs
      (Decidable ((place f (prog t) (syscalls s t)).finds f (K t) s.world cl = true))
  | .act _ _ | .ret _ | .env _ => isTrue trivial

/-- Thread 0 encrypts one byte and thread 1 makes the calls `ls`. -/
def pair (ls : List LibCall) : Nat → List LibCall
  | 0 => [.crypt false 0 1]
  | 1 => ls
  | _ => []

theorem pair_apart {ls : List LibCall} (h : ∀ l ∈ ls, ∀ x, l.touches x → x = 1) (t u x : Nat)
    (htu : t ≠ u) (ht : area (pair ls t) x) : ¬ area (pair ls u) x := by
  have hat (t : Nat) (ht : area (pair ls t) x) : t = x := by
    obtain ⟨l,hl,hx⟩ := ht
    match t with
    | 0 =>
      obtain rfl := List.mem_singleton.mp hl
      obtain ⟨_,hlt⟩ := hx
      omega
    | 1 => exact (h l hl x hx).symm
    | _+2 => cases hl
  exact fun hu => htu ((hat t ht).trans (hat u hu).symm)

def ioctlSteps (t cmd : Nat) (arg : List Byte) : List Step :=
  .call t (.ioctl 0 cmd arg) :: List.replicate 2 (.act t .ok) ++ [.ret t]

/-- A write of the byte at 0 that waits for the card by polling. -/
def pollSteps (t : Nat) : List Step :=
  .call t (.write 0 0 1) :: List.replicate 4 (.act t .ok) ++ .act t (.value 0) ::
    List.replicate 2 (.act t .ok) ++ .act t (.junk fun _ => 0) :: List.replicate 19 (.act t .ok) ++
    .env .finish :: List.replicate 13 (.act t .ok) ++ [.ret t]

/-- An encrypt and a set_key that comes between its ioctls and its write. -/
theorem shared_calls_serial_rekeyed : ∃ s,
    (machine (.bytewise fun d _ x => if d then x+2 else x+1)).Reaches
      (fun s l => Serves 0 (pair [.setKey 1 2]) s l ∧ Atomic s l ∧
        Found 0 (pair [.setKey 1 2]) (fun _ _ => 258) s l)
      (start (.boot (fun _ => 0) (fun _ => 0))) s ∧
    (place 0 (pair [.setKey 1 2] 0) (syscalls s 0)).done = [(.crypt false 0 1,0)] ∧
    (place 0 (pair [.setKey 1 2] 1) (syscalls s 1)).done = [(.setKey 1 2,0)] ∧
    ∃ σ b, Serial (.bytewise fun d _ x => if d then x+2 else x+1) 0 (pair [.setKey 1 2])
      (.boot (fun _ => 0) (fun _ => 0)) s σ b := by
  have hrun : ((machine (.bytewise fun d _ x => if d then x+2 else x+1)).runIf 2
      (fun s l => decide (Serves 0 (pair [.setKey 1 2]) s l) && atomic 2 s l &&
        decide (Found 0 (pair [.setKey 1 2]) (fun _ _ => 258) s l))
      (start (.boot (fun _ => 0) (fun _ => 0)))
      (ioctlSteps 0 SET_ENCRYP [50] ++ ioctlSteps 0 SET_MMAP [80] ++
        ioctlSteps 1 SET_KEY (bytes32 (packKey 1 2)) ++ pollSteps 0)).any
      (fun s => between 2 s && decide (
        (place 0 (pair [.setKey 1 2] 0) (syscalls s 0)).done = [(.crypt false 0 1,0)] ∧
        (place 0 (pair [.setKey 1 2] 1) (syscalls s 1)).done = [(.setKey 1 2,0)])) = true := by
    decide +kernel
  obtain ⟨s,hr,hq,hp⟩ := Machine.exists_reaches (P := fun s l => Serves 0 (pair [.setKey 1 2]) s l ∧
      Atomic s l ∧ Found 0 (pair [.setKey 1 2]) (fun _ _ => 258) s l)
    (fun s l hq h => by
      simp only [Bool.and_eq_true,decide_eq_true_eq] at h
      exact ⟨h.1.1,Atomic.of_quiet hq h.1.2,h.2⟩) _ (start_quiet _ 2) hrun
  simp only [Bool.and_eq_true,decide_eq_true_eq] at hp
  obtain ⟨hbetween,hdone₀,hdone₁⟩ := hp
  refine ⟨s,hr,hdone₀,hdone₁,shared_calls_serial _ _ 0 _ (fun _ _ => 258) (pair_apart ?_) hr
    (.of_quiet hq hbetween)⟩
  intro l hl x hx
  obtain rfl := List.mem_singleton.mp hl
  cases hx

/-- The direction that an encrypt asked for is changed before its write. -/
theorem shared_calls_not_serial :
    ¬ ∀ (c : Cipher) (w : World) (f : Nat) (prog : Nat → List LibCall),
      (∀ t u x, t ≠ u → area (prog t) x → ¬ area (prog u) x) →
      ∀ s, (machine c).Reaches (fun s l => Serves f prog s l ∧ Atomic s l) (start w) s →
      Between s → ∃ σ b, Serial c f prog w s σ b := by
  intro hall
  let ls : List LibCall := [.crypt true 1 1]
  have hrun : ((machine (.bytewise fun d _ x => if d then x+2 else x+1)).runIf 2
      (fun s l => decide (Serves 0 (pair ls) s l) && atomic 2 s l)
      (start (.boot (fun _ => 0) (fun _ => 0)))
      (ioctlSteps 0 SET_ENCRYP [50] ++ ioctlSteps 0 SET_MMAP [80] ++
        ioctlSteps 1 SET_ENCRYP [60] ++ pollSteps 0)).any
      (fun s => between 2 s && decide (s.world.umem 0 = 2 ∧
        (place 0 (pair ls 0) (syscalls s 0)).done = [(.crypt false 0 1,0)] ∧
        (place 0 (pair ls 0) (syscalls s 0)).cur.isNone = true ∧
        (place 0 (pair ls 1) (syscalls s 1)).done = [] ∧
        (place 0 (pair ls 1) (syscalls s 1)).cur.map Prod.fst = some (.crypt true 1 1))) = true := by
    decide +kernel
  obtain ⟨s,hr,hq,hp⟩ := Machine.exists_reaches (P := fun s l => Serves 0 (pair ls) s l ∧ Atomic s l)
    (fun s l hq h => by
      simp only [Bool.and_eq_true,decide_eq_true_eq] at h
      exact ⟨h.1,Atomic.of_quiet hq h.2⟩) _ (start_quiet _ 2) hrun
  simp only [Bool.and_eq_true,decide_eq_true_eq] at hp
  obtain ⟨hbetween,humem,hdone,hcur,hdone₁,hcur₁⟩ := hp
  obtain ⟨σ,b,h⟩ := hall _ _ 0 (pair ls) (pair_apart (fun l hl x hx => by
    obtain rfl := List.mem_singleton.mp hl
    obtain ⟨h1,h2⟩ := hx
    omega)) s hr (.of_quiet hq hbetween)
  have hzero (e : Nat × LibCall × Int) (he : e ∈ σ) : (e.1 == 0) = true := by
    have hmem : e.2 ∈ (place 0 (pair ls e.1) (syscalls s e.1)).done := by
      rw [← h.order]
      exact List.mem_map_of_mem (List.mem_filter.mpr ⟨he,beq_self_eq_true _⟩)
    match ht : e.1 with
    | 0 => rfl
    | 1 =>
      rw [ht,hdone₁] at hmem
      cases hmem
    | n+2 =>
      rw [ht,show pair ls (n+2) = [] from rfl,place_nothing] at hmem
      cases hmem
  have hσ := h.order 0
  rw [List.filter_eq_self.mpr hzero,hdone] at hσ
  obtain ⟨⟨t,l,v⟩,rfl,he⟩ := List.map_eq_singleton_iff.mp hσ
  cases he
  obtain ⟨a,rfl,_,k,⟨_,_,hm⟩ | ⟨h0,_⟩⟩ := h.turn
  · have hmem := h.mem 0 (fun t l q hl hx => ?_)
    · rw [humem] at hmem
      have hm₀ := (congrFun hm 0).trans (chunked_map (· + 1) 1 0 ⟨Nat.le_refl _,by decide⟩)
      exact absurd (hmem.trans hm₀) (by decide)
    · match t with
      | 0 =>
        rw [hl] at hcur
        cases hcur
      | 1 =>
        rw [hl] at hcur₁
        cases hcur₁
        exact absurd hx.1 (by decide)
      | n+2 =>
        rw [show pair ls (n+2) = [] from rfl,place_nothing] at hl
        cases hl
  · exact absurd h0 (by decide)

end CryptoCard
