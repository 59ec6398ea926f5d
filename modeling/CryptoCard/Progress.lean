import CryptoCard.LibCalls
set_option autoImplicit false

/-! How far an encrypt or decrypt has come, system call by system call. -/
namespace CryptoCard
open Memory Chunks Program Interleave

/-- The first `n` bytes from `addr` on after `T` has been applied chunk by chunk. -/
def chunked (T : List Byte → List Byte) (addr n : Nat) (m : Nat → Byte) : Nat → Byte :=
  store m addr (chunkMap T BUFFERSIZE (load m addr n))

/-- The write calls of an encrypt or decrypt that gets through. -/
def chunks (length : Nat) : Nat := (length-1) / BUFFERSIZE + 1

/-- The length of chunk `k`. -/
def chunkSize (length k : Nat) : Nat := min BUFFERSIZE (length-BUFFERSIZE*k)

/-- What an encrypt or decrypt that has returned `v` after `k` successful writes makes of
the memory `m`: of the chunk that fails a prefix may be replaced. -/
def Leaves (T : List Byte → List Byte) (addr length k : Nat) (v : Int)
    (m m' : Nat → Byte) : Prop :=
  (v = 0 ∧ k = chunks length ∧ m' = chunked T addr length m) ∨
  (v = ERROR ∧ k < chunks length ∧ ∃ i, m' = store (chunked T addr (BUFFERSIZE*k) m)
    (addr+BUFFERSIZE*k) ((T (load m (addr+BUFFERSIZE*k) (chunkSize length k))).take i))

/-- Two memories agree where `X` holds. -/
def AgreeOn (X : Nat → Prop) (m m' : Nat → Byte) : Prop := ∀ x, X x → m x = m' x

/-- An encrypt or decrypt on a handle whose job is `j` has `q` left to do after `k`
successful writes, and has made `m'` of the memory `m`. -/
def Midcall (c : Cipher) (f : Nat) (d : Bool) (addr length : Nat) (m : Nat → Byte) (q : LibCode)
    (j : Job) (k : Nat) (m' : Nat → Byte) : Prop :=
  (q = sysCrypt (if d then 60 else 50) f addr length 0 ∧ k = 0 ∧ m' = m) ∨
  (q = sysAimed f addr length 0 ∧ k = 0 ∧ j.isE = !d ∧ m' = m) ∨
  (∃ fuel, q = sysLoop f (fuel+1) (addr+BUFFERSIZE*k) (length-BUFFERSIZE*k) ∧
    (length-BUFFERSIZE*k) / BUFFERSIZE ≤ fuel ∧ k < chunks length ∧ j.isE = !d ∧
    j.isNotMM = true ∧ m' = chunked (c.run d j.keyab) addr (BUFFERSIZE*k) m)

/-- Every answer is admitted. -/
abbrev anyAnswer (_ : World) (a : Act) (_ : a.Res) : Prop := True

/-- What a system call does, by its result. -/
def Does (c : Cipher) (Al : World → (a : Act) → a.Res → Prop) (cl : Call) (w : World)
    (v : Int) (w' : World) : Prop :=
  match cl with
  | .write f ptr n => Attempt c Al f ptr (min n MAX_RW_COUNT) w v w'
  | .ioctl f cmd arg => Switched c f cmd arg w v w'
  | _ => False

section
variable {T : List Byte → List Byte} {addr length n k i : Nat} {m m' : Nat → Byte}
variable {X : Nat → Prop}

theorem chunked_zero (hT : ∀ xs, (T xs).length = xs.length) : chunked T addr 0 m = m := by
  rw [chunked,load_zero,chunkMap_short T BUFFERSIZE [] (Nat.zero_le _),map_nil hT,store_nil]

theorem chunkMap_load_length (hT : ∀ xs, (T xs).length = xs.length) :
    (chunkMap T BUFFERSIZE (load m addr n)).length = n := by
  rw [chunkMap_length T hT,load_length]

theorem chunked_outside (hT : ∀ xs, (T xs).length = xs.length) {x : Nat}
    (hx : ¬ Within addr n x) : chunked T addr n m x = m x :=
  store_outside _ _ _ _ (by rwa [chunkMap_load_length hT])

theorem chunked_map (e : Byte → Byte) (n x : Nat) (hx : Within addr n x) :
    chunked (List.map e) addr n m x = e (m x) := by
  rw [chunked,chunkMap_map]
  exact store_map m addr n e x hx

theorem chunked_step (hT : ∀ xs, (T xs).length = xs.length) (hn : n ≤ BUFFERSIZE) :
    chunked T addr (BUFFERSIZE*k+n) m = store (chunked T addr (BUFFERSIZE*k) m)
      (addr+BUFFERSIZE*k) (T (load m (addr+BUFFERSIZE*k) n)) := by
  rw [chunked,load_add,chunkMap_append T hT BUFFERSIZE k _ _ BUFFERSIZE_pos (load_length _ _ _)
    (by rw [load_length]; exact hn),store_append,chunkMap_load_length hT]
  rfl

/-- The chunks that are still to come are as they were. -/
theorem load_chunked (hT : ∀ xs, (T xs).length = xs.length) (hi : n ≤ i) :
    load (chunked T addr n m) (addr+i) k = load m (addr+i) k :=
  load_congr (fun x hx => chunked_outside hT (fun hin => by unfold Within at *; omega))

theorem AgreeOn.load (h : AgreeOn X m m') (hX : ∀ x, Within addr n x → X x) :
    load m addr n = Memory.load m' addr n := load_congr (fun x hx => h x (hX x hx))

theorem AgreeOn.store (h : AgreeOn X m m') (xs : List Byte) :
    AgreeOn X (store m addr xs) (Memory.store m' addr xs) := by
  intro x hx
  by_cases hin : Within addr xs.length x
  · rw [store_within _ _ _ _ hin,store_within _ _ _ _ hin]
  · rw [store_outside _ _ _ _ hin,store_outside _ _ _ _ hin,h x hx]

theorem lt_chunks : k < chunks length ↔ k = 0 ∨ BUFFERSIZE*k < length := by
  unfold chunks BUFFERSIZE
  omega

theorem le_of_lt_chunks (h : k < chunks length) : BUFFERSIZE*k ≤ length := by
  rcases lt_chunks.mp h with rfl | hlt
  · exact Nat.zero_le _
  · exact Nat.le_of_lt hlt

theorem sysLoop_step (cdev fuel addr length : Nat) :
    ∃ k, sysLoop cdev (fuel+1) addr length =
      .act (.write cdev addr (min BUFFERSIZE length)) k ∧
      (∀ v, v ≠ 0 → k v = .ret ERROR) ∧ (length ≤ BUFFERSIZE → k 0 = .ret 0) ∧
      (BUFFERSIZE < length →
        k 0 = sysLoop cdev fuel (addr+BUFFERSIZE) (length-BUFFERSIZE)) := by
  have hcount : (if length > BUFFERSIZE then BUFFERSIZE else length) = min BUFFERSIZE length := by
    split <;> omega
  refine ⟨fun r => if r ≠ 0 then .ret ERROR
    else if (if length > BUFFERSIZE then length-BUFFERSIZE else 0) > 0 then
      sysLoop cdev fuel (addr+min BUFFERSIZE length)
        (if length > BUFFERSIZE then length-BUFFERSIZE else 0)
    else .ret ((if length > BUFFERSIZE then length-BUFFERSIZE else 0 : Nat) : Int),?_,?_,?_,?_⟩
  · rw [← hcount]
    rfl
  · exact fun v hv => if_pos hv
  · intro hl
    simp [Nat.not_lt.mpr hl]
  · intro hl
    have hmin : min BUFFERSIZE length = BUFFERSIZE := by omega
    have hpos : length-BUFFERSIZE > 0 := by omega
    simp only [if_pos hl,if_pos hpos,hmin]
    rfl

end

/-- The writes of a history that returned 0. -/
def won (e : Call × Int) : Bool :=
  match e.1 with
  | .write _ _ _ => e.2 == 0
  | _ => false

/-- The step of an encrypt or decrypt that was answered with `v`. -/
structure Advance (c : Cipher) (f : Nat) (d : Bool) (addr length : Nat) (m : Nat → Byte)
    (X : Nat → Prop) (v : Int) (q : LibCode) (k : Nat) (w w' : World) : Prop where
  stops : v ≠ 0 → q = .ret ERROR
  keyab : (w'.jobs f).keyab = (w.jobs f).keyab
  outside : ∀ x, ¬ Within addr length x → w'.umem x = w.umem x
  leads : ∃ m', AgreeOn X w'.umem m' ∧
    ((∃ r, q = .ret r ∧ Leaves (c.run d (w.jobs f).keyab) addr length k r m m') ∨
      (∃ a kont, q = .act a kont) ∧ Midcall c f d addr length m q (w'.jobs f) k m')

section
variable {c : Cipher} {Al : World → (a : Act) → a.Res → Prop} {f t addr length k : Nat} {d : Bool}
variable {m m₁ : Nat → Byte} {X : Nat → Prop} {cl : Call} {w w' : World} {v : Int}

/-- An ioctl with a byte that it knows succeeds, unless the byte cannot be read. -/
theorem Job.ioctl_byte {cmd : Nat} {arg : List Byte} {b : Byte} {x : Flag} {y : Bool}
    (hkey : cmd ≠ SET_KEY) (hcmd : cmd = SET_CONFIG ∨ cmd = SET_ENCRYP ∨ cmd = SET_MMAP)
    (hb : settingOf cmd b = some (x,y)) (harg : arg.isPrefixOf [b] = true) :
    (∀ j : Job, j.ioctl cmd arg = (0,j.setFlag x y)) ∨
      ∀ j : Job, j.ioctl cmd arg = (-eAGAIN,j) := by
  cases arg with
  | nil =>
    refine .inr (fun j => ?_)
    rw [Job.ioctl,if_neg hkey,if_pos hcmd]
    rfl
  | cons b' bs =>
    obtain ⟨hb',_⟩ := List.cons_prefix_cons.mp (List.isPrefixOf_iff_prefix.mp harg)
    subst hb'
    refine .inl (fun j => ?_)
    rw [Job.ioctl,if_neg hkey,if_pos hcmd,show ioctlByte (b' :: bs) = some b' from rfl]
    simp only [hb,Job.put]

theorem Call.issues_ioctl {cdev cmd : Nat} {arg : List Byte}
    (h : cl.issues (.ioctl cdev cmd arg) = true) :
    ∃ arg', cl = .ioctl cdev cmd arg' ∧ arg'.isPrefixOf arg = true := by
  cases cl with
  | ioctl f' cmd' arg' =>
    simp only [Call.issues,Bool.and_eq_true,beq_iff_eq] at h
    obtain ⟨⟨rfl,rfl⟩,h⟩ := h
    exact ⟨arg',rfl,h⟩
  | _ => cases h

theorem Call.issues_write {cdev ptr count : Nat} (h : cl.issues (.write cdev ptr count) = true) :
    cl = .write cdev ptr count := by
  cases cl with
  | write f' ptr' n' =>
    simp only [Call.issues,Bool.and_eq_true,beq_iff_eq] at h
    obtain ⟨⟨rfl,rfl⟩,rfl⟩ := h
    rfl
  | _ => cases h

theorem Leaves.outside {T : List Byte → List Byte} (hT : ∀ xs, (T xs).length = xs.length)
    (h : Leaves T addr length k v m m₁) {x : Nat} (hx : ¬ Within addr length x) : m₁ x = m x := by
  obtain ⟨_,_,rfl⟩ | ⟨_,hk,i,rfl⟩ := h
  · exact chunked_outside hT hx
  · have hle := le_of_lt_chunks hk
    rw [store_outside _ _ _ _ (fun hin => hx ⟨Nat.le_trans (Nat.le_add_right _ _) hin.1,?_⟩)]
    · exact chunked_outside hT (fun hin => hx ⟨hin.1,by have := hin.2; omega⟩)
    · have hlt := hin.2
      rw [List.length_take,hT,load_length] at hlt
      unfold chunkSize at hlt
      omega

/-- Nothing was done before an error of the first two calls. -/
theorem leaves_nothing {T : List Byte → List Byte} (hT : ∀ xs, (T xs).length = xs.length) :
    Leaves T addr length 0 ERROR m m := by
  refine .inr ⟨rfl,Nat.succ_pos _,0,?_⟩
  rw [Nat.mul_zero,chunked_zero hT,List.take_zero,store_nil]

theorem Switched.advance {cmd : Nat} {arg : List Byte} {b : Byte} {x : Flag} {y : Bool}
    {kont : Int → LibCode}
    (hs : Switched c f cmd arg w v w') (hkey : cmd ≠ SET_KEY)
    (hcmd : cmd = SET_CONFIG ∨ cmd = SET_ENCRYP ∨ cmd = SET_MMAP)
    (hb : settingOf cmd b = some (x,y)) (harg : arg.isPrefixOf [b] = true)
    (hm : AgreeOn X w.umem m) (hfail : ∀ v, v ≠ 0 → kont v = .ret ERROR)
    (hgo : w'.jobs f = (w.jobs f).setFlag x y → (∃ a k, kont 0 = .act a k) ∧
      Midcall c f d addr length m (kont 0) (w'.jobs f) 0 m) :
    Advance c f d addr length m X v (kont v) 0 w w' := by
  have hm' : AgreeOn X w'.umem m := by
    rw [hs.umem]
    exact hm
  have hj : w'.jobs f = ((w.jobs f).ioctl cmd arg).2 := by rw [hs.jobs,Function.update_self]
  rcases Job.ioctl_byte hkey hcmd hb harg with hio | hio
  · obtain ⟨hact,hmid⟩ := hgo (by rw [hj,hio])
    have hv : v = 0 := by rw [hs.result,hio]
    subst hv
    refine ⟨hfail 0,?_,fun x _ => by rw [hs.umem],m,hm',.inr ⟨hact,hmid⟩⟩
    rw [hj,hio]
    cases x <;> rfl
  · have hv : v ≠ 0 := by
      rw [hs.result,hio]
      show -eAGAIN ≠ 0
      decide
    refine ⟨hfail v,by rw [hj,hio],fun x _ => by rw [hs.umem],m,hm',.inl ⟨ERROR,hfail v hv,?_⟩⟩
    exact leaves_nothing (c.run_length d _)

theorem Attempt.advance {fuel : Nat} {kont : Int → LibCode} {n : Nat}
    (hw : Attempt c Al f (addr+BUFFERSIZE*k) n w v w') (hn : n = chunkSize length k)
    (hq : sysLoop f (fuel+1) (addr+BUFFERSIZE*k) (length-BUFFERSIZE*k) =
      .act (.write f (addr+BUFFERSIZE*k) n) kont)
    (hfuel : (length-BUFFERSIZE*k) / BUFFERSIZE ≤ fuel) (hk : k < chunks length)
    (hE : (w.jobs f).isE = !d) (hN : (w.jobs f).isNotMM = true)
    (hX : ∀ x, Within addr length x → X x)
    (hm : AgreeOn X w.umem (chunked (c.run d (w.jobs f).keyab) addr (BUFFERSIZE*k) m)) :
    Advance c f d addr length m X v (kont v) (if v = 0 then k+1 else k) w w' := by
  let T := c.run d (w.jobs f).keyab
  let p := addr+BUFFERSIZE*k
  have hT : ∀ xs, (T xs).length = xs.length := c.run_length d _
  obtain ⟨kont',hq',hfail,hlast,hnext⟩ :=
    sysLoop_step f fuel (addr+BUFFERSIZE*k) (length-BUFFERSIZE*k)
  obtain ⟨_,hkont⟩ := Prog.act.inj (hq'.symm.trans hq)
  obtain rfl := eq_of_heq hkont
  obtain ⟨hE',_,_,hN',hkey⟩ := View.mode_eq (hw.modes f)
  have hB := BUFFERSIZE_pos
  have hle := le_of_lt_chunks hk
  have hin {x : Nat} (hx : Within p n x) : Within addr length x := by
    unfold chunkSize at hn
    unfold Within p at *
    omega
  have hload : load w.umem p n = load m p n := by
    rw [hm.load (fun x hx => hX x (hin hx))]
    exact load_chunked hT (Nat.le_refl _)
  obtain ⟨i,hum,hi,_⟩ := hw.user
  have hcr : w.crypted c f (load w.umem p n) = T (load m p n) := by
    rw [hload,World.crypted,hE,Bool.not_not]
  rw [show addr+BUFFERSIZE*k = p from rfl,hcr] at hum
  have hout (x : Nat) (hx : ¬ Within addr length x) : w'.umem x = w.umem x := by
    rw [hum]
    refine store_outside _ _ _ _ (fun h => hx (hin ⟨h.1,?_⟩))
    have hlt := h.2
    rw [List.length_take,hT,load_length] at hlt
    omega
  have hagree (ys : List Byte) : AgreeOn X (store w.umem p ys)
      (store (chunked T addr (BUFFERSIZE*k) m) p ys) := hm.store ys
  refine ⟨hfail v,hkey,hout,?_⟩
  by_cases hv : v = 0
  · subst hv
    rw [if_pos rfl]
    have hfull : (T (load m p n)).take i = T (load m p n) :=
      List.take_of_length_le (by rw [hT,load_length]; exact hi hN rfl)
    rw [hfull] at hum
    have hstep : store (chunked T addr (BUFFERSIZE*k) m) p (T (load m p n)) =
        chunked T addr (BUFFERSIZE*k+n) m :=
      (chunked_step hT (by rw [hn]; exact Nat.min_le_left _ _)).symm
    refine ⟨chunked T addr (BUFFERSIZE*k+n) m,?_,?_⟩
    · rw [hum,← hstep]
      exact hagree _
    · by_cases hl : length-BUFFERSIZE*k ≤ BUFFERSIZE
      · have hlen : BUFFERSIZE*k+n = length := by
          unfold chunkSize at hn
          omega
        refine .inl ⟨0,hlast hl,.inl ⟨rfl,?_,by rw [hlen]⟩⟩
        unfold chunks BUFFERSIZE at *
        omega
      · have hlen : BUFFERSIZE*k+n = BUFFERSIZE*(k+1) := by
          unfold chunkSize at hn
          rw [Nat.mul_succ]
          omega
        obtain ⟨fuel',rfl⟩ : ∃ fuel', fuel = fuel'+1 := by
          refine Nat.exists_eq_succ_of_ne_zero (fun h0 => ?_)
          subst h0
          exact absurd (Nat.div_le_div_right (c := BUFFERSIZE) (Nat.le_of_not_le hl))
            (by rw [Nat.div_self hB]; omega)
        have hgo := hnext (Nat.lt_of_not_le hl)
        obtain ⟨kont₂,hact,_⟩ := sysLoop_step f fuel' (p+BUFFERSIZE)
          (length-BUFFERSIZE*k-BUFFERSIZE)
        refine .inr ⟨⟨_,kont₂,hgo.trans hact⟩,.inr (.inr ⟨fuel',?_,?_,?_,?_,?_,?_⟩)⟩
        · rw [hgo,Nat.mul_succ,Nat.add_assoc,Nat.sub_add_eq]
        · unfold BUFFERSIZE at *
          omega
        · exact lt_chunks.mpr (.inr (by rw [Nat.mul_succ]; omega))
        · rw [hE',hE]
        · rw [hN',hN]
        · rw [hkey,hlen]
  · rw [if_neg hv]
    refine ⟨store (chunked T addr (BUFFERSIZE*k) m) p ((T (load m p n)).take i),?_,?_⟩
    · rw [hum]
      exact hagree _
    · refine .inl ⟨ERROR,hfail v hv,.inr ⟨rfl,hk,i,?_⟩⟩
      rw [hn]

/-- What the answer to the next system call means. -/
theorem Midcall.advance {a : Sysc} {kont : Int → LibCode}
    (h : Midcall c f d addr length m (.act a kont) (w.jobs f) k m₁) (hcl : cl.issues a = true)
    (hX : ∀ x, Within addr length x → X x) (hm : AgreeOn X w.umem m₁)
    (hd : Does c Al cl w v w') :
    Advance c f d addr length m X v (kont v) (if won (cl,v) then k+1 else k) w w' := by
  obtain ⟨hq,rfl,rfl⟩ | ⟨hq,rfl,hE,rfl⟩ | ⟨fuel,hq,hfuel,hk,hE,hN,rfl⟩ := h
  · cases hq
    obtain ⟨arg,rfl,harg⟩ := Call.issues_ioctl hcl
    refine Switched.advance (x := .isE) (y := !d) hd (by decide) (.inr (.inl rfl)) ?_ harg
      hm (fun v hv => if_pos hv) (fun hj => ⟨⟨_,_,rfl⟩,.inr (.inl ⟨rfl,rfl,?_,rfl⟩)⟩)
    · cases d <;> rfl
    · rw [hj]
      rfl
  · cases hq
    obtain ⟨arg,rfl,harg⟩ := Call.issues_ioctl hcl
    obtain ⟨kont,hloop,_⟩ := sysLoop_step f (length / BUFFERSIZE) addr length
    refine Switched.advance (x := .isNotMM) (y := true) hd (by decide) (.inr (.inr rfl)) rfl
      harg hm (fun v hv => if_pos hv) (fun hj => ⟨⟨_,kont,hloop⟩,.inr (.inr
        ⟨length / BUFFERSIZE,rfl,Nat.le_refl _,Nat.succ_pos _,?_,?_,?_⟩)⟩)
    · rw [hj]
      exact hE
    · rw [hj]
      rfl
    · rw [Nat.mul_zero,chunked_zero (c.run_length d _)]
  · obtain ⟨kont',hact,_⟩ := sysLoop_step f fuel (addr+BUFFERSIZE*k) (length-BUFFERSIZE*k)
    obtain ⟨ha,_⟩ := Prog.act.inj (hact.symm.trans hq.symm)
    subst ha
    obtain rfl := Call.issues_write hcl
    have hmin : min (chunkSize length k) MAX_RW_COUNT = chunkSize length k := by
      unfold chunkSize BUFFERSIZE MAX_RW_COUNT
      omega
    have hw : Attempt c Al f (addr+BUFFERSIZE*k) (chunkSize length k) w v w' := by
      rw [← hmin]
      exact hd
    have ha := hw.advance rfl hq.symm hfuel hk hE hN hX hm
    show Advance c f d addr length m X v (kont v) (if (v == 0) = true then k+1 else k) w w'
    simpa only [beq_iff_eq] using ha

theorem Does.settles {w₁ : World} (h : Does c Al cl w v w₁) (hw : Settles c w₁ w') :
    Does c Al cl w v w' := by
  cases cl with
  | write f ptr n => exact attempt_lasting.settles h hw
  | ioctl f cmd arg => exact Switched.settles h hw
  | _ => exact h.elim

theorem Does.idle (h : Does c Al cl w v w') (hop : w.card.op = none) (hv : v = 0) :
    w'.card.op = none := by
  cases cl with
  | write f ptr n => exact Attempt.idle h hv
  | ioctl f cmd arg => exact Switched.idle h hop
  | _ => exact h.elim

/-- The system calls of the library, run to their end. -/
theorem does_code {a : Sysc} (hcl : cl.issues a = true) (hop : w.card.op = none) :
    Sure (Terms.of c Al) t (Does c Al cl w) cl.code w := by
  cases cl with
  | write f ptr n => exact sysWrite_sure hop starts_of
  | ioctl f cmd arg => exact pciUnlockedIoctl_sure cmd arg hop
  | _ => cases a <;> cases hcl

end

end CryptoCard
