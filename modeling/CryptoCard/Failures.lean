import CryptoCard.Alone
import CryptoCard.Progress
set_option autoImplicit false

/-! What an encrypt or decrypt leaves behind when one of its system calls fails. -/
namespace CryptoCard
open Memory Chunks Program Interleave

/-- The buffer of an encrypt or decrypt that has returned `v`, when `hs` are its system
calls: chunk by chunk it is transformed by `e`, up to the one that failed. -/
structure Salvaged (e : Byte → Byte) (addr length : Nat) (hs : List (Call × Int)) (v : Int)
    (m m' : Nat → Byte) : Prop where
  result : v = 0 ∨ v = ERROR
  success : v = 0 ↔ hs.countP won = chunks length
  stops : ∀ s ∈ hs.tail, s.2 = 0
  whole : v = 0 → ∀ i, i < length → m' (addr+i) = e (m (addr+i))
  before : v = ERROR → ∀ i, i < length → i < BUFFERSIZE*hs.countP won →
    m' (addr+i) = e (m (addr+i))
  failing : v = ERROR → ∀ i, i < length → BUFFERSIZE*hs.countP won ≤ i →
    i < BUFFERSIZE*(hs.countP won+1) → m' (addr+i) = m (addr+i) ∨ m' (addr+i) = e (m (addr+i))
  after : v = ERROR → ∀ i, i < length → BUFFERSIZE*(hs.countP won+1) ≤ i →
    m' (addr+i) = m (addr+i)
  outside : ∀ x, ¬ Within addr length x → m' x = m x

section
variable {e : Byte → Byte} {addr length k : Nat} {m m' : Nat → Byte} {v : Int}

theorem Leaves.salvaged {hs : List (Call × Int)} (h : Leaves (List.map e) addr length
    (hs.countP won) v m m') (hs0 : ∀ s ∈ hs.tail, s.2 = 0) :
    Salvaged e addr length hs v m m' := by
  have hT : ∀ xs, (List.map e xs).length = xs.length := fun xs => List.length_map _
  have hout (x : Nat) (hx : ¬ Within addr length x) : m' x = m x := h.outside hT hx
  generalize hk : hs.countP won = k at h
  obtain ⟨rfl,hkl,rfl⟩ | ⟨rfl,hkl,i,rfl⟩ := h
  · have hno {P : Prop} (h : (0 : Int) = ERROR) : P := absurd h (by decide)
    refine ⟨.inl rfl,⟨fun _ => by rw [hk,hkl],fun _ => rfl⟩,hs0,fun _ i hi => ?_,hno,hno,hno,hout⟩
    exact chunked_map e length _ ⟨by omega,by omega⟩
  · have hno {P : Prop} (h : ERROR = 0) : P := absurd h (by decide)
    have hsize {j : Nat} {ys : List Byte} (hys : ys = (List.map e (load m (addr+BUFFERSIZE*k)
        (chunkSize length k))).take i) (hj : Within (addr+BUFFERSIZE*k) ys.length j) :
        BUFFERSIZE*k ≤ j-addr ∧ j-addr < BUFFERSIZE*(k+1) := by
      have hlt := hj.2
      rw [hys,List.length_take,List.length_map,load_length] at hlt
      have hle := hj.1
      unfold chunkSize at hlt
      rw [Nat.mul_succ]
      omega
    refine ⟨.inr rfl,⟨hno,fun h => ?_⟩,hs0,hno,fun _ j hj hjk => ?_,fun _ j hj hge hlt => ?_,
      fun _ j hj hge => ?_,hout⟩
    · rw [hk] at h
      omega
    · rw [hk] at hjk
      rw [store_outside _ _ _ _ (fun hin => ?_)]
      · exact chunked_map e _ _ ⟨by omega,by omega⟩
      · have hle := (hsize rfl hin).1
        omega
    · rw [hk] at hge hlt
      by_cases hin : Within (addr+BUFFERSIZE*k) ((List.map e (load m (addr+BUFFERSIZE*k)
          (chunkSize length k))).take i).length (addr+j)
      · refine .inr ?_
        rw [store_within _ _ _ _ hin]
        have heq : addr+BUFFERSIZE*k+(addr+j-(addr+BUFFERSIZE*k)) = addr+j := by omega
        simp [load,heq]
      · refine .inl ?_
        rw [store_outside _ _ _ _ hin]
        exact chunked_outside hT (fun h => by unfold Within at h; omega)
    · rw [hk] at hge
      rw [store_outside _ _ _ _ (fun hin => ?_)]
      · exact chunked_outside hT (fun h => by unfold Within at h; rw [Nat.mul_succ] at hge; omega)
      · have hlt := (hsize rfl hin).2
        omega

end

/-- The call has not returned, and has got as far as its system calls `hs` say. -/
structure Going (c : Cipher) (f : Nat) (d : Bool) (addr length : Nat) (w₀ : World)
    (hs : List (Call × Int)) (w : World) : Prop where
  fine : ∀ s ∈ hs, s.2 = 0
  done : (place f [.crypt d addr length] hs).done = []
  op : w.card.op = none
  key : (w.jobs f).keyab = (w₀.jobs f).keyab
  ahead : ∃ a kont, (place f [.crypt d addr length] hs).ahead f =
      some (.crypt d addr length,.act a kont,[]) ∧
    Midcall c f d addr length w₀.umem (.act a kont) (w.jobs f) (hs.countP won) w.umem

/-- The call is over. -/
def Gone (c : Cipher) (f : Nat) (d : Bool) (addr length : Nat) (w₀ : World)
    (hs : List (Call × Int)) (w : World) : Prop :=
  ∃ v, place f [.crypt d addr length] hs = ⟨[(.crypt d addr length,v)],none,[]⟩ ∧
    (∀ s ∈ hs.tail, s.2 = 0) ∧
    Leaves (c.run d (w₀.jobs f).keyab) addr length (hs.countP won) v w₀.umem w.umem

def oneCall (c : Cipher) (t f : Nat) (d : Bool) (addr length : Nat) (w₀ : World) :
    Turns.Protocol World Call Int where
  Rest hs w := Going c f d addr length w₀ (hs t) w ∨ Gone c f d addr length w₀ (hs t) w
  Open hs w u cl := u = t ∧ Going c f d addr length w₀ (hs t) w ∧
    (place f [.crypt d addr length] (hs t)).admits f cl = true
  Spec _ := Does c anyAnswer

section
variable {c : Cipher} {t f addr length : Nat} {d : Bool} {w₀ w w₁ w₂ : World}
variable {hs : List (Call × Int)} {cl : Call} {v : Int}

theorem Gone.admits (h : Gone c f d addr length w₀ hs w) :
    (place f [.crypt d addr length] hs).admits f cl = false := by
  obtain ⟨v,hp,_⟩ := h
  rw [hp]
  rfl

theorem Going.settles (h : Going c f d addr length w₀ hs w) (hw : Settles c w w₁) :
    Going c f d addr length w₀ hs w₁ := by
  refine ⟨h.fine,h.done,hw.op h.op,?_,?_⟩
  · rw [hw.jobs]
    exact h.key
  · rw [hw.jobs,hw.umem]
    exact h.ahead

/-- What one system call makes of the state of the library call. -/
theorem Going.step (h : Going c f d addr length w₀ hs w)
    (ha : (place f [.crypt d addr length] hs).admits f cl = true)
    (hd : Does c anyAnswer cl w v w₁) :
    Going c f d addr length w₀ ((cl,v) :: hs) w₁ ∨ Gone c f d addr length w₀ ((cl,v) :: hs) w₁ := by
  obtain ⟨a,kont,hahead,hmid⟩ := h.ahead
  have hadv := hmid.advance (X := fun _ => True) (Place.admits_ahead hahead ha)
    (fun _ _ => trivial) (fun _ _ => rfl) hd
  have hcount : (if won (cl,v) then hs.countP won+1 else hs.countP won) =
      ((cl,v) :: hs).countP won := by
    rw [List.countP_cons]
    split <;> rfl
  rw [hcount] at hadv
  obtain ⟨m',hm',hlead⟩ := hadv.leads
  obtain rfl : w₁.umem = m' := funext (fun x => hm' x trivial)
  rcases hlead with ⟨r,hr,hleaves⟩ | ⟨⟨b,kont',hb⟩,hmid'⟩
  · refine .inr ⟨r,?_,h.fine,?_⟩
    · rw [place_cons,Place.took_ret hahead hr,h.done]
    · rw [h.key] at hleaves
      exact hleaves
  · have hv : v = 0 := by
      by_contra hv
      rw [hadv.stops hv] at hb
      cases hb
    refine .inl ⟨fun s hs' => ?_,?_,hd.idle h.op hv,hadv.keyab.trans h.key,b,kont',?_,?_⟩
    · rcases List.mem_cons.mp hs' with rfl | hs'
      · exact hv
      · exact h.fine s hs'
    · rw [place_cons,Place.took_act hahead hb]
      exact h.done
    · rw [place_cons,Place.took_act hahead hb]
      rfl
    · rw [hb] at hmid'
      exact hmid'

theorem oneCall_follows :
    (solo c (.of c anyAnswer)).Follows (machine c) (Serves f (only t [.crypt d addr length]))
      (oneCall c t f d addr length w₀) where
  bears := solo_bears c _
  alone := by
    intro s u cl hp hcl hidle hopen u' cl' w hu'
    by_contra hf
    obtain rfl := hp.thread hcl
    obtain ⟨rfl,_⟩ := hopen u' cl' w hu' (by simpa using hf)
    rw [Sys.turn,hidle] at hu'
    cases hu'
  begins := by
    intro s u cl hp hcl hrest
    obtain rfl := hp.thread hcl
    have ha := hp hcl
    rw [only,if_pos rfl] at ha
    rcases hrest with hgo | hgone
    · exact ⟨rfl,hgo,ha⟩
    · exact absurd (ha.symm.trans hgone.admits) (by decide)
  code := by
    intro hs w u cl hcl hopen
    obtain ⟨rfl,hgo,ha⟩ := hopen
    obtain ⟨l,a,k,ls,_,hiss⟩ := Place.admits_eq ha
    exact does_code hiss hgo.op w (.refl w)
  back := by
    intro s u cl hp hcl
    cases cl with
    | irq dev => exact pciIrqHandle_meek dev
    | _ => cases hcl
  allows := fun _ _ _ _ => trivial
  good := fun _ _ => trivial
  rely := by
    intro hs w w' hrest hw
    rcases hrest with hgo | ⟨v,hp,hfine,hl⟩
    · exact .inl (hgo.settles hw)
    · refine .inr ⟨v,hp,hfine,?_⟩
      rw [hw.umem]
      exact hl
  closes := by
    intro hs w u cl v w₁ w₂ hcl hopen hspec _ hw
    obtain ⟨rfl,hgo,ha⟩ := hopen
    have hstep := hgo.step ha (Does.settles hspec hw)
    simpa only [oneCall,Function.update_self] using hstep

end

/-- Whatever fails, and wherever it does, an encrypt or decrypt of a single client leaves
its buffer transformed up to the chunk that failed, and says so. -/
theorem failed_crypt_salvaged (e : Bool → Nat → Byte → Byte) (w : World) (t f addr length : Nat)
    (d : Bool) (hop : w.card.op = none) {s : System}
    (hr : (machine (.bytewise e)).Reaches (Serves f (only t [.crypt d addr length])) (start w) s)
    {v : Int} (hv : (LibCall.crypt d addr length,v) ∈
      (place f [.crypt d addr length] (syscalls s t)).done) :
    Salvaged (e d (w.jobs f).keyab) addr length (syscalls s t) v w.umem s.world.umem := by
  let c := Cipher.bytewise e
  have hstart : (oneCall c t f d addr length w).Rest (fun _ => []) w := by
    refine .inl ⟨(fun _ h => nomatch h),rfl,hop,rfl,_,_,rfl,.inl ⟨rfl,rfl,rfl⟩⟩
  have hfollows : (solo c (.of c anyAnswer)).Follows (machine c)
      (Serves f (only t [.crypt d addr length])) (oneCall c t f d addr length w) := oneCall_follows
  obtain ⟨hrest,hopen,_⟩ := hfollows.reaches hstart hr
  have hstill : (solo c (.of c anyAnswer)).Still s := by
    intro u cl w' hu
    by_contra hf
    obtain ⟨rfl,hgo,_⟩ := hopen u cl w' hu (by simpa using hf)
    rw [show syscalls s u = (solo c (.of c anyAnswer)).deeds s u from rfl,hgo.done] at hv
    cases hv
  rcases hrest hstill with hgo | ⟨v',hp,hfine,hl⟩
  · rw [show syscalls s t = (solo c (.of c anyAnswer)).deeds s t from rfl,hgo.done] at hv
    cases hv
  · rw [show syscalls s t = (solo c (.of c anyAnswer)).deeds s t from rfl,hp] at hv
    cases List.mem_singleton.mp hv
    exact hl.salvaged hfine

/-- The ioctls of an encrypt. -/
def aimedSteps : List Step :=
  .call 0 (.ioctl 0 SET_ENCRYP [50]) :: ticks 0 2 ++ .ret 0 ::
  .call 0 (.ioctl 0 SET_MMAP [80]) :: ticks 0 2 ++ [.ret 0]

/-- The next system call of a library call that runs alone. -/
theorem serves_next {c : Cipher} {t f : Nat} (ls : List LibCall) (cl : Call)
    {Q : Int → World → Prop} {s : System} (ht : s.thr t = .idle)
    (ha : (place f ls (syscalls s t)).admits f cl = true)
    (h : (machine c).Can t calm Q cl.code s.world) :
    ∃ s' v, (machine c).Reaches (Serves f (only t ls)) s s' ∧ s'.thr t = .idle ∧
      s'.hist t = (cl,v) :: s.hist t ∧ Q v s'.world := by
  obtain ⟨s',v,hr,ht',hh,hq⟩ := h.called (P := Serves f (only t ls)) ht
    (fun _ => by rw [only,if_pos rfl]; exact ha) (fun _ _ _ => trivial) (fun _ => trivial)
    (fun _ _ => trivial)
  exact ⟨s',v,hr,ht',by rw [hh,Function.update_self],hq⟩

/-- An encrypt of two chunks, whose second one is copied back up to its first byte. -/
theorem failed_crypt_salvaged_midway : ∃ s, (machine (.bytewise fun _ _ x => x+1)).Reaches
      (Serves 0 (only 0 [.crypt false 0 32770])) (start (.boot (fun _ => 0) (fun _ => 0))) s ∧
    (syscalls s 0).countP won = 1 ∧ (∀ x, x < 32768 → s.world.umem x = 1) ∧
    s.world.umem 32768 = 1 ∧ s.world.umem 32769 = 0 ∧
    Salvaged (· + 1) 0 32770 (syscalls s 0) ERROR (fun _ => 0) s.world.umem := by
  let c : Cipher := .bytewise fun _ _ x => x+1
  obtain ⟨s₁,hr₁,_,hp⟩ := Machine.exists_reaches (M := machine c)
    (P := Serves 0 (only 0 [.crypt false 0 32770])) (n := 1)
    (b := fun s l => decide (Serves 0 (only 0 [.crypt false 0 32770]) s l))
    (p := fun s => s.isIdle 0 &&
      s.hist 0 == [(.ioctl 0 SET_MMAP [80],0),(.ioctl 0 SET_ENCRYP [50],0)] &&
      (s.world.jobs 0).isNotMM && (s.world.jobs 0).isM && !(s.world.jobs 0).isI &&
      s.world.card.op.isNone && decide (0 < s.world.wsem) &&
      s.world.umem 32768 == 0 && s.world.umem 32769 == 0)
    (fun _ _ _ h => of_decide_eq_true h) aimedSteps
    (start_quiet (.boot (fun _ => 0) (fun _ => 0)) 1) (by decide +kernel)
  simp only [Bool.and_eq_true,beq_iff_eq,Bool.not_eq_true',Option.isNone_iff_eq_none,
    decide_eq_true_eq] at hp
  obtain ⟨⟨⟨⟨⟨⟨⟨⟨hidle,hh₁⟩,hN⟩,hM⟩,hI⟩,hop⟩,hsem⟩,hu₁⟩,hu₁'⟩ := hp
  -- the first chunk goes through
  have hfirst : (machine c).Can 0 calm
      (fun v w => v = 0 ∧ Rested 0 false w ∧ w.umem 32768 = 0 ∧ w.umem 32769 = 0)
      (Call.write 0 0 32768).code s₁.world := by
    refine pciWrite_stops ⟨hN,hM,hI,hop,hsem⟩ (by decide) (by decide) (Nat.le_refl _)
      (fun d k w' h' hu => ?_)
    have hlen : ((c.run d k (load s₁.world.umem 0 (min 32768 MAX_RW_COUNT))).take
        (min 32768 MAX_RW_COUNT)).length ≤ 32768 := List.length_take_le _ _
    rw [if_pos rfl,hu]
    refine ⟨rfl,h',?_,?_⟩
    · rw [store_outside _ _ _ _ (fun hin => by have := hin.2; omega),hu₁]
    · rw [store_outside _ _ _ _ (fun hin => by have := hin.2; omega),hu₁']
  obtain ⟨s₂,v₂,hr₂,ht₂,hh₂,rfl,hrest₂,hu₂,hu₂'⟩ := serves_next (f := 0)
    [.crypt false 0 32770] (.write 0 0 32768) (Sys.idle_of_isIdle hidle)
    (by rw [syscalls,hh₁]; decide +kernel) hfirst
  -- the second one stops after a byte
  have hsecond : (machine c).Can 0 calm
      (fun v w => v = -eAGAIN ∧ w.umem 32768 = 1 ∧ w.umem 32769 = 0)
      (Call.write 0 32768 2).code s₂.world := by
    refine pciWrite_stops (i := 1) hrest₂ (by decide) (by decide) (by decide)
      (fun d k w' _ hu => ?_)
    have hcopied : (c.run d k (load s₂.world.umem 32768 (min 2 MAX_RW_COUNT))).take 1 =
        [s₂.world.umem 32768+1] := rfl
    rw [if_neg (by decide),hu,hcopied,hu₂]
    refine ⟨rfl,rfl,?_⟩
    rw [store_outside _ _ _ _ (fun hin => absurd hin.2 (by decide)),hu₂']
  obtain ⟨s₃,v₃,hr₃,_,hh₃,rfl,hu₃,hu₃'⟩ := serves_next (f := 0) [.crypt false 0 32770]
    (.write 0 32768 2) ht₂ (by rw [syscalls,hh₂,hh₁]; decide +kernel) hsecond
  have hr : (machine c).Reaches (Serves 0 (only 0 [.crypt false 0 32770]))
      (start (.boot (fun _ => 0) (fun _ => 0))) s₃ := (hr₁.trans hr₂).trans hr₃
  have hcalls : syscalls s₃ 0 = [(.write 0 32768 2,-eAGAIN),(.write 0 0 32768,0),
      (.ioctl 0 SET_MMAP [80],0),(.ioctl 0 SET_ENCRYP [50],0)] := by
    rw [syscalls,hh₃,hh₂,hh₁]
    rfl
  have hwon : (syscalls s₃ 0).countP won = 1 := by
    rw [hcalls]
    decide
  have hs := failed_crypt_salvaged (fun _ _ x => x+1) (.boot (fun _ => 0) (fun _ => 0)) 0 0 0
    32770 false rfl hr (v := ERROR) (by rw [hcalls]; decide +kernel)
  refine ⟨s₃,hr,hwon,fun x hx => ?_,hu₃,hu₃',hs⟩
  have hb := hs.before rfl x (by omega) (by rw [hwon]; unfold BUFFERSIZE; omega)
  rwa [Nat.zero_add] at hb

end CryptoCard
