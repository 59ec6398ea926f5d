import CryptoCard.Clients
set_option autoImplicit false

/-! Clients with handles and buffers of their own and without a mapping, from the
boot of the card on. -/
namespace CryptoCard
open Memory Chunks Program Interleave

/-- decrypt or encrypt. -/
def Call.crypt : Bool → Nat → Nat → Nat → Byte → Call
  | true, cdev, addr, length, isMapped => .decrypt cdev addr length isMapped
  | false, cdev, addr, length, isMapped => .encrypt cdev addr length isMapped

/-- The key last set on a handle, 0 if none was. -/
def lastKey (cdev : Nat) : List (Call × Int) → Nat
  | [] => 0
  | (.setKey f a b,_) :: hs => if f = cdev then 256*a.toNat+b.toNat else lastKey cdev hs
  | _ :: hs => lastKey cdev hs

/-- The calls of client `t` when it keeps to what is its own and does not store to the
mapped window. -/
def Call.Own (holder owner : Nat → Nat) (t : Nat) : Call → Prop
  | .setKey cdev _ _ | .setConfig cdev _ _ => holder cdev = t
  | .encrypt cdev addr length isMapped | .decrypt cdev addr length isMapped =>
    holder cdev = t ∧ (isMapped = 0 → ∀ x, Within addr length x → owner x = t)
  | .store addr xs => ∀ x, Within addr xs.length x → owner x = t
  | .irq _ => True
  | .write _ _ _ | .ioctl _ _ _ | .mapStore _ _ => False

/-- The steps of such clients, of interrupts and of the card; no signal ends the wait
for an operation before the operation does. -/
def OwnStep (holder owner : Nat → Nat) (s : System) : Step → Prop
  | .call t call => call.Own holder owner t
  | l => cutsShort s l = false

def ownTenancy (holder owner : Nat → Nat) : Tenancy where
  holder := holder
  owner := owner
  active _ := True
  mapper _ := False
  tied _ := True
  sole _ := False

theorem Config.send_key (s : Config) (value : Byte) : (s.send value).key = s.key := by
  unfold Config.send
  split <;> [rfl; split <;> [rfl; split <;> rfl]]

theorem configured_key (f : Nat) (hs : List (Call × Int)) :
    (configured f hs).key = lastKey f hs := by
  induction hs with
  | nil => rfl
  | cons e hs ih =>
    obtain ⟨call,r⟩ := e
    have keep (h : (call.configure f (configured f hs)).key = (configured f hs).key)
        (hl : lastKey f ((call,r) :: hs) = lastKey f hs) :
        (configured f ((call,r) :: hs)).key = lastKey f ((call,r) :: hs) := by
      rw [hl,← ih,← h]
      rfl
    cases call with
    | setKey cdev a b =>
      by_cases hf : cdev = f
      · simp [configured,lastKey,Call.configure,hf]
      · exact keep (by simp [Call.configure,hf]) (by simp [lastKey,hf])
    | setConfig cdev type value =>
      refine keep ?_ rfl
      by_cases hf : cdev = f
      · simp [Call.configure,hf,Config.send_key]
      · simp [Call.configure,hf]
    | _ => exact keep rfl rfl

/-- An encrypt does not count for the key. -/
theorem lastKey_encrypt (cdev f addr length : Nat) (isMapped : Byte) (r : Int)
    (mid hs : List (Call × Int)) :
    lastKey cdev (mid ++ (.encrypt f addr length isMapped,r) :: hs) =
      lastKey cdev (mid ++ hs) := by
  induction mid with
  | nil => rfl
  | cons e mid ih =>
    obtain ⟨call,r'⟩ := e
    cases call with
    | setKey f a b => simp only [List.cons_append,lastKey,ih]
    | _ => exact ih

/-- A client that has not called anything yet. -/
def View.initial (umem : Nat → Byte) : View where
  role := .handler
  file := none
  lo := 0
  size := 0
  want := ⟨false,0,false,false,false⟩
  jobs _ := pciOpen
  um := umem
  buf := none
  map := none
  bar := none
  own := none

section
variable {T : Tenancy} {c : Cipher} {base : Nat → List (Call × Int)} {m₀ : Nat → Store}
variable {s : System} {g : Nat → View} {t : Nat} {call : Call} {w₀ : World} {p : Code Int}

theorem Tenants.boot (T : Tenancy) (c : Cipher) (umem mem : Nat → Byte) :
    Tenants T c (fun _ => .initial umem) (World.boot umem mem) where
  sem := ⟨rfl,fun t => by simp [World.boot,View.initial]⟩
  running o ho := by cases ho
  sees t := .inl ⟨⟨fun _ _ => rfl,(fun _ _ h => by cases h),(fun _ h => by cases h),
    (fun _ h => by cases h),(fun _ _ h => by cases h)⟩,
    fun _ => ⟨fun _ _ => rfl,(fun _ _ h => by cases h),(fun _ h => by cases h),
      (fun _ h => by cases h)⟩⟩
  fits t := ⟨(fun _ h => by cases h),(fun _ h => absurd h.2 (Nat.not_lt_zero _)),
    fun h => absurd rfl h,(fun h => by cases h),(fun _ h => by cases h),(fun _ h => by cases h)⟩

theorem client_start (T : Tenancy) (c : Cipher) (umem mem : Nat → Byte) (hT : ∀ t, ¬ T.sole t) :
    (clientAssertions T c (fun _ => []) (fun _ => ⟨umem,mem⟩)).Holds
      (start (World.boot umem mem)) (fun _ => .initial umem) :=
  ⟨Tenants.boot T c umem mem,
    fun t => ⟨⟨rfl,rfl,rfl⟩,fun _ _ => rfl,mem,.start,fun hs => absurd hs (hT t)⟩⟩

/-- What a client knows of its memory between two calls. -/
theorem recall_idle (h : (clientAssertions T c base m₀).Holds s g) (ht : s.thr t = .idle)
    (htied : T.tied t) :
    ∃ m, Recall c (fun x => T.owner x = t) (base t) (m₀ t) (s.hist t) m ∧
      (∀ x, T.owner x = t → s.world.umem x = m.um x) ∧ (T.sole t → s.world.card.mem = m.win) := by
  have hi := h.2 t
  rw [ht] at hi
  obtain ⟨hclean,_,win,hrec,hwin⟩ := hi
  have hA := (h.1.sees t).of_free (.of_bar hclean.2.2)
  exact ⟨_,hrec,(hA.content htied).um,
    fun hs => (hA.content htied).own win (hwin hs htied) hclean.2.2⟩

/-- Start to count from here. -/
theorem rebase (h : (clientAssertions T c base m₀).Holds s g) (ht : s.thr t = .idle)
    (htied : T.tied t) : ∃ m, (∀ x, T.owner x = t → s.world.umem x = m.um x) ∧
      (T.sole t → s.world.card.mem = m.win) ∧
      (clientAssertions T c (Function.update base t (s.hist t))
        (Function.update m₀ t m)).Holds s g := by
  have hi := h.2 t
  rw [ht] at hi
  obtain ⟨hclean,hcfg,win,_,hwin⟩ := hi
  have hA := (h.1.sees t).of_free (.of_bar hclean.2.2)
  refine ⟨⟨(g t).um,win⟩,(hA.content htied).um,
    fun hs => (hA.content htied).own win (hwin hs htied) hclean.2.2,h.1,fun u => ?_⟩
  by_cases hu : u = t
  · subst u
    rw [ht]
    refine ⟨hclean,hcfg,win,?_,hwin⟩
    rw [Function.update_self,Function.update_self]
    exact .start
  · have hi := h.2 u
    unfold Assertions.ThreadOk clientAssertions View.Recalls at hi ⊢
    simpa only [Function.update_of_ne hu] using hi

theorem acts_done (h : (clientAssertions T c base m₀).Holds s g) {r : Int}
    (ht : s.thr t = .run call w₀ (.ret r)) (htied : T.tied t) :
    (∀ x, Within call.range.1 call.range.2 x → T.owner x = t) ∧
    ∃ m m', call.Acts c (call.config (s.hist t)) r m m' ∧
      (∀ x, T.owner x = t → w₀.umem x = m.um x) ∧ (T.sole t → w₀.card.mem = m.win) ∧
      (∀ x, T.owner x = t → s.world.umem x = m'.um x) ∧
      (T.sole t → s.world.card.mem = m'.win) := by
  obtain ⟨γ₀,⟨hcall,hcfg,_,hallow,hum,hown⟩,hlink,hpost⟩ := h.post ht
  have hret : View.Returned c call γ₀ r (g t) := hpost
  have hA := (h.1.sees t).of_free (.of_bar hret.clean.2.2)
  obtain ⟨win',hacts,hwin⟩ := acts_of_returned hret hcall hcfg hallow hlink.2 w₀.card.mem
  exact ⟨hallow.range,_,_,hacts,hum htied,fun _ => rfl,(hA.content htied).um,
    fun hs => (hA.content htied).own win' (hwin (hown hs)) hret.clean.2.2⟩

/-- A call writes user memory in its own range only. -/
theorem acts_within (h : (clientAssertions T c base m₀).Holds s g)
    (ht : s.thr t = .run call w₀ p) {x : Choice} {s' : System}
    (hs : (machine c).step s (.act t x) = some s') {y : Nat}
    (hy : ¬ Within call.range.1 call.range.2 y) : s'.world.umem y = s.world.umem y := by
  obtain ⟨call',w',a,k,ht',hstep⟩ := Machine.actStep_cases hs
  rw [ht] at ht'
  cases ht'
  obtain ⟨γ₀,⟨hcall,_⟩,hlink⟩ := h.began ht
  have hok : (g t).Ok a := h.ok ht
  have hin (hc : (g t).Covers a.writes.1 a.writes.2) : ¬ Within a.writes.1 a.writes.2 y := by
    obtain ⟨h1,h2⟩ := hc
    rw [hlink.1.lo,hcall.lo] at h1 h2
    rw [hlink.1.size,hcall.size] at h2
    exact fun hw => hy ⟨Nat.le_trans h1 hw.1,Nat.lt_of_lt_of_le hw.2 h2⟩
  have hw : ¬ Within a.writes.1 a.writes.2 y := by
    cases a with
    | copyToUser ptr p n => exact hin hok.2.2.1
    | userStore addr xs => exact hin hok.1
    | _ => exact fun hw => absurd hw.2 (Nat.not_lt_zero _)
  obtain ⟨w,he,rfl⟩ | ⟨r,w,he,rfl⟩ | ⟨w,he,rfl⟩ := hstep
  · obtain ⟨_,rfl⟩ := World.stay_task he
    rfl
  · exact World.exec_umem he hw
  · obtain ⟨rfl,_⟩ := World.exec_oops he
    rfl

end

section
variable {holder owner : Nat → Nat} {t : Nat}

theorem Call.Own.allowed {call : Call} (h : call.Own holder owner t) :
    call.Allowed (ownTenancy holder owner) t := by
  have crypt {cdev addr length : Nat} {isMapped : Byte} (h : holder cdev = t ∧ (isMapped = 0 →
      ∀ x, Within addr length x → owner x = t)) (x : Nat)
      (hx : Within (if isMapped = 0 then (addr,length) else (0,0)).1
        (if isMapped = 0 then (addr,length) else (0,0)).2 x) : owner x = t := by
    split at hx
    · exact h.2 (by assumption) x hx
    · exact absurd hx.2 (Nat.not_lt_zero _)
  have handle {cdev : Nat} (h : holder cdev = t) (f : Nat) (hf : some cdev = some f) :
      holder f = t := by
    cases hf
    exact h
  have none (x : Nat) (hx : Within 0 0 x) : owner x = t := absurd hx.2 (Nat.not_lt_zero _)
  cases call with
  | setKey cdev a b =>
    exact ⟨.inl rfl,handle h,none,fun _ => trivial,(fun hm => by cases hm)⟩
  | setConfig cdev type value =>
    exact ⟨.inl rfl,handle h,none,fun _ => trivial,(fun hm => by cases hm)⟩
  | encrypt cdev addr length isMapped =>
    exact ⟨.inl rfl,handle h.1,crypt h,fun _ => trivial,(fun hm => by cases hm)⟩
  | decrypt cdev addr length isMapped =>
    exact ⟨.inl rfl,handle h.1,crypt h,fun _ => trivial,(fun hm => by cases hm)⟩
  | irq dev =>
    exact ⟨.inr ⟨dev,rfl⟩,(fun f hf => by cases hf),none,fun _ => trivial,(fun hm => by cases hm)⟩
  | store addr xs =>
    exact ⟨.inl rfl,(fun f hf => by cases hf),h,fun _ => trivial,(fun hm => by cases hm)⟩
  | _ => exact h.elim

theorem own_admits : Admits (ownTenancy holder owner) (OwnStep holder owner) where
  call hp := Call.Own.allowed hp
  signal {s l} hp := by
    cases l with
    | call t call => rfl
    | _ => exact hp
  mapper hm := hm.elim
  sole _ hs := hs.elim

end

/-- The bytes of an encrypt or decrypt that has come to its end with result 0. -/
theorem crypt_done {f : Bool → Nat → Byte → Byte} {T : Tenancy}
    {base : Nat → List (Call × Int)} {m₀ : Nat → Store} {s : System} {g : Nat → View}
    (hg : (clientAssertions T (.bytewise f) base m₀).Holds s g) {t cdev addr length : Nat}
    {d : Bool} {w₀ : World} (ht : s.thr t = .run (.crypt d cdev addr length 0) w₀ (.ret 0))
    (htied : T.tied t) :
    (∀ x, Within addr length x →
      s.world.umem x = f d (lastKey cdev (s.hist t)) (w₀.umem x)) ∧
    ∀ x, T.owner x = t → ¬ Within addr length x → s.world.umem x = w₀.umem x := by
  have hrange : (Call.crypt d cdev addr length 0).range = (addr,length) := by cases d <;> rfl
  obtain ⟨hin,m,m',hacts,hm,_,hm',_⟩ := acts_done hg ht htied
  rw [hrange] at hin
  have hmap : m'.um =
      store m.um addr ((load m.um addr length).map (f d (lastKey cdev (s.hist t)))) := by
    rw [← configured_key,← chunkMap_map _ BUFFERSIZE]
    cases d with
    | true => exact Crypts.um hacts rfl rfl
    | false => exact Crypts.um hacts rfl rfl
  refine ⟨fun x hx => ?_,fun x hx hout => ?_⟩
  · rw [hm' x (hin x hx),hmap,store_map _ _ _ _ _ hx,hm x (hin x hx)]
  · rw [hm' x hx,hmap,store_outside _ _ _ _ (by simpa using hout),hm x hx]

/-- An encrypt or decrypt that returns 0 has transformed its own bytes once, with the
key of its handle, and no step of it has touched another byte. -/
theorem clients_do_not_mix (f : Bool → Nat → Byte → Byte) (holder owner : Nat → Nat)
    (umem mem : Nat → Byte) {s : System}
    (hr : (machine (.bytewise f)).Reaches (OwnStep holder owner) (start (World.boot umem mem)) s)
    {t cdev addr length : Nat} {d : Bool} {w₀ : World} {p : Code Int}
    (ht : s.thr t = .run (.crypt d cdev addr length 0) w₀ p) :
    (p = .ret 0 →
      (∀ x, Within addr length x →
        s.world.umem x = f d (lastKey cdev (s.hist t)) (w₀.umem x)) ∧
      ∀ x, owner x = t → ¬ Within addr length x → s.world.umem x = w₀.umem x) ∧
    ∀ x s', (machine (.bytewise f)).step s (.act t x) = some s' →
      ∀ y, ¬ Within addr length y → s'.world.umem y = s.world.umem y := by
  obtain ⟨g,hg⟩ := (clientOutline own_admits).reaches (client_start _ _ umem mem (fun _ h => h)) hr
  have hrange : (Call.crypt d cdev addr length 0).range = (addr,length) := by cases d <;> rfl
  refine ⟨?_,fun x s' hs y hy => acts_within hg ht hs (by rwa [hrange])⟩
  rintro rfl
  exact crypt_done hg ht trivial

/-- A step of thread 0 as the only client, or of the card. -/
def loneStep (_ : System) : Step → Bool
  | .call t (.setKey _ _ _) | .call t (.setConfig _ _ _) => t == 0
  | .call t (.encrypt _ _ _ _) | .call t (.decrypt _ _ _ _) => t == 0
  | .act _ x => match x with | .signal => false | _ => true
  | .ret _ | .env _ => true
  | _ => false

theorem own_of_lone {s : System} {l : Step} (h : loneStep s l = true) :
    OwnStep (fun _ => 0) (fun _ => 0) s l := by
  cases l with
  | call t call =>
    cases call with
    | setKey cdev a b => exact (eq_of_beq h).symm
    | setConfig cdev type value => exact (eq_of_beq h).symm
    | encrypt cdev addr length isMapped =>
      exact ⟨(eq_of_beq h).symm,fun _ _ _ => (eq_of_beq h).symm⟩
    | decrypt cdev addr length isMapped =>
      exact ⟨(eq_of_beq h).symm,fun _ _ _ => (eq_of_beq h).symm⟩
    | _ => cases h
  | act t x => cases x <;> first | rfl | cases h
  | _ => rfl

def ticks (t n : Nat) : List Step := List.replicate n (.act t .ok)

/-- encrypt or decrypt of one chunk that goes through the data window, polling. -/
def polledChunk (t : Nat) : List Step :=
  ticks t 8 ++ .act t (.value 0) :: ticks t 2 ++ .act t (.junk fun _ => 0) :: ticks t 19 ++
  .env .finish :: ticks t 13

/-- The same by DMA. -/
def polledDma (t : Nat) : List Step :=
  ticks t 8 ++ .act t (.value 0) :: ticks t 2 ++ .act t (.junk fun _ => 0) :: ticks t 18 ++
  .env .finish :: ticks t 11

/-- encrypt or decrypt of one chunk, up to the semaphore. -/
def enteringChunk (t : Nat) : List Step :=
  ticks t 8 ++ .act t (.value 0) :: ticks t 2 ++ .act t (.junk fun _ => 0) :: ticks t 5

/-- A call of client `t` on handle `t` and in the hundred bytes of memory that are its own. -/
def Call.atHome (t : Nat) : Call → Bool
  | .setKey cdev _ _ | .setConfig cdev _ _ => cdev == t
  | .encrypt cdev addr length _ | .decrypt cdev addr length _ =>
    cdev == t && decide (100*t ≤ addr ∧ addr+length ≤ 100*t+100)
  | _ => false

theorem Call.home {t cdev addr length : Nat}
    (h : (cdev == t && decide (100*t ≤ addr ∧ addr+length ≤ 100*t+100)) = true) :
    cdev = t ∧ ∀ x, Within addr length x → x/100 = t := by
  obtain ⟨hc,hr⟩ := Bool.and_eq_true_iff.mp h
  obtain ⟨hlo,hhi⟩ := of_decide_eq_true hr
  refine ⟨eq_of_beq hc,fun x hx => ?_⟩
  obtain ⟨hxlo,hxhi⟩ := hx
  omega

theorem Call.own_of_atHome {t : Nat} {call : Call} (h : call.atHome t = true) :
    call.Own id (fun x => x/100) t := by
  cases call with
  | setKey cdev a b => exact eq_of_beq h
  | setConfig cdev type value => exact eq_of_beq h
  | encrypt cdev addr length isMapped => exact ⟨(Call.home h).1,fun _ => (Call.home h).2⟩
  | decrypt cdev addr length isMapped => exact ⟨(Call.home h).1,fun _ => (Call.home h).2⟩
  | _ => cases h

/-- A step of such clients or of the card. -/
def homeStep (_ : System) : Step → Bool
  | .call t call => call.atHome t
  | l => unsignalled l

theorem own_of_home {s : System} {l : Step} (h : homeStep s l = true) :
    OwnStep id (fun x => x/100) s l := by
  cases l with
  | call t call => exact Call.own_of_atHome h
  | _ => exact cutsShort_of_unsignalled h

/-- A call of client 0 through the data window and one of client 1 by DMA, which comes to the
semaphore in the meantime, up to the end of the first one and the DMA operation. -/
def overlapping (call₀ call₁ : Call) : List Step :=
  .call 1 (.setConfig 1 configDMA SET) :: ticks 1 2 ++ .ret 1 ::
  .call 0 call₀ :: enteringChunk 0 ++ .call 1 call₁ :: enteringChunk 1 ++
  ticks 0 14 ++ .env .finish :: ticks 0 9 ++ ticks 1 13 ++ ticks 0 4

/-- Two clients with different keys encrypt two bytes each at the same time. -/
theorem clients_do_not_mix_overlapping :
    ∃ s w₀ w₁, (machine (.bytewise fun _ k x => x + UInt8.ofNat k)).Reaches
      (OwnStep id (fun x => x/100)) (start (World.boot (fun _ => 7) (fun _ => 0))) s ∧
      s.thr 0 = .run (.crypt false 0 5 2 0) w₀ (.ret 0) ∧
      s.thr 1 = .run (.crypt false 1 105 2 0) w₁ (.ret 0) ∧
      s.world.umem 6 = w₀.umem 6 + UInt8.ofNat (lastKey 0 (s.hist 0)) ∧
      s.world.umem 106 = w₁.umem 106 + UInt8.ofNat (lastKey 1 (s.hist 1)) := by
  obtain ⟨s,hr,_,hp⟩ := Machine.exists_reaches
    (M := machine (.bytewise fun _ k x => x + UInt8.ofNat k))
    (P := OwnStep id (fun x => x/100)) (n := 2) (b := homeStep)
    (p := fun s => s.returns 0 == some (.crypt false 0 5 2 0,0) &&
      s.returns 1 == some (.crypt false 1 105 2 0,0))
    (fun _ _ _ h => own_of_home h)
    (.call 0 (.setKey 0 0 3) :: ticks 0 2 ++ .ret 0 ::
      .call 1 (.setKey 1 0 5) :: ticks 1 2 ++ .ret 1 ::
      overlapping (.encrypt 0 5 2 0) (.encrypt 1 105 2 0) ++ .env .finish :: ticks 1 11)
    (start_quiet (World.boot (fun _ => 7) (fun _ => 0)) 2) (by decide +kernel)
  obtain ⟨hp₀,hp₁⟩ := Bool.and_eq_true_iff.mp hp
  obtain ⟨w₀,ht₀⟩ := Sys.returns_eq (eq_of_beq hp₀)
  obtain ⟨w₁,ht₁⟩ := Sys.returns_eq (eq_of_beq hp₁)
  exact ⟨s,w₀,w₁,hr,ht₀,ht₁,((clients_do_not_mix _ _ _ _ _ hr ht₀).1 rfl).1 6 (by decide),
    ((clients_do_not_mix _ _ _ _ _ hr ht₁).1 rfl).1 106 (by decide)⟩

/-- Decrypting what was encrypted, under the same key but any configurations of the
handles, gives back all of the client's memory. -/
theorem decrypt_undoes_encrypt (c : Cipher) (holder owner : Nat → Nat) (umem mem : Nat → Byte)
    (hc : ∀ k xs, 1 ≤ xs.length → xs.length ≤ BUFFERSIZE →
      c.run true k (c.run false k xs) = xs)
    {s₀ s : System} {t cdev cdev' addr length : Nat} (mid : List (Call × Int))
    (hr₀ : (machine c).Reaches (OwnStep holder owner) (start (World.boot umem mem)) s₀)
    (hr : (machine c).Reaches (OwnStep holder owner) s₀ s)
    (ht₀ : s₀.thr t = .idle) (ht : s.thr t = .idle)
    (hist : s.hist t = (.decrypt cdev' addr length 0,0) ::
      (mid ++ (.encrypt cdev addr length 0,0) :: s₀.hist t))
    (hmid : ∀ e ∈ mid, e.1.sets = true) (hlen : 1 ≤ length)
    (hkey : lastKey cdev' (mid ++ s₀.hist t) = lastKey cdev (s₀.hist t)) :
    (∀ x, Within addr length x → owner x = t) ∧
    ∀ x, owner x = t → s.world.umem x = s₀.world.umem x := by
  obtain ⟨g₀,hg₀⟩ := (clientOutline own_admits).reaches (client_start _ _ umem mem (fun _ h => h)) hr₀
  obtain ⟨m₀,hm₀,_,hg₀⟩ := rebase hg₀ ht₀ trivial
  obtain ⟨g,hg⟩ := (clientOutline own_admits).reaches hg₀ hr
  obtain ⟨m,hrec,hm,_⟩ := recall_idle hg ht trivial
  rw [Function.update_self,Function.update_self,hist] at hrec
  -- the three parts of the history, last one first
  obtain ⟨m₂,h₂,hin,hdec⟩ := hrec.last (by simp; omega)
  have h₁ := h₂.sets (by simp) hmid
  obtain ⟨m₁,h₁,_,henc⟩ := h₁.last (Nat.le_refl _)
  obtain rfl := h₁.at_base
  have henc := Crypts.um henc rfl rfl
  have hdec := Crypts.um hdec rfl rfl
  simp only [Call.config,Call.handle,configured_key] at henc hdec
  rw [lastKey_encrypt,hkey,henc,load_store_of_length (by simp [chunkMap_length]),
    chunkMap_leftInverse _ _ (c.run_length _ _) _ (hc _) _ BUFFERSIZE_pos (by simpa using hlen),
    store_store (by simp [chunkMap_length]),store_load] at hdec
  exact ⟨hin,fun x hx => by rw [hm x hx,hm₀ x hx,hdec]⟩

/-- A cipher that mixes up positions. -/
def reversing : Cipher := ⟨fun _ _ xs => xs.reverse,fun _ _ _ => List.length_reverse⟩

/-- Encrypt through the data window, switch to DMA, decrypt. -/
theorem decrypt_undoes_encrypt_across_modes :
    ∃ s, (machine reversing).Reaches (OwnStep (fun _ => 0) (fun _ => 0))
      (start (World.boot UInt8.ofNat (fun _ => 0))) s ∧
      s.hist 0 = [(.decrypt 0 5 2 0,0),(.setConfig 0 configDMA SET,0),(.encrypt 0 5 2 0,0)] ∧
      ∀ x, s.world.umem x = UInt8.ofNat x := by
  obtain ⟨s,hr,_,hp⟩ := Machine.exists_reaches (M := machine reversing)
    (P := OwnStep (fun _ => 0) (fun _ => 0)) (n := 1) (b := loneStep)
    (p := fun s => s.isIdle 0 && s.hist 0 ==
      [(.decrypt 0 5 2 0,0),(.setConfig 0 configDMA SET,0),(.encrypt 0 5 2 0,0)])
    (fun _ _ _ h => own_of_lone h)
    (.call 0 (.encrypt 0 5 2 0) :: polledChunk 0 ++ .ret 0 ::
      .call 0 (.setConfig 0 configDMA SET) :: ticks 0 2 ++ .ret 0 ::
      .call 0 (.decrypt 0 5 2 0) :: polledDma 0 ++ [.ret 0])
    (start_quiet (World.boot UInt8.ofNat (fun _ => 0)) 1) (by decide +kernel)
  obtain ⟨hi,hh⟩ := Bool.and_eq_true_iff.mp hp
  have hh := eq_of_beq hh
  have hdone := decrypt_undoes_encrypt reversing _ _ _ _
    (fun _ xs _ _ => List.reverse_reverse xs) [(.setConfig 0 configDMA SET,0)] .refl hr rfl
    (Sys.idle_of_isIdle hi) hh (by simp [Call.sets]) (by decide) rfl
  exact ⟨s,hr,hh,fun x => hdone.2 x rfl⟩

end CryptoCard
