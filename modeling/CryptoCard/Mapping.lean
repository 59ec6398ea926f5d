import CryptoCard.Alone
set_option autoImplicit false

/-! Clients that work in the mapped data window. -/
namespace CryptoCard
open Memory Chunks Program Interleave

/-- Follow the bytes of client `t`, and the window as its own. -/
def Tenancy.focus (T : Tenancy) (t : Nat) : Tenancy :=
  { T with tied := fun u => u = t, sole := fun u => u = t }

/-- The steps of client `t` as the only one; it may store to the mapped window. -/
def MappedStep (t : Nat) (s : System) : Step → Prop
  | .call u call => (∃ dev, call = .irq dev) ∨ (u = t ∧ call.isLibrary = true)
  | l => cutsShort s l = false

def soleTenancy (t : Nat) : Tenancy where
  holder _ := t
  owner _ := t
  active u := u = t
  mapper u := u = t
  tied _ := False
  sole _ := False

section
variable {T : Tenancy} {c : Cipher} {base : Nat → List (Call × Int)} {m₀ : Nat → Store}
variable {s : System} {g : Nat → View} {t : Nat}

/-- A client between two calls can be followed from here on. -/
theorem refocus (h : (clientAssertions T c base m₀).Holds s g) (ht : s.thr t = .idle)
    (hT : ∀ u, ¬ T.sole u) :
    ∃ g', (clientAssertions (T.focus t) c (Function.update base t (s.hist t))
      (Function.update m₀ t ⟨s.world.umem,s.world.card.mem⟩)).Holds s g' := by
  have hi := h.2 t
  rw [ht] at hi
  obtain ⟨hclean,hcfg,_⟩ := hi
  have hA := (h.1.sees t).of_free (.of_bar hclean.2.2)
  let v : View := { g t with um := s.world.umem, own := some s.world.card.mem }
  refine ⟨Function.update g t v,⟨?_,?_,fun u => ?_,fun u => ?_⟩,fun u => ?_⟩
  · refine h.1.sem.congr rfl rfl (fun u => ?_)
    by_cases hu : u = t
    · subst u
      rw [Function.update_self]
    · rw [Function.update_of_ne hu]
  · intro o ho
    obtain ⟨u,hu⟩ := h.1.running o ho
    have hut : u ≠ t := fun e => hu (e ▸ hclean.2.2)
    exact ⟨u,by rwa [Function.update_of_ne hut]⟩
  · by_cases hu : u = t
    · subst u
      rw [Function.update_self]
      refine .inl ⟨⟨hA.shape.jobs,hA.shape.buf,hA.shape.map,hA.shape.bar,hA.shape.dma⟩,
        fun _ => ⟨fun _ _ => rfl,?_,?_,?_⟩⟩
      · exact fun b xs hb => absurd (hclean.1.symm.trans hb) (by simp)
      · exact fun B hB => absurd (hclean.2.2.symm.trans hB) (by simp)
      · exact fun m hm _ => Option.some.inj hm
    · rw [Function.update_of_ne hu]
      have other {v : View} (hA : Agree T u v s.world) : Agree (T.focus t) u v s.world :=
        ⟨⟨hA.shape.jobs,hA.shape.buf,hA.shape.map,hA.shape.bar,hA.shape.dma⟩,
          fun htied => absurd htied hu⟩
      exact (h.1.sees u).imp other other
  · have hf := h.1.fits u
    by_cases hu : u = t
    · subst u
      rw [Function.update_self]
      exact ⟨hf.file,hf.range,hf.active,hf.mapper,hf.bar,fun _ _ => rfl⟩
    · rw [Function.update_of_ne hu]
      exact ⟨hf.file,hf.range,hf.active,hf.mapper,hf.bar,
        fun m hm => absurd (hf.own m hm) (hT u)⟩
  · by_cases hu : u = t
    · subst u
      rw [Function.update_self,ht]
      refine ⟨hclean,hcfg,s.world.card.mem,?_,fun _ _ => rfl⟩
      rw [Function.update_self,Function.update_self]
      exact .start
    · have hi := h.2 u
      rw [Function.update_of_ne hu]
      have other {hs : List (Call × Int)} {v : View} (hrec : v.Recalls T c base m₀ u hs) :
          v.Recalls (T.focus t) c (Function.update base t (s.hist t))
            (Function.update m₀ t ⟨s.world.umem,s.world.card.mem⟩) u hs := by
        obtain ⟨win,hrec,_⟩ := hrec
        refine ⟨win,?_,fun hs => absurd hs hu⟩
        rw [Function.update_of_ne hu,Function.update_of_ne hu]
        exact hrec
      cases hs : s.thr u with
      | idle =>
        rw [hs] at hi
        exact ⟨hi.1,hi.2.1,other hi.2.2⟩
      | run call w₀ p =>
        rw [hs] at hi
        obtain ⟨γ₀,⟨hcall,hcfg,hrec,hallow,_⟩,hlink,hw⟩ := hi
        exact ⟨γ₀,⟨hcall,hcfg,other hrec,⟨hallow.kind,hallow.handle,hallow.range,hallow.active,
          hallow.mapper⟩,fun htied => absurd htied hu,fun hs => absurd hs hu⟩,hlink,hw⟩
      | dead =>
        rw [hs] at hi
        exact hi.elim

end

theorem sole_admits {t : Nat} : Admits ((soleTenancy t).focus t) (MappedStep t) where
  call {s u call} hp := by
    obtain ⟨dev,rfl⟩ | ⟨rfl,hlib⟩ := hp
    · exact ⟨.inr ⟨dev,rfl⟩,(fun f hf => by cases hf),fun x hx => absurd hx.2 (Nat.not_lt_zero _),
        fun h => absurd rfl h,(fun hm => by cases hm)⟩
    · exact ⟨.inl hlib,fun _ _ => rfl,fun _ _ => rfl,fun _ => rfl,fun _ => rfl⟩
  signal {s l} hp := by
    cases l with
    | call u call => rfl
    | _ => exact hp
  mapper hm hu := Eq.trans hu (Eq.symm hm)
  sole _ hs _ := .inl (fun u hu => Eq.trans hu (Eq.symm hs))

/-- What encrypt and decrypt of a mapped buffer do to the card's memory. -/
def windowAfter (c : Cipher) (d : Bool) (key length : Nat) (m : Nat → Byte) : Nat → Byte :=
  chunkFold (fun n m => store m r1Start (c.run d key (load m r1Start n))) BUFFERSIZE length m

/-- Only the first chunk of the window is ever touched. -/
theorem windowAfter_outside (c : Cipher) (d : Bool) (key length : Nat) (m : Nat → Byte) {x : Nat}
    (hx : ¬ Within r1Start BUFFERSIZE x) : windowAfter c d key length m x = m x := by
  have hout {n : Nat} (m : Nat → Byte) (hn : n ≤ BUFFERSIZE) :
      store m r1Start (c.run d key (load m r1Start n)) x = m x := by
    refine store_outside _ _ _ _ (fun hin => hx ⟨hin.1,?_⟩)
    have hlt := hin.2
    rw [c.run_length,load_length] at hlt
    omega
  unfold windowAfter
  induction length using Nat.strongRecOn generalizing m with
  | ind length ih =>
    by_cases hl : length ≤ BUFFERSIZE
    · rw [chunkFold_short _ _ _ _ hl]
      exact hout m hl
    · rw [chunkFold_long _ _ _ _ BUFFERSIZE_pos (by omega)]
      rw [ih (length-BUFFERSIZE) (by have := BUFFERSIZE_pos; omega)]
      exact hout m (Nat.le_refl _)

theorem windowAfter_short {f : Bool → Nat → Byte → Byte} {d : Bool} {key length : Nat}
    {m : Nat → Byte} (hl : length ≤ BUFFERSIZE) :
    windowAfter (.bytewise f) d key length m =
      store m r1Start ((load m r1Start length).map (f d key)) :=
  chunkFold_short _ _ _ _ hl

section
variable {c : Cipher} {t : Nat} {s : System} {umem mem : Nat → Byte}

/-- The window when a mapped call of the only client has come to its end with result 0. -/
theorem mapped_done (hr : (machine c).Reaches (MappedStep t) (start (World.boot umem mem)) s)
    {d : Bool} {cdev addr length : Nat} {isMapped : Byte} {w₀ : World} (hm : isMapped ≠ 0)
    (ht : s.thr t = .run (.crypt d cdev addr length isMapped) w₀ (.ret 0)) :
    s.world.card.mem = windowAfter c d (lastKey cdev (s.hist t)) length w₀.card.mem := by
  obtain ⟨g₀,hg₀⟩ := refocus (t := t)
    (client_start (soleTenancy t) c umem mem (fun _ h => h)) rfl (fun _ h => h)
  obtain ⟨g,hg⟩ := (clientOutline sole_admits).reaches hg₀ hr
  obtain ⟨_,m,m',hacts,_,hm₀,_,hm'⟩ := acts_done hg ht rfl
  rw [hm' rfl,hm₀ rfl,← configured_key]
  cases d with
  | true => exact Crypts.win hacts hm rfl
  | false => exact Crypts.win hacts hm rfl

end

/-- A mapped encrypt or decrypt of the `length` bytes at offset `a` of the card's memory
does to them what an ordinary one does to a buffer of the same bytes, and leaves the
rest of the card's memory alone. `base` is where the card's memory is mapped. -/
def Mirrors (a length : Nat) : Prop :=
  ∀ (f : Bool → Nat → Byte → Byte) (umem mem : Nat → Byte) (t : Nat) (s : System) (d : Bool)
    (cdev base : Nat) (w₀ : World),
    (machine (.bytewise f)).Reaches (MappedStep t) (start (World.boot umem mem)) s →
    s.thr t = .run (.crypt d cdev (base+a) length 1) w₀ (.ret 0) →
    (∀ x, ¬ Within a length x → s.world.card.mem x = w₀.card.mem x) ∧
    ∀ (holder owner : Nat → Nat) (umem' mem' : Nat → Byte) (t' : Nat) (s' : System)
      (cdev' buf : Nat) (w₀' : World),
      (machine (.bytewise f)).Reaches (OwnStep holder owner) (start (World.boot umem' mem')) s' →
      s'.thr t' = .run (.crypt d cdev' buf length 0) w₀' (.ret 0) →
      lastKey cdev' (s'.hist t') = lastKey cdev (s.hist t) →
      load w₀'.umem buf length = load w₀.card.mem a length →
      load s.world.card.mem a length = load s'.world.umem buf length

/-- The window's start in one chunk. -/
theorem mirrors_start {length : Nat} (hl : length ≤ BUFFERSIZE) : Mirrors r1Start length := by
  intro f umem mem t s d cdev base w₀ hr ht
  have hwin := mapped_done hr (by decide) ht
  rw [windowAfter_short hl] at hwin
  refine ⟨fun x hx => ?_,?_⟩
  · rw [hwin,store_outside _ _ _ _ (by simpa using hx)]
  · intro holder owner umem' mem' t' s' cdev' buf w₀' hr' ht' hkey hsame
    obtain ⟨g,hg⟩ := (clientOutline own_admits).reaches
      (client_start _ _ umem' mem' (fun _ h => h)) hr'
    obtain ⟨hbuf,_⟩ := crypt_done hg ht' trivial
    have hord : load s'.world.umem buf length =
        (load w₀'.umem buf length).map (f d (lastKey cdev' (s'.hist t'))) := by
      rw [load_map]
      exact load_congr (fun x hx => hbuf x hx)
    rw [hwin,load_store_of_length (by simp),hord,hkey,hsame]

/-- A byte that is counted up. -/
def increment : Cipher := .bytewise fun _ _ x => x+1

theorem exists_mapped (addr : Nat) {length : Nat} (hl : 0 < length) :
    ∃ s, (machine increment).Reaches (MappedStep 0)
      (start (World.boot (fun _ => 0) (fun _ => 0))) s ∧
      s.thr 0 = .run (.crypt false 0 addr length 1) (World.boot (fun _ => 0) (fun _ => 0))
        (.ret 0) ∧ s.hist 0 = [] :=
  exists_crypt increment false 0 0 addr 1 _ _ hl (fun _ => .inr ⟨rfl,rfl⟩)
    (fun _ _ h => cutsShort_of_calm h) (fun _ _ => rfl)

/-- A call for bytes further on transforms those at the window's start instead. -/
theorem not_mirrors_of_offset {a length : Nat} (hpos : 1 ≤ length) (ha : r1Start < a)
    (hl : length ≤ BUFFERSIZE) : ¬ Mirrors a length := by
  intro h
  obtain ⟨s,hr,ht,hh⟩ := exists_mapped (0+a) hpos
  have hwin := mapped_done hr (by decide) ht
  have hkept := (h _ _ _ 0 s false 0 0 _ hr ht).1 r1Start (fun hin => by have := hin.1; omega)
  rw [hwin,increment,windowAfter_short hl,
    store_map _ _ _ _ _ ⟨Nat.le_refl _,by omega⟩] at hkept
  exact absurd hkept (by decide)

/-- A call for more than one chunk transforms the first one again and again. -/
theorem not_mirrors_of_long {a length : Nat} (ha : r1Start ≤ a) (hl : BUFFERSIZE < length) :
    ¬ Mirrors a length := by
  intro h
  obtain ⟨s,hr,ht,hh⟩ := exists_mapped (0+a) (Nat.zero_lt_of_lt hl)
  obtain ⟨s',hr',ht',hh'⟩ := exists_own increment a (fun _ => 0) (fun _ => 0)
    (Nat.zero_lt_of_lt hl)
  have hwin := mapped_done hr (by decide) ht
  have hsame := (h _ _ _ 0 s false 0 0 _ hr ht).2 _ _ _ _ 0 s' 0 a _ hr' ht'
    (by rw [hh,hh']) rfl
  obtain ⟨g,hg⟩ := (clientOutline own_admits).reaches (client_start _ _ _ _ (fun _ h => h)) hr'
  -- the last byte lies behind the first chunk of the window
  have hlast : Within a length (a+(length-1)) := ⟨by omega,by omega⟩
  have hord := (crypt_done hg ht' trivial).1 _ hlast
  have hout : ¬ Within r1Start BUFFERSIZE (a+(length-1)) := fun hin => by
    have := hin.2
    omega
  have hi := congrArg (fun xs => xs[length-1]?) hsame
  simp only [load_getElem? _ _ _ _ (show length-1 < length by omega),Option.some.injEq] at hi
  rw [hord,hwin,windowAfter_outside _ _ _ _ _ hout] at hi
  exact absurd hi (show (0 : Byte) ≠ 0+1 by decide)

/-- A mapped call agrees with an ordinary one exactly at the start of the window and for
one chunk at most. -/
theorem mirrors_iff {a length : Nat} (hpos : 1 ≤ length) (ha : r1Start ≤ a) :
    Mirrors a length ↔ a = r1Start ∧ length ≤ BUFFERSIZE := by
  constructor
  · intro h
    have hl : length ≤ BUFFERSIZE := by
      by_contra hl
      exact not_mirrors_of_long ha (by omega) h
    refine ⟨?_,hl⟩
    by_contra hne
    exact not_mirrors_of_offset hpos (by omega) hl h
  · rintro ⟨rfl,hl⟩
    exact mirrors_start hl

theorem mirrors_at_start : Mirrors r1Start 16 :=
  (mirrors_iff (by decide) (Nat.le_refl _)).mpr ⟨rfl,by decide⟩

/-- The second byte of the window alone. -/
theorem mirrors_fails :
    ¬ ∀ a length, 1 ≤ length → r1Start ≤ a → a+length ≤ r1End+1 → Mirrors a length := by
  intro h
  exact not_mirrors_of_offset (Nat.le_refl 1) (Nat.lt_succ_self r1Start) (by decide)
    (h (r1Start+1) 1 (Nat.le_refl 1) (Nat.le_succ _) (by decide))

/-- The steps of any number of clients with handles of their own, of which `M` stores to
the mapped window. -/
def SharedStep (holder owner : Nat → Nat) (M : Nat) (s : System) : Step → Prop
  | .call t call => call.Own holder owner t ∨ (t = M ∧ ∃ off xs, call = .mapStore off xs)
  | l => cutsShort s l = false

def sharedTenancy (holder owner : Nat → Nat) (M : Nat) : Tenancy where
  holder := holder
  owner := owner
  active _ := True
  mapper u := u = M
  tied _ := False
  sole _ := False

/-- The card's memory after a client's own stores to the window. -/
def stored (m : Nat → Byte) : List (Call × Int) → (Nat → Byte)
  | [] => m
  | (.mapStore off xs,_) :: hs => store (stored m hs) off xs
  | _ :: hs => stored m hs

/-- A call that does not use the card. -/
def Call.plain : Call → Bool
  | .setKey _ _ _ | .setConfig _ _ _ | .store _ _ | .mapStore _ _ | .irq _ => true
  | _ => false

theorem Recall.stored {c : Cipher} {mine : Nat → Prop} {base mid : List (Call × Int)}
    {m₀ m : Store} (h : Recall c mine base m₀ (mid ++ base) m)
    (hmid : ∀ e ∈ mid, e.1.plain = true) : m.win = CryptoCard.stored m₀.win mid := by
  induction mid generalizing m with
  | nil => rw [h.at_base]; rfl
  | cons e mid ih =>
    obtain ⟨call,r⟩ := e
    obtain ⟨m',h',_,ha⟩ := h.last (by simp)
    have hwin := ih h' (fun e he => hmid e (List.mem_cons_of_mem _ he))
    have hplain := hmid (call,r) List.mem_cons_self
    cases call with
    | setKey f a b => rw [ha.2,hwin]; rfl
    | setConfig f type value => rw [ha.2,hwin]; rfl
    | store addr xs => rw [ha]; exact hwin
    | mapStore off xs => rw [ha]; simp only [CryptoCard.stored,hwin]
    | irq dev => rw [ha,hwin]; rfl
    | _ => cases hplain

section
variable {holder owner : Nat → Nat} {M : Nat}

theorem shared_allowed {T : Tenancy} (hh : T.holder = holder) (ho : T.owner = owner)
    (ha : ∀ t, T.active t) (hm : T.mapper M) {t : Nat} {call : Call}
    (h : call.Own holder owner t ∨ (t = M ∧ ∃ off xs, call = .mapStore off xs)) :
    call.Allowed T t := by
  obtain h | ⟨rfl,off,xs,rfl⟩ := h
  · obtain ⟨hkind,hhandle,hrange,_,hmapper⟩ := h.allowed
    exact ⟨hkind,hh ▸ hhandle,ho ▸ hrange,fun _ => ha t,fun h => (hmapper h).elim⟩
  · exact ⟨.inl rfl,(fun f hf => by cases hf),fun x hx => absurd hx.2 (Nat.not_lt_zero _),
      fun _ => ha _,fun _ => hm⟩

theorem shared_signal {s : System} {l : Step} (h : SharedStep holder owner M s l) :
    cutsShort s l = false := by
  cases l with
  | call t call => rfl
  | _ => exact h

theorem shared_admits : Admits (sharedTenancy holder owner M) (SharedStep holder owner M) where
  call hp := shared_allowed rfl rfl (fun _ => trivial) rfl hp
  signal := shared_signal
  mapper _ h := h.elim
  sole _ h := h.elim

theorem spared_admits : Admits ((sharedTenancy holder owner M).focus M)
    (fun s l => SharedStep holder owner M s l ∧ Spared M s l) where
  call hp := shared_allowed rfl rfl (fun _ => trivial) rfl hp.1
  signal hp := shared_signal hp.1
  mapper hm hu := Eq.trans hu (Eq.symm hm)
  sole hp hu _ := .inr (hu ▸ hp.2)

end

/-- As long as the other clients leave the window alone from its first store to its last
load, a mapped client reads the transformation of what it stored. -/
theorem mapped_client_keeps_data (c : Cipher) (holder owner : Nat → Nat) (M : Nat)
    (umem mem : Nat → Byte) {s₀ s : System}
    (hr₀ : (machine c).Reaches (SharedStep holder owner M) (start (World.boot umem mem)) s₀)
    (hr : (machine c).Reaches (fun s l => SharedStep holder owner M s l ∧ Spared M s l) s₀ s)
    (ht₀ : s₀.thr M = .idle) (ht : s.thr M = .idle) {d : Bool} {cdev addr length : Nat}
    {isMapped : Byte} (mid : List (Call × Int)) (hmid : ∀ e ∈ mid, e.1.plain = true)
    (hist : s.hist M = (.crypt d cdev addr length isMapped,0) :: (mid ++ s₀.hist M))
    (hm : isMapped ≠ 0) (hl : length ≤ BUFFERSIZE) :
    load s.world.card.mem r1Start length =
      c.run d (lastKey cdev (mid ++ s₀.hist M))
        (load (stored s₀.world.card.mem mid) r1Start length) := by
  obtain ⟨g₁,hg₁⟩ := (clientOutline shared_admits).reaches
    (client_start _ _ umem mem (fun _ h => h)) hr₀
  obtain ⟨g₀,hg₀⟩ := refocus hg₁ ht₀ (fun _ h => h)
  obtain ⟨g,hg⟩ := (clientOutline spared_admits).reaches hg₀ hr
  obtain ⟨m,hrec,_,hwin⟩ := recall_idle hg ht rfl
  rw [Function.update_self,Function.update_self,hist] at hrec
  obtain ⟨m₁,h₁,_,hacts⟩ := hrec.last (by simp)
  have hstored := h₁.stored hmid
  have hdone : m.win = store m₁.win r1Start
      (c.run d (lastKey cdev (mid ++ s₀.hist M)) (load m₁.win r1Start length)) := by
    rw [← configured_key]
    cases d with
    | true => exact (Crypts.win hacts hm rfl).trans (chunkFold_short _ _ _ _ hl)
    | false => exact (Crypts.win hacts hm rfl).trans (chunkFold_short _ _ _ _ hl)
  rw [hwin rfl,hdone,load_store_of_length (by simp),hstored]

/-- encrypt or decrypt of one mapped chunk, polling. -/
def mappedChunk (t : Nat) : List Step :=
  ticks t 9 ++ .act t (.value 0) :: ticks t 13 ++ .env .finish :: ticks t 5

/-- Client 0 stores to the window and has it encrypted; client 1 may encrypt its byte. -/
def twoClients (_ : System) : Step → Bool
  | .call t call => (t == 0 && (call == .mapStore r1Start [1] || call == .encrypt 0 0 1 1)) ||
      (t == 1 && call == .encrypt 1 1 1 0)
  | .act _ x => match x with | .signal => false | _ => true
  | .ret _ | .env _ => true

theorem shared_of_twoClients {s : System} {l : Step} (h : twoClients s l = true) :
    SharedStep id id 0 s l := by
  cases l with
  | call t call =>
    simp only [twoClients,Bool.or_eq_true,Bool.and_eq_true,beq_iff_eq] at h
    obtain ⟨rfl,rfl | rfl⟩ | ⟨rfl,rfl⟩ := h
    · exact .inr ⟨rfl,_,_,rfl⟩
    · exact .inl ⟨rfl,fun h => absurd h (by decide)⟩
    · exact .inl ⟨rfl,fun _ x hx => by unfold Within at hx; simp only [id_eq]; omega⟩
  | act t x => cases x <;> first | rfl | cases h
  | _ => rfl

/-- A step of two clients at home, of which client 0 may store to the window; client 1 copies
nothing there, and its operations are DMA operations. -/
def sparingStep (s : System) : Step → Bool
  | .call t call => call.atHome t || (t == 0 && call == .mapStore r1Start [1])
  | .act t x => unsignalled (.act t x) &&
      (t == 0 || match s.next t with | some (.memcpyToio _ _) => false | _ => true)
  | .env .finish => decide (0 ∈ s.world.holders) || s.world.card.op.all (fun o => o.kind != .mmio)
  | .ret _ | .env _ => true

theorem shared_of_sparing {s : System} {l : Step} (h : sparingStep s l = true) :
    SharedStep id (fun x => x/100) 0 s l ∧ Spared 0 s l := by
  cases l with
  | call t call =>
    refine ⟨?_,trivial⟩
    obtain h | h := Bool.or_eq_true_iff.mp h
    · exact .inl (Call.own_of_atHome h)
    · obtain ⟨ht,hc⟩ := Bool.and_eq_true_iff.mp h
      exact .inr ⟨eq_of_beq ht,_,_,eq_of_beq hc⟩
  | act t x =>
    obtain ⟨hx,hs⟩ := Bool.and_eq_true_iff.mp h
    refine ⟨cutsShort_of_unsignalled hx,?_⟩
    obtain ht | hn := Bool.or_eq_true_iff.mp hs
    · exact .inl (eq_of_beq ht)
    · refine .inr (fun p n e => ?_)
      rw [e] at hn
      cases hn
  | ret t => exact ⟨rfl,trivial⟩
  | env e =>
    refine ⟨rfl,?_⟩
    cases e with
    | finish =>
      obtain h | h := Bool.or_eq_true_iff.mp h
      · exact .inl (of_decide_eq_true h)
      · refine .inr (fun o ho hk => ?_)
        rw [ho,Option.all_some,hk] at h
        cases h
    | raise => trivial

/-- Client 1 encrypts by DMA, once between the store and the call of client 0 and once
between the call and the load, and waits for the semaphore while client 0 has it. -/
theorem mapped_client_keeps_data_between :
    ∃ s, (machine increment).Reaches (fun s l => SharedStep id (fun x => x/100) 0 s l ∧ Spared 0 s l)
      (start (World.boot (fun _ => 7) (fun _ => 0))) s ∧
      s.hist 0 = [(.encrypt 0 0 1 1,0),(.mapStore r1Start [1],0)] ∧
      s.hist 1 = [(.encrypt 1 100 1 0,0),(.encrypt 1 100 1 0,0),(.setConfig 1 configDMA SET,0)] ∧
      load s.world.card.mem r1Start 1 = [2] := by
  obtain ⟨s,hr,_,hp⟩ := Machine.exists_reaches (M := machine increment)
    (P := fun s l => SharedStep id (fun x => x/100) 0 s l ∧ Spared 0 s l) (n := 2)
    (b := sparingStep)
    (p := fun s => s.isIdle 0 &&
      s.hist 0 == [(.encrypt 0 0 1 1,0),(.mapStore r1Start [1],0)] &&
      s.hist 1 == [(.encrypt 1 100 1 0,0),(.encrypt 1 100 1 0,0),(.setConfig 1 configDMA SET,0)])
    (fun _ _ _ h => shared_of_sparing h)
    (.call 1 (.setConfig 1 configDMA SET) :: ticks 1 2 ++ .ret 1 ::
      .call 0 (.mapStore r1Start [1]) :: ticks 0 1 ++ .ret 0 ::
      .call 1 (.encrypt 1 100 1 0) :: enteringChunk 1 ++ ticks 1 13 ++
      .call 0 (.encrypt 0 0 1 1) :: ticks 0 9 ++ .act 0 (.value 0) :: ticks 0 2 ++
      .env .finish :: ticks 1 11 ++ .ret 1 :: .call 1 (.encrypt 1 100 1 0) :: enteringChunk 1 ++
      ticks 0 11 ++ .env .finish :: ticks 0 5 ++ .ret 0 ::
      ticks 1 13 ++ .env .finish :: ticks 1 11 ++ [.ret 1])
    (start_quiet (World.boot (fun _ => 7) (fun _ => 0)) 2) (by decide +kernel)
  obtain ⟨hp,hh₁⟩ := Bool.and_eq_true_iff.mp hp
  obtain ⟨hi,hh⟩ := Bool.and_eq_true_iff.mp hp
  have hh := eq_of_beq hh
  have hist : s.hist 0 =
      (.crypt false 0 0 1 1,0) :: ([(.mapStore r1Start [1],0)] ++ []) := hh
  have hload := mapped_client_keeps_data increment id (fun x => x/100) 0 _ _ .refl hr rfl
    (Sys.idle_of_isIdle hi) [(.mapStore r1Start [1],0)] (by simp [Call.plain]) hist (by decide)
    (by decide)
  exact ⟨s,hr,hh,eq_of_beq hh₁,hload.trans (by decide +kernel)⟩

/-- Client 1 encrypts its byte between the store and the call of client 0, which then
finds the byte of client 1 in the window, encrypted twice. -/
theorem mapped_client_keeps_data_fails :
    ¬ ∀ (c : Cipher) (holder owner : Nat → Nat) (M : Nat) (umem mem : Nat → Byte)
      (s₀ s : System) (d : Bool) (cdev addr length : Nat) (isMapped : Byte)
      (mid : List (Call × Int)),
      (machine c).Reaches (SharedStep holder owner M) (start (World.boot umem mem)) s₀ →
      (machine c).Reaches (SharedStep holder owner M) s₀ s →
      s₀.thr M = .idle → s.thr M = .idle → (∀ e ∈ mid, e.1.plain = true) →
      s.hist M = (.crypt d cdev addr length isMapped,0) :: (mid ++ s₀.hist M) →
      isMapped ≠ 0 → length ≤ BUFFERSIZE →
      load s.world.card.mem r1Start length =
        c.run d (lastKey cdev (mid ++ s₀.hist M))
          (load (stored s₀.world.card.mem mid) r1Start length) := by
  intro h
  obtain ⟨s,hr,_,hp⟩ := Machine.exists_reaches (M := machine increment)
    (P := SharedStep id id 0) (n := 2) (b := twoClients)
    (p := fun s => s.isIdle 0 && s.world.card.mem r1Start == 9 &&
      s.hist 0 == [(.encrypt 0 0 1 1,0),(.mapStore r1Start [1],0)])
    (fun _ _ _ h => shared_of_twoClients h)
    (.call 0 (.mapStore r1Start [1]) :: ticks 0 1 ++ .ret 0 ::
      .call 1 (.encrypt 1 1 1 0) :: polledChunk 1 ++
      .call 0 (.encrypt 0 0 1 1) :: mappedChunk 0 ++ [.ret 0])
    (start_quiet (World.boot (fun _ => 7) (fun _ => 0)) 2) (by decide +kernel)
  simp only [Bool.and_eq_true,beq_iff_eq] at hp
  obtain ⟨⟨hi,hmem⟩,hh⟩ := hp
  have hload := h increment id id 0 _ _ _ s false 0 0 1 1 [(.mapStore r1Start [1],0)] .refl hr rfl
    (Sys.idle_of_isIdle hi) (by simp [Call.plain]) hh (by decide) (by decide)
  have hbyte := congrArg (fun xs => xs[0]?) hload
  rw [load_getElem? _ _ _ _ Nat.one_pos,Nat.add_zero,hmem] at hbyte
  exact absurd hbyte (by decide +kernel)

end CryptoCard
