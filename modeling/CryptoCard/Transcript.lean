import CryptoCard.OwnHandles
import CryptoCard.Lock
import CryptoCard.Draining
set_option autoImplicit false

/-! What a client's memory holds at any time, errors and calls in progress included: what
the calls it has made leave, one after the other. -/
namespace CryptoCard
open Memory Chunks Program Interleave

/-- The memory `m` once the card has replaced the first `n` of `length` bytes, chunk by
chunk. -/
def swept (c : Cipher) (d : Bool) (key addr length n : Nat) (m : Nat → Byte) : Nat → Byte :=
  store m addr ((chunkMap (c.run d key) BUFFERSIZE (load m addr length)).take n)

/-- What encrypt and decrypt leave of user memory `m` when they return `r`: all bytes
replaced, or those up to an error. -/
def Sweeps (c : Cipher) (d : Bool) (key addr length : Nat) (isMapped : Byte) (r : Int)
    (m m' : Nat → Byte) : Prop :=
  if isMapped = 0 then ∃ n, n ≤ length ∧ (r = 0 ∧ n = length ∨ r = ERROR) ∧
    m' = swept c d key addr length n m
  else m' = m

/-- What a call of a client leaves of its memory. -/
def Call.Leaves (c : Cipher) (key : Nat) (r : Int) (m m' : Nat → Byte) : Call → Prop
  | .encrypt _ addr length isMapped => Sweeps c false key addr length isMapped r m m'
  | .decrypt _ addr length isMapped => Sweeps c true key addr length isMapped r m m'
  | .store addr xs => m' = Memory.store m addr xs
  | .setKey _ _ _ | .setConfig _ _ _ | .irq _ | .mapStore _ _ => m' = m
  | .write _ _ _ | .ioctl _ _ _ => False

/-- The key last set on the handle of a call. -/
def Call.key (hs : List (Call × Int)) (call : Call) : Nat :=
  (call.handle.map (fun f => lastKey f hs)).getD 0

/-- What the calls of a history, last one first, leave of the memory `m₀`. -/
inductive Transcript (c : Cipher) (m₀ : Nat → Byte) : List (Call × Int) → (Nat → Byte) → Prop where
  | start : Transcript c m₀ [] m₀
  | call {hs : List (Call × Int)} {m m' : Nat → Byte} {call : Call} {r : Int} :
      Transcript c m₀ hs m → call.Leaves c (call.key hs) r m m' →
      Transcript c m₀ ((call,r) :: hs) m'

section
variable {c : Cipher} {d : Bool} {key addr length n : Nat} {m m' : Nat → Byte}

theorem swept_congr (h : ∀ x, Within addr length x → m x = m' x) {x : Nat} (hx : m x = m' x) :
    swept c d key addr length n m x = swept c d key addr length n m' x := by
  rw [swept,swept,load_congr h]
  simp only [store,hx]

/-- A chunk of which `k` bytes have come back. -/
theorem chunk_swept (c : Cipher) (d : Bool) (key addr length k : Nat) (m : Nat → Byte) :
    ∃ n, n ≤ length ∧ (length ≤ BUFFERSIZE → length ≤ k → n = length) ∧
      store m addr ((c.run d key (load m addr (min length BUFFERSIZE))).take k) =
        swept c d key addr length n m := by
  have hchunk : c.run d key (load m addr (min length BUFFERSIZE)) =
      (chunkMap (c.run d key) BUFFERSIZE (load m addr length)).take BUFFERSIZE := by
    by_cases hl : BUFFERSIZE < length
    · rw [chunkMap_long _ _ _ BUFFERSIZE_pos (by simpa using hl),
        List.take_left' (by rw [c.run_length,List.length_take,load_length]; omega),
        load_take _ _ _ _ (Nat.le_of_lt hl),Nat.min_eq_right (Nat.le_of_lt hl)]
    · rw [chunkMap_short _ _ _ (by rw [load_length]; omega),Nat.min_eq_left (by omega),
        List.take_of_length_le (by rw [c.run_length,load_length]; omega)]
  refine ⟨min (min k BUFFERSIZE) length,Nat.min_le_right _ _,by omega,?_⟩
  rw [hchunk,List.take_take,swept,List.take_eq_take_min,
    chunkMap_length _ (c.run_length _ _),load_length]

/-- The bytes after a first chunk that is done. -/
theorem swept_next (hl : BUFFERSIZE < length)
    (hm : m' = store m addr (c.run d key (load m addr BUFFERSIZE))) :
    swept c d key (addr+BUFFERSIZE) (length-BUFFERSIZE) n m' =
      swept c d key addr length (BUFFERSIZE+n) m := by
  have hxs : load m' (addr+BUFFERSIZE) (length-BUFFERSIZE) =
      (load m addr length).drop BUFFERSIZE := by
    rw [load_drop _ _ _ _ (Nat.le_of_lt hl),hm]
    refine load_store_disjoint _ _ _ _ _ (fun x hx => ?_)
    simp only [Within,c.run_length,load_length] at hx ⊢
    omega
  have hlen : (c.run d key ((load m addr length).take BUFFERSIZE)).length = BUFFERSIZE := by
    rw [c.run_length,List.length_take,load_length]
    omega
  have htake (ys : List Byte) :
      (c.run d key ((load m addr length).take BUFFERSIZE) ++ ys).take (BUFFERSIZE+n) =
        c.run d key ((load m addr length).take BUFFERSIZE) ++ ys.take n := by
    have h : (c.run d key ((load m addr length).take BUFFERSIZE) ++ ys).take
        ((c.run d key ((load m addr length).take BUFFERSIZE)).length+n) =
          c.run d key ((load m addr length).take BUFFERSIZE) ++ ys.take n :=
      List.take_length_add_append n
    rwa [hlen] at h
  rw [swept,swept,hxs,chunkMap_long _ _ (load m addr length) BUFFERSIZE_pos (by simpa using hl),
    htake,store_append,hlen,load_take _ _ _ _ (Nat.le_of_lt hl),hm]

end

namespace View

section
variable {c : Cipher} {f addr length : Nat} {v : View}

/-- The chunks are done one after the other, up to an error. -/
theorem cryptLoop_swept {fuel : Nat} (hr : Ready f v) (hfuel : length / BUFFERSIZE < fuel)
    (hm : v.want.mapped = false) (hc : v.Covers addr length) :
    wp (viewing c) (cryptLoop f fuel addr length)
      (fun r v' => Sweeps c v.want.decrypt v.want.key addr length 0 r v.um v'.um) v := by
  unfold Sweeps
  simp only [if_true]
  induction fuel generalizing addr length v with
  | zero => exact absurd hfuel (Nat.not_lt_zero _)
  | succ fuel ih =>
    rw [cryptLoop_succ]
    have hfirst : wp (viewing c) (sysWrite f addr (min length BUFFERSIZE))
        (Wrote c f addr (min length BUFFERSIZE) v) v :=
      wp_mono (fun _ _ h => h.1) (sysWrite_view hr (Nat.min_le_right _ _)
        (fun _ => ⟨hc.1,by have := hc.2; omega⟩))
    have hsize : (if length > BUFFERSIZE then BUFFERSIZE else length) = min length BUFFERSIZE := by
      split <;> omega
    simp only [hsize,wp_bind]
    refine wp_mono (fun r v₁ hw => ?_) hfirst
    obtain ⟨k,hum,hk,_⟩ := hw.um
    obtain ⟨n,hn,hall,hsw⟩ :=
      chunk_swept c v.want.decrypt v.want.key addr length k v.um
    have hum : v₁.um = swept c v.want.decrypt v.want.key addr length n v.um := hum.trans hsw
    rw [wp_ite]
    refine ⟨fun _ => ⟨n,hn,.inr rfl,hum⟩,fun hr0 => ?_⟩
    obtain rfl : r = 0 := not_not.mp hr0
    have hk := hk hm rfl
    by_cases hl : length > BUFFERSIZE
    · have hmin : min length BUFFERSIZE = BUFFERSIZE := Nat.min_eq_right (Nat.le_of_lt hl)
      rw [if_pos hl,if_pos (by omega),hmin]
      rw [hmin] at hw
      have hum := hw.um_eq hm
      refine wp_mono ?_ (ih (hr.of_wrote hw) (by have := div_BUFFERSIZE hl; omega)
        (by rw [hw.link.want]; exact hm)
        ⟨by have := hc.1; rw [hw.link.lo]; omega,
          by have := hc.2; rw [hw.link.lo,hw.link.size]; omega⟩)
      rintro r v₂ ⟨n',hn',hres,hsw'⟩
      rw [hw.link.want,swept_next hl hum] at hsw'
      exact ⟨BUFFERSIZE+n',by omega,hres.imp_left (fun h => ⟨h.1,by omega⟩),hsw'⟩
    · rw [if_neg hl,if_neg (by omega)]
      refine ⟨length,Nat.le_refl _,.inl ⟨rfl,rfl⟩,?_⟩
      rwa [hall (by omega) (by omega)] at hum

/-- What the calls of a client do to its own memory. -/
theorem code_leaves {call : Call} (hlib : call.isLibrary = true ∨ ∃ dev, call = .irq dev)
    (h : Calling call v) :
    wp (viewing c) call.code (fun r v' => call.Leaves c v.want.key r v.um v'.um) v := by
  have hview := code_view (c := c) hlib h
  have hcrypt (d : Bool) (value : Byte) {isMapped : Byte} {f addr length : Nat}
      (hv : value = 50 ∨ value = 60) (hd : (value == 60) = d) (hclient : v.role = .client)
      (hf : v.file = some f) (hlo : v.lo = addr) (hsize : v.size = length)
      (hw : v.want = (v.jobs f).config.setting d isMapped) (hm : isMapped = 0) :
      wp (viewing c) (crypt value f addr length isMapped)
        (fun r v' => Sweeps c d v.want.key addr length isMapped r v.um v'.um) v := by
    subst hm hd
    have hdec : v.want.decrypt = (value == 60) := by rw [hw]; rfl
    refine crypt_ready h.clean hclient hf hv hw (fun jobs hr _ => ?_)
    rw [← hdec]
    refine cryptLoop_swept hr (Nat.lt_succ_self _) (by show v.want.mapped = false; rw [hw]; rfl) ?_
    exact ⟨Nat.le_of_eq hlo,Nat.le_of_eq (by
      show addr+length = v.lo+v.size
      rw [hlo,hsize])⟩
  -- a call with a mapping leaves user memory alone
  have hmapped {d : Bool} {f addr length : Nat} {isMapped : Byte} {r : Int} {v' : View}
      (hw : v.want = (v.jobs f).config.setting d isMapped) (hm : ¬ isMapped = 0)
      (hkept : v.want.mapped = true → v'.um = v.um) :
      Sweeps c d v.want.key addr length isMapped r v.um v'.um := by
    rw [Sweeps,if_neg hm]
    exact hkept (by rw [hw]; simpa [Config.setting] using hm)
  cases call with
  | write f ptr len => obtain h | ⟨dev,h⟩ := hlib <;> cases h
  | ioctl f cmd arg => obtain h | ⟨dev,h⟩ := hlib <;> cases h
  | encrypt f addr length isMapped =>
    by_cases hm : isMapped = 0
    · exact hcrypt false 50 (.inl rfl) rfl h.role h.file (h.lo.trans (by rw [Call.range,if_pos hm]))
        (h.size.trans (by rw [Call.range,if_pos hm])) (h.want f rfl) hm
    · exact wp_mono (fun r v' h' => hmapped (h.want f rfl) hm h'.effect.2.1) hview
  | decrypt f addr length isMapped =>
    by_cases hm : isMapped = 0
    · exact hcrypt true 60 (.inr rfl) rfl h.role h.file (h.lo.trans (by rw [Call.range,if_pos hm]))
        (h.size.trans (by rw [Call.range,if_pos hm])) (h.want f rfl) hm
    · exact wp_mono (fun r v' h' => hmapped (h.want f rfl) hm h'.effect.2.1) hview
  | setKey f a b => exact wp_mono (fun r v' h' => h'.effect.2.1) hview
  | setConfig f type value => exact wp_mono (fun r v' h' => h'.effect.2.1) hview
  | irq dev => exact wp_mono (fun r v' h' => h'.effect.1) hview
  | store addr xs => exact wp_mono (fun r v' h' => h'.effect.1) hview
  | mapStore off xs => exact wp_mono (fun r v' h' => h'.effect.1) hview

theorem settle_um (c : Cipher) (v : View) : (v.settle c).um = v.um := by
  unfold settle
  split
  · rfl
  · split <;> rfl

/-- But for a plain store, an action may go so that it leaves user memory alone. -/
theorem next_keeps (c : Cipher) (v : View) (a : Act) (ha : ∀ addr xs, a ≠ .userStore addr xs) :
    ∃ r v', v.Next c a r v' ∧ v'.um = v.um := by
  cases a with
  | privateData f => exact ⟨_,v,⟨rfl,rfl⟩,rfl⟩
  | configspace => exact ⟨_,v,⟨rfl,rfl⟩,rfl⟩
  | flag f x => exact ⟨_,v,⟨rfl,rfl⟩,rfl⟩
  | len f => exact ⟨_,v,⟨rfl,rfl⟩,rfl⟩
  | msg f => exact ⟨_,v,⟨rfl,rfl⟩,rfl⟩
  | keyab f => exact ⟨_,v,⟨rfl,rfl⟩,rfl⟩
  | copyKey f arg => exact ⟨_,_,⟨rfl,rfl⟩,rfl⟩
  | vmalloc n => exact ⟨none,v,.inl ⟨rfl,rfl⟩,rfl⟩
  | copyFromUser p ptr n => exact ⟨0,_,⟨load v.um ptr n,load_length _ _ _,fun _ => rfl,rfl⟩,rfl⟩
  | copyToUser ptr p n =>
    exact ⟨1,_,⟨0,Nat.zero_le _,(fun h => by cases h),rfl⟩,by simp⟩
  | downInterruptible => exact ⟨true,v,.inl ⟨rfl,rfl⟩,rfl⟩
  | pollBusy k => exact ⟨(),_,rfl,settle_um c v⟩
  | waitEvent k => exact ⟨false,_,⟨rfl,rfl⟩,settle_um c v⟩
  | dmaMapSingle p n => exact ⟨none,v,.inl ⟨rfl,rfl⟩,rfl⟩
  | ioread r => exact ⟨(0 : Nat),v,rfl,rfl⟩
  | userStore addr xs => exact absurd rfl (ha addr xs)
  | _ => exact ⟨(),_,rfl,rfl⟩

end

end View

section
variable {c : Cipher} {holder owner : Nat → Nat} {key t : Nat} {call : Call} {r : Int}
variable {m m' m₁ : Nat → Byte}

/-- What a call leaves of its client's memory depends on nobody else's. -/
theorem Call.Leaves.transfer (h : call.Leaves c key r m m')
    (hin : ∀ x, Within call.range.1 call.range.2 x → owner x = t)
    (hm : ∀ x, owner x = t → m x = m₁ x) :
    ∃ m₁', call.Leaves c key r m₁ m₁' ∧ ∀ x, owner x = t → m' x = m₁' x := by
  have sweeps {d : Bool} {addr length : Nat} {isMapped : Byte}
      (hin : isMapped = 0 → ∀ x, Within addr length x → owner x = t)
      (h : Sweeps c d key addr length isMapped r m m') :
      ∃ m₁', Sweeps c d key addr length isMapped r m₁ m₁' ∧
        ∀ x, owner x = t → m' x = m₁' x := by
    unfold Sweeps at h ⊢
    by_cases hz : isMapped = 0
    · simp only [if_pos hz] at h ⊢
      obtain ⟨n,hn,hr,rfl⟩ := h
      exact ⟨_,⟨n,hn,hr,rfl⟩,fun x hx => swept_congr (fun y hy => hm y (hin hz y hy)) (hm x hx)⟩
    · simp only [if_neg hz] at h ⊢
      subst h
      exact ⟨m₁,rfl,hm⟩
  cases call with
  | write f ptr len => exact h.elim
  | ioctl f cmd arg => exact h.elim
  | encrypt f addr length isMapped =>
    exact sweeps (fun hz x hx => hin x (by rwa [Call.range,if_pos hz])) h
  | decrypt f addr length isMapped =>
    exact sweeps (fun hz x hx => hin x (by rwa [Call.range,if_pos hz])) h
  | store addr xs =>
    have h : m' = Memory.store m addr xs := h
    refine ⟨_,rfl,fun x hx => ?_⟩
    rw [h]
    simp only [Memory.store,hm x hx]
  | _ =>
    have h : m' = m := h
    exact ⟨m₁,rfl,by rw [h]; exact hm⟩

/-- A call finds the key on its handle that its client set last. -/
theorem leaves_key {v : View} {hs : List (Call × Int)} (hc : View.Calling call v)
    (hcfg : v.Configured (ownTenancy holder owner) t hs)
    (hown : ∀ f, call.handle = some f → holder f = t)
    (h : call.Leaves c v.want.key r m m') : call.Leaves c (call.key hs) r m m' := by
  have hk (f : Nat) (hf : call.handle = some f) : v.want.key = call.key hs := by
    rw [hc.want f hf,hcfg f (hown f hf),Call.key,hf,Option.map_some,Option.getD_some,
      ← configured_key]
    cases call <;> rfl
  cases call with
  | encrypt f addr length isMapped => rwa [← hk f rfl]
  | decrypt f addr length isMapped => rwa [← hk f rfl]
  | _ => exact h

/-- The client's memory is what its calls have left of `umem`. -/
def View.Told (c : Cipher) (owner : Nat → Nat) (umem : Nat → Byte) (t : Nat)
    (hs : List (Call × Int)) (v : View) : Prop :=
  ∃ m, Transcript c umem hs m ∧ ∀ x, owner x = t → v.um x = m x

@[reducible] def toldAssertions (c : Cipher) (holder owner : Nat → Nat) (umem mem : Nat → Byte) :
    Assertions (viewing c) World Call Int :=
  (clientAssertions (ownTenancy holder owner) c (fun _ => []) (fun _ => ⟨umem,mem⟩)).also
    (View.Told c owner umem) (fun t _ hs _ v => v.Told c owner umem t hs)
    (fun _ call v₀ r v => call.Leaves c v₀.want.key r v₀.um v.um)

theorem toldOutline (umem mem : Nat → Byte) :
    Outline (machine c) (OwnStep holder owner) (toldAssertions c holder owner umem mem) := by
  refine (clientOutline own_admits).also ?_ ?_
  · rintro s g t call v h ⟨m,htr,hm⟩ _ ht ⟨hcall,_,_,hallow,hum,_⟩
    have hi := h.2 t
    rw [ht] at hi
    have hA := (h.1.sees t).of_free (.of_bar hi.1.2.2)
    refine ⟨⟨m,htr,fun x hx => ?_⟩,View.code_leaves hallow.kind hcall⟩
    rw [← hum trivial x hx,(hA.content trivial).um x hx]
    exact hm x hx
  · rintro t call hs w₀ v₀ r v ⟨hcall,hcfg,_,hallow,_⟩ ⟨m,htr,hm⟩ _ _ hleft
    obtain ⟨m',hleft',hm'⟩ := hleft.transfer hallow.range hm
    exact ⟨m',.call htr (leaves_key hcall hcfg hallow.handle hleft'),hm'⟩

/-- encrypt and decrypt make no plain stores. -/
def Call.Stores (call : Call) (a : Act) : Prop :=
  (∃ d cdev addr length isMapped, call = .crypt d cdev addr length isMapped) →
    ∀ addr xs, a ≠ .userStore addr xs

theorem code_stores (call : Call) : Always call.Stores call.code := by
  by_cases h : ∃ d cdev addr length isMapped, call = .crypt d cdev addr length isMapped
  · obtain ⟨d,cdev,addr,length,isMapped,rfl⟩ := h
    have hc (value : Byte) : Always (fun a => ∀ addr xs, a ≠ .userStore addr xs)
        (crypt value cdev addr length isMapped) := by
      refine crypt_always (fun f ptr len => sysWrite_ofWrite.mono ?_)
        (fun f cmd arg => ?_) _ _ _ _ _
      · rintro _ ha addr xs rfl
        exact ha
      · unfold pciUnlockedIoctl
        cases ioctlByte arg <;> simp
    cases d with
    | true => exact (hc 60).mono (fun a ha _ => ha)
    | false => exact (hc 50).mono (fun a ha _ => ha)
  · exact always_of_forall (fun a hc => absurd hc h) _

/-- The client's memory is as its view has it, also while its operation runs. -/
theorem Sees.um {T : Tenancy} {v : View} {w : World} (h : Sees T c t v w) (ht : T.tied t)
    {x : Nat} (hx : T.owner x = t) : w.umem x = v.um x := by
  rcases h with h | h
  · exact (h.content ht).um x hx
  · rw [(h.content ht).um x hx,View.settle_um]

end

/-- As long as no signal ends a wait for an operation before the operation does, a client
finds in its memory at any time what the calls it has made left there one after the other,
also when an allocation, a mapping, a copy or the card has failed one of them: in the middle
of a call the bytes of that call are transformed up to some point, at its end as far as its
result says. -/
theorem memory_follows_calls (c : Cipher) (holder owner : Nat → Nat) (umem mem : Nat → Byte)
    {s : System} (hr : (machine c).Reaches (OwnStep holder owner) (start (World.boot umem mem)) s)
    (t : Nat) :
    (s.thr t = .idle → ∃ m, Transcript c umem (s.hist t) m ∧
      ∀ x, owner x = t → s.world.umem x = m x) ∧
    ∀ d cdev addr length w₀ p, s.thr t = .run (.crypt d cdev addr length 0) w₀ p →
      ∃ m n, Transcript c umem (s.hist t) m ∧ n ≤ length ∧ (p = .ret 0 → n = length) ∧
        ∀ x, owner x = t →
          s.world.umem x = swept c d (lastKey cdev (s.hist t)) addr length n m x := by
  have hstart : (toldAssertions c holder owner umem mem).Holds (start (World.boot umem mem))
      (fun _ => .initial umem) := by
    refine ⟨Tenants.boot _ c umem mem,fun t => ⟨?_,umem,.start,fun _ _ => rfl⟩⟩
    exact (client_start (ownTenancy holder owner) c umem mem (fun _ h => h)).2 t
  obtain ⟨g,hg⟩ := (toldOutline umem mem).reaches hstart hr
  have hum (x : Nat) (hx : owner x = t) : s.world.umem x = (g t).um x :=
    (hg.1.sees t).um trivial hx
  have hthr := hg.2 t
  constructor
  · intro ht
    rw [ht] at hthr
    obtain ⟨_,m,htr,hm⟩ := hthr
    exact ⟨m,htr,fun x hx => (hum x hx).trans (hm x hx)⟩
  · intro d cdev addr length w₀ p ht
    rw [ht] at hthr
    obtain ⟨v₀,⟨⟨hcall,hcfg,_,hallow,_⟩,m,htr,hm⟩,_,hw⟩ := hthr
    have hkey : (Call.crypt d cdev addr length 0).key (s.hist t) = lastKey cdev (s.hist t) := by
      cases d <;> rfl
    have hrange : (Call.crypt d cdev addr length 0).range = (addr,length) := by cases d <;> rfl
    -- what the call may leave if it stops here
    have hnow : ∃ r m', (Call.crypt d cdev addr length 0).Leaves c v₀.want.key r v₀.um m' ∧
        (p = .ret 0 → r = 0) ∧ m' = (g t).um := by
      cases p with
      | ret r => exact ⟨r,_,hw.2,fun h => by cases h; rfl,rfl⟩
      | act a k =>
        have hstores := hr.always code_stores (fun t c w₀ p h => by cases h) t _ _ _ ht
        obtain ⟨r,v,hq,hv⟩ := hstores.now (f := View.um)
          (fun v a ha => View.next_keeps c v a (ha ⟨d,cdev,addr,length,0,rfl⟩)) hw
        exact ⟨r,v.um,hq.2,(fun h => by cases h),hv⟩
    obtain ⟨r,m',hleft,hr0,rfl⟩ := hnow
    obtain ⟨m₁,hleft,hm₁⟩ := hleft.transfer hallow.range hm
    have hleft := leaves_key hcall hcfg hallow.handle hleft
    rw [hkey] at hleft
    have hsw : Sweeps c d (lastKey cdev (s.hist t)) addr length 0 r m m₁ := by
      cases d <;> exact hleft
    obtain ⟨n,hn,hres,rfl⟩ := hsw
    refine ⟨m,n,htr,hn,fun hp => ?_,fun x hx => (hum x hx).trans (hm₁ x hx)⟩
    obtain ⟨_,hn⟩ | he := hres
    · exact hn
    · rw [hr0 hp] at he
      cases he

/-- The copy back to the user stops after the first of two bytes. -/
theorem memory_follows_calls_halfway :
    ∃ s m, (machine (.bytewise fun _ k x => x + UInt8.ofNat k)).Reaches
        (OwnStep (fun _ => 0) (fun _ => 0)) (start (World.boot (fun _ => 7) (fun _ => 0))) s ∧
      s.hist 0 = [(.encrypt 0 5 2 0,ERROR),(.setKey 0 0 3,0)] ∧
      s.world.umem 5 = 10 ∧ s.world.umem 6 = 7 ∧
      Transcript (.bytewise fun _ k x => x + UInt8.ofNat k) (fun _ => 7) (s.hist 0) m ∧
      ∀ x, s.world.umem x = m x := by
  obtain ⟨s,hr,_,hp⟩ := Machine.exists_reaches
    (M := machine (.bytewise fun _ k x => x + UInt8.ofNat k))
    (P := OwnStep (fun _ => 0) (fun _ => 0)) (n := 1) (b := loneStep)
    (p := fun s => s.isIdle 0 && s.hist 0 == [(.encrypt 0 5 2 0,ERROR),(.setKey 0 0 3,0)] &&
      s.world.umem 5 == 10 && s.world.umem 6 == 7)
    (fun _ _ _ h => own_of_lone h)
    (.call 0 (.setKey 0 0 3) :: ticks 0 2 ++ .ret 0 :: .call 0 (.encrypt 0 5 2 0) :: ticks 0 8 ++
      .act 0 (.value 0) :: ticks 0 2 ++ .act 0 (.junk fun _ => 0) :: ticks 0 19 ++
      .env .finish :: ticks 0 7 ++ .act 0 (.fault 1) :: ticks 0 5 ++ [.ret 0])
    (start_quiet (World.boot (fun _ => 7) (fun _ => 0)) 1) (by decide +kernel)
  simp only [Bool.and_eq_true,beq_iff_eq] at hp
  obtain ⟨⟨⟨hi,hh⟩,h5⟩,h6⟩ := hp
  obtain ⟨m,htr,hm⟩ := (memory_follows_calls _ _ _ _ _ hr 0).1 (Sys.idle_of_isIdle hi)
  exact ⟨s,m,hr,hh,h5,h6,htr,fun x => hm x rfl⟩

end CryptoCard
