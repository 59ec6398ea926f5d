import CryptoCard.Isolation
import CryptoCard.Semaphore
set_option autoImplicit false

/-! Any number of clients with handles and buffers of their own: what each of them
gets is what it would get alone. -/
namespace CryptoCard
open Memory Chunks Program Interleave

/-- The calls that only change a handle's configuration. -/
def Call.sets : Call → Bool
  | .setKey _ _ _ | .setConfig _ _ _ => true
  | _ => false

/-- A client's own memory, and the card's for one that has it for itself. -/
structure Store where
  um : Nat → Byte
  win : Nat → Byte

/-- What encrypt and decrypt may do to memory, by their result. -/
structure Crypts (c : Cipher) (d : Bool) (key addr length : Nat) (isMapped : Byte) (r : Int)
    (m m' : Store) : Prop where
  um : isMapped = 0 → r = 0 → m'.um = Memory.store m.um addr
    (chunkMap (c.run d key) BUFFERSIZE (load m.um addr length))
  kept : isMapped ≠ 0 → m'.um = m.um
  outside : ∀ x, ¬ Within addr length x → m'.um x = m.um x
  win : isMapped ≠ 0 → r = 0 → m'.win = chunkFold
    (fun n w => Memory.store w r1Start (c.run d key (load w r1Start n))) BUFFERSIZE length m.win

/-- What one call may do to its client's memory, by its result: the sequential
meaning of the library. -/
def Call.Acts (c : Cipher) (s : Config) (r : Int) (m m' : Store) : Call → Prop
  | .encrypt _ addr length isMapped => Crypts c false s.key addr length isMapped r m m'
  | .decrypt _ addr length isMapped => Crypts c true s.key addr length isMapped r m m'
  | .store addr xs => m' = { m with um := Memory.store m.um addr xs }
  | .mapStore off xs => m' = { m with win := Memory.store m.win off xs }
  | .setKey _ _ _ | .setConfig _ _ _ => r = 0 ∧ m' = m
  | .irq _ | .write _ _ _ | .ioctl _ _ _ => m' = m

/-- The configuration that a call finds on its handle. -/
def Call.config (call : Call) (hs : List (Call × Int)) : Config :=
  match call.handle with
  | some f => configured f hs
  | none => ⟨0,false,false⟩

/-- What the calls of a client since `base`, all of them in memory that is `mine`,
can have made of the memory `m₀`. -/
inductive Recall (c : Cipher) (mine : Nat → Prop) (base : List (Call × Int)) (m₀ : Store) :
    List (Call × Int) → Store → Prop where
  | start : Recall c mine base m₀ base m₀
  | call {hs : List (Call × Int)} {m m' : Store} {call : Call} {r : Int} :
      Recall c mine base m₀ hs m → (∀ x, Within call.range.1 call.range.2 x → mine x) →
      call.Acts c (call.config hs) r m m' → Recall c mine base m₀ ((call,r) :: hs) m'

namespace Recall

variable {c : Cipher} {mine : Nat → Prop} {base hs : List (Call × Int)} {m₀ m : Store}

theorem length_le (h : Recall c mine base m₀ hs m) : base.length ≤ hs.length := by
  induction h with
  | start => exact Nat.le_refl _
  | call _ _ _ ih => exact Nat.le_succ_of_le ih

theorem at_base (h : Recall c mine base m₀ base m) : m = m₀ := by
  cases h with
  | start => rfl
  | call h _ _ =>
    have hle := h.length_le
    exact absurd hle (by simp)

/-- The last call, when it was made after `base`. -/
theorem last {call : Call} {r : Int} (h : Recall c mine base m₀ ((call,r) :: hs) m)
    (hb : base.length ≤ hs.length) :
    ∃ m', Recall c mine base m₀ hs m' ∧ (∀ x, Within call.range.1 call.range.2 x → mine x) ∧
      call.Acts c (call.config hs) r m' m := by
  cases h with
  | start => exact absurd hb (by simp)
  | call h hin ha => exact ⟨_,h,hin,ha⟩

/-- Calls that only set something do not touch the memory. -/
theorem sets {mid : List (Call × Int)} (h : Recall c mine base m₀ (mid ++ hs) m)
    (hb : base.length ≤ hs.length) (hmid : ∀ e ∈ mid, e.1.sets = true) :
    Recall c mine base m₀ hs m := by
  induction mid generalizing m with
  | nil => exact h
  | cons e mid ih =>
    obtain ⟨call,r⟩ := e
    obtain ⟨m',h',_,ha⟩ := h.last (by simp; omega)
    have hc := hmid (call,r) List.mem_cons_self
    obtain rfl : m = m' := by
      cases call with
      | setKey f a b => exact ha.2
      | setConfig f type value => exact ha.2
      | _ => cases hc
    exact ih h' (fun e he => hmid e (List.mem_cons_of_mem _ he))

/-- A call that only sets something returns 0. -/
theorem result {e : Call × Int} (h : Recall c mine [] m₀ hs m) (he : e ∈ hs)
    (hs : e.1.sets = true) : e.2 = 0 := by
  induction h with
  | start => cases he
  | @call hs m m' call r h _ ha ih =>
    rcases List.mem_cons.mp he with rfl | he
    · cases call with
      | setKey f a b => exact ha.1
      | setConfig f type value => exact ha.1
      | _ => cases hs
    · exact ih he

end Recall

/-- A call that a client may make: on its handles and in its memory. -/
structure Call.Allowed (T : Tenancy) (t : Nat) (call : Call) : Prop where
  kind : call.isLibrary = true ∨ ∃ dev, call = .irq dev
  handle : ∀ f, call.handle = some f → T.holder f = t
  range : ∀ x, Within call.range.1 call.range.2 x → T.owner x = t
  active : call.role ≠ .handler → T.active t
  mapper : call.role = .mapper → T.mapper t

/-- The configurations of a client's handles follow from its calls. -/
def View.Configured (T : Tenancy) (t : Nat) (hs : List (Call × Int)) (v : View) : Prop :=
  ∀ f, T.holder f = t → (v.jobs f).config = configured f hs

/-- The client's memory follows from its calls, and the card's memory too while it is
the client's own. -/
def View.Recalls (T : Tenancy) (c : Cipher) (base : Nat → List (Call × Int)) (m₀ : Nat → Store)
    (t : Nat) (hs : List (Call × Int)) (v : View) : Prop :=
  ∃ win, Recall c (fun x => T.owner x = t) (base t) (m₀ t) hs ⟨v.um,win⟩ ∧
    (T.sole t → T.tied t → v.own = some win)

def clientAssertions (T : Tenancy) (c : Cipher) (base : Nat → List (Call × Int))
    (m₀ : Nat → Store) : Assertions (viewing c) World Call Int where
  J g s := Tenants T c g s.world
  Idle t hs v := v.Clean ∧ v.Configured T t hs ∧ v.Recalls T c base m₀ t hs
  Began t call hs w₀ v := View.Calling call v ∧ v.Configured T t hs ∧
    v.Recalls T c base m₀ t hs ∧ call.Allowed T t ∧
    (T.tied t → ∀ x, T.owner x = t → w₀.umem x = v.um x) ∧
    (T.sole t → v.own = some w₀.card.mem)
  Post _ call v₀ r v := View.Returned c call v₀ r v
  Dead _ := False
  Link v₀ v := v₀.Link v ∧ (v.own = none ↔ v₀.own = none)

/-- The step leaves the window alone while `u` is outside of the semaphore. -/
def Spared (u : Nat) (s : System) : Step → Prop
  | .act t _ => t = u ∨ ∀ p n, s.next t ≠ some (.memcpyToio p n)
  | .env .finish => u ∈ s.world.holders ∨ ∀ o, s.world.card.op = some o → o.kind ≠ .mmio
  | _ => True

/-- The steps under which clients keep to themselves: no wait is cut short, allowed
calls only, nobody stores to the window of a client whose bytes are followed, and the
window stays with the client that has it for itself. -/
structure Admits (T : Tenancy) (P : System → Step → Prop) : Prop where
  call : ∀ {s t call}, P s (.call t call) → call.Allowed T t
  signal : ∀ {s l}, P s l → cutsShort s l = false
  mapper : ∀ {t u}, T.mapper t → T.tied u → u = t
  sole : ∀ {s l u}, P s l → T.sole u → T.tied u → (∀ t, T.active t → t = u) ∨ Spared u s l

section
variable {T : Tenancy} {c : Cipher} {base : Nat → List (Call × Int)} {m₀ : Nat → Store}
variable {P : System → Step → Prop}

/-- An encrypt or decrypt, seen as a step of the client's memory. -/
theorem crypts_of_effect (cdev : Nat) {d : Bool} {addr length : Nat} {isMapped : Byte} {v₀ v : View}
    {r : Int} {s : Config} (he : View.Effect c v₀ r v (.encrypt cdev addr length isMapped))
    (hw : v₀.want = s.setting d isMapped) (hown : v.own = none ↔ v₀.own = none)
    (win : Nat → Byte) : ∃ win', Crypts c d s.key addr length isMapped r ⟨v₀.um,win⟩ ⟨v.um,win'⟩ ∧
      (v₀.own = some win → v.own = some win') := by
  obtain ⟨hum,hkept,hout,hwin,_⟩ := he
  have hf : v₀.transform c = c.run d s.key := by
    funext xs
    rw [View.transform,hw]
    rfl
  have hm : v₀.want.mapped = (isMapped != 0) := by rw [hw]; rfl
  have hum (h : isMapped = 0) (hr : r = 0) := hum (by rw [hm]; simpa using h) hr
  have hkept (h : isMapped ≠ 0) := hkept (by rw [hm]; simpa using h)
  rw [hf] at hum
  by_cases h : isMapped ≠ 0 ∧ r = 0
  · refine ⟨_,⟨hum,hkept,hout,fun _ _ => rfl⟩,fun ho => ?_⟩
    rw [hwin (by rw [hm]; simpa using h.1) h.2,ho,Option.map_some]
    simp only [View.windowAfter,hf]
  · refine ⟨v.own.getD win,⟨hum,hkept,hout,fun h1 h2 => absurd ⟨h1,h2⟩ h⟩,fun ho => ?_⟩
    obtain ⟨m,hm⟩ := Option.ne_none_iff_exists'.mp
      (fun hno => absurd (hown.mp hno) (by rw [ho]; simp))
    rw [hm,Option.getD_some]

theorem acts_of_returned {call : Call} {v₀ v : View} {r : Int} {hs : List (Call × Int)}
    {t : Nat} (h : View.Returned c call v₀ r v) (hc : View.Calling call v₀)
    (hcfg : v₀.Configured T t hs) (hallow : call.Allowed T t)
    (hown : v.own = none ↔ v₀.own = none) (win : Nat → Byte) :
    ∃ win', call.Acts c (call.config hs) r ⟨v₀.um,win⟩ ⟨v.um,win'⟩ ∧
      (v₀.own = some win → v.own = some win') := by
  have he := h.effect
  have hlib := hallow.kind
  have hw {f : Nat} (hf : call.handle = some f) :
      v₀.want = call.setting (configured f hs) := by
    rw [hc.want f hf,hcfg f (hallow.handle f hf)]
  cases call with
  | write f ptr len => obtain h | ⟨dev,h⟩ := hlib <;> cases h
  | ioctl f cmd arg => obtain h | ⟨dev,h⟩ := hlib <;> cases h
  | encrypt f addr length isMapped => exact crypts_of_effect f he (hw rfl) hown win
  | decrypt f addr length isMapped => exact crypts_of_effect f he (hw rfl) hown win
  | setKey f a b => exact ⟨win,⟨he.1,by rw [he.2.1]⟩,fun ho => he.2.2.trans ho⟩
  | setConfig f type value => exact ⟨win,⟨he.1,by rw [he.2.1]⟩,fun ho => he.2.2.trans ho⟩
  | irq dev => exact ⟨win,by rw [Call.Acts,he.1],fun ho => he.2.trans ho⟩
  | store addr xs => exact ⟨win,by rw [Call.Acts,he.1],fun ho => he.2.trans ho⟩
  | mapStore off xs => exact ⟨_,by rw [Call.Acts,he.1],fun ho => by rw [he.2,ho,Option.map_some]⟩

/-- The view with which a client begins a call. -/
noncomputable def View.begun (T : Tenancy) (t : Nat) (call : Call) (hs : List (Call × Int))
    (w : World) (v : View) : View :=
  open Classical in
  { v with
    role := call.role, file := call.handle, lo := call.range.1, size := call.range.2
    want := call.setting (call.config hs), own := if T.sole t then some w.card.mem else none }

theorem View.begun_calling {t : Nat} {call : Call} {hs : List (Call × Int)} {w : World}
    {v : View} (hclean : v.Clean) (hcfg : v.Configured T t hs)
    (hown : ∀ f, call.handle = some f → T.holder f = t) :
    View.Calling call (v.begun T t call hs w) where
  clean := hclean
  role := rfl
  file := rfl
  lo := rfl
  size := rfl
  want f hf := by
    show call.setting (call.config hs) = call.setting (v.jobs f).config
    rw [hcfg f (hown f hf),Call.config,hf]

theorem clientOutline (hP : Admits T P) :
    Outline (machine c) P (clientAssertions T c base m₀) where
  call {s g t call} h hp ht := by
    have hi := h.2 t
    rw [ht] at hi
    obtain ⟨hclean,hcfg,win,hrec,hwin⟩ := hi
    have hallow := hP.call hp
    have hA := ((h.1.sees t).of_free (.of_bar hclean.2.2))
    have hkeep (hs : T.sole t) (htied : T.tied t) : s.world.card.mem = win :=
      (hA.content htied).own win (hwin hs htied) hclean.2.2
    have hcall := View.begun_calling (w := s.world) hclean hcfg hallow.handle
    have hum (htied : T.tied t) (x : Nat) (hx : T.owner x = t) :
        s.world.umem x = (g t).um x := (hA.content htied).um x hx
    refine ⟨(g t).begun T t call (s.hist t) s.world,?_,
      ⟨hcall,hcfg,⟨win,hrec,fun hs htied => by simp [View.begun,hs,hkeep hs htied]⟩,hallow,hum,
        fun hs => by simp [View.begun,hs]⟩,
      View.code_view hallow.kind hcall⟩
    refine h.1.begin_call ⟨hallow.handle,hallow.range,hallow.active,hallow.mapper,?_,?_⟩ rfl
      hclean hclean.2.2 hum ?_
    · exact fun B hB => absurd (hclean.2.2.symm.trans hB) (by simp)
    · intro m hm
      by_contra hs
      simp [View.begun,hs] at hm
    · intro _ m hm
      by_cases hs : T.sole t
      · simpa [View.begun,hs] using hm
      · simp [View.begun,hs] at hm
  ret {t call hs w₀ v₀ r v} hb hl hpost := by
    obtain ⟨hcall,hcfg,⟨win,hrec,hwin⟩,hallow,_⟩ := hb
    have hret : View.Returned c call v₀ r v := hpost
    obtain ⟨win',hacts,hwin'⟩ := acts_of_returned hret hcall hcfg hallow hl.2 win
    refine ⟨hret.clean,fun f hf => ?_,win',.call hrec hallow.range hacts,
      fun hs htied => hwin' (hwin hs htied)⟩
    rw [hret.config f,hcfg f hf]
    rfl
  leave h _ := h.1
  link_refl v := ⟨.refl v,Iff.rfl⟩
  link hl hn := ⟨hl.1.trans (View.next_link hn),(View.next_own hn).trans hl.2⟩
  done {s g t x call w₀ a k r w} h hp ht he := by
    have hok := h.ok ht
    refine h.1.done hok (cut_eq_false (hP.signal hp) ht he) he (fun hst u hut htied => ?_)
    · cases a with
      | memcpyToio p n =>
        obtain ⟨⟨B,hB,_⟩,_⟩ := hok
        refine ⟨?_,fun hno => absurd (hno.symm.trans hB) (by simp)⟩
        by_contra hown
        obtain ⟨m,hm⟩ := Option.ne_none_iff_exists'.mp hown
        obtain hall | hsp := hP.sole hp ((h.1.fits u).own m hm) htied
        · have hrole := (h.1.fits t).bar B hB
          exact hut (hall t ((h.1.fits t).active (by rw [hrole]; simp))).symm
        · obtain e | hsp := hsp
          · exact hut e.symm
          · exact hsp p n (by simp [Sys.next,ht])
      | mapStore off xs => exact absurd (hP.mapper ((h.1.fits t).mapper hok.1) htied) hut
      | _ => cases hst
  stay h _ _ he := h.1.stay he
  oops h _ ht he := (h.1.no_oops (h.ok ht) he).elim
  env {s g e w} h hp he := by
    refine h.1.env he ?_
    rintro rfl o ho hk u htied hbar
    by_contra hown
    obtain ⟨m,hm⟩ := Option.ne_none_iff_exists'.mp hown
    obtain hall | hsp := hP.sole hp ((h.1.fits u).own m hm) htied
    · obtain ⟨t,ht⟩ := h.1.running o ho
      obtain ⟨B,hB⟩ := Option.ne_none_iff_exists'.mp ht
      have hrole := (h.1.fits t).bar B hB
      have htu := hall t ((h.1.fits t).active (by rw [hrole]; simp))
      exact ht (htu ▸ hbar)
    · obtain hin | hno := hsp
      · exact ((h.1.sem.held u).mp hin) hbar
      · exact hno o ho hk

end

end CryptoCard
