import Mathlib.Data.List.Nodup
import CryptoCard.Files
set_option autoImplicit false

/-! From `pci_open` to `pci_release`: a job is there for as long as anybody can get to it,
is freed once, and has no buffer left by then. -/
namespace CryptoCard
open Program Interleave

/-- How far a thread is with a file: it has got it, it has opened it, it is inside a system
call on it, it has dropped the last reference to it, or it has freed its job. -/
inductive Stage where
  | fresh
  | opened
  | inside (owes : Bool)
  | last
  | freed
  deriving DecidableEq

/-- The thread is one of the references to the file. -/
def Stage.refers : Stage → Bool
  | .fresh | .opened | .inside _ => true
  | .last | .freed => false

def Stage.uses : Stage → Bool
  | .opened | .inside _ => true
  | _ => false

/-- The file that a thread is concerned with. -/
abbrev Hand := Option (Nat × Stage)

def Hand.at (γ : Hand) (f : Nat) : Option Stage :=
  (γ.filter (fun e => e.1 = f)).map Prod.snd

@[reducible] def handling : Discipline FAct FAct.Res where
  Ghost := Hand
  ok
    | γ, .getFile | γ, .fdget _ | γ, .takeSite _ => γ = none
    | γ, .kzallocJob f | γ, .dropFile f => γ = some (f,.fresh)
    | γ, .fdInstall f => γ = some (f,.opened) ∨ γ = some (f,.inside false)
    | γ, .putRef f | γ, .vmaLink f => γ = some (f,.inside false)
    | _, .vmaAlloc | _, .ioRemapPfnRange => True
    | γ, .kfreeJob f => γ = some (f,.last)
    | γ, .clearPrivateData f => γ = some (f,.freed)
    | γ, .drv a => ∀ f ∈ a.job, ∃ b, γ = some (f,.inside b)
  next
    | _, .getFile, r, γ' => γ' = r.map (fun f => (f,.fresh))
    | _, .fdget _, r, γ' | _, .takeSite _, r, γ' => γ' = r.map (fun f => (f,.inside false))
    | _, .kzallocJob f, r, γ' => γ' = some (f,if r then .opened else .fresh)
    | _, .putRef f, r, γ' => γ' = if r then some (f,.last) else none
    | _, .kfreeJob f, _, γ' => γ' = some (f,.freed)
    | _, .dropFile _, _, γ' | _, .fdInstall _, _, γ' | _, .clearPrivateData _, _, γ' => γ' = none
    | some (f,.inside b), .drv a, r, γ' =>
      ∃ b', (owing f).next b a r b' ∧ γ' = some (f,.inside b')
    | γ, .drv _, _, γ' | γ, .vmaAlloc, _, γ' | γ, .ioRemapPfnRange, _, γ' => γ' = γ
    | γ, .vmaLink _, _, γ' => γ' = γ

section
variable {α : Type} {f n : Nat}

/-- What a driver's program owes, it owes where it is run for a file. -/
theorem onFile_handling {p : Code α} {Q : α → Bool → Prop} {b : Bool}
    (h : wp (owing f) p Q b) :
    wp handling (onFile p) (fun v γ => ∃ b, γ = some (f,.inside b) ∧ Q v b)
      (some (f,.inside b)) := by
  induction p generalizing b with
  | ret v => exact ⟨b,rfl,h⟩
  | act a k ih =>
    refine ⟨fun g hg => ⟨b,?_⟩,fun r γ' hn => ?_⟩
    · obtain hj | hj := h.1
      · rw [hj] at hg
        cases hg
      · rw [hj] at hg
        cases hg
        rfl
    · obtain ⟨b',hb,rfl⟩ := hn
      exact ih r (h.2 r b' hb)

theorem putFile_handling {Q : Unit → Hand → Prop} (h : Q () none) :
    wp handling (putFile f) Q (some (f,.inside false)) := by
  refine ⟨rfl,fun r γ hγ => ?_⟩
  subst γ
  cases r with
  | false => exact h
  | true =>
    refine ⟨rfl,fun _ γ hγ => ?_⟩
    subst γ
    refine ⟨rfl,fun _ γ hγ => ?_⟩
    subst γ
    exact h

/-- The postcondition of every call: the thread is through with the file. -/
abbrev Through (_ : Int) (γ : Hand) : Prop := γ = none

theorem openWith_handling : wp handling (openWith f) Through (some (f,.fresh)) := by
  refine ⟨rfl,fun r γ hγ => ?_⟩
  subst γ
  cases r with
  | true => exact ⟨.inl rfl,fun _ γ hγ => hγ⟩
  | false => exact ⟨rfl,fun _ γ hγ => hγ⟩

theorem sysOpen_handling : wp handling sysOpen Through none := by
  refine ⟨rfl,fun r γ hγ => ?_⟩
  subst γ
  cases r with
  | none => exact rfl
  | some f => exact openWith_handling

theorem createHandle_handling : wp handling createHandle Through none := by
  refine (wp_bind _ _ _ _).mpr (wp_mono (fun r γ hγ => ?_) sysOpen_handling)
  exact (wp_ite _ _ _ _).mpr ⟨fun _ => hγ,fun _ => hγ⟩

theorem closeHandle_handling : wp handling (closeHandle n) Through none := by
  refine (wp_bind _ _ _ _).mpr (wp_step.mpr ⟨rfl,fun r γ hγ => ?_⟩)
  subst γ
  cases r with
  | none => exact rfl
  | some f => exact (wp_bind _ _ _ _).mpr (putFile_handling rfl)

theorem sysDup_handling : wp handling (sysDup n) Through none := by
  refine ⟨rfl,fun r γ hγ => ?_⟩
  subst γ
  cases r with
  | none => exact rfl
  | some f => exact ⟨.inr rfl,fun _ γ hγ => hγ⟩

/-- A mapping is made under the reference that the thread has. -/
theorem mmapRegion_handling {Q : UInt64 → Hand → Prop}
    (h : ∀ addr, Q addr (some (f,.inside false))) :
    wp handling (mmapRegion f) Q (some (f,.inside false)) := by
  refine ⟨trivial,fun r γ hγ => ?_⟩
  subst γ
  cases r with
  | false => exact h _
  | true =>
    refine wp_step.mpr ⟨trivial,fun failed γ hγ => ?_⟩
    subst γ
    cases failed with
    | true => exact h _
    | false =>
      refine ⟨rfl,fun p γ hγ => ?_⟩
      subst γ
      exact h _

theorem sysMmap_handling {Q : UInt64 → Hand → Prop} (h : ∀ addr, Q addr none) :
    wp handling (sysMmap n) Q none := by
  refine wp_step.mpr ⟨rfl,fun r γ hγ => ?_⟩
  subst γ
  cases r with
  | none => exact h _
  | some f =>
    refine (wp_bind _ _ _ _).mpr (mmapRegion_handling (fun addr => ?_))
    exact (wp_bind _ _ _ _).mpr (putFile_handling (h addr))

theorem unmapPages_handling (p m : Nat) :
    wp handling (unmapPages p m) (fun _ γ => γ = none) none := by
  induction m generalizing p with
  | zero => rfl
  | succ m ih =>
    refine wp_step.mpr ⟨rfl,fun r γ hγ => ?_⟩
    subst γ
    cases r with
    | none => exact ih (p+1)
    | some f => exact (wp_bind _ _ _ _).mpr (putFile_handling (ih (p+1)))

theorem sysMapCard_handling (size : UInt64) : wp handling (sysMapCard n size) Through none := by
  refine (wp_ite _ _ _ _).mpr ⟨fun _ => rfl,fun _ => ?_⟩
  refine (wp_bind _ _ _ _).mpr (sysMmap_handling (fun addr => ?_))
  exact (wp_ite _ _ _ _).mpr ⟨fun _ => rfl,fun _ => rfl⟩

theorem sysMunmap_handling (addr len : UInt64) :
    wp handling (sysMunmap addr len) Through none := by
  refine (wp_ite _ _ _ _).mpr ⟨fun _ => ?_,fun _ => rfl⟩
  exact (wp_bind _ _ _ _).mpr (wp_mono (fun _ _ hγ => hγ) (unmapPages_handling _ _))

theorem sysUnmapCard_handling (cdev : Nat) (addr : UInt64) :
    wp handling (sysUnmapCard cdev addr) Through none :=
  (wp_bind _ _ _ _).mpr (wp_mono (fun _ _ hγ => hγ) (sysMunmap_handling _ _))

theorem onFd_handling (a : Sysc) : wp handling a.onFd Through none := by
  refine wp_step.mpr ⟨rfl,fun r γ hγ => ?_⟩
  subst γ
  cases r with
  | none => exact rfl
  | some f =>
    refine (wp_bind _ _ _ _).mpr (wp_mono ?_ (onFile_handling (a.owing f)))
    rintro v _ ⟨b,rfl,rfl⟩
    exact (wp_bind _ _ _ _).mpr (putFile_handling rfl)

theorem calls_handling (p : LibCode) : wp handling (p.inline Sysc.onFd) Through none := by
  induction p with
  | ret v => rfl
  | act a k ih =>
    refine (wp_bind' _ _ _ _).mpr (wp_mono (fun v γ hγ => ?_) (onFd_handling a))
    obtain rfl : γ = none := hγ
    exact ih v

theorem irq_handling {p : Code Int} (h : Always (fun a => a.job = none) p) :
    wp handling (onFile p) Through none := by
  induction p with
  | ret v => rfl
  | act a k ih =>
    refine ⟨fun f hf => ?_,fun r γ hγ => ?_⟩
    · rw [h.1] at hf
      cases hf
    · obtain rfl : γ = none := hγ
      exact ih r (h.2 r)

theorem fcode_handling (cl : FCall) : wp handling cl.code Through none := by
  cases cl with
  | createHandle => exact createHandle_handling
  | closeHandle cdev => exact closeHandle_handling
  | dup fd => exact sysDup_handling
  | mapCard cdev size => exact sysMapCard_handling size
  | unmapCard cdev addr => exact sysUnmapCard_handling cdev addr
  | calls p => exact calls_handling p
  | irq dev => exact irq_handling (by simp [pciIrqHandle,Act.job])

end

/-- Thread `t` is concerned with the file and nobody else is. -/
def solely (t : Nat) (st : Stage) : Nat → Option Stage :=
  Function.update (fun _ => none) t (some st)

/-- What there is of a file whose threads are as `H` says. -/
inductive File.Stands (F : File) (H : Nat → Option Stage) : Prop where
  | closed : F.refs = [] → F.privateData = false → F.live = false → F.frees ≤ 1 →
      H = (fun _ => none) → Stands F H
  | fresh (t : Nat) : F.refs = [.thread t] → F.privateData = false → F.live = false →
      F.frees = 0 → H = solely t .fresh → Stands F H
  | opened : F.refs ≠ [] → F.privateData = true → F.live = true → F.frees = 0 →
      (∀ u, ∀ st ∈ H u, st.uses = true) → Stands F H
  | last (t : Nat) : F.refs = [] → F.privateData = true → F.live = true → F.frees = 0 →
      H = solely t .last → Stands F H
  | freed (t : Nat) : F.refs = [] → F.live = false → F.frees = 1 → H = solely t .freed → Stands F H

/-- The references to a file are the sites in `D` and the threads in `H`, and a buffer in its
job belongs to one of these threads. -/
structure File.Sound (F : File) (msg : Option Nat) (D : Site → Prop) (H : Nat → Option Stage) :
    Prop where
  nodup : F.refs.Nodup
  site : ∀ k, .site k ∈ F.refs ↔ D k
  thread : ∀ t, .thread t ∈ F.refs ↔ ∃ st ∈ H t, st.refers = true
  stands : F.Stands H
  msg : msg ≠ none → ∃ t, H t = some (.inside true)

section
variable {F : File} {H : Nat → Option Stage} {t u : Nat} {st st' : Stage}

theorem solely_eq (h : solely t st u = some st') : u = t ∧ st' = st := by
  by_cases hu : u = t
  · subst u
    rw [solely,Function.update_self] at h
    cases h
    exact ⟨rfl,rfl⟩
  · rw [solely,Function.update_of_ne hu] at h
    cases h

theorem update_solely (γ : Option Stage) :
    Function.update (solely t st) t γ = Function.update (fun _ => none) t γ :=
  Function.update_idem _ _ _

theorem update_solely_none : Function.update (solely t st) t none = fun _ => none :=
  (update_solely none).trans (Function.update_eq_self t _)

namespace File.Stands

theorem of_uses (h : F.Stands H) (ht : H t = some st) (hst : st.uses = true) :
    F.refs ≠ [] ∧ F.privateData = true ∧ F.live = true ∧ F.frees = 0 ∧
      ∀ u, ∀ st ∈ H u, st.uses = true := by
  cases h with
  | closed _ _ _ _ hH =>
    rw [hH] at ht
    cases ht
  | opened hr hp hl hf hH => exact ⟨hr,hp,hl,hf,hH⟩
  | fresh v _ _ _ _ hH | last v _ _ _ _ hH | freed v _ _ _ hH =>
    rw [hH] at ht
    obtain ⟨_,rfl⟩ := solely_eq ht
    cases hst

theorem of_fresh (h : F.Stands H) (ht : H t = some .fresh) :
    F.refs = [.thread t] ∧ F.frees = 0 ∧ F.privateData = false ∧ F.live = false ∧
      H = solely t .fresh := by
  cases h with
  | closed _ _ _ _ hH =>
    rw [hH] at ht
    cases ht
  | opened _ _ _ _ hH => cases hH t _ ht
  | fresh v hr hp hl hf hH =>
    rw [hH] at ht
    obtain ⟨rfl,_⟩ := solely_eq ht
    exact ⟨hr,hf,hp,hl,hH⟩
  | last v _ _ _ _ hH | freed v _ _ _ hH =>
    rw [hH] at ht
    obtain ⟨_,he⟩ := solely_eq ht
    cases he

theorem of_last (h : F.Stands H) (ht : H t = some .last) :
    F.refs = [] ∧ F.privateData = true ∧ F.live = true ∧ F.frees = 0 ∧ H = solely t .last := by
  cases h with
  | closed _ _ _ _ hH =>
    rw [hH] at ht
    cases ht
  | opened _ _ _ _ hH => cases hH t _ ht
  | last v hr hp hl hf hH =>
    rw [hH] at ht
    obtain ⟨rfl,_⟩ := solely_eq ht
    exact ⟨hr,hp,hl,hf,hH⟩
  | fresh v _ _ _ _ hH | freed v _ _ _ hH =>
    rw [hH] at ht
    obtain ⟨_,he⟩ := solely_eq ht
    cases he

theorem of_freed (h : F.Stands H) (ht : H t = some .freed) :
    F.refs = [] ∧ F.live = false ∧ F.frees = 1 ∧ H = solely t .freed := by
  cases h with
  | closed _ _ _ _ hH =>
    rw [hH] at ht
    cases ht
  | opened _ _ _ _ hH => cases hH t _ ht
  | freed v hr hl hf hH =>
    rw [hH] at ht
    obtain ⟨rfl,_⟩ := solely_eq ht
    exact ⟨hr,hl,hf,hH⟩
  | fresh v _ _ _ _ hH | last v _ _ _ _ hH =>
    rw [hH] at ht
    obtain ⟨_,he⟩ := solely_eq ht
    cases he

end File.Stands

namespace File.Sound

variable {m m' : Option Nat} {D D' : Site → Prop} {k : Site} {γ : Option Stage}

/-- A file that has a site is open. -/
theorem of_site (h : F.Sound m D H) (hk : D k) : F.refs ≠ [] ∧ F.privateData = true ∧
    F.live = true ∧ F.frees = 0 ∧ ∀ u, ∀ st ∈ H u, st.uses = true := by
  have hm := (h.site k).mpr hk
  cases h.stands with
  | closed hr | last _ hr | freed _ hr =>
    rw [hr] at hm
    cases hm
  | fresh t hr =>
    rw [hr] at hm
    simp at hm
  | opened hr hp hl hf hH => exact ⟨hr,hp,hl,hf,hH⟩

theorem not_thread (h : F.Sound m D H) (ht : H t = none) : .thread t ∉ F.refs := by
  rw [h.thread,ht]
  rintro ⟨_,hst,_⟩
  cases hst

/-- A reference to an open file comes, goes or changes hands. -/
theorem refer (h : F.Sound m D H) {refs : List Ref} (hp : F.privateData = true)
    (hl : F.live = true) (hf : F.frees = 0) (hH : ∀ u, ∀ st ∈ H u, st.uses = true)
    (hnd : refs.Nodup) (hne : refs ≠ []) (hsite : ∀ j, .site j ∈ refs ↔ D' j)
    (hself : .thread t ∈ refs ↔ ∃ st ∈ γ, st.refers = true)
    (hother : ∀ u, u ≠ t → (.thread u ∈ refs ↔ .thread u ∈ F.refs))
    (huses : ∀ st ∈ γ, st.uses = true) (ht : H t ≠ some (.inside true)) :
    File.Sound { F with refs := refs } m D' (Function.update H t γ) where
  nodup := hnd
  site := hsite
  thread u := by
    by_cases hu : u = t
    · subst u
      rw [Function.update_self]
      exact hself
    · rw [Function.update_of_ne hu]
      exact (hother u hu).trans (h.thread u)
  stands := by
    refine .opened hne hp hl hf (fun u st hst => ?_)
    by_cases hu : u = t
    · subst u
      rw [Function.update_self] at hst
      exact huses st hst
    · rw [Function.update_of_ne hu] at hst
      exact hH u st hst
  msg hm := by
    obtain ⟨u,hu⟩ := h.msg hm
    have hut : u ≠ t := fun e => ht (e ▸ hu)
    exact ⟨u,by rwa [Function.update_of_ne hut]⟩

/-- A file that nobody has had yet. -/
theorem nobody (h : File.Sound ⟨[],false,false,0⟩ m D H) : H = fun _ => none := by
  cases h.stands with
  | closed _ _ _ _ hH => exact hH
  | fresh _ hr => cases hr
  | opened hr => exact absurd rfl hr
  | last _ _ hp => cases hp
  | freed _ _ _ hf => cases hf

theorem get (h : File.Sound ⟨[],false,false,0⟩ m D H) :
    File.Sound ⟨[.thread t],false,false,0⟩ m D (Function.update H t (some .fresh)) := by
  obtain rfl := h.nobody
  refine ⟨by simp,fun j => ?_,fun u => ?_,.fresh t rfl rfl rfl rfl rfl,fun hm => ?_⟩
  · rw [← h.site j]
    simp
  · by_cases hu : u = t
    · subst u
      simp [Stage.refers]
    · simp [hu]
  · obtain ⟨_,hu⟩ := h.msg hm
    cases hu

/-- A new job has no buffer. -/
theorem openJob (h : F.Sound m D H) (ht : H t = some .fresh) :
    File.Sound { F with privateData := true, live := true } none D
      (Function.update H t (some .opened)) := by
  obtain ⟨hr,hf,_,_,rfl⟩ := h.stands.of_fresh ht
  refine ⟨h.nodup,h.site,fun u => ?_,.opened ?_ rfl rfl hf (fun u st hst => ?_),
    fun hm => absurd rfl hm⟩
  · rw [h.thread]
    by_cases hu : u = t
    · subst u
      simp [solely,Stage.refers]
    · simp [solely,hu]
  · simp [hr]
  · rw [update_solely] at hst
    obtain ⟨_,rfl⟩ := solely_eq hst
    rfl

theorem drop (h : F.Sound m D H) (ht : H t = some .fresh) :
    File.Sound { F with refs := [] } m D (Function.update H t none) := by
  obtain ⟨hr,hf,hp,hl,rfl⟩ := h.stands.of_fresh ht
  rw [update_solely_none]
  refine ⟨List.nodup_nil,fun j => ?_,fun u => by simp,.closed rfl hp hl (by simp [hf]) rfl,
    fun hm => ?_⟩
  · rw [← h.site j,hr]
    simp
  · obtain ⟨u,hu⟩ := h.msg hm
    obtain ⟨_,he⟩ := solely_eq hu
    cases he

/-- A thread's reference becomes that of a new descriptor. -/
theorem install (h : F.Sound m D H) (ht : H t = some .opened ∨ H t = some (.inside false))
    (hk : ¬ D k) (hD : ∀ j, D' j ↔ j = k ∨ D j) :
    File.Sound { F with refs := .site k :: F.refs.erase (.thread t) } m D'
      (Function.update H t none) := by
  have hopen : F.refs ≠ [] ∧ F.privateData = true ∧ F.live = true ∧ F.frees = 0 ∧
      ∀ u, ∀ st ∈ H u, st.uses = true := by
    rcases ht with ht | ht <;> exact h.stands.of_uses ht rfl
  obtain ⟨_,hp,hl,hf,hH⟩ := hopen
  have hfresh : .site k ∉ F.refs := fun hm => hk ((h.site k).mp hm)
  refine h.refer hp hl hf hH ?_ (by simp) (fun j => ?_) ?_ (fun u hu => ?_) (by simp) ?_
  · exact List.nodup_cons.mpr ⟨fun hm => hfresh (List.mem_of_mem_erase hm),h.nodup.erase _⟩
  · rw [hD,← h.site j]
    simp [List.mem_erase_of_ne]
  · simp [h.nodup.not_mem_erase]
  · simp [List.mem_erase_of_ne,hu]
  · rcases ht with ht | ht <;> simp [ht]

/-- New sites get references of their own. -/
theorem share (h : F.Sound m D H) (ht : H t = some (.inside false)) {ks : List Site}
    (hnd : ks.Nodup) (hks : ∀ k ∈ ks, ¬ D k) (hD : ∀ j, D' j ↔ j ∈ ks ∨ D j) :
    File.Sound { F with refs := ks.map .site ++ F.refs } m D'
      (Function.update H t (some (.inside false))) := by
  obtain ⟨hr,hp,hl,hf,hH⟩ := h.stands.of_uses ht rfl
  have hself : .thread t ∈ F.refs := (h.thread t).mpr ⟨_,ht,rfl⟩
  refine h.refer hp hl hf hH ?_ (by simp [hr]) (fun j => ?_) ?_ (fun u hu => ?_) ?_ (by simp [ht])
  · refine List.Nodup.append (hnd.map (fun j j' hj => Ref.site.inj hj)) h.nodup (fun r hr hr' => ?_)
    obtain ⟨j,hj,rfl⟩ := List.mem_map.mp hr
    exact hks j hj ((h.site j).mp hr')
  · rw [hD,← h.site j]
    simp
  · simp [hself,Stage.refers]
  · simp
  · simp [Stage.uses]

/-- A thread gets to a file by a descriptor. -/
theorem enter (h : F.Sound m D H) (ht : H t = none) (hk : D k) :
    File.Sound { F with refs := .thread t :: F.refs } m D
      (Function.update H t (some (.inside false))) := by
  obtain ⟨_,hp,hl,hf,hH⟩ := h.of_site hk
  refine h.refer hp hl hf hH (List.nodup_cons.mpr ⟨h.not_thread ht,h.nodup⟩) (by simp)
    (fun j => ?_) ?_ (fun u hu => ?_) ?_ (by simp [ht])
  · rw [← h.site j]
    simp
  · simp [Stage.refers]
  · simp [hu]
  · simp [Stage.uses]

/-- A site's reference becomes that of the thread that takes it. -/
theorem take (h : F.Sound m D H) (ht : H t = none) (hk : D k) (hD : ∀ j, D' j ↔ j ≠ k ∧ D j) :
    File.Sound { F with refs := .thread t :: F.refs.erase (.site k) } m D'
      (Function.update H t (some (.inside false))) := by
  obtain ⟨_,hp,hl,hf,hH⟩ := h.of_site hk
  refine h.refer hp hl hf hH ?_ (by simp) (fun j => ?_) ?_ (fun u hu => ?_) ?_ (by simp [ht])
  · exact List.nodup_cons.mpr ⟨fun hm => h.not_thread ht (List.mem_of_mem_erase hm),h.nodup.erase _⟩
  · rw [hD,← h.site j]
    by_cases hj : j = k
    · subst j
      simp [h.nodup.not_mem_erase]
    · simp [hj,List.mem_erase_of_ne]
  · simp [Stage.refers]
  · simp [hu,List.mem_erase_of_ne]
  · simp [Stage.uses]

/-- Who drops the last reference is alone with the file. -/
theorem put (h : F.Sound m D H) (ht : H t = some (.inside false)) :
    File.Sound { F with refs := F.refs.erase (.thread t) } m D
      (Function.update H t (if (F.refs.erase (.thread t)).isEmpty then some .last else none)) := by
  obtain ⟨_,hp,hl,hf,hH⟩ := h.stands.of_uses ht rfl
  have hsite (k : Site) : .site k ∈ F.refs.erase (.thread t) ↔ D k := by
    rw [← h.site k]
    simp [List.mem_erase_of_ne]
  have hother (u : Nat) (hu : u ≠ t) :
      .thread u ∈ F.refs.erase (.thread t) ↔ .thread u ∈ F.refs := by
    simp [List.mem_erase_of_ne,hu]
  by_cases hempty : F.refs.erase (.thread t) = []
  · have hall (u : Nat) (hu : u ≠ t) : H u = none := by
      cases hst : H u with
      | none => rfl
      | some st =>
        have huses := hH u st hst
        have hm := (hother u hu).mpr
          ((h.thread u).mpr ⟨st,hst,by cases st <;> first | rfl | cases huses⟩)
        rw [hempty] at hm
        cases hm
    have hlast : Function.update H t (some .last) = solely t .last := by
      funext u
      by_cases hu : u = t
      · subst u
        simp [solely]
      · simp [solely,hu,hall u hu]
    rw [hempty,List.isEmpty_nil,if_pos rfl,hlast]
    refine ⟨List.nodup_nil,fun k => ?_,fun u => ?_,.last t rfl hp hl hf rfl,fun hm => ?_⟩
    · rw [← hsite k,hempty]
    · constructor
      · exact fun hm => by cases hm
      · rintro ⟨st,hst,hr⟩
        obtain ⟨_,rfl⟩ := solely_eq hst
        cases hr
    · obtain ⟨u,hu⟩ := h.msg hm
      by_cases hut : u = t
      · subst u
        rw [ht] at hu
        cases hu
      · rw [hall u hut] at hu
        cases hu
  · rw [if_neg (by simpa using hempty)]
    exact h.refer hp hl hf hH (h.nodup.erase _) hempty hsite (by simp [h.nodup.not_mem_erase])
      hother (by simp) (by simp [ht])

theorem free (h : F.Sound m D H) (ht : H t = some .last) :
    File.Sound { F with live := false, frees := F.frees+1 } m D
      (Function.update H t (some .freed)) := by
  obtain ⟨hr,hp,hl,hf,rfl⟩ := h.stands.of_last ht
  refine ⟨h.nodup,h.site,fun u => ?_,.freed t hr rfl (by simp [hf]) (update_solely _),fun hm => ?_⟩
  · rw [h.thread,update_solely]
    by_cases hu : u = t
    · subst u
      simp [solely,Stage.refers]
    · simp [solely,hu]
  · obtain ⟨u,hu⟩ := h.msg hm
    obtain ⟨_,he⟩ := solely_eq hu
    cases he

theorem clear (h : F.Sound m D H) (ht : H t = some .freed) :
    File.Sound { F with privateData := false } m D (Function.update H t none) := by
  obtain ⟨hr,hl,hf,rfl⟩ := h.stands.of_freed ht
  rw [update_solely_none]
  refine ⟨h.nodup,h.site,fun u => ?_,.closed hr rfl hl (by simp [hf]) rfl,fun hm => ?_⟩
  · simp [hr]
  · obtain ⟨u,hu⟩ := h.msg hm
    obtain ⟨_,he⟩ := solely_eq hu
    cases he

/-- A thread inside a system call stores to the job or looks into it. -/
theorem work (h : F.Sound m D H) {b b' : Bool} (ht : H t = some (.inside b))
    (hm' : m' ≠ none → b' = true ∨ (m ≠ none ∧ b = false)) :
    F.Sound m' D (Function.update H t (some (.inside b'))) := by
  obtain ⟨hr,hp,hl,hf,hH⟩ := h.stands.of_uses ht rfl
  refine ⟨h.nodup,h.site,fun u => ?_,.opened hr hp hl hf (fun u st hst => ?_),fun hm => ?_⟩
  · rw [h.thread]
    by_cases hu : u = t
    · subst u
      simp [ht,Stage.refers]
    · rw [Function.update_of_ne hu]
  · by_cases hu : u = t
    · subst u
      rw [Function.update_self] at hst
      cases hst
      rfl
    · rw [Function.update_of_ne hu] at hst
      exact hH u st hst
  · obtain rfl | ⟨hm,rfl⟩ := hm' hm
    · exact ⟨t,Function.update_self ..⟩
    · obtain ⟨u,hu⟩ := h.msg hm
      have hut : u ≠ t := by
        rintro rfl
        rw [ht] at hu
        cases hu
      exact ⟨u,by rwa [Function.update_of_ne hut]⟩

end File.Sound

end

/-- The files are as the hands of the threads have it, and those to come are untouched. -/
structure Kept (g : Nat → Hand) (v : Vfs) : Prop where
  sound : ∀ f, (v.files f).Sound (v.drv.jobs f).msg (fun k => v.sites k = some f)
    (fun t => Hand.at (g t) f)
  new : ∀ f, v.nfile ≤ f → v.files f = ⟨[],false,false,0⟩

section
variable {g : Nat → Hand} {v v' : Vfs} {t f n : Nat} {γ : Hand} {st : Stage}

@[simp] theorem hand_none (f : Nat) : Hand.at none f = none := rfl

@[simp] theorem hand_some (f : Nat) (st : Stage) : Hand.at (some (f,st)) f = some st := by
  simp [Hand.at]

theorem hand_other {e : Nat} (h : e ≠ f) : Hand.at (some (f,st)) e = none := by
  simp [Hand.at,Ne.symm h]

theorem hand_update (f : Nat) : (fun u => Hand.at (Function.update g t γ u) f) =
    Function.update (fun u => Hand.at (g u) f) t (Hand.at γ f) := by
  funext u
  by_cases hu : u = t
  · subst u
    simp
  · simp [hu]

theorem Kept.lt_of_hand (h : Kept g v) (ht : Hand.at (g t) f = some st) : f < v.nfile := by
  by_contra hf
  have hs := h.sound f
  rw [h.new f (by omega)] at hs
  rw [show Hand.at (g t) f = none from congrFun hs.nobody t] at ht
  cases ht

theorem Kept.lt_of_site {k : Site} (h : Kept g v) (hk : v.sites k = some f) : f < v.nfile := by
  by_contra hf
  have hs := (h.sound f).of_site hk
  rw [h.new f (by omega)] at hs
  exact hs.1 rfl

/-- A step of thread `t` that concerns file `f` only. -/
theorem Kept.move (h : Kept g v) (f : Nat)
    (hf : (v'.files f).Sound (v'.drv.jobs f).msg (fun k => v'.sites k = some f)
      (Function.update (fun u => Hand.at (g u) f) t (Hand.at γ f)))
    (hfile : ∀ e, e ≠ f → v'.files e = v.files e)
    (hmsg : ∀ e, e ≠ f → (v'.drv.jobs e).msg = (v.drv.jobs e).msg)
    (hsites : ∀ e, e ≠ f → ∀ k, v'.sites k = some e ↔ v.sites k = some e)
    (hhand : ∀ e, e ≠ f → Hand.at (g t) e = none ∧ Hand.at γ e = none)
    (hle : v.nfile ≤ v'.nfile) (hlt : f < v'.nfile) : Kept (Function.update g t γ) v' where
  sound e := by
    rw [hand_update]
    by_cases he : e = f
    · subst e
      exact hf
    · have hsame : (fun k => v'.sites k = some e) = fun k => v.sites k = some e :=
        funext (fun k => propext (hsites e he k))
      obtain ⟨h₁,h₂⟩ := hhand e he
      rw [h₂,← h₁,Function.update_eq_self t (fun u => Hand.at (g u) e),hfile e he,hmsg e he,hsame]
      exact h.sound e
  new e he := by
    rw [hfile e (by omega)]
    exact h.new e (by omega)

theorem Kept.congr (h : Kept g v) {w : World}
    (hmsg : ∀ e, (w.jobs e).msg = (v.drv.jobs e).msg) : Kept g { v with drv := w } where
  sound e := by
    rw [hmsg e]
    exact h.sound e
  new := h.new

/-- One step on the references of a file that thread `t` is in. -/
theorem Kept.refile (h : Kept g v) {F : File} {sites : Site → Option Nat}
    (hg : ∀ e, e ≠ f → Hand.at (g t) e = none ∧ Hand.at γ e = none) (hlt : f < v.nfile)
    (hsites : ∀ e, e ≠ f → ∀ k, sites k = some e ↔ v.sites k = some e)
    (hF : F.Sound (v.drv.jobs f).msg (fun k => sites k = some f)
      (Function.update (fun u => Hand.at (g u) f) t (Hand.at γ f))) :
    Kept (Function.update g t γ) { v.setFile f F with sites := sites } := by
  refine h.move f ?_ (fun e he => ?_) (fun _ _ => rfl) hsites hg (Nat.le_refl _) hlt
  · simpa [Vfs.setFile] using hF
  · simp [Vfs.setFile,he]

theorem Act.stored_msg {a : Act} {jobs : Nat → Job} {e : Nat} (h : ∀ p, a ≠ .setMsg e p) :
    (a.stored jobs e).msg = (jobs e).msg := by
  cases a with
  | setFlag f y b =>
    by_cases he : e = f
    · subst e
      cases y <;> simp [Act.stored,Job.setFlag]
    · simp [Act.stored,he]
  | setLen f m =>
    by_cases he : e = f
    · subst e
      simp [Act.stored]
    · simp [Act.stored,he]
  | copyKey f arg =>
    by_cases he : e = f
    · subst e
      simp [Act.stored]
    · simp [Act.stored,he]
  | setMsg f p =>
    have he : e ≠ f := by
      rintro rfl
      exact h p rfl
    simp [Act.stored,he]
  | _ => rfl

theorem Vfs.drvExec_done {a : Act} {x : Choice} {r : a.Res}
    (h : v.drvExec t a x = some (.done r v')) :
    (∃ f, a = .privateData f ∧ v' = v) ∨
      ∃ w, World.exec t a x v.drv = some (.done r w) ∧ v' = { v with drv := w } := by
  unfold Vfs.drvExec at h
  split at h
  · cases h
    exact .inl ⟨_,rfl,rfl⟩
  · split at h
    · obtain ⟨o,ho,hv⟩ := Option.map_eq_some_iff.mp h
      cases o with
      | done r' w =>
        cases hv
        exact .inr ⟨w,ho,rfl⟩
      | stay w => cases hv
      | oops w => cases hv
    · cases h

/-- An action that does not finish leaves files and jobs alone. -/
theorem Vfs.drvExec_open {a : Act} {x : Choice} {o : Out Vfs a.Res}
    (h : v.drvExec t a x = some o) (ho : o = .stay v' ∨ o = .oops v') :
    ∃ w, v' = { v with drv := w } ∧ w.jobs = v.drv.jobs := by
  unfold Vfs.drvExec at h
  split at h
  · cases h
    rcases ho with ho | ho <;> cases ho
  · split at h
    · obtain ⟨o',he,rfl⟩ := Option.map_eq_some_iff.mp h
      cases o' with
      | done r w => rcases ho with ho | ho <;> cases ho
      | stay w =>
        rcases ho with ho | ho <;> cases ho
        obtain ⟨_,rfl⟩ := World.stay_task he
        exact ⟨_,rfl,rfl⟩
      | oops w =>
        rcases ho with ho | ho <;> cases ho
        obtain ⟨rfl,_⟩ := World.exec_oops he
        exact ⟨_,rfl,rfl⟩
    · cases h
      rcases ho with ho | ho <;> cases ho
      exact ⟨_,rfl,rfl⟩

theorem Vfs.exec_open {a : FAct} {x : Choice} {o : Out Vfs a.Res} (h : v.exec t a x = some o)
    (ho : o = .stay v' ∨ o = .oops v') : ∃ w, v' = { v with drv := w } ∧ w.jobs = v.drv.jobs := by
  have done {r : a.Res} {v₁ : Vfs} (hd : some (Out.done r v₁) = some o) :
      ∃ w, v' = { v with drv := w } ∧ w.jobs = v.drv.jobs := by
    cases hd
    rcases ho with ho | ho <;> cases ho
  cases a with
  | drv a => exact Vfs.drvExec_open h ho
  | getFile | kzallocJob f | fdget n | takeSite k | vmaAlloc | ioRemapPfnRange =>
    simp only [Vfs.exec] at h
    split at h <;> first | exact done h | cases h
  | fdInstall f | vmaLink f =>
    simp only [Vfs.exec] at h
    split at h
    · split at h <;> first | exact done h | cases h
    · cases h
  | _ => exact done h

/-- What an action of the driver on the job of `f` makes of what is owed. -/
theorem owing_next {a : Act} {x : Choice} {r : a.Res} {w : World} {b : Bool}
    (hok : a.job = none ∨ a.job = some f) (he : World.exec t a x v.drv = some (.done r w)) :
    ∃ b', (owing f).next b a r b' ∧ ((w.jobs f).msg ≠ none → b' = true ∨
      ((v.drv.jobs f).msg ≠ none ∧ b = false)) := by
  have hjobs := World.exec_jobs he
  have same (h : ∀ p, a ≠ .setMsg f p) : (w.jobs f).msg ≠ none → b = true ∨
      ((v.drv.jobs f).msg ≠ none ∧ b = false) := by
    rw [hjobs,Act.stored_msg h]
    cases b with
    | true => exact fun _ => .inl rfl
    | false => exact fun hm => .inr ⟨hm,rfl⟩
  cases a with
  | setMsg e p =>
    obtain hj | hj := hok
    · cases hj
    · cases hj
      refine ⟨p.isSome,rfl,fun hm => .inl ?_⟩
      rw [hjobs] at hm
      simpa [Act.stored,Option.ne_none_iff_isSome] using hm
  | msg e =>
    obtain hj | hj := hok
    · cases hj
    · cases hj
      cases he
      refine ⟨b && (v.drv.jobs f).msg.isSome,rfl,fun hm => ?_⟩
      obtain hb | hb := same (by simp) hm
      · rw [hb,Bool.true_and,← Option.ne_none_iff_isSome]
        exact .inl hm
      · exact .inr hb
  | _ => exact ⟨b,rfl,same (by simp)⟩

/-- A thread's action of the driver concerns the file that it is in, if any. -/
theorem Kept.drv {a : Act} {x : Choice} {r : a.Res} (h : Kept g v)
    (hok : handling.ok (g t) (.drv a)) (he : v.drvExec t a x = some (.done r v')) :
    ∃ γ, handling.next (g t) (.drv a) r γ ∧ Kept (Function.update g t γ) v' := by
  have elsewhere {w : World} (he : World.exec t a x v.drv = some (.done r w)) {e : Nat}
      (hj : a.job ≠ some e) : (w.jobs e).msg = (v.drv.jobs e).msg := by
    rw [World.exec_jobs he]
    exact Act.stored_msg (fun p ha => hj (by rw [ha]; rfl))
  by_cases hin : ∃ f b, g t = some (f,.inside b)
  · obtain ⟨f,b,ht⟩ := hin
    have hjob : a.job = none ∨ a.job = some f := by
      cases hj : a.job with
      | none => exact .inl rfl
      | some e =>
        obtain ⟨_,hb⟩ := hok e hj
        rw [ht] at hb
        cases hb
        exact .inr rfl
    obtain ⟨e,rfl,rfl⟩ | ⟨w,hw,rfl⟩ := Vfs.drvExec_done he
    · refine ⟨g t,?_,by rw [Function.update_eq_self]; exact h⟩
      rw [ht]
      exact ⟨b,rfl,rfl⟩
    · obtain ⟨b',hb,hm⟩ := owing_next (b := b) hjob hw
      refine ⟨some (f,.inside b'),by rw [ht]; exact ⟨b',hb,rfl⟩,?_⟩
      have hat : Hand.at (g t) f = some (.inside b) := by rw [ht,hand_some]
      refine h.move f ?_ (fun _ _ => rfl) (fun e hne => elsewhere hw ?_) (fun _ _ _ => Iff.rfl)
        (fun e hne => ?_) (Nat.le_refl _) (h.lt_of_hand hat)
      · rw [hand_some]
        exact (h.sound f).work hat hm
      · rintro hj
        obtain hj' | hj' := hjob <;> rw [hj'] at hj <;> cases hj
        exact hne rfl
      · rw [ht]
        exact ⟨hand_other hne,hand_other hne⟩
  · have hnext : handling.next (g t) (.drv a) r (g t) := by
      cases ht : g t with
      | none => rfl
      | some e =>
        obtain ⟨f,st⟩ := e
        cases st with
        | inside b => exact absurd ⟨f,b,ht⟩ hin
        | _ => rfl
    have hjob (e : Nat) : a.job ≠ some e := by
      intro hj
      obtain ⟨b,hb⟩ := hok e hj
      exact hin ⟨e,b,hb⟩
    refine ⟨g t,hnext,?_⟩
    rw [Function.update_eq_self]
    obtain ⟨e,rfl,rfl⟩ | ⟨w,hw,rfl⟩ := Vfs.drvExec_done he
    · exact h
    · exact h.congr (fun e => elsewhere hw (hjob e))

/-- A site that neither was nor becomes that of a file leaves its sites as they are. -/
theorem Vfs.setSite_other {k j : Site} {e : Nat} {o : Option Nat} (hk : v.sites k ≠ some e)
    (ho : o ≠ some e) : (v.setSite k o).sites j = some e ↔ v.sites j = some e := by
  by_cases hj : j = k
  · subst j
    simp [Vfs.setSite,hk,ho]
  · simp [Vfs.setSite,hj]

theorem cardPages_nodup (p : Nat) : (cardPages p).Nodup := by
  refine List.nodup_range.map (fun i j h => ?_)
  have hp : p + i = p + j := Site.page.inj h
  omega

theorem Vfs.fill_sites {ks : List Site} {k : Site} {e : Nat}
    (hks : ∀ j ∈ ks, v.sites j = none) :
    (v.fill ks f).sites k = some e ↔ (k ∈ ks ∧ f = e) ∨ v.sites k = some e := by
  by_cases hk : k ∈ ks
  · simp [Vfs.fill,hk,hks k hk]
  · simp [Vfs.fill,hk]

theorem Kept.done {a : FAct} {x : Choice} {r : a.Res} (h : Kept g v)
    (hok : handling.ok (g t) a) (he : v.exec t a x = some (.done r v')) :
    ∃ γ, handling.next (g t) a r γ ∧ Kept (Function.update g t γ) v' := by
  have only {f : Nat} {st st' : Stage} (ht : g t = some (f,st)) (e : Nat) (he : e ≠ f) :
      Hand.at (g t) e = none ∧ Hand.at (some (f,st')) e = none := by
    rw [ht]
    exact ⟨hand_other he,hand_other he⟩
  have off {f : Nat} {st : Stage} (ht : g t = some (f,st)) (e : Nat) (he : e ≠ f) :
      Hand.at (g t) e = none ∧ Hand.at none e = none := by
    rw [ht]
    exact ⟨hand_other he,rfl⟩
  have on {f : Nat} {st : Stage} (ht : g t = none) (e : Nat) (he : e ≠ f) :
      Hand.at (g t) e = none ∧ Hand.at (some (f,st)) e = none := by
    rw [ht]
    exact ⟨rfl,hand_other he⟩
  have at_ {f : Nat} {st : Stage} (ht : g t = some (f,st)) : Hand.at (g t) f = some st := by
    rw [ht,hand_some]
  have lt {f : Nat} {st : Stage} (ht : g t = some (f,st)) : f < v.nfile := h.lt_of_hand (at_ ht)
  have unmoved (hγ : g t = none) : Kept (Function.update g t none) v := by
    rw [← hγ,Function.update_eq_self]
    exact h
  cases a with
  | getFile =>
    simp only [Vfs.exec] at he
    split at he
    · cases he
      refine ⟨_,rfl,h.move v.nfile ?_ (fun e hne => ?_) (fun _ _ => rfl) (fun _ _ _ => Iff.rfl)
        (on hok) (Nat.le_succ _) (Nat.lt_succ_self _)⟩
      · have hs := h.sound v.nfile
        rw [h.new _ (Nat.le_refl _)] at hs
        simpa [Vfs.getFile,Vfs.setFile] using hs.get
      · simp [Vfs.getFile,Vfs.setFile,hne]
    · cases he
      exact ⟨_,rfl,unmoved hok⟩
    · cases he
  | dropFile f =>
    cases he
    exact ⟨_,rfl,h.refile (off hok) (lt hok) (fun _ _ _ => Iff.rfl) ((h.sound f).drop (at_ hok))⟩
  | fdInstall f =>
    simp only [Vfs.exec] at he
    split at he
    · split at he
      · rename_i hfree
        cases he
        have hinto : (Hand.at (g t) f = some .opened ∨ Hand.at (g t) f = some (.inside false)) ∧
            f < v.nfile ∧ ∀ e, e ≠ f → Hand.at (g t) e = none ∧ Hand.at none e = none := by
          rcases hok with ht | ht
          · exact ⟨.inl (at_ ht),lt ht,off ht⟩
          · exact ⟨.inr (at_ ht),lt ht,off ht⟩
        obtain ⟨ht,hlt,hoff⟩ := hinto
        refine ⟨_,rfl,h.refile hoff hlt (fun e hne k => ?_)
          ((h.sound f).install ht ?_ (fun k => ?_))⟩
        · exact Vfs.setSite_other (by simp [hfree]) (by simp [Ne.symm hne])
        · simp [hfree]
        · by_cases hk : k = .fd r
          · subst k
            simp [Vfs.setSite]
          · simp [Vfs.setSite,hk]
      · cases he
    · cases he
  | fdget n =>
    simp only [Vfs.exec] at he
    split at he
    · rename_i f hf
      cases he
      refine ⟨some (f,.inside false),rfl,
        h.refile (on hok) (h.lt_of_site hf) (fun _ _ _ => Iff.rfl) ?_⟩
      rw [hand_some]
      exact (h.sound f).enter (by rw [hok]; rfl) hf
    · cases he
      exact ⟨_,rfl,unmoved hok⟩
  | takeSite k =>
    simp only [Vfs.exec] at he
    split at he
    · rename_i f hf
      cases he
      refine ⟨some (f,.inside false),rfl,
        h.refile (on hok) (h.lt_of_site hf) (fun e hne j => ?_) ?_⟩
      · exact Vfs.setSite_other (by simp [hf,Ne.symm hne]) (by simp)
      · rw [hand_some]
        refine (h.sound f).take (by rw [hok]; rfl) hf (fun j => ?_)
        by_cases hj : j = k
        · subst j
          simp [Vfs.setSite]
        · simp [Vfs.setSite,hj]
    · cases he
      exact ⟨_,rfl,unmoved hok⟩
  | putRef f =>
    cases he
    have hs := (h.sound f).put (at_ hok)
    by_cases hempty : ((v.files f).refs.erase (.thread t)).isEmpty = true
    · rw [if_pos hempty] at hs
      refine ⟨some (f,.last),(if_pos hempty).symm,?_⟩
      exact h.refile (only hok) (lt hok) (fun _ _ _ => Iff.rfl) (by rwa [hand_some])
    · rw [if_neg hempty] at hs
      refine ⟨none,(if_neg hempty).symm,?_⟩
      exact h.refile (off hok) (lt hok) (fun _ _ _ => Iff.rfl) hs
  | vmaAlloc | ioRemapPfnRange =>
    have hv : v' = v := by
      simp only [Vfs.exec] at he
      split at he <;> cases he <;> rfl
    refine ⟨g t,rfl,?_⟩
    rw [Function.update_eq_self,hv]
    exact h
  | vmaLink f =>
    simp only [Vfs.exec] at he
    split at he
    · split at he
      · rename_i hfree
        cases he
        refine ⟨some (f,.inside false),hok.symm,
          h.refile (only hok) (lt hok) (fun e hne k => ?_) ?_⟩
        · rw [Vfs.fill_sites hfree.2]
          simp [Ne.symm hne]
        · rw [hand_some]
          refine (h.sound f).share (at_ hok) (cardPages_nodup r) (fun k hk => ?_) (fun k => ?_)
          · simp [hfree.2 k hk]
          · rw [Vfs.fill_sites hfree.2]
            simp
      · cases he
    · cases he
  | kzallocJob f =>
    simp only [Vfs.exec] at he
    split at he
    · cases he
      refine ⟨_,rfl,h.move f ?_ (fun e hne => ?_) (fun e hne => ?_) (fun _ _ _ => Iff.rfl)
        (only hok) (Nat.le_refl _) (lt hok)⟩
      · simpa [Vfs.openJob,Vfs.setFile,World.setJob,pciOpen] using (h.sound f).openJob (at_ hok)
      · simp [Vfs.openJob,Vfs.setFile,hne]
      · simp [Vfs.openJob,World.setJob,hne]
    · cases he
      refine ⟨g t,hok,?_⟩
      rw [Function.update_eq_self]
      exact h
    · cases he
  | kfreeJob f =>
    cases he
    refine ⟨_,rfl,h.refile (only hok) (lt hok) (fun _ _ _ => Iff.rfl) ?_⟩
    rw [hand_some]
    exact (h.sound f).free (at_ hok)
  | clearPrivateData f =>
    cases he
    exact ⟨_,rfl,h.refile (off hok) (lt hok) (fun _ _ _ => Iff.rfl) ((h.sound f).clear (at_ hok))⟩
  | drv a => exact h.drv hok he

end

def handAssertions : Assertions handling Vfs FCall Int where
  J g s := Kept g s.world
  Idle _ _ γ := γ = none
  Began _ _ _ _ γ := γ = none
  Post _ _ _ _ γ := γ = none
  Dead _ := True
  Link _ _ := True

theorem World.env_jobs {c : Cipher} {e : World.Env} {w w' : World}
    (h : World.env c e w = some w') : w'.jobs = w.jobs := by
  obtain ⟨_,o,_,_,rfl⟩ | ⟨_,k,_,rfl⟩ := World.env_cases h
  · exact World.transform_jobs c w o
  · rfl

theorem handOutline (c : Cipher) :
    Outline (fileSystem c) (fun _ _ => True) handAssertions where
  call {s g t cl} h _ ht := by
    have hi := h.2 t
    rw [ht] at hi
    have hi : g t = none := hi
    refine ⟨none,?_,rfl,fcode_handling cl⟩
    rw [← hi,Function.update_eq_self]
    exact h.1
  ret _ _ hp := hp
  leave h _ := h.1
  link_refl _ := trivial
  link _ _ := trivial
  done h _ ht he := Kept.done h.1 (h.ok ht) he
  stay h _ _ he := by
    obtain ⟨w,rfl,hj⟩ := Vfs.exec_open he (.inl rfl)
    exact Kept.congr h.1 (fun e => by rw [hj])
  oops h _ _ he := by
    obtain ⟨w,rfl,hj⟩ := Vfs.exec_open he (.inr rfl)
    exact ⟨trivial,Kept.congr h.1 (fun e => by rw [hj])⟩
  env h _ he := by
    obtain ⟨w,hw,rfl⟩ := Option.map_eq_some_iff.mp he
    exact Kept.congr h.1 (fun e => by rw [World.env_jobs hw])

theorem Kept.closed (w : World) (hw : ∀ f, (w.jobs f).msg = none) :
    Kept (fun _ => none) (.closed w) where
  sound f := by
    refine ⟨List.nodup_nil,fun k => ?_,fun t => ?_,.closed rfl rfl rfl (Nat.zero_le _) rfl,?_⟩
    · simp [Vfs.closed]
    · simp [Vfs.closed]
    · exact fun hm => absurd (hw f) hm
  new _ _ := rfl

theorem unopened_holds (umem mem : Nat → Byte) :
    handAssertions.Holds (unopened (World.boot umem mem)) (fun _ => none) :=
  ⟨Kept.closed _ (fun _ => rfl),fun _ => rfl⟩

/-- The file that an action concerns. -/
def FAct.file : FAct → Option Nat
  | .dropFile f | .fdInstall f | .putRef f | .vmaLink f => some f
  | .kzallocJob f | .kfreeJob f | .clearPrivateData f => some f
  | .drv a => a.job
  | .getFile | .fdget _ | .takeSite _ | .vmaAlloc | .ioRemapPfnRange => none

section
variable {γ : Hand} {a : FAct} {f : Nat}

/-- A thread is concerned with the file that its next action is about. -/
theorem hand_of_file (hok : handling.ok γ a) (ha : a.file = some f) : Hand.at γ f ≠ none := by
  have some_ {st : Stage} (h : γ = some (f,st)) : Hand.at γ f ≠ none := by
    rw [h,hand_some]
    simp
  cases a with
  | drv a =>
    obtain ⟨b,hb⟩ := hok f ha
    exact some_ hb
  | fdInstall e =>
    cases ha
    rcases hok with h | h <;> exact some_ h
  | getFile | fdget n | takeSite k | vmaAlloc | ioRemapPfnRange => cases ha
  | _ =>
    cases ha
    exact some_ hok

/-- While all threads are out of calls, what is allocated is what sites lead to. -/
theorem File.Sound.resting {F : File} {m : Option Nat} {D : Site → Prop}
    (h : F.Sound m D (fun _ => none)) : (F.live = true ↔ ∃ k, D k) ∧ m = none := by
  refine ⟨⟨fun hl => ?_,fun hk => hk.elim (fun _ hk => (h.of_site hk).2.2.1)⟩,?_⟩
  · cases h.stands with
    | opened hr _ _ _ _ =>
      obtain ⟨r,hr⟩ := List.exists_mem_of_ne_nil _ hr
      cases r with
      | site k => exact ⟨k,(h.site k).mp hr⟩
      | thread t =>
        obtain ⟨_,hst,_⟩ := (h.thread t).mp hr
        cases hst
    | closed _ _ hl' | freed _ _ hl' =>
      rw [hl'] at hl
      cases hl
    | fresh t _ _ _ _ hH | last t _ _ _ _ hH =>
      have ht := congrFun hH t
      rw [solely,Function.update_self] at ht
      cases ht
  · by_contra hm
    obtain ⟨_,ht⟩ := h.msg hm
    cases ht

theorem File.Sound.frees_le {F : File} {m : Option Nat} {D : Site → Prop}
    {H : Nat → Option Stage} (h : F.Sound m D H) : F.frees ≤ 1 := by
  cases h.stands with
  | closed _ _ _ hf => exact hf
  | fresh _ _ _ _ hf | opened _ _ _ hf | last _ _ _ _ hf | freed _ _ _ hf => omega

end

/-- Whoever opens, duplicates, maps, unmaps, closes and uses handles in whichever order: an
action of the driver on a job finds it allocated and `private_data` set; `pci_release` comes
when nothing refers to the file any more and nobody else is concerned with it, and finds a job
that has not been freed and has no buffer; and once all calls have returned, the jobs that are
allocated are those behind open descriptors and mapped pages. -/
theorem jobs_last_as_long_as_handles (c : Cipher) (umem mem : Nat → Byte) {s : FSystem}
    (hr : (fileSystem c).Reaches (fun _ _ => True) (unopened (World.boot umem mem)) s) :
    (∀ t a f, s.next t = some (.drv a) → a.job = some f →
      (s.world.files f).live = true ∧ (s.world.files f).privateData = true) ∧
    (∀ t f, s.next t = some (.kfreeJob f) →
      s.world.files f = ⟨[],true,true,0⟩ ∧ (s.world.drv.jobs f).msg = none ∧
      ∀ u a, u ≠ t → s.next u = some a → a.file ≠ some f) ∧
    (∀ f, (s.world.files f).frees ≤ 1) ∧
    ((∀ t, s.thr t = .idle) → ∀ f, ((s.world.files f).live = true ↔
      ∃ k, s.world.sites k = some f) ∧ (s.world.drv.jobs f).msg = none) := by
  obtain ⟨g,hg⟩ := (handOutline c).reaches (unopened_holds umem mem) hr
  have hk : Kept g s.world := hg.1
  refine ⟨fun t a f ht ha => ?_,fun t f ht => ?_,fun f => (hk.sound f).frees_le,fun hidle f => ?_⟩
  · obtain ⟨b,hb⟩ := hg.next ht f ha
    have hat : Hand.at (g t) f = some (.inside b) := by rw [hb,hand_some]
    obtain ⟨_,hp,hl,_⟩ := (hk.sound f).stands.of_uses hat rfl
    exact ⟨hl,hp⟩
  · have hlast : g t = some (f,.last) := hg.next ht
    have hat : Hand.at (g t) f = some .last := by rw [hlast,hand_some]
    obtain ⟨hrefs,hp,hl,hf,hH⟩ := (hk.sound f).stands.of_last hat
    refine ⟨?_,?_,fun u a hu hnext ha => hand_of_file (hg.next hnext) ha ?_⟩
    · generalize s.world.files f = F at hrefs hp hl hf ⊢
      cases F
      simp_all only
    · by_contra hm
      obtain ⟨u,hst⟩ := (hk.sound f).msg hm
      obtain ⟨_,he⟩ := solely_eq ((congrFun hH u).symm.trans hst)
      cases he
    · have hother := congrFun hH u
      rw [solely,Function.update_of_ne hu] at hother
      exact hother
  · have hnone : (fun t => Hand.at (g t) f) = fun _ => none := by
      funext t
      have ht := hg.2 t
      rw [hidle t] at ht
      have ht : g t = none := ht
      rw [ht,hand_none]
    have hs := hk.sound f
    rw [hnone] at hs
    exact hs.resting

/-- One thread closes the handle while another is in an ioctl on it, up to the release. -/
def closedInIoctl : List (Label FCall World.Env Choice) :=
  [.call 0 .createHandle,.act 0 .ok,.act 0 .ok,.act 0 (.value 3),.ret 0,
    .call 1 (.calls (perform (.ioctl 3 SET_KEY [7,0,0,0]))),.act 1 .ok,.act 1 .ok,
    .call 0 (.closeHandle 3),.act 0 .ok,.act 0 .ok,.ret 0,.act 1 .ok,.act 1 .ok]

/-- A handle that is closed while it is mapped. -/
def closedWhileMapped : List (Label FCall World.Env Choice) :=
  [.call 0 .createHandle,.act 0 .ok,.act 0 .ok,.act 0 (.value 3),.ret 0,
    .call 0 (.mapCard 3 4096),.act 0 .ok,.act 0 .ok,.act 0 .ok,.act 0 (.value 16),.act 0 .ok,.ret 0,
    .call 0 (.closeHandle 3),.act 0 .ok,.act 0 .ok,.ret 0]

/-- The job is there for the mapping, with no descriptor left. -/
example : ∃ s, (fileSystem (.bytewise fun _ _ x => x)).Reaches (fun _ _ => True)
      (unopened (World.boot (fun _ => 0) (fun _ => 0))) s ∧
    s.world.sites (.fd 3) = none ∧ s.world.sites (.page 271) = some 0 ∧
    (s.world.files 0).live = true := by
  obtain ⟨s,hr,_,hp⟩ := Machine.exists_reaches (M := fileSystem (.bytewise fun _ _ x => x))
    (P := fun _ _ => True) (n := 1) (b := fun _ _ => true)
    (p := fun s => s.world.sites (.fd 3) == none && s.world.sites (.page 271) == some 0 &&
      (s.world.files 0).live)
    (fun _ _ _ _ => trivial) closedWhileMapped
    (s := unopened (World.boot (fun _ => 0) (fun _ => 0))) (fun _ _ => rfl) (by decide +kernel)
  simp only [Bool.and_eq_true,beq_iff_eq] at hp
  exact ⟨s,hr,hp.1.1,hp.1.2,hp.2⟩

/-- The ioctl's thread is the one that releases the job. -/
theorem jobs_last_as_long_as_handles_closed : ∃ s,
    (fileSystem (.bytewise fun _ _ x => x)).Reaches (fun _ _ => True)
      (unopened (World.boot (fun _ => 0) (fun _ => 0))) s ∧
    s.next 1 = some (.kfreeJob 0) ∧ (s.world.drv.jobs 0).keyab = 7 ∧
    s.world.files 0 = ⟨[],true,true,0⟩ := by
  obtain ⟨s,hr,_,hp⟩ := Machine.exists_reaches (M := fileSystem (.bytewise fun _ _ x => x))
    (P := fun _ _ => True) (n := 2) (b := fun _ _ => true)
    (p := fun s => s.next 1 == some (.kfreeJob 0) && (s.world.drv.jobs 0).keyab == 7)
    (fun _ _ _ _ => trivial) closedInIoctl
    (s := unopened (World.boot (fun _ => 0) (fun _ => 0))) (fun _ _ => rfl) (by decide +kernel)
  simp only [Bool.and_eq_true,beq_iff_eq] at hp
  exact ⟨s,hr,hp.1,hp.2,((jobs_last_as_long_as_handles _ _ _ hr).2.1 1 0 hp.1).1⟩

end CryptoCard
