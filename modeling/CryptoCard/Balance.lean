import CryptoCard.Loading
set_option autoImplicit false

/-! What probe and remove hold and give back along every sequence of calls by the
PCI core, for one card and for several. -/
namespace CryptoCard
open Memory Program Interleave Acquisitions

/-- The cards whose last probe succeeded, by the calls that are over. -/
def inService : List (KCall × Int) → List Nat
  | [] => []
  | (.probe d,r) :: hs => if r = 0 then d :: inService hs else inService hs
  | (.remove d,_) :: hs => (inService hs).erase d
  | _ :: hs => inService hs

/-- Thread 0 is the PCI core: it probes unbound cards and removes bound ones. The other
threads make file operations and interrupts. -/
def PciEvents (s : KSystem) : KStep → Prop
  | .call t (.probe d) => t = 0 ∧ d ∉ inService (s.hist 0)
  | .call t (.remove d) => t = 0 ∧ d ∈ inService (s.hist 0)
  | .call t _ => t ≠ 0
  | _ => True

instance (s : KSystem) : DecidablePred (PciEvents s)
  | .call _ (.probe _) | .call _ (.remove _) => inferInstanceAs (Decidable (_ ∧ _))
  | .call _ (.irq _) | .call _ (.openFile _) | .call _ (.write _ _ _) =>
    inferInstanceAs (Decidable (_ ≠ _))
  | .call _ (.ioctl _ _ _) | .call _ (.mmap _) => inferInstanceAs (Decidable (_ ≠ _))
  | .act _ _ | .ret _ | .env _ => inferInstanceAs (Decidable True)

/-- The choice that lets an allocation of a device number succeed. -/
def Choice.succeeds : Choice → Bool
  | .value _ => true
  | _ => false

/-- The thread is about to allocate the device number of a probe. -/
def Numbers : Thread KAct KAct.Res Kern KCall Int → Bool
  | .run (.probe _) _ (.act .allocChrdevRegion _) => true
  | _ => false

/-- No probe obtains a device number while a card is in service. -/
def OneNumber (s : KSystem) : KStep → Prop
  | .act t x => Numbers (s.thr t) = true → x.succeeds = true → inService (s.hist 0) = []
  | _ => True

instance (s : KSystem) : DecidablePred (OneNumber s)
  | .act _ _ => inferInstanceAs (Decidable (_ → _ → _))
  | .call _ _ | .ret _ | .env _ => inferInstanceAs (Decidable True)

/-- What the calls that are over have left. -/
def Rest (hs : List (KCall × Int)) (κ : Core) : Prop :=
  (inService hs = [] ∧ Unbound κ) ∨ ∃ d s c w n, inService hs = [d] ∧ Bound d s c w n κ

/-- The account that a thread other than the PCI core's has of its call. -/
def KCall.visit : KCall → Account
  | .irq _ => .handler .entered
  | _ => .visitor

def Account.isLoader : Account → Prop
  | .loader _ _ => True
  | _ => False

/-- The assertions: thread 0 accounts for the core, and nobody else touches it. -/
@[reducible] def balance : Assertions loading Kern KCall Int where
  J g s := Lifo s.world.log ∧ (∃ free, g 0 = .loader free s.world.toCore) ∧
    ∀ t, t ≠ 0 → ¬ (g t).isLoader
  Idle t hs γ := t = 0 → ∃ free κ, γ = .loader free κ ∧ Rest hs κ
  Began t c hs w₀ γ := (t ≠ 0 → γ = c.visit) ∧ (t = 0 → Rest hs w₀.toCore ∧
    match c with
    | .probe d => d ∉ inService hs ∧ γ = .loader (inService hs).isEmpty w₀.toCore
    | .remove d => d ∈ inService hs ∧ γ = .loader true w₀.toCore
    | _ => False)
  Post t c γ₀ r γ := t = 0 → ∀ free κ, γ₀ = .loader free κ →
    match c with
    | .probe d => Probed free { κ with card := d } r γ
    | .remove d => Removed { κ with card := d } r γ
    | _ => False
  Dead _ := True
  Link γ₀ γ := γ.kind = γ₀.kind

section
variable {hs : List (KCall × Int)} {κ κ' : Core} {d : Nat}

theorem Rest.ground (h : Rest hs κ) :
    Ground (inService hs).isEmpty { κ with card := d } := by
  rcases h with ⟨hs,h⟩ | ⟨d',s,c,w,n,hs,h⟩
  · rw [hs]
    exact ⟨h.lifo,fun _ => ⟨h.stack,h.globals⟩,fun hf => nomatch hf⟩
  · rw [hs]
    refine ⟨h.lifo,(fun hf => nomatch hf),fun _ => ?_⟩
    refine ⟨s,h.configspace,?_,w,h.start,?_⟩
    all_goals
      unfold Core.Holds
      rw [h.stack]
      simp [fullSet]

/-- A failed probe leaves the card in service as it was. -/
theorem Rest.restored (h : Rest hs κ)
    (hr : Restored (inService hs).isEmpty { κ with card := d } κ') : Rest hs κ' := by
  rcases h with ⟨hs,h⟩ | ⟨d',s,c,w,n,hs,h⟩
  · refine .inl ⟨hs,hr.lifo,hr.stack.trans h.stack,fun x => ?_⟩
    rw [hr.globals]
    exact h.globals x
  · rw [hs] at hr
    refine .inr ⟨d',s,c,w,n,hs,hr.lifo,hr.stack.trans h.stack,?_,?_,?_,?_,?_⟩
    · exact (congrFun hr.globals _).trans h.cdev
    · exact (congrFun hr.globals _).trans h.configspace
    · exact (congrFun hr.globals _).trans h.pdev
    · exact (hr.devno rfl).trans h.devno
    · rw [hr.spaces s h.configspace]
      exact h.start

theorem Rest.probed {r : Int} {γ : Account} (h : Rest hs κ)
    (hp : Probed (inService hs).isEmpty { κ with card := d } r γ) :
    ∃ free κ', γ = .loader free κ' ∧ Rest ((.probe d,r) :: hs) κ' := by
  obtain ⟨κ',rfl,⟨hr,hrest⟩ | ⟨rfl,hf,s,c,w,n,hb⟩⟩ := hp
  · refine ⟨_,κ',rfl,?_⟩
    have hne : r ≠ 0 := by rcases hr with rfl | rfl <;> decide
    simpa [Rest,inService,hne] using h.restored hrest
  · refine ⟨_,κ',rfl,.inr ⟨d,s,c,w,n,?_,hb⟩⟩
    simpa [inService] using hf

theorem Rest.bound (h : Rest hs κ) (hd : d ∈ inService hs) :
    inService hs = [d] ∧ ∃ s c w n, Bound d s c w n κ := by
  rcases h with ⟨hs,_⟩ | ⟨d',s,c,w,n,hs,h⟩
  · rw [hs] at hd
    cases hd
  · rw [hs,List.mem_singleton] at hd
    subst hd
    exact ⟨hs,s,c,w,n,h⟩

theorem Rest.removed {r : Int} {γ : Account} (h : Rest hs κ) (hd : d ∈ inService hs)
    (hp : Removed { κ with card := d } r γ) :
    ∃ free κ', γ = .loader free κ' ∧ Rest ((.remove d,r) :: hs) κ' := by
  obtain ⟨κ',rfl,_,hu,_⟩ := hp
  refine ⟨true,κ',rfl,.inl ⟨?_,hu⟩⟩
  simp [inService,(h.bound hd).1]

theorem Core.visits_next {a : KAct} {r : a.Res} (ha : a.visits = true) (h : κ.Next a r κ') :
    κ' = κ := by
  cases a with
  | testGlobal x => exact h.1
  | getGlobal x => exact h.1
  | kzallocJob f => exact h
  | pciResourceStart => exact h
  | ioRemapPfnRange => exact h
  | file p a => exact h
  | _ => cases ha

theorem Visit.visits {v : Visit} {a : KAct} (h : v.Ok a) : a.visits = true := by
  cases v with
  | entered => rw [show a = _ from h]; rfl
  | tested => rw [show a = _ from h]; rfl
  | «at» p => rcases h with rfl | ⟨v,rfl⟩ <;> rfl
  | saw p => rw [show a = _ from h]; rfl

theorem Visit.next_exists {v : Visit} {a : KAct} (h : v.Ok a) (r : a.Res) :
    ∃ v', v.Next a r v' := by
  cases v with
  | entered =>
    cases (show a = _ from h)
    exact ⟨_,rfl⟩
  | tested =>
    cases (show a = _ from h)
    exact ⟨_,rfl⟩
  | «at» p => rcases h with rfl | ⟨v,rfl⟩ <;> exact ⟨_,rfl⟩
  | saw p =>
    cases (show a = _ from h)
    exact ⟨_,rfl⟩

/-- A thread that is not the PCI core's goes on somewhere. -/
theorem loading_next {γ : Account} {a : KAct} (hγ : ¬ γ.isLoader) (hok : loading.ok γ a)
    (r : a.Res) : a.visits = true ∧ ∃ γ', loading.next γ a r γ' ∧ ¬ γ'.isLoader := by
  cases γ with
  | loader free κ => exact absurd trivial hγ
  | visitor => exact ⟨hok,.visitor,rfl,id⟩
  | handler v =>
    refine ⟨Visit.visits hok,?_⟩
    obtain ⟨v',hv⟩ := Visit.next_exists hok r
    exact ⟨.handler v',⟨v',hv,rfl⟩,id⟩

end

theorem KCall.visits (c : KCall) (hp : ∀ d, c ≠ .probe d) (hr : ∀ d, c ≠ .remove d) :
    wp loading c.code (fun _ _ => True) c.visit ∧ ¬ c.visit.isLoader := by
  cases c with
  | probe d => exact absurd rfl (hp d)
  | remove d => exact absurd rfl (hr d)
  | irq ours => exact ⟨pciIrqHandle_visit ours,id⟩
  | openFile f => exact ⟨visitor_wp (openFile_visits f),id⟩
  | write f ptr len => exact ⟨visitor_wp (attach_visits _ _),id⟩
  | ioctl f cmd arg => exact ⟨visitor_wp (attach_visits _ _),id⟩
  | mmap vmas => exact ⟨visitor_wp (mmapFile_visits vmas),id⟩

theorem enter_spec {d : Nat} {free : Bool} {κ : Core} {p : KCode Int}
    {Q : Int → Account → Prop}
    (h : wp loading p Q (.loader free { κ with card := d })) :
    wp loading (do katom (.enter d); p) Q (.loader free κ) :=
  loader_free trivial trivial (fun _ _ h => h) (fun _ => h)

/-- Only a number that was handed out makes the allocation succeed. -/
theorem Kern.succeeds_of_doubles {t : Nat} {x : Choice} {k k' : Kern} {a : KAct} {r : a.Res}
    (h : k.exec t a x = some (.done r k')) (hd : a.Doubles r) :
    a = .allocChrdevRegion ∧ x.succeeds = true := by
  cases a with
  | allocChrdevRegion =>
    refine ⟨rfl,?_⟩
    cases (show r = false from hd)
    cases x with
    | value n => rfl
    | _ => cases h
  | _ => exact absurd hd id

theorem balanceOutline (c : Cipher) :
    Outline (kernel c) (fun s l => PciEvents s l ∧ OneNumber s l) balance where
  call {s g t cl} h hp ht := by
    obtain ⟨hlifo,⟨free,hg⟩,hothers⟩ := h.1
    by_cases ht0 : t = 0
    · subst ht0
      have hidle := h.2 0
      rw [ht] at hidle
      obtain ⟨free',κ,hg',hrest⟩ := hidle rfl
      rw [hg] at hg'
      cases hg'
      have hJ (b : Bool) : balance.J (Function.update g 0 (.loader b s.world.toCore))
          { s with thr := Function.update s.thr 0 (.run cl s.world ((kernel c).code cl)) } :=
        ⟨hlifo,⟨b,Function.update_self _ _ _⟩,fun t ht => by
          rw [Function.update_of_ne ht]
          exact hothers t ht⟩
      cases cl with
      | probe d =>
        refine ⟨_,hJ _,⟨fun h0 => absurd rfl h0,fun _ => ⟨hrest,hp.1.2,rfl⟩⟩,enter_spec ?_⟩
        refine wp_mono (fun r γ hγ _ free κ hκ => ?_) (cryptocardProbe_spec hrest.ground)
        cases hκ
        exact hγ
      | remove d =>
        obtain ⟨_,sp,cd,w,n,hb⟩ := hrest.bound hp.1.2
        refine ⟨_,hJ _,⟨fun h0 => absurd rfl h0,fun _ => ⟨hrest,hp.1.2,rfl⟩⟩,enter_spec ?_⟩
        have hb' : Bound d sp cd w n { s.world.toCore with card := d } :=
          ⟨hb.lifo,hb.stack,hb.cdev,hb.configspace,hb.pdev,hb.devno,hb.start⟩
        refine wp_mono (fun r γ hγ _ free κ hκ => ?_) (cryptocardRemove_spec hb')
        cases hκ
        exact hγ
      | _ => exact absurd rfl hp.1
    · have hrole : (∀ d, cl ≠ .probe d) ∧ ∀ d, cl ≠ .remove d :=
        ⟨fun d hd => by subst hd; exact ht0 hp.1.1,fun d hd => by subst hd; exact ht0 hp.1.1⟩
      obtain ⟨hw,hv⟩ := KCall.visits cl hrole.1 hrole.2
      refine ⟨cl.visit,⟨hlifo,⟨free,?_⟩,fun u hu => ?_⟩,⟨fun _ => rfl,fun h0 => absurd h0 ht0⟩,
        wp_mono (fun _ _ _ h0 => absurd h0 ht0) hw⟩
      · rw [Function.update_of_ne (Ne.symm ht0)]
        exact hg
      · by_cases hut : u = t
        · subst hut
          rw [Function.update_self]
          exact hv
        · rw [Function.update_of_ne hut]
          exact hothers u hu
  ret {t cl hs w₀ γ₀ r γ} hb hl hpost ht := by
    obtain ⟨hrest,hc⟩ := hb.2 ht
    cases cl with
    | probe d =>
      obtain ⟨_,hγ₀⟩ := hc
      exact hrest.probed (hpost ht _ _ hγ₀)
    | remove d =>
      obtain ⟨hd,hγ₀⟩ := hc
      exact hrest.removed hd (hpost ht _ _ hγ₀)
    | _ => exact hc.elim
  leave h _ := h.1
  link_refl _ := rfl
  link {γ₀ γ a r γ'} hl hn := by
    refine Eq.trans ?_ (hl : γ.kind = γ₀.kind)
    cases γ with
    | loader free κ => obtain ⟨κ',_,_,rfl⟩ := hn; rfl
    | visitor => cases hn; rfl
    | handler v => obtain ⟨v',_,rfl⟩ := hn; rfl
  done {s g t x cl w₀ a k r w} h hp ht he := by
    obtain ⟨hlifo,⟨free,hg⟩,hothers⟩ := h.1
    have hcore := Kern.exec_done he
    by_cases ht0 : t = 0
    · subst ht0
      have hfree : free = false → ¬ a.Doubles r := by
        intro hf hd
        obtain ⟨rfl,hx⟩ := Kern.succeeds_of_doubles he hd
        obtain ⟨γ₀,hb,hl⟩ := h.began ht
        obtain ⟨_,hc⟩ := hb.2 rfl
        have hγ₀ : γ₀ = .loader true w₀.toCore := by
          cases cl with
          | probe d =>
            have hnone := hp.2 (by rw [ht]; rfl) hx
            rw [hc.2,hnone]
            rfl
          | remove d => exact hc.2
          | _ => exact hc.elim
        have hkind : (g 0).kind = γ₀.kind := hl
        rw [hg,hγ₀,hf] at hkind
        cases hkind
      have hok : s.world.toCore.Permits free a := by
        have hok := h.ok ht
        rw [hg] at hok
        exact hok
      refine ⟨.loader free w.toCore,?_,Core.next_lifo hlifo hok.1 hcore,
        ⟨free,Function.update_self _ _ _⟩,fun u hu => ?_⟩
      · rw [hg]
        exact ⟨_,hcore,hfree,rfl⟩
      · rw [Function.update_of_ne hu]
        exact hothers u hu
    · obtain ⟨hv,γ',hn,hγ'⟩ := loading_next (hothers t ht0) (h.ok ht) r
      have hsame := Core.visits_next hv hcore
      refine ⟨γ',hn,by rw [hsame]; exact hlifo,⟨free,?_⟩,fun u hu => ?_⟩
      · rw [Function.update_of_ne (Ne.symm ht0),hg]
        exact congrArg _ hsame.symm
      · by_cases hut : u = t
        · subst hut
          rw [Function.update_self]
          exact hγ'
        · rw [Function.update_of_ne hut]
          exact hothers u hu
  stay {s g t x cl w₀ a k w} h _ _ he := by
    obtain ⟨hlifo,⟨free,hg⟩,hothers⟩ := h.1
    have hsame := Kern.exec_open_core he (.inl rfl)
    exact ⟨by rw [hsame]; exact hlifo,⟨free,by rw [hg,hsame]⟩,hothers⟩
  oops {s g t x cl w₀ a k w} h _ _ he := by
    obtain ⟨hlifo,⟨free,hg⟩,hothers⟩ := h.1
    have hsame := Kern.exec_open_core he (.inr rfl)
    exact ⟨trivial,by rw [hsame]; exact hlifo,⟨free,by rw [hg,hsame]⟩,hothers⟩
  env {s g e w} h _ he := by
    obtain ⟨hlifo,⟨free,hg⟩,hothers⟩ := h.1
    obtain ⟨u,_,rfl⟩ := Option.map_eq_some_iff.mp he
    exact ⟨hlifo,⟨free,hg⟩,hothers⟩

theorem balance_start (bars : Nat → Bar) (w : World) :
    balance.Holds (loaded bars w) (fun t => if t = 0 then
      .loader true (Kern.init bars w).toCore else .visitor) := by
  refine ⟨⟨lifo_nil,⟨true,rfl⟩,fun t ht => by simp [ht,Account.isLoader]⟩,fun t ht => ?_⟩
  subst ht
  exact ⟨true,_,rfl,.inl ⟨rfl,lifo_nil,rfl,fun _ => rfl⟩⟩

/-- The card that a step begins a probe or a remove of. -/
def stepCard : KStep → Option Nat
  | .call _ (.probe d) | .call _ (.remove d) => some d
  | _ => none

/-- The PCI core only ever calls about card `dev`. -/
def OneCard (dev : Nat) (s : KSystem) (l : KStep) : Prop :=
  PciEvents s l ∧ ∀ d ∈ stepCard l, d = dev

instance (dev : Nat) (s : KSystem) : DecidablePred (OneCard dev s) :=
  fun _ => inferInstanceAs (Decidable (_ ∧ _))

/-- With one card there is no other one in service during a probe. -/
def OtherNone (dev : Nat) (s : KSystem) : Prop :=
  (∀ d ∈ inService (s.hist 0), d = dev) ∧
  ∀ t d w p, s.thr t = .run (.probe d) w p → t = 0 ∧ d = dev ∧ inService (s.hist 0) = []

section
variable {c : Cipher} {dev : Nat} {s s' : KSystem} {l : KStep}

theorem OtherNone.step (h : OtherNone dev s) (hp : OneCard dev s l)
    (hs : (kernel c).step s l = some s') : OtherNone dev s' := by
  have hupdate (u : Nat) (θ : Thread KAct KAct.Res Kern KCall Int)
      (hθ : ∀ d w p, θ = .run (.probe d) w p → u = 0 ∧ d = dev ∧ inService (s.hist 0) = [])
      (t d : Nat) (w : Kern) (p : KCode Int)
      (ht : Function.update s.thr u θ t = .run (.probe d) w p) :
      t = 0 ∧ d = dev ∧ inService (s.hist 0) = [] := by
    by_cases htu : t = u
    · subst htu
      rw [Function.update_self] at ht
      exact hθ d w p ht
    · rw [Function.update_of_ne htu] at ht
      exact h.2 t d w p ht
  cases l with
  | call u cl =>
    simp only [Machine.step] at hs
    split at hs
    · cases hs
      refine ⟨h.1,hupdate u _ (fun d w p hθ => ?_)⟩
      cases hθ
      have hd := hp.2 d rfl
      refine ⟨hp.1.1,hd,List.eq_nil_iff_forall_not_mem.mpr (fun e he => hp.1.2 ?_)⟩
      rw [hd,← h.1 e he]
      exact he
    · cases hs
  | act u x =>
    obtain ⟨cl,w₀,a,k,ht,⟨w,_,rfl⟩ | ⟨r,w,_,rfl⟩ | ⟨w,_,rfl⟩⟩ := Machine.actStep_cases hs
    · exact h
    · refine ⟨h.1,hupdate u _ (fun d w p hθ => ?_)⟩
      cases hθ
      exact h.2 u d w₀ _ ht
    · exact ⟨h.1,hupdate u _ (fun d w p hθ => by cases hθ)⟩
  | ret u =>
    simp only [Machine.step] at hs
    split at hs
    · rename_i cl w₀ v ht
      cases hs
      have hnext : ∀ d ∈ inService (Function.update s.hist u ((cl,v) :: s.hist u) 0), d = dev := by
        by_cases hu : u = 0
        · subst hu
          rw [Function.update_self]
          intro d hd
          cases cl with
          | probe e =>
            simp only [inService] at hd
            split at hd
            · rcases List.mem_cons.mp hd with rfl | hd
              · exact (h.2 0 d w₀ _ ht).2.1
              · exact h.1 d hd
            · exact h.1 d hd
          | remove e => exact h.1 d (List.mem_of_mem_erase hd)
          | _ => exact h.1 d hd
        · rw [Function.update_of_ne (Ne.symm hu)]
          exact h.1
      refine ⟨hnext,fun t d w p htp => ?_⟩
      have htp : Function.update s.thr u .idle t = .run (.probe d) w p := htp
      show t = 0 ∧ d = dev ∧ inService (Function.update s.hist u ((cl,v) :: s.hist u) 0) = []
      by_cases htu : t = u
      · subst htu
        rw [Function.update_self] at htp
        cases htp
      · rw [Function.update_of_ne htu] at htp
        obtain ⟨rfl,hd,hnone⟩ := h.2 t d w p htp
        rw [Function.update_of_ne htu]
        exact ⟨rfl,hd,hnone⟩
    · cases hs
  | env e =>
    simp only [Machine.step,Option.map_eq_some_iff] at hs
    obtain ⟨w,_,rfl⟩ := hs
    exact h

theorem OneCard.admitted (h : OtherNone dev s) (hp : OneCard dev s l) :
    PciEvents s l ∧ OneNumber s l := by
  refine ⟨hp.1,?_⟩
  cases l with
  | act t x =>
    intro hn _
    unfold Numbers at hn
    split at hn
    · rename_i ht
      exact (h.2 _ _ _ _ ht).2.2
    · cases hn
  | _ => trivial

theorem OneCard.reaches {s₀ : KSystem} (h₀ : OtherNone dev s₀)
    (h : (kernel c).Reaches (OneCard dev) s₀ s) :
    OtherNone dev s ∧
      (kernel c).Reaches (fun s l => PciEvents s l ∧ OneNumber s l) s₀ s := by
  induction h with
  | refl => exact ⟨h₀,.refl⟩
  | tail _ hp hs ih => exact ⟨ih.1.step hp hs,.tail ih.2 (hp.admitted ih.1) hs⟩

end

theorem balance_reaches {c : Cipher} {bars : Nat → Bar} {w : World} {s : KSystem}
    (h : (kernel c).Reaches (fun s l => PciEvents s l ∧ OneNumber s l) (loaded bars w) s) :
    ∃ g, balance.Holds s g :=
  (balanceOutline c).reaches (balance_start bars w) h

/-- How often the wait queue has been initialised. -/
def waitqueueInits : List (Event (Nat × Resource) Mark) → Nat
  | [] => 0
  | .mark .initWaitqueueHead :: l => waitqueueInits l + 1
  | .acquire _ :: l | .release _ :: l => waitqueueInits l

/-- What the file operations of a card in service go by is the same in both states. -/
structure SameService (k k' : Kern) : Prop where
  globals : k'.mycryptodev = k.mycryptodev
  devno : k'.devno = k.devno
  window : ∀ p ∈ k.mycryptodev .configspace, (k'.spaces p).start = (k.spaces p).start
  mapped : k.Maps (k.mycryptodev .configspace) → k'.Maps (k.mycryptodev .configspace)
  queue : waitqueueInits k'.log = waitqueueInits k.log
  drv : k'.drv = k.drv

/-- The core's part of it. -/
structure SameCore (κ κ' : Core) : Prop where
  globals : κ'.mycryptodev = κ.mycryptodev
  devno : κ'.devno = κ.devno
  window : ∀ p ∈ κ.mycryptodev .configspace, (κ'.spaces p).start = (κ.spaces p).start
  held : ∀ p ∈ κ.mycryptodev .configspace, ∀ w ∈ (κ.spaces p).start,
    ∀ r ∈ [Resource.space p,.window w], κ.Holds r → κ'.Holds r
  queue : waitqueueInits κ'.log = waitqueueInits κ.log

section
variable {κ κ' : Core} {e : Nat × Resource}

theorem SameCore.refl (κ : Core) : SameCore κ κ := ⟨rfl,rfl,fun _ _ => rfl,fun _ _ _ _ _ _ h => h,rfl⟩

theorem SameCore.mapped (h : SameCore κ κ') (hm : κ.Maps (κ.mycryptodev .configspace)) :
    κ'.Maps (κ.mycryptodev .configspace) := by
  obtain ⟨p,hp,hs,w,hw,hheld⟩ := hm
  exact ⟨p,hp,h.held p hp w hw _ (by simp) hs,w,by rw [h.window p hp]; exact hw,
    h.held p hp w hw _ (by simp) hheld⟩

theorem SameCore.acquire (κ : Core) (e : Nat × Resource) : SameCore κ (κ.acquire e) := by
  refine ⟨rfl,rfl,fun _ _ => rfl,fun _ _ _ _ r' _ h => ?_,rfl⟩
  unfold Core.Holds at h ⊢
  exact List.mem_cons_of_mem _ h

theorem SameCore.tries {failed : Bool} (h : κ.Tries e failed κ') : SameCore κ κ' := by
  rcases h with ⟨_,rfl⟩ | ⟨_,rfl⟩
  · exact .refl _
  · exact .acquire _ _

theorem SameCore.allocates {d : Nat} {r : Nat → Resource} {p : Option Nat}
    (h : κ.Allocates d r p κ') : SameCore κ κ' := by
  rcases h with ⟨_,rfl⟩ | ⟨q,_,_,rfl⟩
  · exact .refl _
  · exact .acquire _ _

/-- Giving back a resource that the card in service does not use. -/
theorem SameCore.release (hr : ∀ p ∈ κ.mycryptodev .configspace, ∀ w ∈ (κ.spaces p).start,
    e.2 ∉ [Resource.space p,.window w]) : SameCore κ (κ.release e) := by
  refine ⟨rfl,rfl,fun _ _ => rfl,fun p hp w hw r hr' h => ?_,rfl⟩
  have hne : r ≠ e.2 := fun heq => hr p hp w hw (heq ▸ hr')
  obtain ⟨e',he,hsnd⟩ := List.mem_map.mp h
  refine List.mem_map.mpr ⟨e',mem_held_release he (fun heq => hne ?_),hsnd⟩
  rw [← hsnd,heq]

theorem SameCore.setSpace {p : Nat} {m : ConfigMem} (hp : κ.mycryptodev .configspace ≠ some p) :
    SameCore κ (κ.setSpace p m) := by
  refine ⟨rfl,rfl,fun q hq => ?_,fun _ _ _ _ _ _ h => h,rfl⟩
  have hne : q ≠ p := fun heq => hp (heq ▸ hq)
  simp [Core.setSpace,hne]

/-- A probe that keeps to itself does not change what a card in service uses. -/
theorem Core.next_beside {a : KAct} {r : a.Res} (h : κ.Next a r κ') (ha : κ.OkBeside a)
    (hd : ¬ a.Doubles r) : SameCore κ κ' := by
  cases a with
  | kzallocSpace => exact .allocates h
  | kzallocCdev => exact .allocates h
  | pciIoremapBar dev => exact .allocates h
  | pciEnableDevice dev => exact .tries h
  | pciRequestRegions dev => exact .tries h
  | requestIrq dev => exact .tries h
  | cdevAdd p n => exact .tries h
  | allocChrdevRegion =>
    rcases h with ⟨_,rfl⟩ | ⟨hr,_⟩
    · exact .refl _
    · exact absurd hr hd
  | pciDisableDevice dev => cases h; exact .release (by simp)
  | pciReleaseRegions dev => cases h; exact .release (by simp)
  | freeIrq dev => cases h; exact .release (by simp)
  | unregisterChrdevRegion n => cases h; exact .release (by simp)
  | cdevDel p =>
    obtain ⟨q,rfl,rfl⟩ := h
    exact .release (by simp)
  | kfreeCdev p =>
    cases h
    cases p with
    | none => exact .refl _
    | some q => exact .release (by simp)
  | kfreeSpace p =>
    cases h
    cases p with
    | none => exact .refl _
    | some q =>
      refine .release (fun p hp w _ hmem => ha ?_)
      simp at hmem
      rw [hmem]
      exact hp
  | iounmap w =>
    cases h
    cases w with
    | none => exact .refl _
    | some w =>
      refine .release (fun p hp w' hw' hmem => ha p hp ?_)
      simp at hmem
      rw [hmem]
      exact hw'
  | setStart p w => cases h; exact .setSpace ha
  | setupConfigspace p size => cases h; exact .setSpace ha
  | start p => obtain ⟨rfl,_⟩ := h; exact .refl _
  | devno => obtain ⟨rfl,_⟩ := h; exact .refl _
  | testGlobal x => obtain ⟨rfl,_⟩ := h; exact .refl _
  | getGlobal x => obtain ⟨rfl,_⟩ := h; exact .refl _
  | setGlobal x p => exact ha.elim
  | initWaitqueueHead => exact ha.elim
  | semaInit n => exact ha.elim
  | kzallocJob f => exact ha.elim
  | enter dev => cases h; exact ⟨rfl,rfl,fun _ _ => rfl,fun _ _ _ _ _ _ h => h,rfl⟩
  | _ => cases h; exact .refl _

end

section
variable {t : Nat} {x : Choice} {k k' : Kern}

theorem Kern.tryAcquire_drv {e : Nat × Resource} {failed : Bool}
    (h : k.tryAcquire e x = some (.done failed k')) : k'.drv = k.drv := by
  unfold Kern.tryAcquire at h
  split at h <;> cases h <;> rfl

theorem Kern.allocate_drv {d : Nat} {r : Nat → Resource} {p : Option Nat}
    (h : k.allocate d r x = some (.done p k')) : k'.drv = k.drv := by
  unfold Kern.allocate at h
  split at h
  · split at h <;> cases h
    rfl
  · cases h
    rfl
  · cases h

/-- The registers that a probe looks at change nothing for the file operations. -/
theorem Kern.file_examines {p : Option Nat} {a : Act} {r : a.Res} (ha : a.examines = true)
    (h : k.file t p a x = some (.done r k')) : k'.drv = k.drv := by
  unfold Kern.file at h
  split at h
  · cases h
  · split at h
    · cases h
    · split at h
      · cases h
        rfl
      · obtain ⟨u,hu,hk⟩ := Option.map_eq_some_iff.mp h
        cases a with
        | ioread g =>
          simp only [World.exec,World.ioread] at hu
          split at hu <;> cases hu <;> cases hk <;> rfl
        | iowrite g v =>
          cases g with
          | live =>
            cases hu
            cases hk
            rfl
          | _ => cases ha
        | _ => cases ha

/-- They are mapped, and answer at once. -/
theorem Kern.file_examines_done {p : Option Nat} {a : Act} {o : Out Kern a.Res}
    (hm : k.Maps p) (ha : a.examines = true) (h : k.file t p a x = some o) :
    ∃ r k', o = .done r k' := by
  unfold Kern.file at h
  split at h
  · rename_i hbad
    exact absurd hm hbad.2
  · split at h
    · rename_i hbad
      cases a <;> first | exact absurd hbad.1 Bool.false_ne_true | cases ha
    · split at h
      · cases h
        exact ⟨_,_,rfl⟩
      · obtain ⟨u,hu,rfl⟩ := Option.map_eq_some_iff.mp h
        cases a with
        | ioread g =>
          simp only [World.exec,World.ioread] at hu
          split at hu <;> cases hu <;> exact ⟨_,_,rfl⟩
        | iowrite g v =>
          cases hu
          exact ⟨_,_,rfl⟩
        | _ => cases ha

theorem Kern.exec_drv {a : KAct} {r : a.Res} (h : k.exec t a x = some (.done r k'))
    (ha : k.OkBeside a) : k'.drv = k.drv := by
  cases a with
  | kzallocSpace => exact Kern.allocate_drv h
  | kzallocCdev => exact Kern.allocate_drv h
  | pciIoremapBar dev => exact Kern.allocate_drv h
  | pciEnableDevice dev => exact Kern.tryAcquire_drv h
  | pciRequestRegions dev => exact Kern.tryAcquire_drv h
  | requestIrq dev => exact Kern.tryAcquire_drv h
  | cdevAdd p n => exact Kern.tryAcquire_drv h
  | kfreeSpace p => cases p <;> cases h <;> rfl
  | kfreeCdev p => cases p <;> cases h <;> rfl
  | iounmap w => cases w <;> cases h <;> rfl
  | cdevDel p => cases p <;> cases h; rfl
  | start p =>
    cases p with
    | none => cases h
    | some q =>
      simp only [Kern.exec] at h
      split at h <;> cases h
      rfl
  | allocChrdevRegion =>
    simp only [Kern.exec] at h
    split at h
    · split at h <;> cases h
      rfl
    · cases h
      rfl
    · cases h
  | dmaSetMask dev =>
    simp only [Kern.exec] at h
    split at h <;> cases h <;> rfl
  | ioRemapPfnRange =>
    simp only [Kern.exec] at h
    split at h <;> cases h <;> rfl
  | pciResourceStart =>
    simp only [Kern.exec] at h
    split at h <;> cases h
    rfl
  | semaInit n => exact ha.elim
  | kzallocJob f => exact ha.elim
  | file p a => exact Kern.file_examines ha.2 h
  | _ => cases h; rfl

end

/-- A probe of card `d` up to its device number, all of whose calls succeed at address `p`. -/
def probeSteps (d p : Nat) : List KStep :=
  .call 0 (.probe d) :: [.ok,.value p,.value p,.ok,.ok,.value p,.ok,.ok,.ok,
    .value PCI_CryptoCard_IDFIER,.ok,.value 0,.ok,.ok].map (.act 0)

/-- The rest of it, with device number `n`. -/
def publishSteps (n : Nat) : List KStep :=
  [.value n,.ok,.ok,.ok,.ok,.ok,.ok,.ok,.ok].map (.act 0) ++ [.ret 0]

/-- The rest of it when `cdev_add` fails. -/
def unpublishSteps (n : Nat) : List KStep :=
  .act 0 (.value n) :: List.replicate 7 (.act 0 .ok) ++ .act 0 .fail ::
    List.replicate 12 (.act 0 .ok) ++ [.ret 0]

def removeSteps (d : Nat) : List KStep :=
  .call 0 (.remove d) :: List.replicate 18 (.act 0 .ok)

/-- BAR 0 of every card, and the world of its files. -/
def oneBar : Nat → Bar := fun _ => ⟨0xfe000000,0x100000,by decide⟩

def bareWorld : World := .boot (fun _ => 0) (fun _ => 0)

/-- While a card is in service, a probe has to keep to itself. -/
theorem balance_beside {s : KSystem} {g : Nat → Account} {d e : Nat} {k₀ : Kern} {a : KAct}
    {k : a.Res → KCode Int} (h : balance.Holds s g) (hd : d ∈ inService (s.hist 0))
    (ht : s.thr 0 = .run (.probe e) k₀ (.act a k)) : s.world.OkBeside a := by
  obtain ⟨_,⟨free,hg⟩,_⟩ := h.1
  obtain ⟨γ₀,hb,hl⟩ := h.began ht
  have hkind : (g 0).kind = γ₀.kind := hl
  have hfree : (inService (s.hist 0)).isEmpty = false := by
    cases hs : inService (s.hist 0) with
    | nil => rw [hs] at hd; cases hd
    | cons => rfl
  rw [hg,(hb.2 rfl).2.2,hfree] at hkind
  cases hkind
  have hok := h.ok ht
  rw [hg] at hok
  exact hok.2

/-- Along every sequence of probes and removes of one card, each acquisition is given
back once and in reverse order, and a call leaves all eight resources held or none. -/
theorem probe_remove_balance (c : Cipher) (bars : Nat → Bar) (w : World) (dev : Nat)
    {s : KSystem} (h : (kernel c).Reaches (OneCard dev) (loaded bars w) s) :
    Lifo s.world.log ∧
    (∀ r, releases r s.world.log + holdings r s.world.log = acquisitions r s.world.log) ∧
    (s.isIdle 0 = true → dev ∉ inService (s.hist 0) →
      held s.world.log = [] ∧ ∀ x, s.world.mycryptodev x = none) ∧
    (s.isIdle 0 = true → dev ∈ inService (s.hist 0) →
      ∃ p q w n, Bound dev p q w n s.world.toCore) := by
  have hstart : OtherNone dev (loaded bars w) :=
    ⟨fun d hd => (List.not_mem_nil hd).elim,fun _ _ _ _ ht => nomatch ht⟩
  obtain ⟨hone,hr⟩ := OneCard.reaches hstart h
  obtain ⟨g,hg⟩ := balance_reaches hr
  obtain ⟨hlifo,⟨free,hg0⟩,_⟩ := hg.1
  have hrest (hidle : s.isIdle 0 = true) : Rest (s.hist 0) s.world.toCore := by
    have h0 := hg.2 0
    rw [Sys.idle_of_isIdle hidle] at h0
    obtain ⟨free',κ,hκ,hrest⟩ := h0 rfl
    rw [hg0] at hκ
    cases hκ
    exact hrest
  refine ⟨hlifo,hlifo.balance,fun hidle hdev => ?_,fun hidle hdev => ((hrest hidle).bound hdev).2⟩
  rcases hrest hidle with ⟨_,hu⟩ | ⟨d,p,q,w,n,hs,_⟩
  · exact ⟨hu.stack,hu.globals⟩
  · refine absurd ?_ hdev
    rw [hs,← hone.1 d (by simp [hs])]
    exact List.mem_singleton_self d

/-- A probe fails at its last call, the next one succeeds, the card is removed and probed
again. -/
theorem probe_remove_balance_bound : ∃ s,
    (kernel (.bytewise fun _ _ x => x)).Reaches (OneCard 7) (loaded oneBar bareWorld) s ∧
    (s.hist 0).map Prod.snd = [0,0,0,-eNODEV] ∧ Lifo s.world.log ∧
    releases (7,.irq) s.world.log = 2 ∧ acquisitions (7,.irq) s.world.log = 3 ∧
    ∃ p q w n, Bound 7 p q w n s.world.toCore := by
  obtain ⟨s,hr,_,hp⟩ := Machine.exists_reaches (M := kernel (.bytewise fun _ _ x => x))
    (P := OneCard 7) (n := 1) (b := fun s l => decide (OneCard 7 s l))
    (p := fun s => s.isIdle 0 && decide (7 ∈ inService (s.hist 0)) &&
      decide ((s.hist 0).map Prod.snd = [0,0,0,-eNODEV]) &&
      decide (releases (7,.irq) s.world.log = 2))
    (fun _ _ _ hb => of_decide_eq_true hb)
    (probeSteps 7 0 ++ unpublishSteps 0 ++ probeSteps 7 1 ++ publishSteps 1 ++
      removeSteps 7 ++ .ret 0 :: probeSteps 7 2 ++ publishSteps 2)
    (loaded_quiet oneBar bareWorld 1) (by decide +kernel)
  simp only [Bool.and_eq_true,decide_eq_true_eq] at hp
  obtain ⟨⟨⟨hidle,hd⟩,hhist⟩,hreleases⟩ := hp
  obtain ⟨hlifo,hbalance,_,hbound⟩ := probe_remove_balance _ oneBar bareWorld 7 hr
  obtain ⟨p,q,w,n,hb⟩ := hbound hidle hd
  have hheld : holdings (7,.irq) s.world.log = 1 := by
    rw [holdings,hb.stack]
    rfl
  have hirq := hbalance (7,.irq)
  exact ⟨s,hr,hhist,hlifo,hreleases,by omega,p,q,w,n,hb⟩

/-- No step of a probe that `P` admits changes what the file operations of a card in
service use, and a remove gives back just what the probe of its card acquired. -/
structure Undisturbed (c : Cipher) (P : KSystem → KStep → Prop) (s : KSystem) : Prop where
  probe : ∀ d ∈ inService (s.hist 0), ∀ e k₀ p x s', s.thr 0 = .run (.probe e) k₀ p →
    P s (.act 0 x) → (kernel c).step s (.act 0 x) = some s' → SameService s.world s'.world
  remove : ∀ d k₀ r, s.thr 0 = .run (.remove d) k₀ (.ret r) →
    (∃ p q w n, held k₀.log = (fullSet p q w n).map (fun r => (d,r))) ∧
    s.world.log = releasing (held k₀.log) k₀.log

/-- Cards leave each other alone as long as no probe obtains a device number while a
card is in service. -/
theorem cards_do_not_disturb (c : Cipher) (bars : Nat → Bar) (w : World) {s : KSystem}
    (h : (kernel c).Reaches (fun s l => PciEvents s l ∧ OneNumber s l) (loaded bars w) s) :
    Undisturbed c (fun s l => PciEvents s l ∧ OneNumber s l) s := by
  obtain ⟨g,hg⟩ := balance_reaches h
  constructor
  · intro d hd e k₀ p x s' ht hone hs
    obtain ⟨cl,w₀,a,k,ht',hcases⟩ := Machine.actStep_cases hs
    rw [ht] at ht'
    cases ht'
    have hok := balance_beside hg hd ht
    have hopen {k' : Kern} {o : Out Kern a.Res} (he : (kernel c).exec 0 a x s.world = some o)
        (ho : o = .stay k' ∨ o = .oops k') : SameService s.world k' := by
      rcases Kern.exec_open he ho with rfl | ⟨p,b,u,rfl,rfl⟩
      · exact ⟨rfl,rfl,fun _ _ => rfl,id,rfl,rfl⟩
      · obtain ⟨r,k'',rfl⟩ := Kern.file_examines_done hok.1 hok.2 he
        rcases ho with ho | ho <;> cases ho
    rcases hcases with ⟨k',he,rfl⟩ | ⟨r,k',he,rfl⟩ | ⟨k',he,rfl⟩
    · exact hopen he (.inl rfl)
    · have hdoubles : ¬ a.Doubles r := by
        intro hdb
        obtain ⟨rfl,hx⟩ := Kern.succeeds_of_doubles he hdb
        have hnone := hone.2 (by rw [ht]; rfl) hx
        rw [hnone] at hd
        cases hd
      have hsame := Core.next_beside (Kern.exec_done he) hok hdoubles
      exact ⟨hsame.globals,hsame.devno,hsame.window,hsame.mapped,hsame.queue,
        Kern.exec_drv he hok⟩
    · exact hopen he (.inr rfl)
  · intro d k₀ r ht
    obtain ⟨γ₀,hb,_,hpost⟩ := hg.post ht
    obtain ⟨hrest,hd,hγ₀⟩ := hb.2 rfl
    obtain ⟨_,p,q,w,n,hbound⟩ := hrest.bound hd
    obtain ⟨κ,hκ,_,_,hlog⟩ := hpost rfl _ _ hγ₀
    obtain ⟨_,⟨free,hg0⟩,_⟩ := hg.1
    rw [hg0] at hκ
    cases hκ
    exact ⟨⟨p,q,w,n,hbound.stack⟩,hlog⟩

/-- The thread is in a probe of card `d`. -/
def Probes (d : Nat) : Thread KAct KAct.Res Kern KCall Int → Bool
  | .run (.probe e) _ _ => e == d
  | _ => false

theorem Probes.run {d : Nat} {θ : Thread KAct KAct.Res Kern KCall Int} (h : Probes d θ = true) :
    ∃ k₀ p, θ = .run (.probe d) k₀ p := by
  unfold Probes at h
  split at h
  · cases eq_of_beq h
    exact ⟨_,_,rfl⟩
  · cases h

/-- The thread is about to return from a remove of card `d`. -/
def Removes (d : Nat) : Thread KAct KAct.Res Kern KCall Int → Bool
  | .run (.remove e) _ (.ret _) => e == d
  | _ => false

theorem Removes.run {d : Nat} {θ : Thread KAct KAct.Res Kern KCall Int}
    (h : Removes d θ = true) : ∃ k₀ r, θ = .run (.remove d) k₀ (.ret r) := by
  unfold Removes at h
  split at h
  · cases eq_of_beq h
    exact ⟨_,_,rfl⟩
  · cases h

/-- A probe of card 1 fails at its device number while card 0 is in service: here it gives
back its own interrupt; later card 0 is removed. -/
theorem cards_do_not_disturb_second : ∃ s s' z k₀ r,
    (kernel (.bytewise fun _ _ x => x)).Reaches (fun s l => PciEvents s l ∧ OneNumber s l)
      (loaded oneBar bareWorld) s ∧
    s.next 0 = some (.freeIrq 1) ∧ 0 ∈ inService (s.hist 0) ∧
    (kernel (.bytewise fun _ _ x => x)).step s (.act 0 .ok) = some s' ∧
    SameService s.world s'.world ∧
    (kernel (.bytewise fun _ _ x => x)).Reaches (fun s l => PciEvents s l ∧ OneNumber s l)
      (loaded oneBar bareWorld) z ∧
    (z.hist 0).map Prod.snd = [-eNODEV,0] ∧ z.thr 0 = .run (.remove 0) k₀ (.ret r) ∧
    (∃ p q w n, held k₀.log = (fullSet p q w n).map (fun r => (0,r))) ∧
    z.world.log = releasing (held k₀.log) k₀.log := by
  obtain ⟨s,hr,_,hp⟩ := Machine.exists_reaches (M := kernel (.bytewise fun _ _ x => x))
    (P := fun s l => PciEvents s l ∧ OneNumber s l) (n := 1)
    (b := fun s l => decide (PciEvents s l ∧ OneNumber s l))
    (p := fun s => Probes 1 (s.thr 0) && decide (0 ∈ inService (s.hist 0)) &&
      decide (s.next 0 = some (.freeIrq 1)) && decide (OneNumber s (.act 0 .ok)) &&
      ((kernel (.bytewise fun _ _ x => x)).step s (.act 0 .ok)).isSome)
    (fun _ _ _ hb => of_decide_eq_true hb)
    (probeSteps 0 0 ++ publishSteps 0 ++ probeSteps 1 1 ++ [.act 0 .fail])
    (loaded_quiet oneBar bareWorld 1) (by decide +kernel)
  obtain ⟨z,hz,_,hq⟩ := Machine.exists_reaches (M := kernel (.bytewise fun _ _ x => x))
    (P := fun s l => PciEvents s l ∧ OneNumber s l) (n := 1)
    (b := fun s l => decide (PciEvents s l ∧ OneNumber s l))
    (p := fun s => Removes 0 (s.thr 0) && decide ((s.hist 0).map Prod.snd = [-eNODEV,0]))
    (fun _ _ _ hb => of_decide_eq_true hb)
    (probeSteps 0 0 ++ publishSteps 0 ++ probeSteps 1 1 ++ .act 0 .fail ::
      List.replicate 7 (.act 0 .ok) ++ .ret 0 :: removeSteps 0)
    (loaded_quiet oneBar bareWorld 1) (by decide +kernel)
  simp only [Bool.and_eq_true,decide_eq_true_eq] at hp hq
  obtain ⟨⟨⟨⟨hprobe,hd⟩,hnext⟩,hone⟩,hstep⟩ := hp
  obtain ⟨hremove,hhist⟩ := hq
  obtain ⟨k₁,p,ht⟩ := Probes.run hprobe
  obtain ⟨s',hs'⟩ := Option.isSome_iff_exists.mp hstep
  obtain ⟨k₀,r,htz⟩ := Removes.run hremove
  have hsame := (cards_do_not_disturb _ oneBar bareWorld hr).probe 0 hd 1 k₁ p _ s' ht
    ⟨trivial,hone⟩ hs'
  have hback := (cards_do_not_disturb _ oneBar bareWorld hz).remove 0 k₀ r htz
  exact ⟨s,s',z,k₀,r,hr,hnext,hd,hs',hsame,hz,hhist,htz,hback⟩

/-- The second probe overwrites the configspace of the first card. -/
theorem cards_do_not_disturb_fails :
    ¬ ∀ (c : Cipher) (bars : Nat → Bar) (w : World) (s : KSystem),
      (kernel c).Reaches PciEvents (loaded bars w) s → Undisturbed c PciEvents s := by
  intro h
  obtain ⟨s,hr,_,hp⟩ := Machine.exists_reaches (M := kernel (.bytewise fun _ _ x => x))
    (P := PciEvents) (n := 1) (b := fun s l => decide (PciEvents s l))
    (p := fun s => Probes 1 (s.thr 0) && decide (0 ∈ inService (s.hist 0)) &&
      decide (s.world.mycryptodev .configspace = some 0) &&
      ((kernel (.bytewise fun _ _ x => x)).step s (.act 0 .ok)).any
        (fun s' : KSystem => decide (s'.world.mycryptodev .configspace = some 1)))
    (fun _ _ _ hb => of_decide_eq_true hb)
    (probeSteps 0 0 ++ publishSteps 0 ++ probeSteps 1 1 ++ [.act 0 (.value 1),.act 0 .ok])
    (loaded_quiet oneBar bareWorld 1) (by decide +kernel)
  simp only [Bool.and_eq_true,decide_eq_true_eq] at hp
  obtain ⟨⟨⟨hprobe,hd⟩,hold⟩,hstep⟩ := hp
  obtain ⟨k₀,p,ht⟩ := Probes.run hprobe
  obtain ⟨s',hs',hnew⟩ := Option.any_eq_true _ _ |>.mp hstep
  have hsame := (h _ oneBar bareWorld s hr).probe 0 hd 1 k₀ p _ s' ht trivial hs'
  have hconfig := congrFun hsame.globals .configspace
  rw [of_decide_eq_true hnew,hold] at hconfig
  cases hconfig

end CryptoCard
