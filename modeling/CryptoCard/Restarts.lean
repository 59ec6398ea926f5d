import CryptoCard.Semaphore
import CryptoCard.LibCalls
set_option autoImplicit false

/-! A write that is cut short by signals, and restarted by the kernel until it goes
through. -/
namespace CryptoCard
open Memory Program Interleave

/-- One client, thread `t`, makes one write; it is made again when it was cut short and
the card has finished whatever was started. -/
def Restarting (t f ptr n : Nat) (s : System) : Step → Prop
  | .call u cl => cl.front = true → u = t ∧ cl = .write f ptr n ∧ s.world.card.op = none ∧
      ∀ e ∈ syscalls s t, e.2 = -eRESTARTSYS
  | _ => True

/-- The write works on the user's bytes, or no signal ends a wait for the card. -/
def Patient (mapped : Bool) (s : System) (l : Step) : Prop :=
  mapped = false ∨ cutsShort s l = false

/-- The data of a write, in the user's buffer or at the start of the mapped window, has
been transformed once. -/
def Once (c : Cipher) (f ptr n : Nat) (w w' : World) : Prop :=
  if (w.jobs f).isNotMM then
    w'.umem = store w.umem ptr (w.crypted c f (load w.umem ptr n))
  else w'.card.mem = store w.card.mem r1Start (w.crypted c f (load w.card.mem r1Start n))

/-- A write that has returned 0 has acted once. -/
def ActsOnce (c : Cipher) (t f ptr n : Nat) (w : World) (s : System) : Prop :=
  (Call.write f ptr n,0) ∈ syscalls s t → Once c f ptr n w s.world

/-- The answers in a run in which no wait of a job that is mapped is cut short. -/
abbrev unlessMapped (mapped : Bool) (_ : World) (a : Act) (r : a.Res) : Prop :=
  a.cut r = true → mapped = false

/-- The attempts so far were all cut short and have left the data alone. -/
structure Pristine (c : Cipher) (f : Nat) (w₀ : World) (hs : List (Call × Int)) (w : World) :
    Prop where
  cut : ∀ e ∈ hs, e.2 = -eRESTARTSYS
  modes : ∀ g, (w.jobs g).mode = (w₀.jobs g).mode
  umem : w.umem = w₀.umem
  window : (w₀.jobs f).isNotMM = false → w.card.settled c = w₀.card.mem

/-- The last attempt was not cut short. -/
def Final (c : Cipher) (f ptr n : Nat) (w₀ : World) (hs : List (Call × Int)) (w : World) : Prop :=
  ∃ cl v hs', hs = (cl,v) :: hs' ∧ v ≠ -eRESTARTSYS ∧ (∀ e ∈ hs', e.2 = -eRESTARTSYS) ∧
    (v = 0 → w.card.op = none ∧ Once c f ptr n w₀ w)

def restarts (c : Cipher) (t f ptr n : Nat) (w₀ : World) : Turns.Protocol World Call Int where
  Rest hs w := Pristine c f w₀ (hs t) w ∨ Final c f ptr n w₀ (hs t) w
  Open hs w u cl := u = t ∧ cl = .write f ptr n ∧ w.card.op = none ∧ Pristine c f w₀ (hs t) w
  Spec _ cl w v w' := cl = .write f ptr n →
    Attempt c (unlessMapped (!(w₀.jobs f).isNotMM)) f ptr n w v w'

section
variable {c : Cipher} {t f ptr n : Nat} {w₀ w w₁ w₂ : World} {hs : List (Call × Int)} {v : Int}

theorem Once.settles (h : Once c f ptr n w₀ w) (hop : w.card.op = none) (hw : Settles c w w₁) :
    Once c f ptr n w₀ w₁ := by
  obtain ⟨q,r,p,rfl⟩ := hw.idle hop
  exact h

theorem Pristine.crypted (h : Pristine c f w₀ hs w) (xs : List Byte) :
    w.crypted c f xs = w₀.crypted c f xs := by
  obtain ⟨hE,_,_,_,hk⟩ := View.mode_eq (h.modes f)
  rw [World.crypted,World.crypted,hE,hk]

theorem Pristine.step (h : Pristine c f w₀ hs w) (hop : w.card.op = none)
    (hw : Attempt c (unlessMapped (!(w₀.jobs f).isNotMM)) f ptr n w v w₁) :
    Pristine c f w₀ ((.write f ptr n,v) :: hs) w₁ ∨
      Final c f ptr n w₀ ((.write f ptr n,v) :: hs) w₁ := by
  have hN : (w.jobs f).isNotMM = (w₀.jobs f).isNotMM := (View.mode_eq (h.modes f)).2.2.2.1
  have hmem (hm : (w₀.jobs f).isNotMM = false) : w.card.mem = w₀.card.mem :=
    (Card.settled_idle hop).symm.trans (h.window hm)
  by_cases hv : v = -eRESTARTSYS
  · subst hv
    refine .inl ⟨fun e he => ?_,fun g => (hw.modes g).trans (h.modes g),?_,fun hm => ?_⟩
    · rcases List.mem_cons.mp he with rfl | he
      · rfl
      · exact h.cut e he
    · exact (hw.kept (by decide) (by decide)).trans h.umem
    · rcases hw.window (hN.trans hm) with ⟨_,hset⟩ | ⟨_,h0 | ⟨w',_,hal⟩⟩
      · exact hset.trans (hmem hm)
      · cases h0
      · have hno := hal rfl
        rw [hm] at hno
        cases hno
  · refine .inr ⟨_,v,hs,rfl,hv,h.cut,fun h0 => ⟨hw.idle h0,?_⟩⟩
    subst h0
    unfold Once
    cases hm : (w₀.jobs f).isNotMM with
    | true =>
      rw [if_pos rfl]
      obtain ⟨m,hum,hle,_⟩ := hw.user
      have hfull : (w.crypted c f (load w.umem ptr n)).length ≤ m := by
        rw [World.crypted,c.run_length,load_length]
        exact hle (hN.trans hm) rfl
      rw [hum,List.take_of_length_le hfull,h.crypted,h.umem]
    | false =>
      rw [if_neg Bool.false_ne_true]
      rcases hw.window (hN.trans hm) with ⟨h0,_⟩ | ⟨hset,_⟩
      · exact absurd rfl h0
      · rw [← Card.settled_idle (hw.idle rfl) (c := c),hset,h.crypted,hmem hm]

theorem restarts_follows (hn : n ≤ MAX_RW_COUNT) :
    (solo c (.of c (unlessMapped (!(w₀.jobs f).isNotMM)))).Follows (machine c)
      (fun s l => Restarting t f ptr n s l ∧ Patient (!(w₀.jobs f).isNotMM) s l)
      (restarts c t f ptr n w₀) where
  bears := solo_bears c _
  alone := by
    intro s u cl hp hcl hidle hopen u' cl' w hu'
    by_contra hf
    obtain ⟨rfl,_⟩ := hp.1 hcl
    obtain ⟨rfl,_⟩ := hopen u' cl' w hu' (by simpa using hf)
    rw [Sys.turn,hidle] at hu'
    cases hu'
  begins := by
    intro s u cl hp hcl hrest
    obtain ⟨rfl,rfl,hop,hcut⟩ := hp.1 hcl
    rcases hrest with hpr | ⟨cl',v,hs',hhs,hv,_⟩
    · exact ⟨rfl,rfl,hop,hpr⟩
    · have hhs : syscalls s u = (cl',v) :: hs' := hhs
      refine absurd (hcut (cl',v) ?_) hv
      rw [hhs]
      exact List.mem_cons_self
  code := by
    intro hs w u cl _ hopen
    obtain ⟨rfl,rfl,hop,_⟩ := hopen
    have hsure : Sure (.of c (unlessMapped (!(w₀.jobs f).isNotMM))) u
        (Attempt c _ f ptr (min n MAX_RW_COUNT) w) (sysWrite f ptr n) w :=
      sysWrite_sure hop starts_of
    rw [Nat.min_eq_left hn] at hsure
    exact (hsure.mono (fun v w' h _ => h)) w (.refl w)
  back := by
    intro s u cl _ hcl
    cases cl with
    | irq dev => exact pciIrqHandle_meek dev
    | _ => cases hcl
  allows := by
    intro s u x cl w' a k r w hp ht _ he hcut
    rcases hp.2 with hm | hs
    · exact hm
    · rw [cut_eq_false hs ht he] at hcut
      cases hcut
  good := fun _ _ => trivial
  rely := by
    intro hs w w' hrest hw
    rcases hrest with hpr | ⟨cl,v,hs',hhs,hv,hcut,hdone⟩
    · refine .inl ⟨hpr.cut,?_,?_,fun hm => ?_⟩
      · rw [hw.jobs]
        exact hpr.modes
      · rw [hw.umem]
        exact hpr.umem
      · rw [hw.settled]
        exact hpr.window hm
    · refine .inr ⟨cl,v,hs',hhs,hv,hcut,fun h0 => ?_⟩
      obtain ⟨hop,honce⟩ := hdone h0
      exact ⟨hw.op hop,honce.settles hop hw⟩
  closes := by
    intro hs w u cl v w₁ w₂ _ hopen hspec _ hw
    obtain ⟨rfl,rfl,hop,hpr⟩ := hopen
    have hstep := hpr.step hop (attempt_lasting.settles (hspec rfl) hw)
    simpa only [restarts,Function.update_self] using hstep

end

/-- A write that is restarted acts once, unless the job is mapped and one of its attempts
was cut short in the wait for the card. -/
theorem restarted_write_acts_once (c : Cipher) (w : World) (t f ptr n : Nat)
    (hn : n ≤ MAX_RW_COUNT) (hop : w.card.op = none) {s : System}
    (hr : (machine c).Reaches (fun s l => Restarting t f ptr n s l ∧
      Patient (!(w.jobs f).isNotMM) s l) (start w) s) : ActsOnce c t f ptr n w s := by
  intro hdone
  have hstart : (restarts c t f ptr n w).Rest (fun _ => []) w :=
    .inl ⟨(fun _ h => nomatch h),fun _ => rfl,rfl,fun _ => Card.settled_idle hop⟩
  obtain ⟨hrest,hopen,_⟩ := (restarts_follows hn).reaches hstart hr
  have hnot (h : Pristine c f w (syscalls s t) s.world) : False := by
    have h0 := h.cut _ hdone
    cases h0
  have hstill : (solo c (.of c (unlessMapped (!(w.jobs f).isNotMM)))).Still s := by
    intro u cl w' hu
    by_contra hf
    obtain ⟨rfl,_,_,hpr⟩ := hopen u cl w' hu (by simpa using hf)
    have h0 := hpr.cut _ hdone
    cases h0
  rcases hrest hstill with hpr | ⟨cl,v,hs',hhs,hv,hcut,hdone'⟩
  · exact (hnot ⟨hpr.cut,hpr.modes,hpr.umem,hpr.window⟩).elim
  · rw [show syscalls s t = (cl,v) :: hs' from hhs] at hdone
    rcases List.mem_cons.mp hdone with h | h
    · cases h
      exact (hdone' rfl).2
    · have h0 := hcut _ h
      cases h0

instance (t f ptr n : Nat) (s : System) (l : Step) : Decidable (Restarting t f ptr n s l) :=
  match l with
  | .call u cl => inferInstanceAs (Decidable (cl.front = true → u = t ∧ cl = .write f ptr n ∧
      s.world.card.op = none ∧ ∀ e ∈ syscalls s t, e.2 = -eRESTARTSYS))
  | .act _ _ | .ret _ | .env _ => isTrue trivial

instance (mapped : Bool) (s : System) (l : Step) : Decidable (Patient mapped s l) :=
  inferInstanceAs (Decidable (_ ∨ _))

/-- A file set up for MMIO with interrupts, on a card that has just been bound. -/
def primed (mapped : Bool) : World :=
  { World.boot (fun _ => 0) (fun _ => 0) with
    jobs := fun _ => ⟨true,true,true,!mapped,0,none,0⟩ }

/-- The steps of a write that a signal cuts short in the wait for the card, and of the
same write when it is made again. -/
def twiceSteps (start end₁ end₂ : List Step) : List Step :=
  start ++ List.replicate 2 (.act 0 .ok) ++ .act 0 .signal :: end₁ ++ .ret 0 :: .env .finish ::
    .env .raise :: start ++ .env .finish :: .act 0 .ok :: end₂ ++ [.ret 0]

/-- Up to the start of the card. -/
def unmappedStart : List Step :=
  .call 0 (.write 0 0 1) :: List.replicate 4 (.act 0 .ok) ++ .act 0 (.value 0) ::
    List.replicate 2 (.act 0 .ok) ++ .act 0 (.junk fun _ => 0) :: List.replicate 19 (.act 0 .ok)

def mappedStart : List Step :=
  .call 0 (.write 0 0 1) :: List.replicate 5 (.act 0 .ok) ++ .act 0 (.value 0) ::
    List.replicate 13 (.act 0 .ok)

/-- The write of an unmapped job, cut short once. -/
theorem restarted_write_acts_once_unmapped : ∃ s,
    (machine (.bytewise fun _ _ x => x+1)).Reaches
      (fun s l => Restarting 0 0 0 1 s l ∧ Patient false s l) (start (primed false)) s ∧
    (syscalls s 0).map Prod.snd = [0,-eRESTARTSYS] ∧
    ActsOnce (.bytewise fun _ _ x => x+1) 0 0 0 1 (primed false) s := by
  have hrun : ((machine (.bytewise fun _ _ x => x+1)).runIf 1
      (fun s l => decide (Restarting 0 0 0 1 s l ∧ Patient false s l)) (start (primed false))
      (twiceSteps unmappedStart (List.replicate 5 (.act 0 .ok))
        (List.replicate 12 (.act 0 .ok)))).any
      (fun s => decide ((syscalls s 0).map Prod.snd = [0,-eRESTARTSYS])) = true := by
    decide +kernel
  obtain ⟨s,hr,_,hp⟩ := Machine.exists_reaches (fun _ _ _ h => of_decide_eq_true h) _
    (start_quiet _ 1) hrun
  exact ⟨s,hr,of_decide_eq_true hp,
    restarted_write_acts_once _ (primed false) 0 0 0 1 (by decide) rfl hr⟩

/-- The write of a mapped job, cut short once, transforms the window twice. -/
theorem restarted_write_acts_twice :
    ¬ ∀ (c : Cipher) (w : World) (t f ptr n : Nat), 1 ≤ n → n ≤ BUFFERSIZE →
      w.card.op = none → ∀ s, (machine c).Reaches (Restarting t f ptr n) (start w) s →
      ActsOnce c t f ptr n w s := by
  intro h
  have hrun : ((machine (.bytewise fun _ _ x => x+1)).runIf 1
      (fun s l => decide (Restarting 0 0 0 1 s l)) (start (primed true))
      (twiceSteps mappedStart (List.replicate 3 (.act 0 .ok)) (List.replicate 4 (.act 0 .ok)))).any
      (fun s => decide ((Call.write 0 0 1,0) ∈ syscalls s 0 ∧ s.world.card.mem r1Start = 2)) =
        true := by
    decide +kernel
  obtain ⟨s,hr,_,hp⟩ := Machine.exists_reaches (fun _ _ _ h => of_decide_eq_true h) _
    (start_quiet _ 1) hrun
  obtain ⟨hdone,hmem⟩ := of_decide_eq_true hp
  have honce := h _ (primed true) 0 0 0 1 (by decide) (by decide) rfl s hr hdone
  have h1 : s.world.card.mem r1Start = 1 := congrFun honce r1Start
  rw [hmem] at h1
  exact absurd h1 (by decide)

end CryptoCard
