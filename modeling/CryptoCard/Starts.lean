import CryptoCard.Tally
import CryptoCard.Semaphore
import CryptoCard.Progress
set_option autoImplicit false

/-! How often the calls of a run start the card: once for every chunk that a call says it
has done, never for a write that is turned away. -/
namespace CryptoCard
open Program Interleave Interleave.Machine

/-- A write of `data_addr`, or of `cmd` with bit 0. -/
def Act.starts : Act → Bool
  | .iowrite .dataAddr _ => true
  | .iowrite .cmd v => v.testBit 0
  | _ => false

abbrev Act.Still (a : Act) : Prop := a.starts = false

/-- How often a write that returns `r` starts the card. -/
def WriteStarts (r : Int) (k : Nat) : Prop :=
  r = 0 ∧ k = 1 ∨ (r = -eAGAIN ∨ r = -eRESTARTSYS) ∧ k ≤ 1 ∨
    (r = -eINVAL ∨ r = -eNODEV ∨ r = -eNOMEM ∨ r = -1) ∧ k = 0

/-- How often an encrypt or decrypt that returns `r` starts the card. -/
def CryptStarts (length : Nat) (r : Int) (k : Nat) : Prop :=
  r = 0 ∧ k = chunks length ∨ r = ERROR ∧ k ≤ chunks length

def Call.Starts : Call → Int → Nat → Prop
  | .write _ _ _, r, k => WriteStarts r k
  | .encrypt _ _ length _, r, k | .decrypt _ _ length _, r, k => CryptStarts length r k
  | _, _, k => k = 0

namespace WriteStarts

theorem cut {k : Nat} (h : k ≤ 1) : WriteStarts (-eRESTARTSYS) k := .inr (.inl ⟨.inr rfl,h⟩)

theorem refused {r : Int} (h : r = -eINVAL ∨ r = -eNODEV ∨ r = -eNOMEM ∨ r = -1) :
    WriteStarts r 0 := .inr (.inr ⟨h,rfl⟩)

end WriteStarts

section
variable {f ptr len : Nat} {err : Int} {Q : Int → Nat → Prop}

attribute [local simp] Act.starts Act.Still

end

instance (a : Act) : Nonempty a.Res := by
  cases a <;> exact ⟨default⟩

section
variable {φ : Nat → Phase} {w w' : World} {t : Nat} {a : Act} {x : Choice} {r : a.Res}

theorem Act.starts_programs (h : a.starts = true) : a.Programs = true := by
  cases a with
  | iowrite reg v => cases reg <;> first | rfl | cases h
  | _ => cases h

theorem World.started (h : a.starts = true) (hop : w.card.op = none)
    (he : World.exec t a x w = some (.done r w')) :
    w'.card.op ≠ none ∧ w'.holders = w.holders := by
  cases a with
  | iowrite reg v =>
    cases reg with
    | dataAddr =>
      cases he
      exact ⟨by simp [Card.iowrite,Card.start,hop],rfl⟩
    | cmd =>
      cases he
      have h : v.testBit 0 = true := h
      exact ⟨by simp [Card.iowrite,Card.start,hop,h],rfl⟩
    | _ => cases h
  | _ => cases h

/-- Nothing but a start gets the card going, and nothing but up gives the semaphore back. -/
theorem World.not_started (h : a.starts = false) (hup : a ≠ .up)
    (he : World.exec t a x w = some (.done r w')) :
    w'.card.op = w.card.op ∧ w.holders ⊆ w'.holders := by
  by_cases hq : a.Quiet = true
  · have hc := World.exec_quiet hq he
    exact ⟨hc.op,hc.holders ▸ List.Subset.refl _⟩
  cases a with
  | downInterruptible =>
    obtain ⟨_,rfl,_⟩ | ⟨_,_,rfl⟩ := World.downInterruptible_done he
    · exact ⟨rfl,List.Subset.refl _⟩
    · exact ⟨rfl,List.subset_cons_self _ _⟩
  | up => exact absurd rfl hup
  | iowrite reg v =>
    cases he
    refine ⟨?_,List.Subset.refl _⟩
    cases reg with
    | dataAddr => cases h
    | cmd =>
      have h : v.testBit 0 = false := h
      simp [Card.iowrite,h]
    | _ => rfl
  | pollBusy k =>
    simp only [World.exec] at he
    split at he
    · cases he
    · cases he
      exact ⟨rfl,List.Subset.refl _⟩
  | waitEvent k =>
    obtain ⟨⟨rfl,_⟩ | rfl,_⟩ := World.waitStep_done he
    · exact ⟨rfl,List.Subset.refl _⟩
    · exact ⟨rfl,List.Subset.refl _⟩
  | wakeUp =>
    cases he
    exact ⟨rfl,List.Subset.refl _⟩
  | ioread reg =>
    obtain ⟨rfl,_⟩ := World.ioread_done he
    exact ⟨rfl,List.Subset.refl _⟩
  | _ => exact absurd rfl hq

/-- A thread that holds the semaphore over an operation waits for its end. -/
theorem Phase.waits {k : Kind} {i : Bool} (h : (Phase.busy k i).Ok a) :
    a = .pollBusy k ∨ a = .waitEvent k := by
  cases a with
  | pollBusy k' =>
    cases h
    exact .inl rfl
  | waitEvent k' =>
    cases h
    exact .inr rfl
  | iowrite reg v =>
    cases reg with
    | dataAddr =>
      obtain ⟨_,h⟩ := h
      cases h
    | interruptAck => cases h
    | _ => exact h.elim
  | ioread reg =>
    cases reg with
    | interruptStatus => cases h
    | _ => exact h.elim
  | wakeUp =>
    obtain ⟨_,h⟩ := h
    cases h
  | downInterruptible => cases h
  | _ => exact h.elim

end

/-- The start that is not answered is that of the operation in progress, by a thread that
holds the semaphore. -/
def Tallied (es : List Stroke) (s : System) : Prop :=
  ∃ b, Alternates b es ∧ (b = none ↔ s.world.card.op = none) ∧ ∀ t, b = some t → t ∈ s.world.holders

abbrev cardStrokes (c : Cipher) : System → Step → List Stroke :=
  (machine c).strokes Act.starts (fun e => e == .finish)

theorem Tallied.congr {es : List Stroke} {s s' : System} (h : Tallied es s)
    (hop : s'.world.card.op = s.world.card.op) (hh : s.world.holders ⊆ s'.world.holders) :
    Tallied es s' := by
  obtain ⟨b,hb,hiff,hheld⟩ := h
  exact ⟨b,hb,by rw [hop]; exact hiff,fun t ht => hh (hheld t ht)⟩

theorem Tallied.step {c : Cipher} {es : List Stroke} {s s' : System} {g : Nat → Phase} {l : Step}
    (hg : lockAssertions.Holds s g) (h : Tallied es s) (hs : (machine c).step s l = some s') :
    Tallied (cardStrokes c s l ++ es) s' := by
  have hJ : LockInv g s.world := hg.1
  cases l with
  | call t cl =>
    simp only [Machine.step] at hs
    split at hs <;> cases hs
    exact h
  | ret t =>
    simp only [Machine.step] at hs
    split at hs <;> cases hs
    exact h
  | act t x =>
    obtain ⟨cl,w₀,a,k,hrun,⟨w,he,rfl⟩ | ⟨r,w,he,rfl⟩ | ⟨w,he,rfl⟩⟩ := actStep_cases hs
    · rw [cardStrokes,strokes_stay hrun he]
      obtain ⟨_,rfl⟩ := World.stay_task he
      exact h
    · rw [cardStrokes,strokes_done hrun he]
      have hok : (g t).Ok a := hg.ok hrun
      obtain ⟨b,hb,hiff,hheld⟩ := h
      by_cases ha : a.starts = true
      · have hidle := Phase.idle_of_programs hok (Act.starts_programs ha)
        have hop := hJ.card_idle hidle
        obtain rfl := hiff.mpr hop
        obtain ⟨hop',hh⟩ := World.started ha hop he
        rw [if_pos ha]
        refine ⟨some t,hb.act,by simp [hop'],fun u hu => ?_⟩
        cases hu
        rw [hh]
        exact (hJ.sem.held t).mpr hidle.holds
      · rw [if_neg ha,List.nil_append]
        by_cases hup : a = .up
        · subst a
          cases he
          have hop := hJ.card_idle hok
          obtain rfl := hiff.mpr hop
          exact ⟨none,hb,hiff,fun u hu => by cases hu⟩
        · obtain ⟨hop,hh⟩ := World.not_started (Bool.not_eq_true _ ▸ ha) hup he
          exact Tallied.congr ⟨b,hb,hiff,hheld⟩ hop hh
    · rw [cardStrokes,strokes_oops hrun he]
      obtain ⟨rfl,_⟩ := World.exec_oops he
      exact h
  | env e =>
    simp only [Machine.step,Option.map_eq_some_iff] at hs
    obtain ⟨w,he,rfl⟩ := hs
    obtain ⟨rfl,o,ho,_,rfl⟩ | ⟨rfl,k,_,rfl⟩ := World.env_cases he
    · obtain ⟨b,hb,hiff,_⟩ := h
      cases b with
      | none =>
        rw [hiff.mp rfl] at ho
        cases ho
      | some t => exact ⟨none,hb.env,⟨fun _ => rfl,fun _ => rfl⟩,fun u hu => by cases hu⟩
    · exact h

/-- As long as no wait is cut short the card takes the threads' starts one by one: it does an
operation for each before there is another, and who has started the one in progress waits
for it. -/
theorem every_start_is_served (c : Cipher) (umem mem : Nat → Byte) {es : List Stroke}
    {s : System} (hr : (machine c).Tallies Act.starts (fun e => e == .finish)
      (fun s l => cutsShort s l = false) (start (World.boot umem mem)) es s) :
    ∃ b, Alternates b es ∧ (b = none ↔ s.world.card.op = none) ∧ ∀ t, b = some t →
      ∃ o, s.world.card.op = some o ∧
        (s.next t = some (.pollBusy o.kind) ∨ s.next t = some (.waitEvent o.kind)) := by
  have h₀ : Tallied [] (start (World.boot umem mem)) :=
    ⟨none,.nil,⟨fun _ => rfl,fun _ => rfl⟩,fun t ht => by cases ht⟩
  obtain ⟨⟨b,hb,hiff,hheld⟩,g,hg⟩ := (lockOutline c (fun _ _ h => h)).tallies
    (L := Tallied) (fun hg h _ hs => h.step hg hs) (lock_start umem mem) h₀ hr
  refine ⟨b,hb,hiff,?_⟩
  rintro t rfl
  have hJ : LockInv g s.world := hg.1
  have hop : s.world.card.op ≠ none := fun h => by cases hiff.mpr h
  obtain ⟨o,ho⟩ := Option.ne_none_iff_exists'.mp hop
  have hbusy := hJ.busy_of_running ho ((hJ.sem.held t).mp (hheld t rfl))
  have ht := hg.2 t
  rw [hbusy] at ht
  refine ⟨o,ho,?_⟩
  cases hthr : s.thr t with
  | idle =>
    rw [hthr] at ht
    cases ht
  | dead =>
    rw [hthr] at ht
    exact ht.elim
  | run cl w₀ p =>
    rw [hthr] at ht
    obtain ⟨_,_,_,hp⟩ := ht
    cases p with
    | ret v => cases hp
    | act a k =>
      simp only [Sys.next,hthr,Option.some.injEq]
      exact Phase.waits hp.1

/-- The client's write is asleep over its operation. -/
theorem every_start_is_served_asleep : ∃ es s,
    (machine (.bytewise fun _ _ x => x)).Tallies Act.starts (fun e => e == .finish)
      (fun s l => cutsShort s l = false) (start (World.boot (fun _ => 0) (fun _ => 0))) es s ∧
    s.world.card.busy .mmio = true ∧ ∃ t, Alternates (some t) es ∧
      (s.next t = some (.pollBusy .mmio) ∨ s.next t = some (.waitEvent .mmio)) := by
  obtain ⟨s,hr,_,hp⟩ := Machine.exists_reaches (M := machine (.bytewise fun _ _ x => x))
    (P := fun s l => cutsShort s l = false) (n := 1) (b := fun s l => !cutsShort s l)
    (p := fun s => s.world.card.busy .mmio)
    (by simp) sleepingWrite
    (start_quiet (World.boot (fun _ => 0) (fun _ => 0)) 1) (by decide +kernel)
  obtain ⟨es,ht⟩ := hr.tallies Act.starts (fun e => e == .finish)
  obtain ⟨b,hb,hiff,hwait⟩ := every_start_is_served _ _ _ ht
  refine ⟨es,s,ht,hp,?_⟩
  cases b with
  | none => simp [Card.busy,hiff.mp rfl] at hp
  | some t =>
    obtain ⟨o,ho,hw⟩ := hwait t rfl
    obtain ⟨o',ho',hk⟩ := (Card.busy_iff _ _).mp hp
    obtain rfl : o = o' := Option.some.inj (ho.symm.trans ho')
    exact ⟨t,hb,hk ▸ hw⟩

end CryptoCard
