import CryptoCard.Card
import CryptoCard.Mmap
set_option autoImplicit false

/-! `map_card` and `unmap_card` of `crypter.c`: which bytes of the card the pointer that a
process gets leads to, and when all of those that it asked for can be used. -/
namespace CryptoCard

/-- Which byte of which open file an address shows; `none` where nothing is mapped. -/
abbrev Space := Nat → Option (Nat × Nat)

/-- The length of every mapping of the card. -/
def mapLength : UInt64 := 1024*1024

/-- What `mmap` returns when it fails. -/
def MAP_FAILED : UInt64 := 0xFFFFFFFFFFFFFFFF

/-- Where `mmap` finds room for a mapping of the card: free whole pages. -/
structure Gap (S : Space) where
  base : UInt64
  aligned : base.toNat % PAGE_SIZE = 0
  fits : base.toNat + mapLength.toNat ≤ 2^64
  free : ∀ x, base.toNat ≤ x → x < base.toNat + mapLength.toNat → S x = none

inductive Outcome (S : Space) where
  | failed : Outcome S
  | mapped : Gap S → Outcome S

/-- `n` bytes of `cdev`, from its first one on, at `base`. -/
def Space.put (S : Space) (cdev base n : Nat) : Space := fun x =>
  if base ≤ x ∧ x < base+n then some (cdev,x-base) else S x

def Space.clear (S : Space) (base n : Nat) : Space := fun x =>
  if base ≤ x ∧ x < base+n then none else S x

/-- `mmap(NULL, 1024*1024, ..., cdev, 0)`. -/
def mmapCard (cdev : Nat) (S : Space) : Outcome S → UInt64 × Space
  | .failed => (MAP_FAILED,S)
  | .mapped a => (a.base,S.put cdev a.base.toNat mapLength.toNat)

/-- `munmap` takes away every page that it touches. -/
def munmap (addr len : UInt64) (S : Space) : Int × Space :=
  let n := (len.toNat + (PAGE_SIZE-1)) / PAGE_SIZE * PAGE_SIZE
  if addr.toNat % PAGE_SIZE = 0 ∧ 0 < n ∧ addr.toNat + n ≤ 2^64 then (0,S.clear addr.toNat n)
  else (-1,S)

/-- `r` is what comes of the call of `mmap`; 0 is NULL. -/
def mapCard (cdev : Nat) (S : Space) (size : UInt64) (r : Outcome S) : UInt64 × Space :=
  if size > 1024*1024 then (0,S)
  else
    let (addr,S') := mmapCard cdev S r
    if addr = 0 then (0,S') else (addr+0xA8,S')

def unmapCard (_cdev : Nat) (addr : UInt64) (S : Space) : Space :=
  (munmap (addr-0xA8) (1024*1024) S).2

/-- The size is refused before anything is mapped. -/
abbrev Refuses (size : UInt64) : Prop := size > 1024*1024

/-- The pointer `p` of a process leads to `size` bytes of the card's data window inside of
the mapping at `base`. -/
structure Reaching (cdev : Nat) (base p size : UInt64) (S' : Space) : Prop where
  pointer : p ≠ 0
  inside : ∀ x, p.toNat ≤ x → x < p.toNat + size.toNat →
    base.toNat ≤ x ∧ x < base.toNat + mapLength.toNat ∧
      ∃ o, S' x = some (cdev,o) ∧ r1Start ≤ o ∧ o ≤ r1End

/-- What map_card promises: NULL and nothing mapped where it refuses or `mmap` fails, and
otherwise memory that can be used and that unmap_card takes back. -/
structure Promised (cdev : Nat) (S : Space) (size : UInt64) (r : Outcome S) : Prop where
  null : Refuses size ∨ r = .failed → mapCard cdev S size r = (0,S)
  usable : ¬ Refuses size → ∀ a, r = .mapped a →
    Reaching cdev a.base (mapCard cdev S size r).1 size (mapCard cdev S size r).2
  removed : ¬ Refuses size → ∀ a, r = .mapped a →
    unmapCard cdev (mapCard cdev S size r).1 (mapCard cdev S size r).2 = S

section
variable {cdev : Nat} {S : Space} {size : UInt64} {r : Outcome S}

theorem mapLength_toNat : mapLength.toNat = 1024*1024 := rfl

theorem Space.clear_put {base n : Nat} (h : ∀ x, base ≤ x → x < base+n → S x = none) :
    (S.put cdev base n).clear base n = S := by
  funext x
  unfold Space.clear Space.put
  by_cases hx : base ≤ x ∧ x < base+n
  · rw [if_pos hx,h x hx.1 hx.2]
  · rw [if_neg hx,if_neg hx]

theorem mapCard_refused (h : Refuses size) : mapCard cdev S size r = (0,S) := by
  rw [mapCard,if_pos h]

/-- The failure of `mmap` is not told from a mapping. -/
theorem mapCard_failed (h : ¬ Refuses size) :
    mapCard cdev S size .failed = (MAP_FAILED+0xA8,S) := by
  rw [mapCard,if_neg h]
  exact if_neg (by decide)

theorem mapCard_mapped (h : ¬ Refuses size) (a : Gap S) :
    mapCard cdev S size (.mapped a) = (if a.base = 0 then 0 else a.base+0xA8,
      S.put cdev a.base.toNat mapLength.toNat) := by
  rw [mapCard,if_neg h]
  dsimp only [mmapCard]
  split <;> rfl

namespace Gap

variable (a : Gap S)

theorem pointer_toNat : (a.base+0xA8).toNat = a.base.toNat + 0xA8 := by
  have hf := a.fits
  rw [mapLength_toNat] at hf
  rw [UInt64.toNat_add]
  exact Nat.mod_eq_of_lt (Nat.lt_of_lt_of_le (Nat.add_lt_add_left (by decide) _) hf)

theorem pointer_sub : a.base+0xA8-0xA8 = a.base := by
  rw [UInt64.add_sub_cancel]

theorem pointer_ne : a.base+0xA8 ≠ 0 := by
  intro h
  have hn := a.pointer_toNat
  rw [h] at hn
  exact absurd hn (by rw [UInt64.toNat_zero]; omega)

/-- The mapping is taken back whole. -/
theorem unmap : unmapCard cdev (a.base+0xA8) (S.put cdev a.base.toNat mapLength.toNat) = S := by
  have hf := a.fits
  have hpages : ((1024*1024 : UInt64).toNat + (PAGE_SIZE-1)) / PAGE_SIZE * PAGE_SIZE =
      mapLength.toNat := by decide
  rw [unmapCard,pointer_sub,munmap,hpages]
  rw [if_pos ⟨a.aligned,by decide,hf⟩]
  exact Space.clear_put a.free

/-- Of the pointer that map_card hands out, all that fits in the mapping can be used. -/
theorem reaching (h : size.toNat ≤ 1024*1024 - 0xA8) :
    Reaching cdev a.base (a.base+0xA8) size (S.put cdev a.base.toNat mapLength.toNat) := by
  refine ⟨a.pointer_ne,fun x hx hlt => ?_⟩
  rw [a.pointer_toNat] at hx hlt
  rw [mapLength_toNat]
  have hin : a.base.toNat ≤ x ∧ x < a.base.toNat + 1024*1024 := by omega
  refine ⟨hin.1,hin.2,x-a.base.toNat,if_pos hin,?_,?_⟩
  · unfold r1Start
    omega
  · unfold r1End
    omega

/-- More than that and the end of it lies past the mapping. -/
theorem overruns (h : 1024*1024 - 0xA8 < size.toNat) {S' : Space} :
    ¬ Reaching cdev a.base (a.base+0xA8) size S' := by
  intro hr
  have hin := hr.inside (a.base.toNat + 1024*1024)
  rw [a.pointer_toNat] at hin
  have hlt := (hin (by omega) (by omega)).2.1
  rw [mapLength_toNat] at hlt
  omega

end Gap

/-- map_card does what it promises exactly if it refuses the size, or if `mmap` succeeds at
an address other than 0 and what lies behind the header of its mapping is enough. -/
theorem map_card_iff (cdev : Nat) (S : Space) (size : UInt64) (r : Outcome S) :
    Promised cdev S size r ↔ Refuses size ∨
      ∃ a, r = .mapped a ∧ a.base ≠ 0 ∧ size.toNat ≤ 1024*1024 - 0xA8 := by
  by_cases hno : Refuses size
  · refine ⟨fun _ => .inl hno,fun _ => ?_⟩
    exact ⟨fun _ => mapCard_refused hno,fun h => absurd hno h,fun h => absurd hno h⟩
  · cases r with
    | failed =>
      refine ⟨fun h => ?_,fun h => ?_⟩
      · have hnull := (mapCard_failed hno).symm.trans (h.null (.inr rfl))
        have h0 : MAP_FAILED+0xA8 = 0 := congrArg Prod.fst hnull
        exact absurd h0 (by decide)
      · obtain h | ⟨a,h,_⟩ := h
        · exact absurd h hno
        · cases h
    | mapped a =>
      have hmap : mapCard cdev S size (.mapped a) = _ := mapCard_mapped hno a
      refine ⟨fun h => .inr ⟨a,rfl,?_⟩,fun h => ?_⟩
      · have hu := h.usable hno a rfl
        rw [hmap] at hu
        have h0 : a.base ≠ 0 := fun h0 => hu.pointer (if_pos h0)
        rw [if_neg h0] at hu
        exact ⟨h0,Nat.le_of_not_lt (fun hlt => a.overruns hlt hu)⟩
      · obtain h | ⟨a',ha,h0,hsize⟩ := h
        · exact absurd h hno
        · cases ha
          rw [if_neg h0] at hmap
          refine ⟨fun h => ?_,fun _ a' ha => ?_,fun _ a' ha => ?_⟩
          · obtain h | h := h
            · exact absurd h hno
            · cases h
          · cases ha
            rw [hmap]
            exact a.reaching hsize
          · cases ha
            rw [hmap]
            exact a.unmap

end

/-- With no room for the mapping, a request for a page is answered by the address 0xA7. -/
theorem map_card_fails : ¬ ∀ (cdev : Nat) (S : Space) (size : UInt64) (r : Outcome S),
    Promised cdev S size r := by
  intro h
  have hnull := (h 3 (fun _ => none) 4096 .failed).null (.inr rfl)
  exact absurd (congrArg Prod.fst hnull) (by decide)

end CryptoCard
