import CryptoCard.Driver
set_option autoImplicit false

/-! `pci_mmap` of `cryptocard_mod.c`: which page frames a request for a mapping of
the device node reaches. -/
namespace CryptoCard

def PAGE_SHIFT : UInt64 := 12
def PAGE_SIZE : Nat := 4096

/-- BAR 0 of the card, as `pci_resource_start` and `pci_resource_len` give it. -/
structure Bar where
  start : UInt64
  len : UInt64
  fits : start.toNat + len.toNat ≤ 2^64

/-- What the driver uses of a `vm_area_struct`; `P` are the page protections. -/
structure Vma (P : Type) where
  vmStart : UInt64
  vmEnd : UInt64
  vmPgoff : UInt64
  vmPageProt : P

/-- The arguments of `io_remap_pfn_range` but for the vma. -/
structure Remap (P : Type) where
  addr : UInt64
  pfn : UInt64
  size : UInt64
  prot : P

variable {P : Type}

/-- The request maps frame `k`; a last page that is begun is mapped whole. -/
def Remap.Hands (q : Remap P) (k : Nat) : Prop :=
  ∃ i, i * PAGE_SIZE < q.size.toNat ∧ k = q.pfn.toNat + i

/-- Every byte of frame `k` is one of the BAR. -/
def Bar.HasFrame (b : Bar) (k : Nat) : Prop :=
  b.start.toNat ≤ k * PAGE_SIZE ∧ (k+1) * PAGE_SIZE ≤ b.start.toNat + b.len.toNat

/-- The number of pages of the area. -/
def Vma.pages (v : Vma P) : Nat := ((v.vmEnd - v.vmStart).toNat + (PAGE_SIZE-1)) / PAGE_SIZE

/-- The result, the area as the driver leaves it and the request it made. -/
structure Mmapped (P : Type) where
  ret : Int
  vma : Vma P
  asked : Option (Remap P)

/-- `pdev` is `mycryptodev.pdev`; `pgprot` is `pgprot_device` and `remap` tells what
`io_remap_pfn_range` answers. -/
def pciMmap (pgprot : P → P) (remap : Remap P → Int) (pdev : Option Bar) (vmas : Vma P) :
    Mmapped P :=
  match pdev with
  | none => ⟨-eBUSY,vmas,none⟩
  | some b =>
    let v := { vmas with
      vmPageProt := pgprot vmas.vmPageProt
      vmPgoff := vmas.vmPgoff + (b.start >>> PAGE_SHIFT) }
    let q : Remap P := ⟨v.vmStart,v.vmPgoff,v.vmEnd - v.vmStart,v.vmPageProt⟩
    if remap q ≠ 0 then ⟨-eAGAIN,v,some q⟩ else ⟨0,v,some q⟩

/-- Whatever `io_remap_pfn_range` answers, a mapping that succeeds shows BAR 0 only. -/
def ShowsOnlyBar (pgprot : P → P) (pdev : Option Bar) (vmas : Vma P) : Prop :=
  ∀ remap, (pciMmap pgprot remap pdev vmas).ret = 0 →
    ∀ b ∈ pdev, ∀ q ∈ (pciMmap pgprot remap pdev vmas).asked, ∀ k, q.Hands k → b.HasFrame k

/-- The pages of the area lie inside of the BAR, counted from the page it starts in. -/
def Vma.Inside (v : Vma P) (b : Bar) : Prop :=
  (b.start.toNat % PAGE_SIZE = 0 ∨ 0 < v.vmPgoff.toNat) ∧
  (v.vmPgoff.toNat + v.pages) * PAGE_SIZE ≤ b.start.toNat % PAGE_SIZE + b.len.toNat

instance (v : Vma P) (b : Bar) : Decidable (v.Inside b) := inferInstanceAs (Decidable (_ ∧ _))

section
variable {pgprot : P → P} {remap : Remap P → Int} {b : Bar} {v : Vma P} {q : Remap P}

theorem pciMmap_unbound : (pciMmap pgprot remap none v).ret ≠ 0 := by
  simp [pciMmap,eBUSY]

/-- What is asked for, in page frames. -/
theorem pciMmap_asked (h : q ∈ (pciMmap pgprot remap (some b) v).asked) :
    q.size = v.vmEnd - v.vmStart ∧
    q.pfn.toNat = (v.vmPgoff.toNat + b.start.toNat / PAGE_SIZE) % 2^64 := by
  have hq : q = ⟨v.vmStart,v.vmPgoff + (b.start >>> PAGE_SHIFT),v.vmEnd - v.vmStart,
      pgprot v.vmPageProt⟩ := by
    simp only [pciMmap] at h
    split at h <;> exact (Option.mem_some_iff.mp h).symm
  subst hq
  have hshift : (b.start >>> PAGE_SHIFT).toNat = b.start.toNat / PAGE_SIZE := by
    rw [UInt64.toNat_shiftRight]
    exact Nat.shiftRight_eq_div_pow b.start.toNat 12
  exact ⟨rfl,by rw [UInt64.toNat_add,hshift]⟩

theorem exists_asked (pgprot : P → P) (b : Bar) (v : Vma P) :
    ∃ q, (pciMmap pgprot (fun _ => 0) (some b) v).ret = 0 ∧
    q ∈ (pciMmap pgprot (fun _ => 0) (some b) v).asked :=
  ⟨_,rfl,rfl⟩

/-- The frames that a stretch of `n` bytes from frame `a` on begins. -/
theorem frames_inside {s e a n : Nat} (hn : 0 < n) :
    (∀ i, i * PAGE_SIZE < n → s ≤ (a+i) * PAGE_SIZE ∧ (a+i+1) * PAGE_SIZE ≤ e) ↔
      s ≤ a * PAGE_SIZE ∧ (a + (n + (PAGE_SIZE-1)) / PAGE_SIZE) * PAGE_SIZE ≤ e := by
  have hpages : (n + (PAGE_SIZE-1)) / PAGE_SIZE = (n-1) / PAGE_SIZE + 1 := by
    unfold PAGE_SIZE
    omega
  rw [hpages]
  constructor
  · intro h
    have hfirst := h 0 (by omega)
    have hlast := h ((n-1) / PAGE_SIZE) (by unfold PAGE_SIZE; omega)
    exact ⟨hfirst.1,hlast.2⟩
  · intro h i hi
    have hi' : i ≤ (n-1) / PAGE_SIZE := by unfold PAGE_SIZE at *; omega
    have hlow : a * PAGE_SIZE ≤ (a+i) * PAGE_SIZE := Nat.mul_le_mul_right _ (by omega)
    have hhigh : (a+i+1) * PAGE_SIZE ≤ (a + ((n-1) / PAGE_SIZE + 1)) * PAGE_SIZE :=
      Nat.mul_le_mul_right _ (by omega)
    exact ⟨Nat.le_trans h.1 hlow,Nat.le_trans hhigh h.2⟩

/-- A sum that wraps leads to a frame below the BAR. -/
theorem interval_inside {s l g n : Nat} (hs : s + l ≤ 2^64) (hg : g < 2^64) (hn : 0 < n) :
    (s ≤ (g + s / PAGE_SIZE) % 2^64 * PAGE_SIZE ∧
        ((g + s / PAGE_SIZE) % 2^64 + n) * PAGE_SIZE ≤ s + l) ↔
      (s % PAGE_SIZE = 0 ∨ 0 < g) ∧ (g + n) * PAGE_SIZE ≤ s % PAGE_SIZE + l := by
  unfold PAGE_SIZE
  by_cases hwrap : g + s / 4096 < 2^64
  · rw [Nat.mod_eq_of_lt hwrap]
    omega
  · have hmod : (g + s / 4096) % 2^64 = g + s / 4096 - 2^64 := by omega
    rw [hmod]
    omega

/-- The frames of a request that is not empty are in the BAR exactly when the area is. -/
theorem asked_inside (hv : v.vmEnd ≠ v.vmStart)
    (hq : q ∈ (pciMmap pgprot remap (some b) v).asked) :
    (∀ k, q.Hands k → b.HasFrame k) ↔ v.Inside b := by
  have hpos : 0 < (v.vmEnd - v.vmStart).toNat := by
    refine Nat.pos_of_ne_zero (fun h => hv ?_)
    have hzero : v.vmEnd - v.vmStart = 0 := UInt64.toNat_inj.mp h
    simpa using UInt64.sub_eq_iff_eq_add.mp hzero
  have hpages : 0 < v.pages := by unfold Vma.pages PAGE_SIZE; omega
  obtain ⟨hsize,hpfn⟩ := pciMmap_asked hq
  have hall : (∀ k, q.Hands k → b.HasFrame k) ↔ ∀ i, i * PAGE_SIZE < q.size.toNat →
      b.start.toNat ≤ (q.pfn.toNat+i) * PAGE_SIZE ∧
      (q.pfn.toNat+i+1) * PAGE_SIZE ≤ b.start.toNat + b.len.toNat :=
    ⟨fun h i hi => h _ ⟨i,hi,rfl⟩,fun h k ⟨i,hi,hk⟩ => hk ▸ h i hi⟩
  rw [hall,frames_inside (hsize ▸ hpos),hsize,hpfn]
  exact interval_inside b.fits v.vmPgoff.toNat_lt hpages

/-- An empty area hands out nothing. -/
theorem not_hands_of_empty (hv : v.vmEnd = v.vmStart)
    (hq : q ∈ (pciMmap pgprot remap (some b) v).asked) (k : Nat) : ¬ q.Hands k := by
  intro hk
  obtain ⟨i,hi,_⟩ := hk
  rw [(pciMmap_asked hq).1,hv] at hi
  simp at hi

end

/-- A mapping shows BAR 0 only exactly when no card is bound or the area asks for no
more than that. -/
theorem shows_only_bar_iff (pgprot : P → P) (pdev : Option Bar) (v : Vma P) :
    ShowsOnlyBar pgprot pdev v ↔ ∀ b ∈ pdev, v.vmEnd = v.vmStart ∨ v.Inside b := by
  cases pdev with
  | none => exact iff_of_true (fun _ h => absurd h pciMmap_unbound) (fun b hb => nomatch hb)
  | some b =>
    constructor
    · intro h b' hb
      cases Option.mem_some_iff.mp hb
      refine or_iff_not_imp_left.mpr (fun hv => ?_)
      obtain ⟨q,hret,hq⟩ := exists_asked pgprot b v
      exact (asked_inside hv hq).mp (h _ hret b rfl q hq)
    · intro h remap _ b' hb q hq
      cases Option.mem_some_iff.mp hb
      rcases h b rfl with hv | hv
      · exact fun k hk => absurd hk (not_hands_of_empty hv hq k)
      · by_cases hempty : v.vmEnd = v.vmStart
        · exact fun k hk => absurd hk (not_hands_of_empty hempty hq k)
        · exact (asked_inside hempty hq).mpr hv

/-- One page behind a BAR of 1 MB. -/
theorem shows_only_bar_fails :
    ¬ ∀ (pdev : Option Bar) (v : Vma Unit), ShowsOnlyBar id pdev v := by
  intro h
  have hframe := h (some ⟨0xfe000000,0x100000,by decide⟩)
    ⟨0x7f0000000000,0x7f0000001000,256,()⟩ (fun _ => 0) rfl _ rfl _ rfl 0xfe100
    ⟨0,by decide,by decide⟩
  exact absurd hframe.2 (by decide)

end CryptoCard
