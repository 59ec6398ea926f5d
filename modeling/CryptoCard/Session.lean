import CryptoCard.View
set_option autoImplicit false

/-! What the write of a client does to the client's view, transport by transport. -/
namespace CryptoCard
open Memory Program Interleave

namespace View

/-- The view after `releaseMsg`. -/
def dropped (v : View) (f : Nat) : View :=
  { v.setJob f { v.jobs f with msg := none } with buf := none }

/-- The view whose job points to the buffer `q`. -/
def loaded (v : View) (f : Nat) (q : Option (Nat × List Byte)) : View :=
  { v.setJob f { v.jobs f with msg := q.map Prod.fst } with buf := q }

/-- The view after `up`. -/
def raised (v : View) : View := { v with bar := none, own := v.own.map (fun _ => v.mem) }

/-- The buffer of the call is the one that the exits free. -/
def Owns (v : View) (f : Nat) : Prop :=
  v.buf.map Prod.fst = if (v.jobs f).isNotMM then (v.jobs f).msg else none

def Clean (v : View) : Prop := v.buf = none ∧ v.map = none ∧ v.bar = none

/-- Every job but its length and its buffer is as in `v₀`. -/
def SameModes (v₀ v : View) : Prop := ∀ f, (v.jobs f).mode = (v₀.jobs f).mode

/-- The transformation that was asked for. -/
def transform (v : View) (c : Cipher) (xs : List Byte) : List Byte :=
  c.run v.want.decrypt v.want.key xs

@[simp] theorem transform_length (v : View) (c : Cipher) (xs : List Byte) :
    (v.transform c xs).length = xs.length := c.run_length _ _ _

/-- The handle is configured for what the call asked for, and the call holds nothing. -/
structure Ready (f : Nat) (v : View) : Prop where
  role : v.role = .client
  file : v.file = some f
  clean : v.Clean
  isE : (v.jobs f).isE = !v.want.decrypt
  isM : (v.jobs f).isM = !v.want.dma
  isI : (v.jobs f).isI = v.want.intr
  isNotMM : (v.jobs f).isNotMM = !v.want.mapped
  keyab : (v.jobs f).keyab = v.want.key

/-- Since `v₀` nothing has happened that outlasts the call. -/
structure Begun (v₀ v : View) : Prop where
  link : v₀.Link v
  modes : v₀.SameModes v
  um : v.um = v₀.um
  own : v.own = v₀.own

/-- In the middle of a write that began with `v₀`. -/
structure Writing (f : Nat) (v₀ v : View) : Prop extends Begun v₀ v where
  owns : v.Owns f

/-- The write that began with `v₀` has returned `r`. -/
structure Wrote (c : Cipher) (f ptr n : Nat) (v₀ : View) (r : Int) (v : View) : Prop where
  link : v₀.Link v
  modes : v₀.SameModes v
  clean : v.Clean
  um : ∃ m, v.um = store v₀.um ptr ((v₀.transform c (load v₀.um ptr n)).take m) ∧
    (v₀.want.mapped = false → r = 0 → n ≤ m) ∧ (v₀.want.mapped = true → m = 0)
  own : v₀.want.mapped = true → r = 0 → v.own = v₀.own.map (fun m =>
    store m r1Start (v₀.transform c (load m r1Start n)))

section
variable {c : Cipher} {f ptr n : Nat} {err r : Int} {v v₀ : View} {B : Card}
variable {b : Nat} {xs : List Byte}

theorem SameModes.setJob (h : v₀.SameModes v) {j : Job} (hj : j.mode = (v.jobs f).mode) :
    v₀.SameModes (v.setJob f j) := by
  intro f'
  by_cases hf : f' = f
  · subst f'
    simpa [View.setJob,hj] using h f
  · simpa [View.setJob,hf] using h f'

theorem Free.of_bar {v : View} (h : v.bar = none) : v.Free := fun B hB => by
  rw [h] at hB
  cases hB

theorem Free.of_idle (hB : v.bar = some B) (hop : B.op = none) : v.Free := fun B' hB' => by
  rw [hB] at hB'
  cases hB'
  exact hop

theorem bytes_eq (h : v.buf = some (b,xs)) : v.bytes = xs := by simp [bytes,h]

theorem mem_eq (h : v.bar = some B) : v.mem = B.mem := by simp [mem,h]

theorem Begun.job (h : Begun v₀ v) (hr : Ready f v₀) :
    (v.jobs f).isE = !v.want.decrypt ∧ (v.jobs f).isM = !v.want.dma ∧
      (v.jobs f).isI = v.want.intr ∧ (v.jobs f).isNotMM = !v.want.mapped ∧
      (v.jobs f).keyab = v.want.key := by
  obtain ⟨hE,hM,hI,hN,hk⟩ := mode_eq (h.modes f)
  rw [hE,hM,hI,hN,hk,h.link.want]
  exact ⟨hr.isE,hr.isM,hr.isI,hr.isNotMM,hr.keyab⟩

theorem Begun.role (h : Begun v₀ v) (hr : Ready f v₀) : v.role = .client :=
  h.link.role.trans hr.role

theorem Begun.file (h : Begun v₀ v) (hr : Ready f v₀) : v.file = some f :=
  h.link.file.trans hr.file

/-- An error before the last copy leaves the client's memory alone. -/
theorem failed (hl : v₀.Link v) (hm : v₀.SameModes v) (hum : v.um = v₀.um) (hc : v.Clean)
    (hr : r ≠ 0) : Wrote c f ptr n v₀ r v where
  link := hl
  modes := hm
  clean := hc
  um := ⟨0,by simp [hum],fun _ h0 => absurd h0 hr,fun _ => rfl⟩
  own _ h0 := absurd h0 hr

theorem Writing.failed_raised (h : Writing f v₀ v) (hr : r ≠ 0) (hmap : v.map = none) :
    Wrote c f ptr n v₀ r (v.raised.dropped f) :=
  failed ⟨h.link.role,h.link.file,h.link.lo,h.link.size,h.link.want⟩
    (SameModes.setJob (v := v.raised) h.modes rfl) h.um ⟨rfl,hmap,rfl⟩ hr

theorem Writing.failed_dropped (h : Writing f v₀ v) (hr : r ≠ 0) (hmap : v.map = none)
    (hbar : v.bar = none) : Wrote c f ptr n v₀ r (v.dropped f) :=
  failed ⟨h.link.role,h.link.file,h.link.lo,h.link.size,h.link.want⟩
    (SameModes.setJob h.modes rfl) h.um ⟨rfl,hmap,hbar⟩ hr

theorem Writing.msg (hr : Ready f v₀) (h : Writing f v₀ v) (hm : v.want.mapped = false)
    (hbuf : v.buf = some (b,xs)) : (v.jobs f).isNotMM = true ∧ (v.jobs f).msg = some b := by
  have hN : (v.jobs f).isNotMM = true := by simp [(h.job hr).2.2.2.1,hm]
  have ho := h.owns
  simp only [Owns,hbuf,hN,Option.map_some,if_true] at ho
  exact ⟨hN,ho.symm⟩

theorem releaseMsg_view {Q : Unit → View → Prop} (hcl : v.role = .client) (hf : v.file = some f)
    (ho : v.Owns f) (hmap : v.map = none) (hbar : v.bar = none) (h : Q () (v.dropped f)) :
    wp (viewing c) (releaseMsg f) Q v := by
  have hfree := Free.of_bar hbar
  simp only [releaseMsg,wp_bind,wp_perform,wp_ite,Ok,Next,and_imp,forall_eq,forall_const]
  refine ⟨⟨hf,hfree⟩,fun hN => ?_,fun hN => ?_⟩
  · have hbuf : (v.jobs f).msg = v.buf.map Prod.fst := by
      have hN : (v.jobs f).isNotMM = true := hN
      simpa [Owns,hN] using ho.symm
    exact ⟨⟨hf,hfree⟩,⟨hcl,hbuf,hmap,hfree⟩,⟨hf,Free.of_bar hbar⟩,fun _ => h⟩
  · have hbuf : v.buf = none := by
      have hN : ¬ (v.jobs f).isNotMM = true := hN
      simpa [Owns,hN] using ho
    have hv : v.setJob f { v.jobs f with msg := none } = v.dropped f := by
      simp only [dropped,View.setJob,hbuf]
    exact ⟨⟨hf,hfree⟩,fun _ => hv ▸ h⟩

theorem outFree_view {Q : Int → View → Prop} (hcl : v.role = .client)
    (hf : v.file = some f) (ho : v.Owns f)
    (hmap : v.map = none) (hbar : v.bar = none) (h : Q err (v.dropped f)) :
    wp (viewing c) (outFree f err) Q v := by
  rw [outFree,wp_bind]
  exact releaseMsg_view hcl hf ho hmap hbar h

theorem outUp_view {Q : Int → View → Prop} (hcl : v.role = .client)
    (hf : v.file = some f) (ho : v.Owns f)
    (hmap : v.map = none) (hB : v.bar = some B) (hop : B.op = none)
    (h : Q err (v.raised.dropped f)) : wp (viewing c) (outUp f err) Q v := by
  simp only [outUp,wp_bind,wp_perform,Ok,Next,forall_eq,forall_const]
  exact ⟨⟨⟨B,hB,hop⟩,hmap⟩,outFree_view (v := v.raised) hcl hf ho hmap rfl h⟩

theorem writeDone_view {Q : Int → View → Prop} (hcl : v.role = .client)
    (hf : v.file = some f) (ho : v.Owns f)
    (hmap : v.map = none) (hB : v.bar = some B) (hop : B.op = none)
    (h : Q 0 (v.raised.dropped f)) : wp (viewing c) (writeDone f) Q v := by
  simp only [writeDone,wp_bind,wp_perform,Ok,Next,forall_eq,forall_const]
  exact ⟨⟨⟨B,hB,hop⟩,hmap⟩,releaseMsg_view (v := v.raised) hcl hf ho hmap rfl h⟩

theorem copyBack_view (hr : Ready f v₀) (h : Writing f v₀ v) (hm : v.want.mapped = false)
    (hmap : v.map = none) (hB : v.bar = some B) (hop : B.op = none)
    (hlen : (v.jobs f).len = n) (hbuf : v.buf = some (b,xs)) (hn : n ≤ xs.length)
    (hxs : xs.take n = v₀.transform c (load v₀.um ptr n)) (hc : v.Covers ptr n) :
    wp (viewing c) (copyBack f ptr) (Wrote c f ptr n v₀) v := by
  have hcl := h.role hr
  have hf := h.file hr
  have hfree := Free.of_idle hB hop
  obtain ⟨_,hmsg⟩ := h.msg hr hm hbuf
  simp only [copyBack,wp_bind,wp_perform,wp_ite,Ok,Next,and_imp,forall_eq,forall_exists_index,
    hlen]
  refine ⟨⟨hf,hfree⟩,⟨hf,hfree⟩,⟨h.role hr,⟨b,xs,hbuf,hmsg,hn⟩,hc,hfree⟩,?_⟩
  rintro r _ m hmn hm0 rfl
  have hwrote (r' : Int) (hr' : r' = 0 → n ≤ m) : Wrote c f ptr n v₀ r'
      (({ v with um := store v.um ptr (v.bytes.take m) } : View).raised.dropped f) := by
    have hno (hm' : v₀.want.mapped = true) : False := by
      rw [← h.link.want,hm] at hm'
      cases hm'
    refine ⟨⟨h.link.role,h.link.file,h.link.lo,h.link.size,h.link.want⟩,?_,⟨rfl,hmap,rfl⟩,?_,?_⟩
    · exact SameModes.setJob (v := { v with bar := none }) h.modes rfl
    · refine ⟨m,?_,fun _ => hr',fun hm' => (hno hm').elim⟩
      rw [← hxs,List.take_take,Nat.min_eq_left hmn,← bytes_eq hbuf,← h.um]
      rfl
    · exact fun hm' => (hno hm').elim
  refine ⟨fun hr0 => ?_,fun hr0 => ?_⟩
  · exact outUp_view (v := { v with um := _ }) hcl hf h.owns hmap
      hB hop (hwrote _ (fun h0 => absurd h0 (by decide)))
  · have hr0 : r = 0 := not_not.mp hr0
    exact writeDone_view (v := { v with um := _ }) hcl hf h.owns hmap
      hB hop (hwrote _ (fun _ => Nat.le_of_eq (hm0 hr0).symm))

theorem mmioStart_view {mode : Nat} {Q : Unit → View → Prop} (hr : Ready f v₀)
    (h : Writing f v₀ v) (hd : v.want.dma = false) (hB : v.bar = some B) (hop : B.op = none)
    (hk : B.regs.keys = v.want.key) (h0 : (mode ||| 0x00).testBit 1 = false)
    (h2 : (mode ||| 0x02).testBit 1 = true) (hi0 : (mode ||| 0x00).testBit 7 = v.want.intr)
    (hi2 : (mode ||| 0x02).testBit 7 = v.want.intr)
    (hQ : ∀ B', B'.op = some ⟨.mmio,v.want.key,v.want.decrypt,r1Start,B.regs.lenMsg,v.want.intr⟩ →
      B'.mem = B.mem → Q () { v with bar := some B' }) :
    wp (viewing c) (mmioStart f mode) Q v := by
  have hf := h.file hr
  have hE := (h.job hr).1
  have hfree := Free.of_idle hB hop
  have hno : (v.want.dma && v.want.mapped) = false := by rw [hd]; rfl
  -- the two branches differ in the value written to the status register only
  have hfollows (a : Nat) (h1 : a.testBit 1 = v.want.decrypt) (h7 : a.testBit 7 = v.want.intr) :
      (((B.iowrite .status a).regs.set .dataAddr r1Start).operation .mmio).Follows v.want :=
    ⟨h1,hk,by rw [hd]; rfl,h7⟩
  have hstart (a : Nat) (h1 : a.testBit 1 = v.want.decrypt) (h7 : a.testBit 7 = v.want.intr) :
      Q () { v with bar := some ((B.iowrite .status a).iowrite .dataAddr r1Start) } :=
    hQ _ (by simp [Card.iowrite,Card.start,hop,Regs.operation,Regs.set,hk,h1,h7]) (by simp)
  simp only [mmioStart,wp_bind,wp_ite]
  simp only [wp_perform,Ok,Next,OkWrite,and_imp,forall_eq,Job.flag,hE,hB,Option.map_some]
  refine ⟨⟨hf,hfree⟩,fun hE => ⟨⟨⟨B,hB,hop⟩,hno⟩,fun _ => ?_⟩,
    fun hE => ⟨⟨⟨B,hB,hop⟩,hno⟩,fun _ => ?_⟩⟩
  · have hdec : (mode ||| 0x00).testBit 1 = v.want.decrypt := by rw [h0]; simpa using hE.symm
    exact ⟨⟨hno,_,rfl,hop,hfollows _ hdec hi0⟩,fun _ => hstart _ hdec hi0⟩
  · have hdec : (mode ||| 0x02).testBit 1 = v.want.decrypt := by rw [h2]; simpa using hE
    exact ⟨⟨hno,_,rfl,hop,hfollows _ hdec hi2⟩,fun _ => hstart _ hdec hi2⟩

theorem mmioWait_view {Q : Bool → View → Prop} (hr : Ready f v₀) (h : Writing f v₀ v)
    (hd : v.want.dma = false) (hB : v.bar = some B) (hop : B.op = none)
    (hk : B.regs.keys = v.want.key)
    (hQ : ∀ B', B'.op = none → B'.mem = store B.mem r1Start
      (v.transform c (load B.mem r1Start B.regs.lenMsg)) → Q false { v with bar := some B' }) :
    wp (viewing c) (mmioWait f) Q v := by
  have hfree := Free.of_idle hB hop
  have hsettled (B' : Card)
      (ho : B'.op = some ⟨.mmio,v.want.key,v.want.decrypt,r1Start,B.regs.lenMsg,v.want.intr⟩)
      (hm : B'.mem = B.mem) : Q false (({ v with bar := some B' } : View).settle c) := by
    simp only [View.settle,ho,Card.finish]
    exact hQ _ rfl (by simp [hm,View.transform])
  simp only [mmioWait,wp_bind,wp_ite]
  simp only [wp_perform,wp_pure,Ok,Next,and_imp,forall_eq,Job.flag,(h.job hr).2.2.1]
  refine ⟨⟨h.file hr,hfree⟩,fun hI => ?_,fun hI => ?_⟩
  · refine mmioStart_view hr h hd hB hop hk rfl rfl ?_ ?_ (fun B' ho hm => ?_)
    · rw [hI]; rfl
    · rw [hI]; rfl
    · exact ⟨⟨B',_,rfl,ho,rfl⟩,hsettled B' ho hm⟩
  · have hI : v.want.intr = false := by simpa using hI
    refine mmioStart_view hr h hd hB hop hk rfl rfl ?_ ?_ (fun B' ho hm => ?_)
    · rw [hI]; rfl
    · rw [hI]; rfl
    · exact ⟨⟨B',_,rfl,ho,rfl⟩,fun _ => hsettled B' ho hm⟩

theorem Writing.withBar (h : Writing f v₀ v) (bar : Option Card) :
    Writing f v₀ { v with bar := bar } :=
  ⟨⟨⟨h.link.role,h.link.file,h.link.lo,h.link.size,h.link.want⟩,h.modes,h.um,h.own⟩,h.owns⟩

theorem Writing.withBytes (h : Writing f v₀ v) (hbuf : v.buf = some (b,xs)) (ys : List Byte) :
    Writing f v₀ { v with buf := some (b,ys) } where
  link := ⟨h.link.role,h.link.file,h.link.lo,h.link.size,h.link.want⟩
  modes := h.modes
  um := h.um
  own := h.own
  owns := by
    have ho := h.owns
    unfold Owns at ho ⊢
    rw [hbuf] at ho
    exact ho

theorem mmioCopyOut_view (hr : Ready f v₀) (h : Writing f v₀ v) (hm : v.want.mapped = false)
    (hmap : v.map = none) (hB : v.bar = some B) (hop : B.op = none)
    (hlen : (v.jobs f).len = n) (hbuf : v.buf = some (b,xs)) (hn : xs.length = n)
    (hxs : load B.mem r1Start n = v₀.transform c (load v₀.um ptr n)) (hc : v.Covers ptr n) :
    wp (viewing c) (mmioCopyOut f ptr) (Wrote c f ptr n v₀) v := by
  have hf := h.file hr
  have hfree := Free.of_idle hB hop
  obtain ⟨hN,hmsg⟩ := h.msg hr hm hbuf
  simp only [mmioCopyOut,wp_bind,wp_perform,wp_ite,Ok,Next,and_imp,forall_eq,hlen,Job.flag,hN,
    forall_const,not_true_eq_false,false_imp_iff,and_true]
  refine ⟨⟨hf,hfree⟩,⟨hf,hfree⟩,⟨hf,hfree⟩,⟨⟨B,hB,hop⟩,b,xs,hbuf,hmsg,Nat.le_of_eq hn.symm⟩,?_⟩
  rw [hbuf,Option.map_some,mem_eq hB]
  have hlast : (load B.mem r1Start n ++ xs.drop n).take n = load B.mem r1Start n :=
    List.take_left' (load_length _ _ _)
  exact copyBack_view hr (h.withBytes hbuf _) hm hmap hB hop hlen rfl (by simp)
    (hlast.trans hxs) hc

theorem mmioCopyOut_mapped (hr : Ready f v₀) (h : Writing f v₀ v) (hm : v.want.mapped = true)
    (hmap : v.map = none) (hB : v.bar = some B) (hop : B.op = none)
    (hown : ∀ m, v.own = some m → B.mem = store m r1Start (v₀.transform c (load m r1Start n))) :
    wp (viewing c) (mmioCopyOut f ptr) (Wrote c f ptr n v₀) v := by
  have hcl := h.role hr
  have hf := h.file hr
  have hN : (v.jobs f).isNotMM = false := by simp [(h.job hr).2.2.2.1,hm]
  have hwrote : Wrote c f ptr n v₀ 0 (v.raised.dropped f) := by
    refine ⟨⟨h.link.role,h.link.file,h.link.lo,h.link.size,h.link.want⟩,?_,⟨rfl,hmap,rfl⟩,?_,?_⟩
    · exact SameModes.setJob (v := v.raised) h.modes rfl
    · refine ⟨0,by simp [dropped,raised,View.setJob,h.um],fun hm' => ?_,fun _ => rfl⟩
      rw [← h.link.want,hm] at hm'
      cases hm'
    · intro _ _
      simp only [dropped,raised,View.setJob,mem_eq hB]
      rw [← h.own]
      cases ho : v.own with
      | none => rfl
      | some m => simp [hown m ho]
  simp only [mmioCopyOut,wp_bind,wp_ite]
  simp only [wp_perform,Ok,Next,and_imp,forall_eq,Job.flag,hN,Bool.false_eq_true,false_imp_iff,
    not_false_eq_true,forall_const,true_and]
  exact ⟨⟨hf,Free.of_idle hB hop⟩,writeDone_view hcl hf h.owns hmap hB hop hwrote⟩

theorem mmioBranch_view (hr : Ready f v₀) (h : Writing f v₀ v) (hd : v.want.dma = false)
    (hmap : v.map = none) (hB : v.bar = some B) (hop : B.op = none)
    (hk : B.regs.keys = v.want.key) (hlen : (v.jobs f).len = n)
    (hbuf : v.want.mapped = false →
      ∃ b, v.buf = some (b,load v₀.um ptr n) ∧ v.Covers ptr n)
    (hown : ∀ m, v.own = some m → B.mem = m) :
    wp (viewing c) (mmioBranch f ptr) (Wrote c f ptr n v₀) v := by
  have hf := h.file hr
  have hfree := Free.of_idle hB hop
  have hno : (v.want.dma && v.want.mapped) = false := by rw [hd]; rfl
  have hwant : v.want = v₀.want := h.link.want
  simp only [mmioBranch,mmioCopyIn,wp_bind,wp_ite]
  simp only [wp_perform,wp_pure,Ok,Next,OkWrite,and_imp,forall_eq,Job.flag,forall_const,hlen]
  refine ⟨⟨hf,hfree⟩,⟨⟨B,hB,hop⟩,hno⟩,⟨hf,?_⟩,fun hN => ?_,fun hN => ?_⟩
  · exact Free.of_idle (B := B.iowrite .lenMsg n) (by rw [hB]; rfl) hop
  · have hN : (v.jobs f).isNotMM = true := hN
    have hm : v.want.mapped = false := by simpa [(h.job hr).2.2.2.1] using hN
    obtain ⟨b,hbuf,hc⟩ := hbuf hm
    obtain ⟨_,hmsg⟩ := h.msg hr hm hbuf
    have hfree' : ({ v with bar := v.bar.map (fun B => B.iowrite .lenMsg n) } : View).Free :=
      Free.of_idle (B := B.iowrite .lenMsg n) (by rw [hB]; rfl) hop
    refine ⟨⟨hf,hfree'⟩,⟨hf,hfree'⟩,⟨⟨B.iowrite .lenMsg n,by rw [hB]; rfl,hop⟩,b,_,hbuf,hmsg,
      by simp⟩,?_⟩
    have hbytes : (load v₀.um ptr n).take n = load v₀.um ptr n :=
      List.take_of_length_le (by simp)
    refine mmioWait_view hr (h.withBar _) hd
      (B := { B.iowrite .lenMsg n with mem := store B.mem r1Start (load v₀.um ptr n) })
      ?_ hop hk (fun B' hop' hmem => ?_)
    · simp only [hB,Option.map_some,View.bytes,hbuf,Option.getD_some,hbytes]
      rfl
    · refine ⟨fun hcut => absurd hcut (by decide),fun _ => ?_⟩
      refine mmioCopyOut_view hr (h.withBar (some B')) hm hmap rfl hop' hlen hbuf (by simp) ?_ hc
      rw [hmem]
      have hload : load (store B.mem r1Start (load v₀.um ptr n)) r1Start n = load v₀.um ptr n :=
        load_store_of_length (by simp)
      simp only [Card.iowrite,Regs.set,View.transform,hload,← hwant]
      exact load_store_of_length (by simp)
  · have hm : v.want.mapped = true := by simpa [(h.job hr).2.2.2.1] using hN
    refine mmioWait_view hr (h.withBar _) hd (B := B.iowrite .lenMsg n) (by rw [hB]; rfl) hop hk
      (fun B' hop' hmem => ?_)
    refine ⟨fun hcut => absurd hcut (by decide),fun _ => ?_⟩
    refine mmioCopyOut_mapped hr (h.withBar (some B')) hm hmap rfl hop' (fun m ho => ?_)
    rw [hmem,← hown m ho,View.transform,View.transform,← hwant]
    simp [Card.iowrite,Regs.set]

theorem dmaStart_view {mode : Nat} {Q : Unit → View → Prop} (hr : Ready f v₀)
    (h : Writing f v₀ v) (hd : v.want.dma = true) (hm : v.want.mapped = false)
    (hB : v.bar = some B) (hop : B.op = none) (hk : B.regs.keys = v.want.key)
    (hmap : v.map = some B.regs.addrOp) (hbuf : v.buf = some (b,xs))
    (hn : B.regs.dlenMsg = xs.length)
    (h0 : (mode ||| 0x0 ||| 0x1).testBit 0 = true ∧ (mode ||| 0x2 ||| 0x1).testBit 0 = true)
    (h1 : (mode ||| 0x0 ||| 0x1).testBit 1 = false ∧ (mode ||| 0x2 ||| 0x1).testBit 1 = true)
    (h2 : (mode ||| 0x0 ||| 0x1).testBit 2 = v.want.intr ∧
      (mode ||| 0x2 ||| 0x1).testBit 2 = v.want.intr)
    (hQ : ∀ B', B'.op = some ⟨.dma,v.want.key,v.want.decrypt,B.regs.addrOp,xs.length,
      v.want.intr⟩ → Q () { v with bar := some B' }) :
    wp (viewing c) (dmaStart f mode) Q v := by
  have hf := h.file hr
  have hE := (h.job hr).1
  have hfree := Free.of_idle hB hop
  have hno : (v.want.dma && v.want.mapped) = false := by rw [hm,Bool.and_false]
  have hfollows (a : Nat) (ha1 : a.testBit 1 = v.want.decrypt) (ha2 : a.testBit 2 = v.want.intr) :
      ((B.regs.set .cmd a).operation .dma).Follows v.want :=
    ⟨ha1,hk,by rw [hd]; rfl,ha2⟩
  have hstart (a : Nat) (ha0 : a.testBit 0 = true) (ha1 : a.testBit 1 = v.want.decrypt)
      (ha2 : a.testBit 2 = v.want.intr) : Q () { v with bar := some (B.iowrite .cmd a) } :=
    hQ _ (by simp [Card.iowrite,Card.start,hop,Regs.operation,Regs.set,hk,ha0,ha1,ha2,hn])
  simp only [dmaStart,wp_bind,wp_ite]
  simp only [wp_perform,Ok,Next,OkWrite,and_imp,forall_eq,Job.flag,hE,hB,Option.map_some]
  refine ⟨⟨hf,hfree⟩,fun hE => ?_,fun hE => ?_⟩
  · have hdec : (mode ||| 0x0 ||| 0x1).testBit 1 = v.want.decrypt := by
      rw [h1.1]; simpa using hE.symm
    exact ⟨⟨hno,h0.1,B,rfl,hop,hfollows _ hdec h2.1,b,xs,hbuf,hmap,Nat.le_of_eq hn⟩,
      fun _ => hstart _ h0.1 hdec h2.1⟩
  · have hdec : (mode ||| 0x2 ||| 0x1).testBit 1 = v.want.decrypt := by
      rw [h1.2]; simpa using hE
    exact ⟨⟨hno,h0.2,B,rfl,hop,hfollows _ hdec h2.2,b,xs,hbuf,hmap,Nat.le_of_eq hn⟩,
      fun _ => hstart _ h0.2 hdec h2.2⟩

theorem dmaWait_view {Q : Bool → View → Prop} (hr : Ready f v₀) (h : Writing f v₀ v)
    (hd : v.want.dma = true) (hm : v.want.mapped = false) (hB : v.bar = some B)
    (hop : B.op = none) (hk : B.regs.keys = v.want.key) (hmap : v.map = some B.regs.addrOp)
    (hbuf : v.buf = some (b,xs)) (hn : B.regs.dlenMsg = xs.length)
    (hQ : ∀ B', B'.op = none →
      Q false { v with bar := some B', buf := some (b,v.transform c xs) }) :
    wp (viewing c) (dmaWait f) Q v := by
  have hfree := Free.of_idle hB hop
  have hsettled (B' : Card) (ho : B'.op = some ⟨.dma,v.want.key,v.want.decrypt,B.regs.addrOp,
      xs.length,v.want.intr⟩) : Q false (({ v with bar := some B' } : View).settle c) := by
    simp only [View.settle,ho,Card.finish,hbuf,Option.map_some,List.take_length,List.drop_length,
      List.append_nil]
    exact hQ _ rfl
  simp only [dmaWait,wp_bind,wp_ite]
  simp only [wp_perform,wp_pure,Ok,Next,and_imp,forall_eq,Job.flag,(h.job hr).2.2.1]
  refine ⟨⟨h.file hr,hfree⟩,fun hI => ?_,fun hI => ?_⟩
  · refine dmaStart_view hr h hd hm hB hop hk hmap hbuf hn ⟨rfl,rfl⟩ ⟨rfl,rfl⟩ ?_
      (fun B' ho => ⟨⟨B',_,rfl,ho,rfl⟩,hsettled B' ho⟩)
    rw [hI]
    exact ⟨rfl,rfl⟩
  · have hI : v.want.intr = false := by simpa using hI
    refine dmaStart_view hr h hd hm hB hop hk hmap hbuf hn ⟨rfl,rfl⟩ ⟨rfl,rfl⟩ ?_
      (fun B' ho => ⟨⟨B',_,rfl,ho,rfl⟩,fun _ => hsettled B' ho⟩)
    rw [hI]
    exact ⟨rfl,rfl⟩

theorem dmaBranch_view (hr : Ready f v₀) (h : Writing f v₀ v) (hd : v.want.dma = true)
    (hm : v.want.mapped = false) (hmap : v.map = none) (hB : v.bar = some B) (hop : B.op = none)
    (hk : B.regs.keys = v.want.key) (hlen : (v.jobs f).len = n)
    (hbuf : v.buf = some (b,load v₀.um ptr n)) (hc : v.Covers ptr n) :
    wp (viewing c) (dmaBranch f ptr) (Wrote c f ptr n v₀) v := by
  have hcl := h.role hr
  have hf := h.file hr
  have hfree := Free.of_idle hB hop
  have hno : (v.want.dma && v.want.mapped) = false := by rw [hm,Bool.and_false]
  obtain ⟨_,hmsg⟩ := h.msg hr hm hbuf
  simp only [dmaBranch,wp_bind,wp_perform,Ok,Next,and_imp,forall_eq,hlen]
  refine ⟨⟨hf,hfree⟩,⟨hf,hfree⟩,⟨⟨B,hB,hop⟩,⟨b,_,hbuf,hmsg,by simp⟩,hmap⟩,?_⟩
  rintro handle _ (⟨rfl,rfl⟩ | ⟨handle,rfl,rfl⟩)
  · exact outUp_view hcl hf h.owns hmap hB hop (h.failed_raised (by decide) hmap)
  · have hw : Writing f v₀ { v with map := some handle } :=
      ⟨⟨⟨h.link.role,h.link.file,h.link.lo,h.link.size,h.link.want⟩,h.modes,h.um,h.own⟩,h.owns⟩
    simp only [dmaMapped,wp_bind,wp_ite]
    simp only [wp_perform,Ok,Next,OkWrite,and_imp,forall_eq,forall_const,hlen]
    refine ⟨⟨⟨B,hB,hop⟩,hno⟩,⟨hf,?_⟩,⟨⟨B.iowrite .addrOp handle,?_,hop⟩,hno⟩,?_⟩
    · exact Free.of_idle (B := B.iowrite .addrOp handle) (by simp [hB]) hop
    · simp [hB]
    refine dmaWait_view hr (hw.withBar _) hd hm
      (B := (B.iowrite .addrOp handle).iowrite .dlenMsg n) (by simp [hB]) hop hk rfl hbuf
      (by simp [Card.iowrite,Regs.set]) (fun B' hop' => ?_)
    refine ⟨fun hcut => absurd hcut (by decide),fun _ => ?_⟩
    have hw' : Writing f v₀ { v with
        map := none, bar := some B', buf := some (b,v.transform c (load v₀.um ptr n)) } :=
      Writing.withBytes (v := { v with map := none, bar := some B' })
        ⟨⟨⟨h.link.role,h.link.file,h.link.lo,h.link.size,h.link.want⟩,h.modes,h.um,h.own⟩,h.owns⟩ hbuf _
    have htrans : v.transform c (load v₀.um ptr n) = v₀.transform c (load v₀.um ptr n) := by
      rw [View.transform,View.transform,h.link.want]
    refine ⟨⟨hf,Free.of_idle rfl hop'⟩,⟨⟨B',rfl,hop'⟩,rfl⟩,?_⟩
    refine copyBack_view hr hw' hm rfl rfl hop' hlen rfl (by simp) ?_ hc
    rw [List.take_of_length_le (by simp)]
    exact htrans

theorem writeLocked_view (hr : Ready f v₀) (h : Writing f v₀ v)
    (hno : (v.want.dma && v.want.mapped) = false) (hmap : v.map = none) (hbar : v.bar = none)
    (hlen : (v.jobs f).len = n)
    (hbuf : v.want.mapped = false →
      ∃ b, v.buf = some (b,load v₀.um ptr n) ∧ v.Covers ptr n) :
    wp (viewing c) (writeLocked f ptr) (Wrote c f ptr n v₀) v := by
  have hf := h.file hr
  obtain ⟨_,hM,_,_,hk⟩ := h.job hr
  simp only [writeLocked,wp_bind,wp_ite]
  simp only [wp_perform,Ok,Next]
  refine ⟨⟨h.role hr,hbar⟩,?_⟩
  rintro cut _ (⟨rfl,rfl⟩ | ⟨rfl,B,hop,hown,rfl⟩)
  · refine ⟨fun _ => ?_,fun hcut => absurd rfl hcut⟩
    exact outFree_view (h.role hr) hf h.owns hmap hbar (h.failed_dropped (by decide) hmap hbar)
  refine ⟨fun hcut => absurd hcut (by decide),fun _ => ?_⟩
  simp only [and_imp,forall_eq]
  have hfree (B' : Card) (hop' : B'.op = none) : ({ v with bar := some B' } : View).Free :=
    Free.of_idle rfl hop'
  simp only [OkWrite,Option.map_some,forall_const,Job.flag,hM,hk]
  have hw := h.withBar (some (B.iowrite .keys v.want.key))
  refine ⟨⟨hf,hfree B hop⟩,⟨⟨B,rfl,hop⟩,hno⟩,⟨hf,hfree _ hop⟩,fun hd => ?_,fun hd => ?_⟩
  · exact mmioBranch_view hr hw (by simpa using hd) hmap rfl hop rfl hlen hbuf
      (fun m hm => (Card.iowrite_mem _ _ _).trans (hown m hm))
  · have hd : v.want.dma = true := by simpa using hd
    have hm : v.want.mapped = false := by simpa [hd] using hno
    obtain ⟨b,hbuf,hc⟩ := hbuf hm
    exact dmaBranch_view hr hw hd hm hmap rfl hop rfl hlen hbuf hc

theorem Begun.loaded (h : Begun v₀ v) (hN : (v.jobs f).isNotMM = true)
    (q : Option (Nat × List Byte)) : Writing f v₀ (v.loaded f q) where
  link := ⟨h.link.role,h.link.file,h.link.lo,h.link.size,h.link.want⟩
  modes := SameModes.setJob h.modes rfl
  um := h.um
  own := h.own
  owns := by simp [Owns,View.loaded,View.setJob,hN]

theorem writeCopyIn_view (hr : Ready f v₀) (h : Begun v₀ v) (hm : v.want.mapped = false)
    (hbuf : v.buf = none) (hmap : v.map = none) (hbar : v.bar = none)
    (hlen : (v.jobs f).len = n) (hc : v.Covers ptr n) :
    wp (viewing c) (writeCopyIn f ptr n) (Wrote c f ptr n v₀) v := by
  have hf := h.file hr
  have hN : (v.jobs f).isNotMM = true := by simp [(h.job hr).2.2.2.1,hm]
  have hfree (q : Option (Nat × List Byte)) : (v.loaded f q).Free := Free.of_bar hbar
  have hcl : v.role = .client := h.role hr
  have hmsg (q : Option (Nat × List Byte)) : ((v.loaded f q).jobs f).msg = q.map Prod.fst := by
    simp [View.loaded,View.setJob]
  have hlen' (q : Option (Nat × List Byte)) : ((v.loaded f q).jobs f).len = n := by
    simp [View.loaded,View.setJob,hlen]
  refine wp_step.mpr ⟨⟨hcl,hbuf,hmap,Free.of_bar hbar⟩,?_⟩
  rintro p v₁ (⟨rfl,rfl⟩ | ⟨_,b,xs,hxs,rfl,rfl⟩)
  · refine wp_step.mpr ⟨⟨hf,Free.of_bar hbar⟩,?_⟩
    rintro _ _ rfl
    have hv : v₁.setJob f { v₁.jobs f with msg := none } = v₁.loaded f none := by
      simp only [View.loaded,View.setJob,Option.map_none,hbuf]
    rw [hv]
    refine wp_step.mpr ⟨⟨hf,hfree none⟩,?_⟩
    rintro _ _ ⟨rfl,rfl⟩
    rw [hmsg,Option.map_none,if_pos rfl]
    have hw := h.loaded hN none
    exact failed hw.link hw.modes hw.um ⟨rfl,hmap,hbar⟩ (by decide)
  · refine wp_step.mpr ⟨⟨hf,Free.of_bar hbar⟩,?_⟩
    rintro _ v₁ hv₁
    obtain rfl : v₁ = v.loaded f (some (b,xs)) := hv₁
    refine wp_step.mpr ⟨⟨hf,hfree _⟩,?_⟩
    rintro _ _ ⟨rfl,rfl⟩
    rw [if_neg (by rw [hmsg]; exact Option.some_ne_none b)]
    refine wp_step.mpr ⟨⟨hf,hfree _⟩,?_⟩
    rintro _ _ ⟨rfl,rfl⟩
    refine wp_step.mpr ⟨⟨hf,hfree _⟩,?_⟩
    rintro _ _ ⟨rfl,rfl⟩
    rw [hmsg,hlen']
    refine wp_step.mpr ⟨⟨hcl,⟨b,xs,rfl,rfl,Nat.le_of_eq hxs.symm⟩,hc,hfree _⟩,?_⟩
    rintro r v₁ ⟨ys,hys,hread,hv₁⟩
    obtain rfl : v₁ = v.loaded f (some (b,ys)) := by
      rw [hv₁]
      simp [View.loaded,hys,← hxs]
    have hw := h.loaded hN (some (b,ys))
    rw [wp_ite]
    refine ⟨fun _ => ?_,fun hr0 => ?_⟩
    · exact outFree_view hcl hf hw.owns hmap hbar (hw.failed_dropped (by decide) hmap hbar)
    · have hys : ys = load v₀.um ptr n := by rw [← h.um]; exact hread (not_not.mp hr0)
      subst hys
      exact writeLocked_view hr hw (by rw [hw.link.want,← h.link.want,hm,Bool.and_false]) hmap
        hbar (hlen' _) (fun _ => ⟨b,rfl,hc⟩)

theorem writeBody_view (hr : Ready f v) (hno : (v.want.dma && v.want.mapped) = false)
    (hn : n < 2^32) (hc : v.want.mapped = false → v.Covers ptr n) :
    wp (viewing c) (writeBody f ptr n) (Wrote c f ptr n v) v := by
  obtain ⟨hbuf,hmap,hbar⟩ := hr.clean
  have hf := hr.file
  let v' := v.setJob f { v.jobs f with len := n }
  have hb : Begun v v' := ⟨⟨rfl,rfl,rfl,rfl,rfl⟩,SameModes.setJob (fun _ => rfl) rfl,rfl,rfl⟩
  have hlen : (v'.jobs f).len = n := by simp [v',View.setJob]
  have hN : (v'.jobs f).isNotMM = !v.want.mapped := by simp [v',View.setJob,hr.isNotMM]
  refine wp_step.mpr ⟨⟨hf,Free.of_bar hbar⟩,?_⟩
  rintro _ v₁ hv₁
  obtain rfl : v₁ = v' := by rw [hv₁,Nat.mod_eq_of_lt hn]
  refine wp_step.mpr ⟨⟨hf,Free.of_bar hbar⟩,?_⟩
  rintro _ _ ⟨rfl,rfl⟩
  simp only [Job.flag,hN,wp_ite]
  refine ⟨fun hm => ?_,fun hm => ?_⟩
  · have hm : v.want.mapped = false := by simpa using hm
    exact writeCopyIn_view hr hb hm hbuf hmap hbar hlen (hc hm)
  · have hm : v.want.mapped = true := by simpa using hm
    refine writeLocked_view hr ⟨hb,?_⟩ hno hmap hbar hlen (fun h => ?_)
    · rw [Owns,hN,hm]
      exact congrArg _ hbuf
    · exact absurd (h.symm.trans hm) (by decide)

theorem iowrite_out (hbar : v.bar = none) (g : Card → Card) :
    ({ v with bar := v.bar.map g } : View) = v := by
  cases v
  simp_all

theorem writeLive_view (hr : Ready f v) (hno : (v.want.dma && v.want.mapped) = false)
    (hn : n < 2^32) (hc : v.want.mapped = false → v.Covers ptr n) :
    wp (viewing c) (writeLive f ptr n) (Wrote c f ptr n v) v := by
  obtain ⟨hbuf,hmap,hbar⟩ := hr.clean
  refine wp_step.mpr ⟨⟨Free.of_bar hbar,hno⟩,?_⟩
  rintro _ v₁ hv₁
  obtain rfl : v₁ = v := hv₁.trans (iowrite_out hbar _)
  refine wp_step.mpr ⟨Free.of_bar hbar,?_⟩
  rintro a _ rfl
  refine (wp_ite _ _ _ _).mpr ⟨fun _ => ?_,fun _ => writeBody_view hr hno hn hc⟩
  exact failed (.refl _) (fun _ => rfl) rfl ⟨hbuf,hmap,hbar⟩ (by decide)

/-- The write of a client transforms its bytes, or what the window holds, if it
returns 0, and leaves nothing behind in any case. -/
theorem pciWrite_view (hr : Ready f v) (hn : n < 2^32)
    (hc : v.want.mapped = false → v.Covers ptr n) :
    wp (viewing c) (pciWrite f ptr n) (fun r v' => Wrote c f ptr n v r v' ∧
      ((v.want.dma && v.want.mapped) = true → r ≠ 0)) v := by
  obtain ⟨hbuf,hmap,hbar⟩ := hr.clean
  have hf := hr.file
  have hfree : v.Free := Free.of_bar hbar
  have hlive (hno : (v.want.dma && v.want.mapped) = false) :
      wp (viewing c) (writeLive f ptr n) (fun r v' => Wrote c f ptr n v r v' ∧
        ((v.want.dma && v.want.mapped) = true → r ≠ 0)) v :=
    wp_mono (fun _ _ hw => ⟨hw,fun h => absurd (h.symm.trans hno) (by decide)⟩)
      (writeLive_view hr hno hn hc)
  refine wp_step.mpr ⟨⟨hf,hfree⟩,?_⟩
  rintro _ _ ⟨rfl,rfl⟩
  refine wp_step.mpr ⟨hfree,?_⟩
  rintro _ _ ⟨rfl,rfl⟩
  refine wp_step.mpr ⟨⟨hf,hfree⟩,?_⟩
  rintro _ _ ⟨rfl,rfl⟩
  simp only [Job.flag,hr.isNotMM,wp_ite]
  refine ⟨fun hm => hlive (by simp_all),fun hm => ?_⟩
  refine wp_step.mpr ⟨⟨hf,hfree⟩,?_⟩
  rintro _ _ ⟨rfl,rfl⟩
  simp only [Job.flag,hr.isM,wp_ite]
  refine ⟨fun hd => hlive (by simp_all),fun _ => ?_⟩
  exact ⟨failed (.refl _) (fun _ => rfl) rfl ⟨hbuf,hmap,hbar⟩ (by decide),fun _ => by decide⟩

end

end View

end CryptoCard
