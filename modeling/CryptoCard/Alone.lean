import CryptoCard.OwnHandles
set_option autoImplicit false

/-! A thread that is left alone, on an idle card that it polls, gets its encrypt or
decrypt through with result 0. -/
namespace CryptoCard
open Memory Program Interleave

/-- The choices of a run without signals. -/
def calm (x : Choice) : Prop := x ≠ .signal

theorem calm_ok : calm .ok := by simp [calm]

/-- The bytes behind `p`, if there are `n` of them. -/
def World.bytes (w : World) (p : Option Nat) (n : Nat) : Option (List Byte) :=
  (w.usable p n).map (fun b => (w.heap b).data.take n)

/-- A handle set up for polled MMIO, and a card that is ready for it. -/
structure Rested (f : Nat) (mapped : Bool) (w : World) : Prop where
  isNotMM : (w.jobs f).isNotMM = !mapped
  isM : (w.jobs f).isM = true
  isI : (w.jobs f).isI = false
  op : w.card.op = none
  wsem : 0 < w.wsem

/-- The same inside of a write of `n` bytes, which holds `xs` in its buffer behind `p` if it
has one; user memory is `um`. -/
structure Polled (f n : Nat) (mapped : Bool) (p : Option Nat) (xs : List Byte)
    (um : Nat → Byte) (w : World) : Prop where
  isNotMM : (w.jobs f).isNotMM = !mapped
  isM : (w.jobs f).isM = true
  isI : (w.jobs f).isI = false
  op : w.card.op = none
  len : (w.jobs f).len = n
  msg : (w.jobs f).msg = p
  umem : w.umem = um
  buf : mapped = false → w.bytes p n = some xs

/-- The last part of a write that has waited for its operation. -/
def writeEnd (f ptr : Nat) (mapped : Bool) : Code Int :=
  if mapped then writeDone f else copyBack f ptr

section
variable {c : Cipher} {t f n ptr : Nat} {mapped : Bool} {p : Option Nat} {w w' : World}
variable {xs ys : List Byte} {um : Nat → Byte}

theorem World.bytes_eq (h : w.bytes p n = some xs) :
    ∃ b, w.usable p n = some b ∧ (w.heap b).data.take n = xs := by
  unfold World.bytes at h
  exact Option.map_eq_some_iff.mp h

theorem World.bytes_length (h : w.bytes p n = some xs) : xs.length = n := by
  obtain ⟨b,hb,rfl⟩ := World.bytes_eq h
  rw [List.length_take,Nat.min_eq_left (World.le_of_usable hb)]

theorem World.bytes_fill {b : Nat} (hb : w.usable p n = some b) (hx : xs.length = n) :
    (w.fill b xs).bytes p n = some xs := by
  have hus := World.usable_fill (p := p) (n := n) (show xs.length ≤ (w.heap b).data.length from
    hx ▸ World.le_of_usable hb)
  have hdata : ((w.fill b xs).heap b).data.take n = xs := by
    simp only [World.fill,World.setBuf,Function.update_self]
    exact List.take_left' hx
  rw [World.bytes,hus,hb,Option.map_some,hdata]

theorem Polled.congr (h : Polled f n mapped p xs um w) (hj : w'.jobs f = w.jobs f)
    (hb : mapped = false → w'.bytes p n = some ys) (hu : w'.umem = w.umem)
    (ho : w'.card.op = none) : Polled f n mapped p ys um w' := by
  refine ⟨?_,?_,?_,ho,?_,?_,hu.trans h.umem,hb⟩
  · rw [hj]; exact h.isNotMM
  · rw [hj]; exact h.isM
  · rw [hj]; exact h.isI
  · rw [hj]; exact h.len
  · rw [hj]; exact h.msg

/-- Writes to registers that start nothing. -/
theorem Polled.iowrite {reg : Reg} {v : Nat} (h : Polled f n mapped p xs um w)
    (ho : (w.card.iowrite reg v).op = w.card.op) :
    Polled f n mapped p xs um { w with card := w.card.iowrite reg v } :=
  h.congr rfl h.buf rfl (ho.trans h.op)

theorem Rested.setMsg (h : Rested f mapped w) (q : Option Nat) :
    Rested f mapped (w.setJob f { w.jobs f with msg := q }) := by
  refine ⟨?_,?_,?_,h.op,h.wsem⟩
  · simpa [World.setJob] using h.isNotMM
  · simpa [World.setJob] using h.isM
  · simpa [World.setJob] using h.isI

theorem Rested.release (h : Rested f mapped w) (q : Option Nat) :
    Rested f mapped (w.release q) := by
  cases q <;> exact ⟨h.isNotMM,h.isM,h.isI,h.op,h.wsem⟩

theorem Polled.up (h : Polled f n mapped p xs um w) : Rested f mapped (w.up t) :=
  ⟨h.isNotMM,h.isM,h.isI,h.op,Nat.succ_pos _⟩

theorem releaseMsg_can {Q : Unit → World → Prop} (h : Rested f mapped w)
    (hQ : ∀ w', Rested f mapped w' → w'.umem = w.umem → Q () w') :
    (machine c).Can t calm Q (releaseMsg f) w := by
  refine .step .ok calm_ok rfl ?_
  cases mapped with
  | true =>
    rw [Job.flag,h.isNotMM,if_neg (by decide)]
    exact .act .ok calm_ok rfl (.ret (hQ _ (h.setMsg none) rfl))
  | false =>
    rw [Job.flag,h.isNotMM,if_pos (by decide)]
    refine .step .ok calm_ok rfl (.step .ok calm_ok rfl ?_)
    refine .act .ok calm_ok rfl (.ret (hQ _ ((h.release _).setMsg none) ?_))
    cases (w.jobs f).msg <;> rfl

theorem writeDone_can {Q : Int → World → Prop} (h : Polled f n mapped p xs um w)
    (hQ : ∀ w', Rested f mapped w' → w'.umem = um → Q 0 w') :
    (machine c).Can t calm Q (writeDone f) w := by
  refine .step .ok calm_ok rfl (.bind (releaseMsg_can h.up ?_))
  exact fun w' h' hu => .ret (hQ w' h' (hu.trans h.umem))

theorem outUp_can {Q : Int → World → Prop} {err : Int} (h : Polled f n mapped p xs um w)
    (hQ : ∀ w', Rested f mapped w' → w'.umem = um → Q err w') :
    (machine c).Can t calm Q (outUp f err) w := by
  refine .step .ok calm_ok rfl (.bind (releaseMsg_can h.up ?_))
  exact fun w' h' hu => .ret (hQ w' h' (hu.trans h.umem))

/-- The copy to the user may be whole, or stop after `i` bytes. -/
theorem copyBack_can {Q : Int → World → Prop} (h : Polled f n false p xs um w) {i : Nat}
    (hi : i ≤ n) (hQ : ∀ w', Rested f false w' → w'.umem = store um ptr (xs.take i) →
      Q (if i = n then 0 else -eAGAIN) w') :
    (machine c).Can t calm Q (copyBack f ptr) w := by
  refine .step .ok calm_ok rfl (.step .ok calm_ok rfl ?_)
  rw [h.msg,h.len]
  obtain ⟨b,hb,hdata⟩ := World.bytes_eq (h.buf rfl)
  have hcopied {j : Nat} (hj : j ≤ n) :
      Polled f n false p xs (store um ptr (xs.take j))
        (w.setUmem ptr ((w.heap b).data.take j)) := by
    refine ⟨h.isNotMM,h.isM,h.isI,h.op,h.len,h.msg,?_,h.buf⟩
    rw [World.setUmem,h.umem,← hdata,List.take_take,Nat.min_eq_left hj]
  by_cases hin : i = n
  · subst i
    have hto : World.exec t (.copyToUser ptr p n) .ok w =
        some (.done 0 (w.setUmem ptr ((w.heap b).data.take n))) := by
      simp [World.exec,World.copyToUser,hb]
    rw [if_pos rfl] at hQ
    exact .step .ok calm_ok hto (writeDone_can (hcopied hi) hQ)
  · have hlt : i < n := Nat.lt_of_le_of_ne hi hin
    have hto : World.exec t (.copyToUser ptr p n) (.fault i) w =
        some (.done (n-i) (w.setUmem ptr ((w.heap b).data.take i))) := by
      simp [World.exec,World.copyToUser,hb,hlt]
    refine .step (.fault i) (by simp [calm]) hto ?_
    rw [if_pos (Nat.sub_ne_zero_of_lt hlt)]
    rw [if_neg hin] at hQ
    exact outUp_can (hcopied hi) hQ

theorem mmioCopyOut_can {Q : Int → World → Prop} (h : Polled f n mapped p xs um w)
    (hwin : mapped = false → load w.card.mem r1Start n = ys)
    (hend : ∀ w', Polled f n mapped p ys um w' → (machine c).Can t calm Q (writeEnd f ptr mapped) w') :
    (machine c).Can t calm Q (mmioCopyOut f ptr) w := by
  refine .step .ok calm_ok rfl ?_
  cases mapped with
  | true =>
    rw [Job.flag,h.isNotMM,if_neg (by decide)]
    exact hend _ (h.congr rfl (fun hm => by cases hm) rfl h.op)
  | false =>
    rw [Job.flag,h.isNotMM,if_pos (by decide)]
    obtain ⟨b,hb,_⟩ := World.bytes_eq (h.buf rfl)
    refine .step .ok calm_ok rfl (.step .ok calm_ok rfl ?_)
    rw [h.msg,h.len]
    have hfrom : World.exec t (.memcpyFromio p n) .ok w =
        some (.done () (w.fill b (load w.card.mem r1Start n))) := by
      simp [World.exec,World.memcpyFromio,hb]
    refine .step .ok calm_ok hfrom (hend _ (h.congr rfl (fun _ => ?_) rfl h.op))
    rw [hwin rfl]
    exact World.bytes_fill hb (by rw [← hwin rfl,load_length])

/-- The operation is started, the card finishes it and the loop ends. -/
theorem mmioWait_can {Q : Bool → World → Prop} (h : Polled f n mapped p xs um w)
    (hlen : w.card.regs.lenMsg = n)
    (hQ : ∀ d k w', Polled f n mapped p xs um w' →
      load w'.card.mem r1Start n = c.run d k (load w.card.mem r1Start n) → Q false w') :
    (machine c).Can t calm Q (mmioWait f) w := by
  have hrun (w₁ : World) (h₁ : Polled f n mapped p xs um w₁)
      (hs : w₁.card.regs.status.testBit 7 = false) (hlen₁ : w₁.card.regs.lenMsg = n)
      (hmem : w₁.card.mem = w.card.mem) :
      (machine c).Can t calm (fun _ w => (machine c).Can t calm Q (do
        atom (.pollBusy .mmio)
        return false) w) (iowrite r1Start .dataAddr) w₁ := by
    let o := (w₁.card.regs.set .dataAddr r1Start).operation .mmio
    let w₂ : World := { w₁ with card := w₁.card.iowrite .dataAddr r1Start }
    have hop : w₂.card.op = some o := by
      simp [w₂,Card.iowrite,Card.start,h₁.op,o]
    have hend : World.env c .finish w₂ = some ((w₂.transform c o).settle o) := by
      have hi : o.intr = false := hs
      simp only [World.env,hop,hi,Bool.false_and,Bool.false_eq_true,if_false]
    have hmem₂ : w₂.card.mem = w.card.mem := by
      simp only [w₂,Card.iowrite,Card.start,h₁.op]
      exact hmem
    have hwin : load ((w₂.transform c o).settle o).card.mem r1Start n =
        c.run o.decrypt o.key (load w.card.mem r1Start n) := by
      have hn : o.len = n := hlen₁
      simp only [World.settle,World.transform]
      rw [show o.kind = .mmio from rfl,show o.addr = r1Start from rfl,hn,hmem₂]
      exact load_store_of_length (by simp)
    refine .step .ok calm_ok rfl (.ret (.env .finish hend ?_))
    exact .step .ok calm_ok rfl (.ret (hQ _ _ _ (h₁.congr rfl h₁.buf rfl rfl) hwin))
  refine .step .ok calm_ok rfl ?_
  rw [Job.flag,h.isI,if_neg (by decide)]
  refine .bind (.step .ok calm_ok rfl ?_)
  cases (w.jobs f).flag .isE with
  | true =>
    exact .step .ok calm_ok rfl
      (hrun _ (h.iowrite rfl) (by simp [Card.iowrite,Regs.set]) hlen rfl)
  | false =>
    refine .step .ok calm_ok rfl (hrun _ (h.iowrite rfl) ?_ hlen rfl)
    simp only [Card.iowrite,Regs.set]
    decide

theorem mmioBranch_can {Q : Int → World → Prop} (h : Polled f n mapped p xs um w)
    (hend : ∀ d k w', Polled f n mapped p (c.run d k xs) um w' →
      (machine c).Can t calm Q (writeEnd f ptr mapped) w') :
    (machine c).Can t calm Q (mmioBranch f ptr) w := by
  have hrest (w₁ : World) (h₁ : Polled f n mapped p xs um w₁)
      (hlen : w₁.card.regs.lenMsg = n) (hwin : mapped = false → load w₁.card.mem r1Start n = xs) :
      (machine c).Can t calm Q (do
        let cut ← mmioWait f
        if cut then outUp f (-eRESTARTSYS) else mmioCopyOut f ptr) w₁ := by
    refine .bind (mmioWait_can h₁ hlen (fun d k w₂ h₂ hw₂ => ?_))
    exact mmioCopyOut_can h₂ (fun hm => by rw [hw₂,hwin hm]) (hend d k)
  refine .step .ok calm_ok rfl (.step .ok calm_ok rfl (.bind (.step .ok calm_ok rfl ?_)))
  let w₁ : World := { w with card := w.card.iowrite .lenMsg n }
  have h₁ : Polled f n mapped p xs um w₁ := h.iowrite rfl
  have hlen : w₁.card.regs.lenMsg = n := rfl
  rw [h.len,Job.flag,h.isNotMM]
  cases mapped with
  | true => exact .ret (hrest _ h₁ hlen (fun hm => by cases hm))
  | false =>
    obtain ⟨b,hb,hdata⟩ := World.bytes_eq (h₁.buf rfl)
    refine .step .ok calm_ok rfl (.step .ok calm_ok rfl ?_)
    rw [h.msg,h.len]
    have hto : World.exec t (.memcpyToio p n) .ok w₁ = some (.done () (w₁.setMem r1Start xs)) := by
      simp [World.exec,World.memcpyToio,hb,hdata]
    refine .act .ok calm_ok hto (.ret (hrest _ (h₁.congr rfl h₁.buf rfl h₁.op) hlen (fun _ => ?_)))
    exact load_store_of_length (World.bytes_length (h₁.buf rfl))

theorem writeLocked_can {Q : Int → World → Prop} (h : Polled f n mapped p xs um w)
    (hw : 0 < w.wsem) (hend : ∀ d k w', Polled f n mapped p (c.run d k xs) um w' →
      (machine c).Can t calm Q (writeEnd f ptr mapped) w') :
    (machine c).Can t calm Q (writeLocked f ptr) w := by
  have hdown : World.exec t .downInterruptible .ok w =
      some (.done false { w with wsem := w.wsem-1, holders := t :: w.holders }) := by
    simp [World.exec,World.downInterruptible,Nat.ne_of_gt hw]
  refine .step .ok calm_ok hdown ?_
  rw [if_neg (by decide)]
  refine .step .ok calm_ok rfl (.step .ok calm_ok rfl (.step .ok calm_ok rfl ?_))
  rw [Job.flag,h.isM,if_pos rfl]
  exact mmioBranch_can (h.congr rfl h.buf rfl h.op) hend

/-- What the bytes that vmalloc returns hold does not matter. -/
theorem writeCopyIn_can {Q : Int → World → Prop} (h : Rested f false w)
    (hlen : (w.jobs f).len = n) (hn : 0 < n)
    (hend : ∀ p d k w', Polled f n false p (c.run d k (load w.umem ptr n)) w.umem w' →
      (machine c).Can t calm Q (copyBack f ptr) w') :
    (machine c).Can t calm Q (writeCopyIn f ptr n) w := by
  have halloc : World.exec t (.vmalloc n) (.junk fun _ => 0) w =
      some (.done (some w.nbuf) (w.allocate t n fun _ => 0)) := by
    simp [World.exec,World.vmalloc,Nat.ne_of_gt hn]
  refine .step (.junk fun _ => 0) (by simp [calm]) halloc ?_
  refine .step .ok calm_ok rfl (.step .ok calm_ok rfl ?_)
  let w₁ := (w.allocate t n fun _ => 0).setJob f { w.jobs f with msg := some w.nbuf }
  have hus : w₁.usable (some w.nbuf) n = some w.nbuf := by
    simp [w₁,World.usable,World.allocate,World.setJob,World.setBuf]
  have h₁ : Rested f false w₁ := by
    refine ⟨?_,?_,?_,h.op,h.wsem⟩
    all_goals simp only [w₁,World.setJob,Function.update_self]
    · exact h.isNotMM
    · exact h.isM
    · exact h.isI
  have hlen₁ : (w₁.jobs f).len = n := by
    simp only [w₁,World.setJob,Function.update_self]
    exact hlen
  have hmsg : (w₁.jobs f).msg = some w.nbuf := by simp [w₁,World.setJob]
  have hrest : (machine c).Can t calm Q (do
      let p ← jobMsg f
      let n ← jobLen f
      let r ← atom (.copyFromUser p ptr n)
      if r ≠ 0 then outFree f (-eAGAIN) else writeLocked f ptr) w₁ := by
    refine .step .ok calm_ok rfl (.step .ok calm_ok rfl ?_)
    rw [hmsg,hlen₁]
    have hfrom : World.exec t (.copyFromUser (some w.nbuf) ptr n) .ok w₁ =
        some (.done 0 (w₁.fill w.nbuf (load w₁.umem ptr n))) := by
      simp [World.exec,World.copyFromUser,hus]
    refine .step .ok calm_ok hfrom (writeLocked_can (p := some w.nbuf) ?_ h₁.wsem (hend _))
    exact ⟨h₁.isNotMM,h₁.isM,h₁.isI,h₁.op,hlen₁,hmsg,rfl,
      fun _ => World.bytes_fill hus (load_length _ _ _)⟩
  have hne : (w₁.jobs f).msg ≠ none := by rw [hmsg]; simp
  exact (if_neg hne).symm ▸ hrest

/-- A write comes to its end with the transformed bytes in its buffer. -/
theorem pciWrite_ends {Q : Int → World → Prop} (h : Rested f mapped w) (hn : 0 < n)
    (hlt : n < 2^32)
    (hend : ∀ p d k w', Polled f n mapped p (c.run d k (load w.umem ptr n)) w.umem w' →
      (machine c).Can t calm Q (writeEnd f ptr mapped) w') :
    (machine c).Can t calm Q (pciWrite f ptr n) w := by
  have hbody (w₁ : World) (h₁ : Rested f mapped w₁) (hu : w₁.umem = w.umem) :
      (machine c).Can t calm Q (writeBody f ptr n) w₁ := by
    let w₂ := w₁.setJob f { w₁.jobs f with len := n % 2^32 }
    have h₂ : Rested f mapped w₂ := by
      refine ⟨?_,?_,?_,h₁.op,h₁.wsem⟩
      all_goals simp only [w₂,World.setJob,Function.update_self]
      · exact h₁.isNotMM
      · exact h₁.isM
      · exact h₁.isI
    have hlen : (w₂.jobs f).len = n := by
      simp only [w₂,World.setJob,Function.update_self,Nat.mod_eq_of_lt hlt]
    refine .step .ok calm_ok rfl (.step .ok calm_ok rfl ?_)
    show (machine c).Can t calm Q (if (w₂.jobs f).flag .isNotMM = true then writeCopyIn f ptr n
      else writeLocked f ptr) w₂
    rw [Job.flag,h₂.isNotMM]
    cases mapped with
    | false =>
      rw [if_pos (by decide)]
      refine writeCopyIn_can h₂ hlen hn (fun p d k w' h' => hend p d k w' ?_)
      rwa [← hu]
    | true =>
      rw [if_neg (by decide)]
      exact writeLocked_can ⟨h₂.isNotMM,h₂.isM,h₂.isI,h₂.op,hlen,rfl,hu,fun hm => by cases hm⟩
        h₂.wsem (hend _)
  have hlive : (machine c).Can t calm Q (writeLive f ptr n) w := by
    refine .bind (.step .ok calm_ok rfl (.step (.value 0) (by simp [calm]) rfl (.ret ?_)))
    rw [if_neg (by decide)]
    exact hbody _ ⟨h.isNotMM,h.isM,h.isI,h.op,h.wsem⟩ rfl
  refine .step .ok calm_ok rfl ?_
  rw [if_neg (by decide)]
  refine .step .ok calm_ok rfl ?_
  rw [if_neg (by decide)]
  refine .step .ok calm_ok rfl ?_
  rw [Job.flag,h.isNotMM]
  cases mapped with
  | false => exact hlive
  | true =>
    rw [if_neg (by decide)]
    refine .step .ok calm_ok rfl ?_
    rw [Job.flag,h.isM,if_pos rfl]
    exact hlive

/-- A write whose copy to the user stops after `i` bytes, or does not stop. -/
theorem pciWrite_stops {Q : Int → World → Prop} {i : Nat} (h : Rested f false w) (hn : 0 < n)
    (hlt : n < 2^32) (hi : i ≤ n)
    (hQ : ∀ d k w', Rested f false w' →
      w'.umem = store w.umem ptr ((c.run d k (load w.umem ptr n)).take i) →
      Q (if i = n then 0 else -eAGAIN) w') :
    (machine c).Can t calm Q (pciWrite f ptr n) w :=
  pciWrite_ends h hn hlt (fun _ d k _ h' => copyBack_can h' hi (hQ d k))

theorem pciWrite_can {Q : Int → World → Prop} (h : Rested f mapped w) (hn : 0 < n)
    (hlt : n < 2^32) (hQ : ∀ w', Rested f mapped w' → Q 0 w') :
    (machine c).Can t calm Q (pciWrite f ptr n) w := by
  cases mapped with
  | true =>
    exact pciWrite_ends h hn hlt (fun _ _ _ _ h' => writeDone_can h' (fun w' h' _ => hQ w' h'))
  | false =>
    refine pciWrite_stops h hn hlt (Nat.le_refl n) (fun _ _ w' h' _ => ?_)
    rw [if_pos rfl]
    exact hQ w' h'

theorem cryptLoop_can {Q : Int → World → Prop} {fuel addr length : Nat} (h : Rested f mapped w)
    (hfuel : length / BUFFERSIZE < fuel) (hl : 0 < length)
    (hQ : ∀ w', Rested f mapped w' → Q 0 w') :
    (machine c).Can t calm Q (cryptLoop f fuel addr length) w := by
  have hwrite {m a : Nat} {R : Int → World → Prop} {w₁ : World} (h₁ : Rested f mapped w₁)
      (hm : 0 < m) (hle : m ≤ BUFFERSIZE) (hR : ∀ w', Rested f mapped w' → R 0 w') :
      (machine c).Can t calm R (sysWrite f a m) w₁ := by
    rw [sysWrite_eq _ _ _ (by unfold BUFFERSIZE at hle; unfold MAX_RW_COUNT; omega)]
    exact pciWrite_can h₁ hm (by unfold BUFFERSIZE at hle; omega) hR
  induction fuel generalizing addr length w with
  | zero => exact absurd hfuel (Nat.not_lt_zero _)
  | succ fuel ih =>
    rw [cryptLoop_succ]
    by_cases hlong : length > BUFFERSIZE
    · have hd := div_BUFFERSIZE hlong
      simp only [if_pos hlong]
      refine .bind (hwrite h BUFFERSIZE_pos (Nat.le_refl _) (fun w' h' => ?_))
      rw [if_neg (fun h0 => h0 rfl),if_pos (by omega)]
      exact ih h' (by omega) (by omega)
    · simp only [if_neg hlong]
      refine .bind (hwrite h hl (by omega) (fun w' h' => ?_))
      rw [if_neg (fun h0 => h0 rfl),if_neg (by omega)]
      exact .ret (hQ w' h')

/-- encrypt and decrypt of a handle that has just been opened. -/
theorem crypt_can {d : Bool} {addr length : Nat} {isMapped : Byte} (hj : w.jobs f = pciOpen)
    (ho : w.card.op = none) (hw : 0 < w.wsem) (hl : 0 < length) :
    (machine c).Can t calm (fun r _ => r = 0) (Call.crypt d f addr length isMapped).code w := by
  have hloop (b : Bool) : (machine c).Can t calm (fun r _ => r = 0)
      (do
        let r ← pciUnlockedIoctl f SET_MMAP [if isMapped ≠ 0 then 70 else 80]
        if r ≠ 0 then return ERROR else cryptLoop f (length / BUFFERSIZE + 1) addr length)
      (w.setJob f { w.jobs f with isE := b }) := by
    refine .bind (.step .ok calm_ok rfl ?_)
    have hset (m : Bool) : Rested f m (((w.setJob f { w.jobs f with isE := b }).setJob f
        { (w.setJob f { w.jobs f with isE := b }).jobs f with isNotMM := !m })) := by
      refine ⟨?_,?_,?_,ho,hw⟩
      all_goals simp [World.setJob,hj,pciOpen]
    by_cases hm : isMapped = 0
    · subst hm
      exact .act .ok calm_ok rfl
        (.ret (cryptLoop_can (hset false) (Nat.lt_succ_self _) hl (fun _ _ => rfl)))
    · rw [if_pos hm]
      exact .act .ok calm_ok rfl
        (.ret (cryptLoop_can (hset true) (Nat.lt_succ_self _) hl (fun _ _ => rfl)))
  cases d with
  | true =>
    refine .bind (.step .ok calm_ok rfl (.act .ok calm_ok rfl (.ret ?_)))
    exact hloop false
  | false =>
    refine .bind (.step .ok calm_ok rfl (.act .ok calm_ok rfl (.ret ?_)))
    exact hloop true

end

/-- From the boot of the card, a client can encrypt and decrypt. -/
theorem exists_crypt (c : Cipher) {P : System → Step → Prop} (d : Bool)
    (t cdev addr : Nat) {length : Nat} (isMapped : Byte) (umem mem : Nat → Byte) (hl : 0 < length)
    (hcall : ∀ s, P s (.call t (.crypt d cdev addr length isMapped)))
    (hact : ∀ s x, calm x → P s (.act t x)) (henv : ∀ s e, P s (.env e)) :
    ∃ s, (machine c).Reaches P (start (World.boot umem mem)) s ∧
      s.thr t = .run (.crypt d cdev addr length isMapped) (World.boot umem mem) (.ret 0) ∧
      s.hist t = [] := by
  let s₁ : System := { start (World.boot umem mem) with
    thr := Function.update (fun _ => .idle) t
      (.run (.crypt d cdev addr length isMapped) (World.boot umem mem)
        (Call.crypt d cdev addr length isMapped).code) }
  have h : (machine c).Can t calm (fun r _ => r = 0)
      (Call.crypt d cdev addr length isMapped).code (World.boot umem mem) :=
    crypt_can rfl rfl Nat.one_pos hl
  have ht₁ : s₁.thr t = .run (.crypt d cdev addr length isMapped) (World.boot umem mem)
      (Call.crypt d cdev addr length isMapped).code := by simp [s₁]
  obtain ⟨s,v,hr,ht,hh,rfl⟩ := h.reaches hact henv ht₁ rfl
  exact ⟨s,.head (hcall _) rfl hr,ht,by rw [hh]; rfl⟩

theorem cutsShort_of_calm {s : System} {t : Nat} {x : Choice} (h : calm x) :
    cutsShort s (.act t x) = false := by
  cases x with
  | signal => exact absurd rfl h
  | _ => rfl

/-- An encrypt of the only client, on memory that is all its own. -/
theorem exists_own (c : Cipher) (addr : Nat) {length : Nat} (umem mem : Nat → Byte)
    (hl : 0 < length) :
    ∃ s, (machine c).Reaches (OwnStep (fun _ => 0) (fun _ => 0)) (start (World.boot umem mem)) s ∧
      s.thr 0 = .run (.crypt false 0 addr length 0) (World.boot umem mem) (.ret 0) ∧
      s.hist 0 = [] :=
  exists_crypt c false 0 0 addr 0 umem mem hl (fun _ => ⟨rfl,fun _ _ _ => rfl⟩)
    (fun _ _ h => cutsShort_of_calm h) (fun _ _ => rfl)

end CryptoCard
