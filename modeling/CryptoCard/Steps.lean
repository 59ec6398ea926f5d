import CryptoCard.Lock
set_option autoImplicit false

/-! What one action can do to the parts of the world that threads share. -/
namespace CryptoCard
open Memory Program Interleave

/-- Two worlds that agree on everything through which threads wait for each
other and drive the card. -/
structure SameControl (w w' : World) : Prop where
  regs : w'.card.regs = w.card.regs
  op : w'.card.op = w.card.op
  raising : w'.card.raising = w.card.raising
  pending : w'.card.pending = w.card.pending
  wsem : w'.wsem = w.wsem
  holders : w'.holders = w.holders
  task : w'.task = w.task

theorem SameControl.refl (w : World) : SameControl w w := ⟨rfl,rfl,rfl,rfl,rfl,rfl,rfl⟩

theorem SameControl.release (w : World) (p : Option Nat) : SameControl w (w.release p) := by
  cases p <;> exact ⟨rfl,rfl,rfl,rfl,rfl,rfl,rfl⟩

/-- The semaphore counts the threads for which `H` holds, one at most. -/
structure Sem (H : Nat → Prop) (w : World) : Prop where
  count : w.wsem + w.holders.length = 1
  held : ∀ t, t ∈ w.holders ↔ H t

namespace Sem

variable {H H' : Nat → Prop} {w w' : World} {t u : Nat}

theorem unique (h : Sem H w) (ht : H t) (hu : H u) : t = u := by
  have ht := (h.held t).mpr ht
  have hu := (h.held u).mpr hu
  have hlen : w.holders.length ≤ 1 := by have := h.count; omega
  match hw : w.holders,ht,hu,hlen with
  | [v],ht,hu,_ =>
    rw [hw] at *
    rw [List.mem_singleton.mp ht,List.mem_singleton.mp hu]

/-- Nobody holds a semaphore that can be taken. -/
theorem free (h : Sem H w) (hw : 0 < w.wsem) (t : Nat) : ¬ H t := fun ht => by
  have hm := List.length_pos_of_mem ((h.held t).mpr ht)
  have hc := h.count
  omega

theorem congr (h : Sem H w) (hw : w'.wsem = w.wsem) (hh : w'.holders = w.holders)
    (hH : ∀ u, H' u ↔ H u) : Sem H' w' :=
  ⟨by rw [hw,hh]; exact h.count,fun u => by rw [hh,hH u]; exact h.held u⟩

theorem acquire (h : Sem H w) (hw : 0 < w.wsem) (hH : ∀ u, H' u ↔ u = t ∨ H u) :
    Sem H' { w with wsem := w.wsem-1, holders := t :: w.holders } where
  count := by have := h.count; simp only [List.length_cons]; omega
  held u := by rw [hH u,List.mem_cons,h.held u]

theorem release (h : Sem H w) (ht : H t) (hH : ∀ u, ¬ H' u) : Sem H' (w.up t) := by
  have hm := (h.held t).mpr ht
  have hc := h.count
  have hlen := List.length_erase_of_mem hm
  have hpos := List.length_pos_of_mem hm
  have hnil : w.holders.erase t = [] := List.length_eq_zero_iff.mp (by omega)
  exact ⟨by simp only [World.up]; omega,fun u => by simp [World.up,hnil,hH u]⟩

end Sem

/-- The answer says that the semaphore has been taken. -/
def Act.takes : (a : Act) → a.Res → Bool
  | .downInterruptible, cut => !cut
  | _, _ => false

/-- Actions on jobs, buffers, mappings and memory, and reads. -/
def Act.Quiet : Act → Bool
  | .downInterruptible | .up | .iowrite _ _ | .pollBusy _ | .waitEvent _ | .wakeUp => false
  | .ioread .interruptStatus => false
  | _ => true

/-- The pointer and length of a copy that goes through the kernel heap. -/
def Act.buffer : Act → Option (Option Nat × Nat)
  | .copyFromUser p _ n | .copyToUser _ p n | .memcpyToio p n | .memcpyFromio p n => some (p,n)
  | _ => none

/-- The answer says that a signal ended a wait before the operation did. -/
def Act.cut : (a : Act) → a.Res → Bool
  | .waitEvent _, r => r
  | _, _ => false

/-- The user memory that an action may write. -/
def Act.writes : Act → Nat × Nat
  | .copyToUser ptr _ n => (ptr,n)
  | .userStore addr xs => (addr,xs.length)
  | _ => (0,0)

namespace World

theorem usable_fill {w : World} {p : Option Nat} {b n : Nat} {xs : List Byte}
    (h : xs.length ≤ (w.heap b).data.length) :
    (w.fill b xs).usable p n = w.usable p n := by
  unfold usable
  congr 1
  funext b'
  by_cases hb : b' = b
  · subst b'
    simp only [fill,setBuf,Function.update_self,List.length_append,List.length_drop]
    congr 2
    exact propext ⟨fun h' => by omega,fun h' => by omega⟩
  · simp [fill,setBuf,hb]

theorem usable_eq {w : World} {p : Option Nat} {n b : Nat} (h : w.usable p n = some b) :
    p = some b ∧ (w.heap b).live = true ∧ n ≤ (w.heap b).data.length := by
  obtain ⟨hp,hb⟩ := Option.filter_eq_some_iff.mp h
  simp only [Bool.and_eq_true,decide_eq_true_eq] at hb
  exact ⟨hp,hb⟩

theorem le_of_usable {w : World} {p : Option Nat} {b n : Nat} (h : w.usable p n = some b) :
    n ≤ (w.heap b).data.length := (usable_eq h).2.2

theorem copyFromUser_done {w w' : World} {p : Option Nat} {ptr n r : Nat} {x : Choice}
    (h : w.copyFromUser p ptr n x = some (.done r w')) :
    (∃ b, w.usable p n = some b ∧ ∃ xs, xs.length = n ∧ w' = w.fill b xs ∧
      (r = 0 → xs = load w.umem ptr n)) ∨
    (w.usable p n = none ∧ r = 0 ∧ w' = w) := by
  unfold copyFromUser at h
  split at h
  · rename_i b hb
    cases h
    exact .inl ⟨b,hb,_,load_length _ _ _,rfl,fun _ => rfl⟩
  · rename_i b m hb
    split at h
    · rename_i hm
      cases h
      refine .inl ⟨b,hb,_,?_,rfl,fun hr => absurd hr (by omega)⟩
      rw [List.length_append,load_length,List.length_replicate]
      omega
    · cases h
  · cases h
  · rename_i hb
    cases h
    exact .inr ⟨hb,rfl,rfl⟩
  · cases h

theorem copyToUser_done {w w' : World} {p : Option Nat} {ptr n r : Nat} {x : Choice}
    (h : w.copyToUser ptr p n x = some (.done r w')) :
    (∃ b, w.usable p n = some b ∧ ∃ m, m ≤ n ∧
      w' = w.setUmem ptr ((w.heap b).data.take m) ∧ (r = 0 → m = n)) ∨
    (w.usable p n = none ∧ r = 0 ∧ ∃ xs, xs.length = n ∧ w' = w.setUmem ptr xs) := by
  unfold copyToUser at h
  split at h
  · rename_i b hb
    cases h
    exact .inl ⟨b,hb,n,Nat.le_refl n,rfl,fun _ => rfl⟩
  · rename_i b m hb
    split at h
    · rename_i hm
      cases h
      exact .inl ⟨b,hb,m,Nat.le_of_lt hm,rfl,fun hr => absurd hr (by omega)⟩
    · cases h
  · cases h
  · rename_i hb
    cases h
    exact .inr ⟨hb,rfl,_,load_length _ _ _,rfl⟩
  · cases h

theorem memcpyToio_done {w w' : World} {p : Option Nat} {n : Nat} {x : Choice}
    (h : w.memcpyToio p n x = some (.done () w')) :
    ∃ xs, w' = w.setMem r1Start xs ∧ (∀ b, w.usable p n = some b → xs = (w.heap b).data.take n) := by
  unfold memcpyToio at h
  split at h
  · rename_i b hb
    cases h
    exact ⟨_,rfl,fun b' hb' => by rw [hb] at hb'; cases hb'; rfl⟩
  · cases h
  · rename_i hb
    cases h
    exact ⟨_,rfl,fun b' hb' => by rw [hb] at hb'; cases hb'⟩
  · cases h

theorem memcpyFromio_done {w w' : World} {p : Option Nat} {n : Nat} {x : Choice}
    (h : w.memcpyFromio p n x = some (.done () w')) :
    (∃ b, w.usable p n = some b ∧ w' = w.fill b (load w.card.mem r1Start n)) ∨
    (w.usable p n = none ∧ w' = w) := by
  unfold memcpyFromio at h
  split at h
  · rename_i b hb
    cases h
    exact .inl ⟨b,hb,rfl⟩
  · cases h
  · rename_i hb
    cases h
    exact .inr ⟨hb,rfl⟩
  · cases h

theorem vmalloc_done {w w' : World} {t n : Nat} {x : Choice} {r : Option Nat}
    (h : w.vmalloc t n x = some (.done r w')) :
    (r = none ∧ w' = w) ∨ (0 < n ∧ r = some w.nbuf ∧ ∃ g, w' = w.allocate t n g) := by
  unfold vmalloc at h
  split at h
  · cases h
    exact .inl ⟨rfl,rfl⟩
  · split at h
    · cases h
      exact .inl ⟨rfl,rfl⟩
    · rename_i hn
      cases h
      exact .inr ⟨Nat.pos_of_ne_zero hn,rfl,_,rfl⟩
  · cases h

theorem dmaMapSingle_done {w w' : World} {t n : Nat} {p : Option Nat} {x : Choice}
    {r : Option Nat} (h : w.dmaMapSingle t p n x = some (.done r w')) :
    (r = none ∧ w' = w) ∨ (r = some w.nmap ∧ w' = w.mapSingle t p n) := by
  unfold dmaMapSingle at h
  split at h
  · cases h
    exact .inr ⟨rfl,rfl⟩
  · cases h
    exact .inl ⟨rfl,rfl⟩
  · cases h

theorem downInterruptible_done {w w' : World} {t : Nat} {x : Choice} {r : Bool}
    (h : w.downInterruptible t x = some (.done r w')) :
    (r = true ∧ w' = w ∧ x = .signal) ∨
    (r = false ∧ 0 < w.wsem ∧
      w' = { w with wsem := w.wsem-1, holders := t :: w.holders }) := by
  unfold downInterruptible at h
  split at h
  · cases h
    exact .inl ⟨rfl,rfl,rfl⟩
  · split at h
    · cases h
    · rename_i hw
      cases h
      exact .inr ⟨rfl,Nat.pos_of_ne_zero hw,rfl⟩
  · cases h

theorem ioread_done {w w' : World} {r : Reg} {x : Choice} {v : Nat}
    (h : w.ioread r x = some (.done v w')) :
    w' = w ∧ (r = .interruptStatus → v = w.card.interruptStatus) := by
  unfold ioread at h
  split at h
  · cases h
    exact ⟨rfl,fun _ => rfl⟩
  · rename_i hr
    cases h
    exact ⟨rfl,fun hr' => absurd hr' hr⟩
  · cases h

/-- A wait ends with `false` when the operation is over, and is cut short only
while it runs; in between only the thread's own place in the queue moves. -/
theorem waitStep_done {w w' : World} {t : Nat} {k : Kind} {x : Choice} {r : Bool}
    (h : w.waitStep t k x = some (.done r w')) :
    ((w' = w ∧ w.task t = .awake) ∨ w' = w.setTask t .awake) ∧
    ((r = false ∧ w.card.busy k = false) ∨
      (r = true ∧ w.card.busy k = true ∧ x = .signal ∧ ∃ q, w.task t = .queued q)) := by
  unfold waitStep at h
  split at h
  · rename_i ht
    split at h
    · cases h
    · rename_i hb
      cases h
      exact ⟨.inl ⟨rfl,ht⟩,.inl ⟨rfl,by simpa using hb⟩⟩
  · cases h
  · rename_i q ht
    split at h
    · rename_i hb
      split at h
      · cases h
        exact ⟨.inr rfl,.inr ⟨rfl,hb,rfl,q,ht⟩⟩
      · cases h
    · rename_i hb
      cases h
      exact ⟨.inr rfl,.inl ⟨rfl,by simpa using hb⟩⟩
  · split at h <;> cases h

theorem waitStep_stay {w w' : World} {t : Nat} {k : Kind} {x : Choice}
    (h : w.waitStep t k x = some (.stay w')) :
    ∃ q, w' = w.setTask t q ∧ (q = .asleep → w.card.busy k = true) := by
  unfold waitStep at h
  split at h
  · split at h
    · cases h
      exact ⟨_,rfl,fun hq => by cases hq⟩
    · cases h
  · cases h
    exact ⟨_,rfl,fun hq => by cases hq⟩
  · rename_i q ht
    split at h
    · rename_i hb
      split at h
      · cases h
      · cases h
        exact ⟨_,rfl,fun _ => hb⟩
    · cases h
  · split at h
    · cases h
      exact ⟨_,rfl,fun hq => by cases hq⟩
    · cases h

/-- An action on jobs, buffers, mappings or memory leaves the control alone. -/
theorem exec_quiet {w w' : World} {t : Nat} {a : Act} {x : Choice} {r : a.Res}
    (hq : a.Quiet = true) (h : exec t a x w = some (.done r w')) : SameControl w w' := by
  have same (h : w' = w) : SameControl w w' := h ▸ SameControl.refl w
  cases a with
  | downInterruptible => cases hq
  | up => cases hq
  | iowrite r v => cases hq
  | pollBusy k => cases hq
  | waitEvent k => cases hq
  | wakeUp => cases hq
  | ioread r => exact same (ioread_done h).1
  | vmalloc n =>
    obtain ⟨_,h⟩ | ⟨_,_,g,rfl⟩ := vmalloc_done h
    · exact same h
    · exact ⟨rfl,rfl,rfl,rfl,rfl,rfl,rfl⟩
  | copyFromUser p ptr n =>
    obtain ⟨b,_,xs,_,rfl,_⟩ | ⟨_,_,h⟩ := copyFromUser_done h
    · exact ⟨rfl,rfl,rfl,rfl,rfl,rfl,rfl⟩
    · exact same h
  | copyToUser ptr p n =>
    obtain ⟨b,_,m,_,rfl,_⟩ | ⟨_,_,xs,_,rfl⟩ := copyToUser_done h
    · exact ⟨rfl,rfl,rfl,rfl,rfl,rfl,rfl⟩
    · exact ⟨rfl,rfl,rfl,rfl,rfl,rfl,rfl⟩
  | memcpyToio p n =>
    obtain ⟨xs,rfl,_⟩ := memcpyToio_done h
    exact ⟨rfl,rfl,rfl,rfl,rfl,rfl,rfl⟩
  | memcpyFromio p n =>
    obtain ⟨b,_,rfl⟩ | ⟨_,h⟩ := memcpyFromio_done h
    · exact ⟨rfl,rfl,rfl,rfl,rfl,rfl,rfl⟩
    · exact same h
  | dmaMapSingle p n =>
    obtain ⟨_,h⟩ | ⟨_,rfl⟩ := dmaMapSingle_done h
    · exact same h
    · exact ⟨rfl,rfl,rfl,rfl,rfl,rfl,rfl⟩
  | vfree p =>
    cases h
    exact SameControl.release w p
  | _ =>
    cases h
    exact ⟨rfl,rfl,rfl,rfl,rfl,rfl,rfl⟩

/-- The semaphore moves with down and up only. -/
theorem exec_sem {w w' : World} {t : Nat} {a : Act} {x : Choice} {r : a.Res}
    (hd : a ≠ .downInterruptible) (hu : a ≠ .up) (h : exec t a x w = some (.done r w')) :
    w'.wsem = w.wsem ∧ w'.holders = w.holders := by
  by_cases hq : a.Quiet = true
  · have hc := exec_quiet hq h
    exact ⟨hc.wsem,hc.holders⟩
  · cases a with
    | downInterruptible => exact absurd rfl hd
    | up => exact absurd rfl hu
    | iowrite r v => cases h; exact ⟨rfl,rfl⟩
    | wakeUp => cases h; exact ⟨rfl,rfl⟩
    | pollBusy k =>
      simp only [exec] at h
      split at h
      · cases h
      · cases h
        exact ⟨rfl,rfl⟩
    | waitEvent k =>
      obtain ⟨⟨rfl,_⟩ | rfl,_⟩ := waitStep_done h <;> exact ⟨rfl,rfl⟩
    | ioread r =>
      obtain ⟨rfl,_⟩ := ioread_done h
      exact ⟨rfl,rfl⟩
    | _ => exact absurd rfl hq

/-- An action finishes, has to be taken up again in a busy loop or a wait, or crashes in a
copy through a pointer it cannot use. -/
theorem exec_out {w : World} {t : Nat} {a : Act} {x : Choice} {o : Out World a.Res}
    (h : exec t a x w = some o) :
    (∃ r w', o = .done r w') ∨
    (∃ w', o = .stay w' ∧ ((∃ k, a = .pollBusy k ∧ w' = w) ∨ ∃ k, a = .waitEvent k)) ∨
    (o = .oops w ∧ ∃ p n, a.buffer = some (p,n) ∧ w.usable p n = none) := by
  cases a with
  | pollBusy k =>
    simp only [exec] at h
    split at h <;> cases h
    · exact .inr (.inl ⟨w,rfl,.inl ⟨k,rfl,rfl⟩⟩)
    · exact .inl ⟨_,_,rfl⟩
  | waitEvent k =>
    cases o with
    | stay w' => exact .inr (.inl ⟨w',rfl,.inr ⟨k,rfl⟩⟩)
    | done r w' => exact .inl ⟨r,w',rfl⟩
    | oops w' =>
      simp only [exec,waitStep] at h
      repeat' (split at h)
      all_goals cases h
  | copyFromUser p ptr n =>
    simp only [exec,copyFromUser] at h
    repeat' (split at h)
    all_goals cases h
    all_goals first | exact .inl ⟨_,_,rfl⟩ | exact .inr (.inr ⟨rfl,p,n,rfl,by assumption⟩)
  | copyToUser ptr p n =>
    simp only [exec,copyToUser] at h
    repeat' (split at h)
    all_goals cases h
    all_goals first | exact .inl ⟨_,_,rfl⟩ | exact .inr (.inr ⟨rfl,p,n,rfl,by assumption⟩)
  | memcpyToio p n =>
    simp only [exec,memcpyToio] at h
    repeat' (split at h)
    all_goals cases h
    all_goals first | exact .inl ⟨_,_,rfl⟩ | exact .inr (.inr ⟨rfl,p,n,rfl,by assumption⟩)
  | memcpyFromio p n =>
    simp only [exec,memcpyFromio] at h
    repeat' (split at h)
    all_goals cases h
    all_goals first | exact .inl ⟨_,_,rfl⟩ | exact .inr (.inr ⟨rfl,p,n,rfl,by assumption⟩)
  | vmalloc n =>
    simp only [exec,vmalloc] at h
    repeat' (split at h)
    all_goals cases h
    all_goals exact .inl ⟨_,_,rfl⟩
  | downInterruptible =>
    simp only [exec,downInterruptible] at h
    repeat' (split at h)
    all_goals cases h
    all_goals exact .inl ⟨_,_,rfl⟩
  | dmaMapSingle p n =>
    simp only [exec,dmaMapSingle] at h
    repeat' (split at h)
    all_goals cases h
    all_goals exact .inl ⟨_,_,rfl⟩
  | ioread r =>
    simp only [exec,ioread] at h
    repeat' (split at h)
    all_goals cases h
    all_goals exact .inl ⟨_,_,rfl⟩
  | _ => cases h; exact .inl ⟨_,_,rfl⟩

theorem exec_stay {w w' : World} {t : Nat} {a : Act} {x : Choice}
    (h : exec t a x w = some (.stay w')) :
    (∃ k, a = .pollBusy k ∧ w' = w) ∨
    (∃ k, a = .waitEvent k ∧ w.waitStep t k x = some (.stay w')) := by
  obtain ⟨_,_,ho⟩ | ⟨w₁,ho,ha⟩ | ⟨ho,_⟩ := exec_out h <;> cases ho
  obtain ha | ⟨k,rfl⟩ := ha
  · exact .inl ha
  · exact .inr ⟨k,rfl,h⟩

/-- Only the place in the wait queue moves. -/
theorem stay_task {w w' : World} {t : Nat} {a : Act} {x : Choice}
    (h : exec t a x w = some (.stay w')) : ∃ task, w' = { w with task := task } := by
  obtain ⟨_,_,rfl⟩ | ⟨_,_,h⟩ := exec_stay h
  · exact ⟨_,rfl⟩
  · obtain ⟨_,rfl,_⟩ := waitStep_stay h
    exact ⟨_,rfl⟩

theorem exec_oops {w w' : World} {t : Nat} {a : Act} {x : Choice}
    (h : exec t a x w = some (.oops w')) :
    w' = w ∧ ∃ p n, a.buffer = some (p,n) ∧ w.usable p n = none := by
  obtain ⟨_,_,ho⟩ | ⟨_,ho,_⟩ | ⟨ho,hb⟩ := exec_out h <;> cases ho
  exact ⟨rfl,hb⟩

/-- User memory changes where an action writes it, and nowhere else. -/
theorem exec_umem {w w' : World} {t : Nat} {a : Act} {x : Choice} {r : a.Res}
    (h : exec t a x w = some (.done r w')) {y : Nat}
    (hy : ¬ Within a.writes.1 a.writes.2 y) : w'.umem y = w.umem y := by
  cases a with
  | vmalloc n => obtain ⟨_,rfl⟩ | ⟨_,_,g,rfl⟩ := vmalloc_done h <;> rfl
  | vfree p => cases h; cases p <;> rfl
  | copyFromUser p ptr n => obtain ⟨b,_,xs,_,rfl,_⟩ | ⟨_,_,rfl⟩ := copyFromUser_done h <;> rfl
  | copyToUser ptr p n =>
    have out {xs : List Byte} (hxs : xs.length ≤ n) : (w.setUmem ptr xs).umem y = w.umem y := by
      refine store_outside _ _ _ _ (fun hin => hy ⟨hin.1,?_⟩)
      exact Nat.lt_of_lt_of_le hin.2 (Nat.add_le_add_left hxs ptr)
    obtain ⟨b,_,m,hm,rfl,_⟩ | ⟨_,_,xs,hxs,rfl⟩ := copyToUser_done h
    · exact out (Nat.le_trans (List.length_take_le m _) hm)
    · exact out (Nat.le_of_eq hxs)
  | downInterruptible => obtain ⟨_,rfl,_⟩ | ⟨_,_,rfl⟩ := downInterruptible_done h <;> rfl
  | ioread reg => obtain ⟨rfl,_⟩ := ioread_done h; rfl
  | memcpyToio p n => obtain ⟨xs,rfl,_⟩ := memcpyToio_done h; rfl
  | memcpyFromio p n => obtain ⟨b,_,rfl⟩ | ⟨_,rfl⟩ := memcpyFromio_done h <;> rfl
  | pollBusy k =>
    simp only [exec] at h
    split at h <;> cases h
    rfl
  | waitEvent k => obtain ⟨⟨rfl,_⟩ | rfl,_⟩ := waitStep_done h <;> rfl
  | dmaMapSingle p n => obtain ⟨_,rfl⟩ | ⟨_,rfl⟩ := dmaMapSingle_done h <;> rfl
  | userStore addr xs => cases h; exact store_outside _ _ _ _ hy
  | _ => cases h; rfl

theorem transform_control (c : Cipher) (w : World) (o : Op) :
    SameControl w (w.transform c o) := by
  unfold transform
  cases o.kind with
  | mmio => exact ⟨rfl,rfl,rfl,rfl,rfl,rfl,rfl⟩
  | dma => cases w.dmaTarget o.addr o.len <;> exact ⟨rfl,rfl,rfl,rfl,rfl,rfl,rfl⟩

theorem transform_jobs (c : Cipher) (w : World) (o : Op) : (w.transform c o).jobs = w.jobs := by
  unfold transform
  cases o.kind with
  | mmio => rfl
  | dma => cases w.dmaTarget o.addr o.len <;> rfl

theorem transform_umem (c : Cipher) (w : World) (o : Op) : (w.transform c o).umem = w.umem := by
  unfold transform
  cases o.kind with
  | mmio => rfl
  | dma => cases w.dmaTarget o.addr o.len <;> rfl

/-- What the card can do by itself. -/
theorem env_cases {c : Cipher} {e : World.Env} {w w' : World}
    (h : World.env c e w = some w') :
    (e = .finish ∧ ∃ o, w.card.op = some o ∧ (o.intr = true → w.card.raising = none) ∧
      w' = (w.transform c o).settle o) ∨
    (e = .raise ∧ ∃ k, w.card.raising = some k ∧ w' = { w with card := { w.card with
      raising := none, pending := Function.update w.card.pending k true } }) := by
  cases e with
  | finish =>
    simp only [World.env] at h
    split at h
    · rename_i o ho
      split at h
      · cases h
      · rename_i hi
        cases h
        refine .inl ⟨rfl,o,ho,fun hr => ?_,rfl⟩
        simpa [hr] using hi
    · cases h
  | raise =>
    simp only [World.env] at h
    split at h
    · rename_i k hk
      cases h
      exact .inr ⟨rfl,k,hk,rfl⟩
    · cases h

end World

section
variable {H : Nat → Prop} {t : Nat} {w w' : World}

theorem Sem.stay (h : Sem H w) {a : Act} {x : Choice}
    (he : World.exec t a x w = some (.stay w')) : Sem H w' := by
  obtain ⟨_,rfl⟩ := World.stay_task he
  exact h.congr rfl rfl (fun _ => Iff.rfl)

theorem Sem.env (h : Sem H w) {c : Cipher} {e : World.Env} (he : World.env c e w = some w') :
    Sem H w' := by
  obtain ⟨_,o,_,_,rfl⟩ | ⟨_,_,_,rfl⟩ := World.env_cases he
  · have hc := World.transform_control c w o
    exact h.congr hc.wsem hc.holders (fun _ => Iff.rfl)
  · exact h.congr rfl rfl (fun _ => Iff.rfl)

end

/-- Only a register write reaches the registers, and nothing else starts an operation. -/
theorem World.exec_regs {w w' : World} {t : Nat} {a : Act} {x : Choice} {r : a.Res}
    (ha : ∀ reg n, a ≠ .iowrite reg n) (he : World.exec t a x w = some (.done r w')) :
    w'.card.regs = w.card.regs ∧ w'.card.op = w.card.op := by
  by_cases hq : a.Quiet = true
  · have hc := World.exec_quiet hq he
    exact ⟨hc.regs,hc.op⟩
  · cases a with
    | iowrite reg n => exact absurd rfl (ha reg n)
    | downInterruptible =>
      rcases World.downInterruptible_done he with ⟨_,rfl,_⟩ | ⟨_,_,rfl⟩ <;> exact ⟨rfl,rfl⟩
    | ioread reg => obtain ⟨rfl,_⟩ := World.ioread_done he; exact ⟨rfl,rfl⟩
    | pollBusy k =>
      simp only [World.exec] at he
      split at he <;> cases he
      exact ⟨rfl,rfl⟩
    | waitEvent k => rcases (World.waitStep_done he).1 with ⟨rfl,_⟩ | rfl <;> exact ⟨rfl,rfl⟩
    | up => cases he; exact ⟨rfl,rfl⟩
    | wakeUp => cases he; exact ⟨rfl,rfl⟩
    | _ => exact absurd rfl hq

/-- The jobs after an action. -/
def Act.stored (jobs : Nat → Job) : Act → Nat → Job
  | .setFlag f y b => Function.update jobs f ((jobs f).setFlag y b)
  | .setLen f n => Function.update jobs f { jobs f with len := n }
  | .setMsg f p => Function.update jobs f { jobs f with msg := p }
  | .copyKey f arg => Function.update jobs f { jobs f with keyab := le32 arg }
  | _ => jobs

theorem World.exec_jobs {w w' : World} {t : Nat} {a : Act} {x : Choice} {r : a.Res}
    (he : World.exec t a x w = some (.done r w')) : w'.jobs = a.stored w.jobs := by
  cases a with
  | vmalloc n => rcases World.vmalloc_done he with ⟨_,rfl⟩ | ⟨_,_,g,rfl⟩ <;> rfl
  | vfree p => cases he; cases p <;> rfl
  | copyFromUser p ptr n =>
    rcases World.copyFromUser_done he with ⟨b,_,xs,_,rfl,_⟩ | ⟨_,_,rfl⟩ <;> rfl
  | copyToUser ptr p n =>
    rcases World.copyToUser_done he with ⟨b,_,m,_,rfl,_⟩ | ⟨_,_,xs,_,rfl⟩ <;> rfl
  | memcpyToio p n => obtain ⟨xs,rfl,_⟩ := World.memcpyToio_done he; rfl
  | memcpyFromio p n => rcases World.memcpyFromio_done he with ⟨b,_,rfl⟩ | ⟨_,rfl⟩ <;> rfl
  | downInterruptible =>
    rcases World.downInterruptible_done he with ⟨_,rfl,_⟩ | ⟨_,_,rfl⟩ <;> rfl
  | ioread reg => obtain ⟨rfl,_⟩ := World.ioread_done he; rfl
  | pollBusy k =>
    simp only [World.exec] at he
    split at he <;> cases he
    rfl
  | waitEvent k => rcases (World.waitStep_done he).1 with ⟨rfl,_⟩ | rfl <;> rfl
  | dmaMapSingle p n => rcases World.dmaMapSingle_done he with ⟨_,rfl⟩ | ⟨_,rfl⟩ <;> rfl
  | _ => cases he; rfl

/-- An action keeps count of the holders when the account of its thread says whether it has
taken the semaphore and whether it has given it back. -/
theorem Sem.next {G : Type} {H : G → Prop} {g : Nat → G} {γ : G} {w w' : World} {t : Nat}
    {a : Act} {x : Choice} {r : a.Res} (h : Sem (fun u => H (g u)) w)
    (he : World.exec t a x w = some (.done r w'))
    (hH : a ≠ .up → (H γ ↔ a.takes r = true ∨ H (g t))) (hup : a = .up → H (g t) ∧ ¬ H γ) :
    Sem (fun u => H (Function.update g t γ u)) w' := by
  have same (hw : w'.wsem = w.wsem) (hh : w'.holders = w.holders) (ht : H γ ↔ H (g t)) :
      Sem (fun u => H (Function.update g t γ u)) w' := by
    refine h.congr hw hh (fun u => ?_)
    by_cases hut : u = t
    · subst u
      rw [Function.update_self]
      exact ht
    · rw [Function.update_of_ne hut]
  by_cases hu : a = .up
  · subst hu
    cases he
    obtain ⟨ht,hno⟩ := hup rfl
    refine h.release ht (fun u hh => ?_)
    by_cases hut : u = t
    · subst u
      rw [Function.update_self] at hh
      exact hno hh
    · rw [Function.update_of_ne hut] at hh
      exact hut (h.unique hh ht)
  · have hH := hH hu
    by_cases hd : a = .downInterruptible
    · subst hd
      obtain ⟨rfl,rfl,_⟩ | ⟨rfl,hw,rfl⟩ := World.downInterruptible_done he
      · exact same rfl rfl (by simpa [Act.takes] using hH)
      · refine h.acquire hw (fun u => ?_)
        by_cases hut : u = t
        · subst u
          simpa [Act.takes] using hH
        · simp [hut]
    · obtain ⟨hw,hh⟩ := World.exec_sem hd hu he
      refine same hw hh (hH.trans ?_)
      cases a with
      | downInterruptible => exact absurd rfl hd
      | _ => simp [Act.takes]

end CryptoCard
