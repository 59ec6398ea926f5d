import CryptoCard.View
import CryptoCard.Turns
set_option autoImplicit false

/-! The world as one thread sees it while no other thread is in a system call: what the card
and its interrupts can do meanwhile, and a rule for each action of the thread. -/
namespace CryptoCard
open Memory Program Interleave

/-- The handler is the only call that may run next to another one. -/
def Call.front : Call → Bool
  | .irq _ => false
  | _ => true

/-- The actions of the handler. -/
def Act.meek : Act → Bool
  | .configspace | .ioread _ | .wakeUp | .iowrite .interruptAck _ => true
  | _ => false

/-- The world with other places in the wait queue and other interrupts to be handled. -/
def World.amid (w : World) (q : Nat → Wait) (r : Option Kind) (p : Kind → Bool) : World :=
  { w with task := q, card := { w.card with raising := r, pending := p } }

def Alike (w w' : World) : Prop := ∃ q r p, w' = w.amid q r p

/-- The world once the card has finished what it is at. -/
def World.complete (c : Cipher) (w : World) : World :=
  match w.card.op with
  | none => w
  | some o => { w.transform c o with card := { (w.transform c o).card with op := none } }

/-- What can become of a world while a thread makes no step of its own. -/
def Settles (c : Cipher) (w w' : World) : Prop := Alike w w' ∨ Alike (w.complete c) w'

/-- The card's memory once it has finished what it is at. -/
def Card.settled (c : Cipher) (B : Card) : Nat → Byte :=
  match B.op with
  | none => B.mem
  | some o => (B.finish c o).mem

/-- What neither the card nor the exits of a write on `f` change. -/
structure Lasting (c : Cipher) (f : Nat) (I : World → Prop) : Prop where
  settles : ∀ {w w'}, I w → Settles c w w' → I w'
  release : ∀ {w} p, I w → I (w.release p)
  setMsg : ∀ {w} p, I w → I (w.setJob f { w.jobs f with msg := p })
  up : ∀ {w} t, I w → I (w.up t)

/-- The answers that are admitted, and what a thread keeps up with each of its actions:
of an idle card it always holds. -/
structure Terms (c : Cipher) where
  Allows : World → (a : Act) → a.Res → Prop
  Good : World → Prop
  idle : ∀ {w : World}, w.card.op = none → Good w
  lasts : ∀ f, Lasting c f Good

/-- Nothing is to be kept up. -/
def Terms.of (c : Cipher) (Al : World → (a : Act) → a.Res → Prop) : Terms c where
  Allows := Al
  Good _ := True
  idle _ := trivial
  lasts _ := ⟨fun _ _ => trivial,fun _ _ => trivial,fun _ _ => trivial,fun _ _ => trivial⟩

/-- System calls that take turns. -/
def solo (c : Cipher) (K : Terms c) : Turns Act Act.Res World Call where
  front := Call.front
  meek a := a.meek = true
  Rely := Settles c
  Allows := K.Allows
  Good := K.Good

theorem Alike.refl (w : World) : Alike w w := ⟨w.task,w.card.raising,w.card.pending,rfl⟩

theorem Alike.trans {w w₁ w₂ : World} (h : Alike w w₁) (h' : Alike w₁ w₂) : Alike w w₂ := by
  obtain ⟨_,_,_,rfl⟩ := h
  obtain ⟨q,r,p,rfl⟩ := h'
  exact ⟨q,r,p,rfl⟩

theorem Alike.transform {c : Cipher} {w w' : World} (h : Alike w w') (o : Op) :
    Alike (w.transform c o) (w'.transform c o) := by
  obtain ⟨q,r,p,rfl⟩ := h
  have ht : (w.amid q r p).dmaTarget o.addr o.len = w.dmaTarget o.addr o.len := rfl
  unfold World.transform
  cases o.kind with
  | mmio => exact ⟨q,r,p,rfl⟩
  | dma =>
    rw [ht]
    cases w.dmaTarget o.addr o.len <;> exact ⟨q,r,p,rfl⟩

theorem World.complete_idle {c : Cipher} {w : World} (h : w.card.op = none) :
    w.complete c = w := by
  simp [World.complete,h]

theorem World.complete_op (c : Cipher) (w : World) : (w.complete c).card.op = none := by
  unfold World.complete
  split
  · assumption
  · rfl

theorem Alike.complete {c : Cipher} {w w' : World} (h : Alike w w') :
    Alike (w.complete c) (w'.complete c) := by
  have hop : w'.card.op = w.card.op := by
    obtain ⟨q,r,p,rfl⟩ := h
    rfl
  unfold World.complete
  rw [hop]
  cases w.card.op with
  | none => exact h
  | some o =>
    obtain ⟨q,r,p,ht⟩ := h.transform o (c := c)
    exact ⟨q,r,p,by simp only [ht]; rfl⟩

namespace Settles

variable {c : Cipher} {w w₁ w₂ : World}

theorem refl (w : World) : Settles c w w := .inl (.refl w)

theorem idle (h : w.card.op = none) (hs : Settles c w w₁) : Alike w w₁ := by
  obtain hs | hs := hs
  · exact hs
  · rwa [World.complete_idle h] at hs

theorem trans (h : Settles c w w₁) (h' : Settles c w₁ w₂) : Settles c w w₂ := by
  obtain h | h := h
  · obtain h' | h' := h'
    · exact .inl (h.trans h')
    · exact .inr (h.complete.trans h')
  · have hop : w₁.card.op = none := by
      obtain ⟨q,r,p,rfl⟩ := h
      exact World.complete_op c w
    exact .inr (h.trans (h'.idle hop))

theorem usable {p : Option Nat} {n : Nat} (h : Settles c w w₁) :
    w₁.usable p n = w.usable p n := by
  obtain ⟨_,_,_,rfl⟩ | ⟨_,_,_,rfl⟩ := h
  · rfl
  · show (w.complete c).usable p n = w.usable p n
    unfold World.complete
    split
    · rfl
    · rename_i o _
      show (w.transform c o).usable p n = w.usable p n
      unfold World.transform
      cases o.kind with
      | mmio => rfl
      | dma =>
        dsimp only
        split
        · refine World.usable_fill ?_
          rw [Cipher.run_length]
          exact List.length_take_le' _ _
        · rfl

end Settles

theorem World.env_settles {c : Cipher} {e : World.Env} {w w' : World}
    (h : World.env c e w = some w') : Settles c w w' := by
  obtain ⟨rfl,o,ho,_,rfl⟩ | ⟨rfl,k,_,rfl⟩ := World.env_cases h
  · refine .inr ⟨(w.transform c o).task,
      if o.intr then some o.kind else (w.transform c o).card.raising,
      (w.transform c o).card.pending,?_⟩
    simp only [World.complete,ho]
    rfl
  · exact .inl ⟨w.task,none,Function.update w.card.pending k true,rfl⟩

theorem World.stay_settles {c : Cipher} {t : Nat} {a : Act} {x : Choice} {w w' : World}
    (h : World.exec t a x w = some (.stay w')) : Settles c w w' := by
  obtain ⟨task,rfl⟩ := World.stay_task h
  exact .inl ⟨task,w.card.raising,w.card.pending,rfl⟩

theorem World.meek_settles {c : Cipher} {t : Nat} {a : Act} {x : Choice} {r : a.Res}
    {w w' : World} (ha : a.meek = true) (h : World.exec t a x w = some (.done r w')) :
    Settles c w w' := by
  cases a with
  | configspace => cases h; exact .refl _
  | ioread reg =>
    obtain ⟨rfl,_⟩ := World.ioread_done h
    exact .refl _
  | wakeUp => cases h; exact .inl ⟨_,w.card.raising,w.card.pending,rfl⟩
  | iowrite reg v =>
    cases reg with
    | interruptAck => cases h; exact .inl ⟨w.task,w.card.raising,_,rfl⟩
    | _ => cases ha
  | _ => cases ha

theorem solo_bears (c : Cipher) (K : Terms c) : (solo c K).Bears (machine c) where
  refl := Settles.refl
  trans := Settles.trans
  env := World.env_settles
  stay := World.stay_settles
  meek := World.meek_settles
  whole := by
    intro t a x w w' ha h
    obtain ⟨_,p,n,hb,_⟩ := World.exec_oops h
    cases a <;> first | (cases ha; done) | cases hb
  good := (K.lasts 0).settles

theorem pciIrqHandle_meek (dev : Bool) : Always (fun a => a.meek = true) (pciIrqHandle dev) := by
  simp [pciIrqHandle,Act.meek]

/-- From `w` on, and whatever happens between its actions, thread `t` does nothing wrong
in `p` and returns with `Q`. -/
def Sure {c : Cipher} (K : Terms c) (t : Nat) {α : Type} (Q : α → World → Prop) (p : Code α)
    (w : World) : Prop :=
  ∀ w', Settles c w w' → wp ((solo c K).watching (machine c)) p
    (fun x γ => ∃ w₁, γ = some (t,w₁) ∧ Q x w₁) (some (t,w'))

section
variable {c : Cipher} {K : Terms c} {t : Nat} {α β : Type}
variable {Q : β → World → Prop} {w w' : World}

theorem Terms.settles (h : K.Good w) (hw : Settles c w w') : K.Good w' := (K.lasts 0).settles h hw

theorem Sure.ret {x : β} (h : ∀ w', Settles c w w' → Q x w') :
    Sure K t Q (pure x) w := fun w' hw => ⟨w',rfl,h w' hw⟩

theorem Sure.mono {Q' : β → World → Prop} {p : Code β} (hp : Sure K t Q p w)
    (h : ∀ x w', Q x w' → Q' x w') : Sure K t Q' p w := fun w' hw =>
  wp_mono (fun x _ ⟨w₁,hγ,hq⟩ => ⟨w₁,hγ,h x w₁ hq⟩) (hp w' hw)

theorem Sure.settles {p : Code β} (hp : Sure K t Q p w) (hw : Settles c w w') :
    Sure K t Q p w' := fun w₁ h₁ => hp w₁ (hw.trans h₁)

theorem Sure.alike {p : Code β} (hp : Sure K t Q p w) (hw : Alike w w') :
    Sure K t Q p w' := hp.settles (.inl hw)

theorem Sure.bind {p : Code α} {f : α → Code β}
    (h : Sure K t (fun x w' => Sure K t Q (f x) w') p w) : Sure K t Q (p >>= f) w := by
  intro w' hw
  refine (wp_bind _ _ _ _).mpr (wp_mono ?_ (h w' hw))
  intro x γ hγ
  obtain ⟨w₁,rfl,hs⟩ := hγ
  exact hs w₁ (.refl w₁)

theorem Sure.act {a : Act} {k : a.Res → Code β}
    (hok : ∀ p n, a.buffer = some (p,n) → ∃ b, w.usable p n = some b)
    (h : ∀ x w₁ r w₂, Settles c w w₁ → K.Allows w₁ a r → World.exec t a x w₁ = some (.done r w₂) →
      K.Good w₂ ∧ Sure K t Q (k r) w₂) : Sure K t Q (atom a >>= k) w := by
  intro w' hw
  refine wp_step.mpr ⟨fun x w₁ hw₁ => ⟨fun w₂ he => ?_,fun r w₂ hal he => ?_⟩,fun r γ hn => ?_⟩
  · obtain ⟨_,p,n,hb,hu⟩ := World.exec_oops he
    obtain ⟨b,hb'⟩ := hok p n hb
    rw [(hw.trans hw₁).usable,hb'] at hu
    cases hu
  · exact (h x w₁ r w₂ (hw.trans hw₁) hal he).1
  · obtain ⟨x,w₁,w₂,hw₁,hal,he,rfl⟩ := hn
    exact (h x w₁ r w₂ (hw.trans hw₁) hal he).2 w₂ (.refl w₂)

/-- An action that does the same in all worlds like an idle one. -/
theorem Sure.does {a : Act} {k : a.Res → Code β} {r : a.Res} (v : World) (hop : w.card.op = none)
    (hg : K.Good v) (hbuf : a.buffer = none) (he : ∀ x w₁ r' w₂, Alike w w₁ →
      World.exec t a x w₁ = some (.done r' w₂) → r' = r ∧ Alike v w₂)
    (hk : Sure K t Q (k r) v) : Sure K t Q (atom a >>= k) w := by
  refine .act (fun p n hb => ?_) (fun x w₁ r' w₂ hw _ hx => ?_)
  · rw [hbuf] at hb
    cases hb
  · obtain ⟨rfl,hv⟩ := he x w₁ r' w₂ (hw.idle hop) hx
    exact ⟨K.settles hg (.inl hv),hk.alike hv⟩

variable {f n : Nat}

theorem Sure.flag {x : Flag} {k : Bool → Code β} (hop : w.card.op = none)
    (hk : Sure K t Q (k ((w.jobs f).flag x)) w) : Sure K t Q (atom (.flag f x) >>= k) w := by
  refine .does w hop (K.idle hop) rfl (fun y w₁ r w₂ hw he => ?_) hk
  obtain ⟨q,r,p,rfl⟩ := hw
  cases he
  exact ⟨rfl,q,r,p,rfl⟩

theorem Sure.len {k : Nat → Code β} (hop : w.card.op = none)
    (hk : Sure K t Q (k (w.jobs f).len) w) : Sure K t Q (atom (.len f) >>= k) w := by
  refine .does w hop (K.idle hop) rfl (fun y w₁ r w₂ hw he => ?_) hk
  obtain ⟨q,r,p,rfl⟩ := hw
  cases he
  exact ⟨rfl,q,r,p,rfl⟩

theorem Sure.msg {k : Option Nat → Code β} (hop : w.card.op = none)
    (hk : Sure K t Q (k (w.jobs f).msg) w) : Sure K t Q (atom (.msg f) >>= k) w := by
  refine .does w hop (K.idle hop) rfl (fun y w₁ r w₂ hw he => ?_) hk
  obtain ⟨q,r,p,rfl⟩ := hw
  cases he
  exact ⟨rfl,q,r,p,rfl⟩

theorem Sure.keyab {k : Nat → Code β} (hop : w.card.op = none)
    (hk : Sure K t Q (k (w.jobs f).keyab) w) : Sure K t Q (atom (.keyab f) >>= k) w := by
  refine .does w hop (K.idle hop) rfl (fun y w₁ r w₂ hw he => ?_) hk
  obtain ⟨q,r,p,rfl⟩ := hw
  cases he
  exact ⟨rfl,q,r,p,rfl⟩

theorem Sure.setLen {k : Unit → Code β} (hop : w.card.op = none)
    (hk : Sure K t Q (k ()) (w.setJob f { w.jobs f with len := n })) :
    Sure K t Q (atom (.setLen f n) >>= k) w := by
  refine .does (w.setJob f { w.jobs f with len := n }) hop (K.idle hop) rfl
    (fun y w₁ r w₂ hw he => ?_) hk
  obtain ⟨q,r,p,rfl⟩ := hw
  cases he
  exact ⟨rfl,q,r,p,rfl⟩

theorem Sure.setMsg {p : Option Nat} {k : Unit → Code β} (hop : w.card.op = none)
    (hk : Sure K t Q (k ()) (w.setJob f { w.jobs f with msg := p })) :
    Sure K t Q (atom (.setMsg f p) >>= k) w := by
  refine .does (w.setJob f { w.jobs f with msg := p }) hop (K.idle hop) rfl
    (fun y w₁ r w₂ hw he => ?_) hk
  obtain ⟨q,r,p,rfl⟩ := hw
  cases he
  exact ⟨rfl,q,r,p,rfl⟩

theorem Sure.iowrite {reg : Reg} {v : Nat} {k : Unit → Code β} (hop : w.card.op = none)
    (hg : K.Good { w with card := w.card.iowrite reg v })
    (hk : Sure K t Q (k ()) { w with card := w.card.iowrite reg v }) :
    Sure K t Q (atom (.iowrite reg v) >>= k) w := by
  refine .does _ hop hg rfl (fun y w₁ r w₂ hw he => ?_) hk
  obtain ⟨q,r,p,rfl⟩ := hw
  cases he
  refine ⟨rfl,?_⟩
  cases reg with
  | dataAddr => exact ⟨q,r,p,by simp [World.amid,Card.iowrite,Card.start,hop]⟩
  | cmd =>
    refine ⟨q,r,p,?_⟩
    simp only [World.amid,Card.iowrite,Card.start,hop]
    split <;> rfl
  | _ => exact ⟨q,r,_,rfl⟩

theorem Sure.ioread {reg : Reg} {k : Nat → Code β} (hg : K.Good w)
    (hk : ∀ v, Sure K t Q (k v) w) : Sure K t Q (atom (.ioread reg) >>= k) w := by
  refine .act (fun p n hb => nomatch hb) (fun x w₁ r w₂ hw _ he => ?_)
  obtain ⟨rfl,_⟩ := World.ioread_done he
  exact ⟨K.settles hg hw,(hk r).settles hw⟩

theorem Sure.down {k : Bool → Code β} (hop : w.card.op = none) (hcut : Sure K t Q (k true) w)
    (hk : Sure K t Q (k false) { w with wsem := w.wsem-1, holders := t :: w.holders }) :
    Sure K t Q (atom .downInterruptible >>= k) w := by
  refine .act (fun p n hb => nomatch hb) (fun x w₁ r w₂ hw _ he => ?_)
  obtain ⟨q,r,p,rfl⟩ := hw.idle hop
  obtain ⟨rfl,rfl,_⟩ | ⟨rfl,_,rfl⟩ := World.downInterruptible_done he
  · exact ⟨K.idle hop,hcut.settles hw⟩
  · exact ⟨K.idle hop,hk.alike ⟨q,r,p,rfl⟩⟩

theorem Sure.vmalloc {k : Option Nat → Code β} (hop : w.card.op = none)
    (hnone : Sure K t Q (k none) w)
    (hk : ∀ g, 0 < n → Sure K t Q (k (some w.nbuf)) (w.allocate t n g)) :
    Sure K t Q (atom (.vmalloc n) >>= k) w := by
  refine .act (fun p n hb => nomatch hb) (fun x w₁ r w₂ hw _ he => ?_)
  obtain ⟨q,r,p,rfl⟩ := hw.idle hop
  obtain ⟨rfl,rfl⟩ | ⟨hn,rfl,g,rfl⟩ := World.vmalloc_done he
  · exact ⟨K.idle hop,hnone.settles hw⟩
  · exact ⟨K.idle hop,(hk g hn).alike ⟨q,r,p,rfl⟩⟩

/-- The answer is 0 exactly when everything was copied. -/
theorem Sure.copyFromUser {p : Option Nat} {b ptr : Nat} {k : Nat → Code β}
    (hop : w.card.op = none) (hb : w.usable p n = some b)
    (hk : ∀ r xs, xs.length = n → (r = 0 → xs = load w.umem ptr n) →
      Sure K t Q (k r) (w.fill b xs)) :
    Sure K t Q (atom (.copyFromUser p ptr n) >>= k) w := by
  refine .act (fun p n hbuf => by cases hbuf; exact ⟨b,hb⟩) (fun x w₁ r w₂ hw _ he => ?_)
  have hb₁ := hw.usable.trans hb
  obtain ⟨q,r',p',rfl⟩ := hw.idle hop
  obtain ⟨b',hb',xs,hxs,rfl,hr⟩ | ⟨hnone,_⟩ := World.copyFromUser_done he
  · rw [hb₁] at hb'
    cases hb'
    exact ⟨K.idle hop,(hk r xs hxs hr).alike ⟨q,r',p',rfl⟩⟩
  · rw [hb₁] at hnone
    cases hnone

theorem Sure.copyToUser {p : Option Nat} {b ptr : Nat} {k : Nat → Code β}
    (hop : w.card.op = none) (hb : w.usable p n = some b)
    (hk : ∀ r m, m ≤ n → (r = 0 → m = n) →
      Sure K t Q (k r) (w.setUmem ptr ((w.heap b).data.take m))) :
    Sure K t Q (atom (.copyToUser ptr p n) >>= k) w := by
  refine .act (fun p n hbuf => by cases hbuf; exact ⟨b,hb⟩) (fun x w₁ r w₂ hw _ he => ?_)
  have hb₁ := hw.usable.trans hb
  obtain ⟨q,r',p',rfl⟩ := hw.idle hop
  obtain ⟨b',hb',m,hm,rfl,hr⟩ | ⟨hnone,_⟩ := World.copyToUser_done he
  · rw [hb₁] at hb'
    cases hb'
    exact ⟨K.idle hop,(hk r m hm hr).alike ⟨q,r',p',rfl⟩⟩
  · rw [hb₁] at hnone
    cases hnone

theorem Sure.memcpyToio {p : Option Nat} {b : Nat} {k : Unit → Code β} (hop : w.card.op = none)
    (hb : w.usable p n = some b)
    (hk : Sure K t Q (k ()) (w.setMem r1Start ((w.heap b).data.take n))) :
    Sure K t Q (atom (.memcpyToio p n) >>= k) w := by
  refine .act (fun p n hbuf => by cases hbuf; exact ⟨b,hb⟩) (fun x w₁ r w₂ hw _ he => ?_)
  have hb₁ := hw.usable.trans hb
  obtain ⟨q,r',p',rfl⟩ := hw.idle hop
  obtain ⟨xs,rfl,hxs⟩ := World.memcpyToio_done he
  rw [hxs b hb₁]
  exact ⟨K.idle hop,hk.alike ⟨q,r',p',rfl⟩⟩

theorem Sure.memcpyFromio {p : Option Nat} {b : Nat} {k : Unit → Code β} (hop : w.card.op = none)
    (hb : w.usable p n = some b)
    (hk : Sure K t Q (k ()) (w.fill b (load w.card.mem r1Start n))) :
    Sure K t Q (atom (.memcpyFromio p n) >>= k) w := by
  refine .act (fun p n hbuf => by cases hbuf; exact ⟨b,hb⟩) (fun x w₁ r w₂ hw _ he => ?_)
  have hb₁ := hw.usable.trans hb
  obtain ⟨q,r',p',rfl⟩ := hw.idle hop
  obtain ⟨b',hb',rfl⟩ | ⟨hnone,_⟩ := World.memcpyFromio_done he
  · rw [hb₁] at hb'
    cases hb'
    exact ⟨K.idle hop,hk.alike ⟨q,r',p',rfl⟩⟩
  · rw [hb₁] at hnone
    cases hnone

theorem Sure.dmaMapSingle {p : Option Nat} {k : Option Nat → Code β} (hop : w.card.op = none)
    (hnone : Sure K t Q (k none) w)
    (hk : Sure K t Q (k (some w.nmap)) (w.mapSingle t p n)) :
    Sure K t Q (atom (.dmaMapSingle p n) >>= k) w := by
  refine .act (fun p n hb => nomatch hb) (fun x w₁ r w₂ hw _ he => ?_)
  obtain ⟨q,r,p',rfl⟩ := hw.idle hop
  obtain ⟨rfl,rfl⟩ | ⟨rfl,rfl⟩ := World.dmaMapSingle_done he
  · exact ⟨K.idle hop,hnone.settles hw⟩
  · exact ⟨K.idle hop,hk.alike ⟨q,r,p',rfl⟩⟩

theorem Sure.dmaUnmapSingle {h : Nat} {k : Unit → Code β} (hop : w.card.op = none)
    (hk : Sure K t Q (k ()) (w.unmapSingle h)) :
    Sure K t Q (atom (.dmaUnmapSingle h n) >>= k) w := by
  refine .does (w.unmapSingle h) hop (K.idle hop) rfl (fun y w₁ r w₂ hw he => ?_) hk
  obtain ⟨q,r,p,rfl⟩ := hw
  cases he
  exact ⟨rfl,q,r,p,rfl⟩

/-- The card is no longer busy once it has finished. -/
theorem Settles.finished {k : Kind} {o : Op} (hw : Settles c w w') (ho : w.card.op = some o)
    (hk : o.kind = k) (hb : w'.card.busy k = false) : Alike (w.complete c) w' := by
  obtain ⟨q,r,p,rfl⟩ | hw := hw
  · have hbusy : w.card.busy k = true := (Card.busy_iff _ k).mpr ⟨o,ho,hk⟩
    rw [show (w.amid q r p).card.busy k = w.card.busy k from rfl,hbusy] at hb
    cases hb
  · exact hw

theorem Settles.working {k : Kind} (hw : Settles c w w') (hb : w'.card.busy k = true) :
    Alike w w' := by
  obtain hw | ⟨q,r,p,rfl⟩ := hw
  · exact hw
  · have hidle := Card.not_busy_of_idle (World.complete_op c w) k
    rw [show ((w.complete c).amid q r p).card.busy k = (w.complete c).card.busy k from rfl,
      hidle] at hb
    cases hb

theorem Sure.pollBusy {k : Kind} {o : Op} {g : Unit → Code β} (ho : w.card.op = some o)
    (hk : o.kind = k) (hend : Sure K t Q (g ()) (w.complete c)) :
    Sure K t Q (atom (.pollBusy k) >>= g) w := by
  refine .act (fun p n hb => nomatch hb) (fun x w₁ r w₂ hw _ he => ?_)
  simp only [World.exec] at he
  split at he
  · cases he
  · rename_i hb
    cases he
    have hal := hw.finished ho hk (by simpa using hb)
    exact ⟨K.settles (K.idle (World.complete_op c w)) (.inl hal),hend.alike hal⟩

/-- A wait ends when the operation does, or is cut short while it is in progress. -/
theorem Sure.waitEvent {k : Kind} {o : Op} {g : Bool → Code β} (ho : w.card.op = some o)
    (hk : o.kind = k) (hg : K.Good w) (hend : Sure K t Q (g false) (w.complete c))
    (hcut : ∀ w', Alike w w' → K.Allows w' (.waitEvent k) true → Sure K t Q (g true) w) :
    Sure K t Q (atom (.waitEvent k) >>= g) w := by
  refine .act (fun p n hb => nomatch hb) (fun x w₁ r w₂ hw hal he => ?_)
  obtain ⟨hw₂,⟨rfl,hb⟩ | ⟨rfl,hb,_⟩⟩ := World.waitStep_done he
  all_goals
    have h₁₂ : Alike w₁ w₂ := by
      obtain ⟨rfl,_⟩ | rfl := hw₂
      · exact .refl _
      · exact ⟨_,w₁.card.raising,w₁.card.pending,rfl⟩
  · have hal' := (hw.finished ho hk hb).trans h₁₂
    exact ⟨K.settles (K.idle (World.complete_op c w)) (.inl hal'),hend.alike hal'⟩
  · have hal' := (hw.working hb).trans h₁₂
    exact ⟨K.settles hg (.inl hal'),(hcut w₁ (hw.working hb) hal).alike hal'⟩

end

end CryptoCard
