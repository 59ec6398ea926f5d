import CryptoCard.OwnHandles
set_option autoImplicit false

/-! The configuration of a handle: what the calls of the library ask for, and what
the driver's job and the card make of it. -/
namespace CryptoCard
open Memory Program Interleave

/-- What set_config is meant to do, `none` being an error. -/
def Config.set (s : Config) (type : Nat) (value : Byte) : Option Config :=
  if value = SET ∨ value = UNSET then
    if type = configDMA then some { s with dma := value == SET }
    else if type = configINTERRUPT then some { s with intr := value == SET }
    else none
  else none

/-- What a call is meant to do to the configuration of `cdev`. -/
def Call.ask (cdev : Nat) (s : Config) : Call → Option Config
  | .setKey f a b => some (if f = cdev then { s with key := 256*a.toNat+b.toNat } else s)
  | .setConfig f type value => if f = cdev then s.set type value else some s
  | _ => some s

/-- The configuration that the calls of a history ask for. -/
def asked (cdev : Nat) : List (Call × Int) → Config
  | [] => ⟨0,false,false⟩
  | (call,_) :: hs => (call.ask cdev (asked cdev hs)).getD (asked cdev hs)

/-- An operation starts with a write of `data_addr` or of `cmd` and is what the
registers say then. -/
theorem World.starts {w w' : World} {t : Nat} {a : Act} {x : Choice} {r : a.Res} {o : Op}
    (he : World.exec t a x w = some (.done r w')) (hw : w.card.op = none)
    (ho : w'.card.op = some o) :
    (∃ v, a = .iowrite .dataAddr v ∧ o = (w.card.regs.set .dataAddr v).operation .mmio) ∨
    ∃ v, a = .iowrite .cmd v ∧ o = (w.card.regs.set .cmd v).operation .dma := by
  have still (h : w'.card.op = w.card.op) : False := by
    rw [h,hw] at ho
    cases ho
  by_cases hq : a.Quiet = true
  · exact (still (World.exec_quiet hq he).op).elim
  · cases a with
    | downInterruptible =>
      obtain ⟨_,rfl,_⟩ | ⟨_,_,rfl⟩ := World.downInterruptible_done he <;> exact (still rfl).elim
    | up => cases he; exact (still rfl).elim
    | wakeUp => cases he; exact (still rfl).elim
    | pollBusy k =>
      simp only [World.exec] at he
      split at he <;> cases he
      exact (still rfl).elim
    | waitEvent k =>
      obtain ⟨⟨rfl,_⟩ | rfl,_⟩ := World.waitStep_done he <;> exact (still rfl).elim
    | ioread reg =>
      obtain ⟨rfl,_⟩ := World.ioread_done he
      exact (still rfl).elim
    | iowrite reg v =>
      cases he
      cases reg with
      | dataAddr =>
        simp only [Card.iowrite,Card.start,hw,Option.some.injEq] at ho
        exact .inl ⟨v,rfl,ho.symm⟩
      | cmd =>
        simp only [Card.iowrite] at ho
        split at ho
        · simp only [Card.start,hw,Option.some.injEq] at ho
          exact .inr ⟨v,rfl,ho.symm⟩
        · exact absurd (hw.symm.trans ho) (by simp)
      | _ => exact (still rfl).elim
    | _ => exact absurd rfl hq

section
variable {T : Tenancy} {c : Cipher} {base : Nat → List (Call × Int)} {m₀ : Nat → Store}
variable {s : System} {g : Nat → View} {t : Nat}

end

section
variable {holder owner : Nat → Nat} {c : Cipher} {s : System} {g : Nat → View} {t cdev : Nat}
variable {base : Nat → List (Call × Int)} {m₀ : Nat → Store}

end

end CryptoCard
