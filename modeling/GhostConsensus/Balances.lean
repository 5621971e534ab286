import GhostConsensus.Types

/-!
# The balances the pallet relies on

`pallet_balances` is a dependency, so its operations are a parameter (`Currency`) over an abstract
storage `B`, and `Currency.Lawful` collects the documented behaviour the results rely on.
`Accounts.currency` is a small implementation of that behaviour, with an existential deposit and
dust removal, which shows that the laws are satisfiable and lets runs be evaluated.
-/

namespace GhostConsensus

inductive ExistenceRequirement where
  | keepAlive
  | allowDeath
  deriving DecidableEq

/-- The operations of `pallet_balances` that the pallet calls, on balances stored as a `B`. -/
structure Currency (α B : Type) where
  freeBalance : B → α → U128
  totalIssuance : B → ℕ
  transfer : B → α → α → U128 → ExistenceRequirement → Except DispatchError B
  depositCreating : B → α → U128 → B

/-- What a transfer of `amount` leaves the payer before any dust is removed. -/
def Currency.rest {α B : Type} (C : Currency α B) (b : B) (payer : α) (amount : U128) : ℕ :=
  (C.freeBalance b payer).toNat - amount.toNat

/-- The documented behaviour of `pallet_balances`. -/
structure Currency.Lawful {α B : Type} (C : Currency α B) (existentialDeposit : U128) : Prop where
  /-- The payee receives exactly the amount. -/
  payee {b b' : B} {p q : α} {a : U128} {r : ExistenceRequirement} :
    C.transfer b p q a r = .ok b' → p ≠ q →
      (C.freeBalance b' q).toNat = (C.freeBalance b q).toNat + a.toNat
  /-- The payer can pay. -/
  covered {b b' : B} {p q : α} {a : U128} {r : ExistenceRequirement} :
    C.transfer b p q a r = .ok b' → p ≠ q → a.toNat ≤ (C.freeBalance b p).toNat
  /-- The payer keeps the rest, unless the account dies. -/
  payer {b b' : B} {p q : α} {a : U128} {r : ExistenceRequirement} :
    C.transfer b p q a r = .ok b' → p ≠ q →
      (C.freeBalance b' p).toNat = C.rest b p a ∨
        (a ≠ 0 ∧ r = .allowDeath ∧ C.rest b p a < existentialDeposit.toNat)
  /-- A rest below the existential deposit is removed with the account. -/
  reaped {b b' : B} {p q : α} {a : U128} :
    C.transfer b p q a .allowDeath = .ok b' → p ≠ q → a ≠ 0 →
      C.rest b p a < existentialDeposit.toNat → C.freeBalance b' p = 0
  /-- A payer that has to stay alive keeps the existential deposit. -/
  keepAlive {b b' : B} {p q : α} {a : U128} :
    C.transfer b p q a .keepAlive = .ok b' → p ≠ q → a ≠ 0 →
      existentialDeposit.toNat ≤ C.rest b p a
  others {b b' : B} {p q : α} {a : U128} {r : ExistenceRequirement} :
    C.transfer b p q a r = .ok b' → ∀ x, x ≠ p → x ≠ q → C.freeBalance b' x = C.freeBalance b x
  issuance {b b' : B} {p q : α} {a : U128} {r : ExistenceRequirement} :
    C.transfer b p q a r = .ok b' → C.totalIssuance b' ≤ C.totalIssuance b
  /-- A deposit mints exactly its amount, to its payee, or nothing. -/
  deposit (b : B) (w : α) (a : U128) :
    C.depositCreating b w a = b ∨
      (C.freeBalance (C.depositCreating b w a) w).toNat = (C.freeBalance b w).toNat + a.toNat ∧
        (∀ x, x ≠ w → C.freeBalance (C.depositCreating b w a) x = C.freeBalance b x) ∧
        C.totalIssuance (C.depositCreating b w a) = C.totalIssuance b + a.toNat

namespace Currency.Lawful

variable {α B : Type} {C : Currency α B} {ed : U128} (lawful : C.Lawful ed)
include lawful

theorem le_freeBalance_deposit [DecidableEq α] (b : B) (w : α) (a : U128) (x : α) :
    (C.freeBalance b x).toNat ≤ (C.freeBalance (C.depositCreating b w a) x).toNat := by
  rcases lawful.deposit b w a with h | ⟨hw, hothers, -⟩
  · rw [h]
  · by_cases hx : x = w
    · rw [hx, hw]
      exact Nat.le_add_right _ _
    · rw [hothers x hx]

theorem totalIssuance_deposit_le (b : B) (w : α) (a : U128) :
    C.totalIssuance (C.depositCreating b w a) ≤ C.totalIssuance b + a.toNat := by
  rcases lawful.deposit b w a with h | ⟨-, -, h⟩
  · rw [h]
    exact Nat.le_add_right _ _
  · exact h.le

end Currency.Lawful

/-- The documented behaviour of deposits, where `Alive` says which accounts exist: a deposit to an
account that exists, or one that brings the existential deposit, is credited. -/
structure Currency.DepositsExactly {α B : Type} (C : Currency α B) (existentialDeposit : U128)
    (Alive : B → α → Prop) : Prop where
  payee {b : B} {w : α} {a : U128} :
    Alive b w ∨ existentialDeposit.toNat ≤ a.toNat ∨ a = 0 →
      (C.freeBalance b w).toNat + a.toNat < 2 ^ 128 →
      (C.freeBalance (C.depositCreating b w a) w).toNat = (C.freeBalance b w).toNat + a.toNat
  others (b : B) (w : α) (a : U128) {x : α} :
    x ≠ w → C.freeBalance (C.depositCreating b w a) x = C.freeBalance b x
  alive (b : B) (w : α) (a : U128) {x : α} : Alive b x → Alive (C.depositCreating b w a) x

/-! ## An implementation -/

/-- Free balances and the total issuance. -/
structure Accounts (α : Type) where
  free : α → U128
  issuance : ℕ

namespace Accounts

variable {α : Type} [DecidableEq α]

def transfer (ed : U128) (b : Accounts α) (p q : α) (a : U128) (r : ExistenceRequirement) :
    Except DispatchError (Accounts α) :=
  if a = 0 ∨ p = q then .ok b
  else if (b.free p).toNat < a.toNat then .error .balances
  else if 2 ^ 128 ≤ (b.free q).toNat + a.toNat then .error .balances
  else if (b.free q + a).toNat < ed.toNat then .error .balances
  else if (b.free p).toNat - a.toNat < ed.toNat then
    match r with
    | .keepAlive => .error .balances
    | .allowDeath =>
      .ok { free := Function.update (Function.update b.free p 0) q (b.free q + a)
            issuance := b.issuance - (b.free p - a).toNat }
  else .ok { b with free := Function.update (Function.update b.free p (b.free p - a)) q (b.free q + a) }

def depositCreating (ed : U128) (b : Accounts α) (w : α) (a : U128) : Accounts α :=
  if a = 0 then b
  else if b.free w = 0 ∧ a.toNat < ed.toNat then b
  else if 2 ^ 128 ≤ (b.free w).toNat + a.toNat then b
  else { free := Function.update b.free w (b.free w + a), issuance := b.issuance + a.toNat }

/-- The operations on `Accounts` with existential deposit `ed`. -/
def currency (ed : U128) : Currency α (Accounts α) where
  freeBalance := free
  totalIssuance := issuance
  transfer := transfer ed
  depositCreating := depositCreating ed

/-- What a successful transfer between two accounts has done. -/
theorem transfer_eq_ok {ed : U128} {b b' : Accounts α} {p q : α} {a : U128}
    {r : ExistenceRequirement} (h : transfer ed b p q a r = .ok b') :
    (b' = b ∧ (a = 0 ∨ p = q)) ∨
      (a ≠ 0 ∧ p ≠ q ∧ a.toNat ≤ (b.free p).toNat ∧ (b.free q).toNat + a.toNat < 2 ^ 128 ∧
        ∃ rest, b'.free = Function.update (Function.update b.free p rest) q (b.free q + a) ∧
          b'.issuance ≤ b.issuance ∧
          (ed.toNat ≤ (b.free p).toNat - a.toNat ∧ rest = b.free p - a ∨
            r = .allowDeath ∧ (b.free p).toNat - a.toNat < ed.toNat ∧ rest = 0)) := by
  unfold transfer at h
  split_ifs at h with h0 hcov hover hexist hdust
  · exact Or.inl ⟨(Except.ok.inj h).symm, h0⟩
  · push Not at h0 hcov hover
    cases r with
    | keepAlive => cases h
    | allowDeath =>
      obtain rfl := Except.ok.inj h
      exact Or.inr ⟨h0.1, h0.2, hcov, hover, 0, rfl, Nat.sub_le _ _, Or.inr ⟨rfl, hdust, rfl⟩⟩
  · push Not at h0 hcov hover hdust
    obtain rfl := Except.ok.inj h
    exact Or.inr ⟨h0.1, h0.2, hcov, hover, b.free p - a, rfl, le_rfl, Or.inl ⟨hdust, rfl⟩⟩

/-- What a deposit has done. -/
theorem depositCreating_cases (ed : U128) (b : Accounts α) (w : α) (a : U128) :
    (depositCreating ed b w a = b ∧
      (a = 0 ∨ (b.free w = 0 ∧ a.toNat < ed.toNat) ∨ 2 ^ 128 ≤ (b.free w).toNat + a.toNat)) ∨
      ((b.free w).toNat + a.toNat < 2 ^ 128 ∧
        (depositCreating ed b w a).free = Function.update b.free w (b.free w + a) ∧
        (depositCreating ed b w a).issuance = b.issuance + a.toNat) := by
  unfold depositCreating
  split_ifs with h0 hdust hover
  · exact Or.inl ⟨rfl, Or.inl h0⟩
  · exact Or.inl ⟨rfl, Or.inr (Or.inl hdust)⟩
  · exact Or.inl ⟨rfl, Or.inr (Or.inr hover)⟩
  · exact Or.inr ⟨not_le.1 hover, rfl, rfl⟩

theorem currency_lawful (ed : U128) : (currency (α := α) ed).Lawful ed where
  payee := by
    intro b b' p q a r h hpq
    rcases transfer_eq_ok h with ⟨rfl, h0 | h0⟩ | ⟨-, -, -, hover, rest, hfree, -, -⟩
    · simp [h0]
    · exact absurd h0 hpq
    · show (b'.free q).toNat = _
      rw [hfree, Function.update_self]
      exact MachineInt.toNat_add_of_lt hover
  covered := by
    intro b b' p q a r h hpq
    rcases transfer_eq_ok h with ⟨rfl, h0 | h0⟩ | ⟨-, -, hcov, -⟩
    · simp [h0]
    · exact absurd h0 hpq
    · exact hcov
  payer := by
    intro b b' p q a r h hpq
    rcases transfer_eq_ok h with ⟨rfl, h0 | h0⟩ | ⟨ha, -, hcov, -, rest, hfree, -, hrest⟩
    · exact Or.inl (by simp [Currency.rest, h0])
    · exact absurd h0 hpq
    · rcases hrest with ⟨-, rfl⟩ | ⟨hr, hdust, -⟩
      · left
        show (b'.free p).toNat = _
        rw [hfree, Function.update_of_ne hpq, Function.update_self]
        exact BitVec.toNat_sub_of_le hcov
      · exact Or.inr ⟨ha, hr, hdust⟩
  reaped := by
    intro b b' p q a h hpq ha hdust
    replace h : transfer ed b p q a .allowDeath = .ok b' := h
    rcases transfer_eq_ok h with ⟨rfl, h0 | h0⟩ | ⟨-, -, -, -, rest, hfree, -, hrest⟩
    · exact absurd h0 ha
    · exact absurd h0 hpq
    · rcases hrest with ⟨hle, -⟩ | ⟨-, -, rfl⟩
      · exact absurd hdust (not_lt.2 hle)
      · show b'.free p = 0
        rw [hfree, Function.update_of_ne hpq, Function.update_self]
  keepAlive := by
    intro b b' p q a h hpq ha
    replace h : transfer ed b p q a .keepAlive = .ok b' := h
    rcases transfer_eq_ok h with ⟨rfl, h0 | h0⟩ | ⟨-, -, -, -, rest, -, -, hrest⟩
    · exact absurd h0 ha
    · exact absurd h0 hpq
    · rcases hrest with ⟨hle, -⟩ | ⟨hr, -⟩
      · exact hle
      · cases hr
  others := by
    intro b b' p q a r h x hp hq
    rcases transfer_eq_ok h with ⟨rfl, -⟩ | ⟨-, -, -, -, rest, hfree, -⟩
    · rfl
    · show b'.free x = b.free x
      rw [hfree, Function.update_of_ne hq, Function.update_of_ne hp]
  issuance := by
    intro b b' p q a r h
    rcases transfer_eq_ok h with ⟨rfl, -⟩ | ⟨-, -, -, -, rest, -, hissuance, -⟩
    · exact le_rfl
    · exact hissuance
  deposit := by
    intro b w a
    show depositCreating ed b w a = b ∨ _
    rcases depositCreating_cases ed b w a with ⟨hsame, -⟩ | ⟨hover, hfree, hissuance⟩
    · exact Or.inl hsame
    · refine Or.inr ⟨?_, fun x hx => ?_, ?_⟩
      · show ((depositCreating ed b w a).free w).toNat = _
        rw [hfree, Function.update_self]
        exact MachineInt.toNat_add_of_lt hover
      · show (depositCreating ed b w a).free x = b.free x
        rw [hfree, Function.update_of_ne hx]
      · exact hissuance

theorem free_depositCreating_of_ne (ed : U128) (b : Accounts α) (w : α) (a : U128) {x : α}
    (h : x ≠ w) : (depositCreating ed b w a).free x = b.free x := by
  rcases depositCreating_cases ed b w a with ⟨hsame, -⟩ | ⟨-, hfree, -⟩
  · rw [hsame]
  · rw [hfree, Function.update_of_ne h]

theorem currency_depositsExactly (ed : U128) :
    (currency (α := α) ed).DepositsExactly ed fun b w => b.free w ≠ 0 where
  payee := by
    intro b w a hpays hlt
    show ((depositCreating ed b w a).free w).toNat = (b.free w).toNat + a.toNat
    replace hlt : (b.free w).toNat + a.toNat < 2 ^ 128 := hlt
    rcases depositCreating_cases ed b w a with ⟨hsame, hwhy⟩ | ⟨-, hfree, -⟩
    · -- of the reasons to keep the balance only a deposit of nothing is left
      have hzero : a = 0 := by
        rcases hwhy with h0 | hdust | hover
        · exact h0
        · rcases hpays with halive | hed | h0
          · exact absurd hdust.1 halive
          · exact absurd hdust.2 (not_lt.2 hed)
          · exact h0
        · exact absurd hlt (not_lt.2 hover)
      rw [hsame, hzero]
      rfl
    · rw [hfree, Function.update_self]
      exact MachineInt.toNat_add_of_lt hlt
  others b w a _ h := free_depositCreating_of_ne ed b w a h
  alive := by
    intro b w a x hx
    show (depositCreating ed b w a).free x ≠ 0
    rcases depositCreating_cases ed b w a with ⟨hsame, -⟩ | ⟨hover, hfree, -⟩
    · rw [hsame]
      exact hx
    · by_cases h : x = w
      · subst h
        rw [hfree, Function.update_self]
        intro hzero
        have hsum := MachineInt.toNat_add_of_lt hover
        have hpos : 0 < (b.free x).toNat := BitVec.toNat_pos_of_ne_zero hx
        rw [hzero, show (0 : U128).toNat = 0 from rfl] at hsum
        omega
      · rw [hfree, Function.update_of_ne h]
        exact hx

end Accounts

end GhostConsensus
