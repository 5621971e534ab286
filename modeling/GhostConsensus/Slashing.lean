import GhostConsensus.Dispatch

/-!
# What a check for downtime does

The loop of `check_downtime_slashing` visits every account with a record of activity once. What it
does to an account is therefore known exactly (`onInitialize_standing`): it slashes the stake that
is due (`dueStake`), announces that slash, and leaves all other accounts as they are.
-/

namespace GhostConsensus

open MachineInt

variable {α H B : Type} [AccountId α]

/-! ## The standing of an account -/

theorem stakeOf_of_get {s : State α H B} {who : α} {stake : U128}
    (h : s.validatorStakes.get who = some stake) : s.stakeOf who = stake := by
  rw [State.stakeOf, h]
  rfl

/-- An account that holds stake has an entry. -/
theorem exists_validatorStakes {s : State α H B} {v : α} (h : 0 < s.stakeOf v) :
    ∃ stake, s.validatorStakes.get v = some stake := by
  rw [State.stakeOf] at h
  cases hget : s.validatorStakes.get v with
  | some stake => exact ⟨stake, rfl⟩
  | none =>
    rw [hget] at h
    exact (BitVec.lt_irrefl _ h).elim

/-- The slash of `v` that an event announces. -/
def Event.slashOf (v : α) : Event α → Option (SlashingReason × U128)
  | .validatorSlashed who reason amount => if who = v then some (reason, amount) else none
  | _ => none

/-- The slashes of `v` that the events announce, oldest first. -/
def slashesOf (v : α) (events : List (Event α)) : List (SlashingReason × U128) :=
  events.filterMap (Event.slashOf v)

theorem slashesOf_append (v : α) (events new : List (Event α)) :
    slashesOf v (events ++ new) = slashesOf v events ++ slashesOf v new :=
  List.filterMap_append

theorem mem_slashesOf {v : α} {reason : SlashingReason} {amount : U128} {events : List (Event α)} :
    (reason, amount) ∈ slashesOf v events ↔ .validatorSlashed v reason amount ∈ events := by
  rw [slashesOf, List.mem_filterMap]
  constructor
  · rintro ⟨event, hmem, hslash⟩
    cases event with
    | validatorSlashed who reason' amount' =>
      rw [Event.slashOf] at hslash
      split at hslash
      · rename_i hwho
        obtain ⟨rfl, rfl⟩ := Prod.mk.inj (Option.some.inj hslash)
        exact hwho ▸ hmem
      · cases hslash
    | _ => cases hslash
  · exact fun hmem => ⟨_, hmem, if_pos rfl⟩

/-- The stake of an account and the slashes announced for it so far. -/
structure Standing where
  stake : Option U128
  slashes : List (SlashingReason × U128)

def State.standing (s : State α H B) (v : α) : Standing :=
  ⟨s.validatorStakes.get v, slashesOf v s.events⟩

theorem applySlash_standing (s : State α H B) (who v : α) (reason : SlashingReason)
    (stake amount : U128) :
    (applySlash s who reason stake amount).standing v =
      if v = who then ⟨some (saturatingSub stake amount), (s.standing v).slashes ++ [(reason, amount)]⟩
      else s.standing v := by
  have hevents : slashesOf v (applySlash s who reason stake amount).events =
      slashesOf v s.events ++ if who = v then [(reason, amount)] else [] := by
    rw [applySlash, State.depositEvent, slashesOf_append, slashesOf, slashesOf]
    by_cases h : who = v <;> simp [Event.slashOf, h]
  have hstake : (applySlash s who reason stake amount).validatorStakes.get v =
      if v = who then some (saturatingSub stake amount) else s.validatorStakes.get v :=
    s.validatorStakes.get_insert who v _
  rw [State.standing, State.standing, hevents, hstake]
  by_cases h : v = who
  · rw [if_pos h, if_pos h, if_pos h.symm]
  · rw [if_neg h, if_neg h, if_neg (Ne.symm h), List.append_nil]

/-! ## The amount of a slash -/

section Amount

variable {T : Config α H B} {stake amount : U128} {percentage : U8}

omit [AccountId α]

theorem toNat_setWidth_percentage (percentage : U8) :
    (percentage.setWidth 128).toNat = percentage.toNat := by
  rw [BitVec.toNat_setWidth]
  omega

/-- A slash whose product fits is the percentage of the stake, rounded down. -/
theorem toNat_slashAmount (hfits : stake.toNat * percentage.toNat < 2 ^ 128)
    (h : slashAmount T stake percentage = .ok amount) :
    amount.toNat = stake.toNat * percentage.toNat / 100 := by
  obtain ⟨-, rfl⟩ := slashAmount_eq_ok.1 h
  have hwidth := toNat_setWidth_percentage percentage
  rw [BitVec.toNat_udiv, toNat_mul_of_lt (hwidth.symm ▸ hfits), hwidth]
  rfl

/-- A slash is never above the percentage of the stake: a product that wraps gets smaller. -/
theorem toNat_slashAmount_le (h : slashAmount T stake percentage = .ok amount) :
    amount.toNat ≤ stake.toNat * percentage.toNat / 100 := by
  obtain ⟨-, rfl⟩ := slashAmount_eq_ok.1 h
  rw [BitVec.toNat_udiv, BitVec.toNat_mul, toNat_setWidth_percentage]
  exact Nat.div_le_div_right (Nat.mod_le _ _)

theorem slashAmount_le (hpercentage : percentage.toNat ≤ 100)
    (h : slashAmount T stake percentage = .ok amount) : amount.toNat ≤ stake.toNat :=
  calc amount.toNat ≤ stake.toNat * percentage.toNat / 100 := toNat_slashAmount_le h
    _ ≤ stake.toNat * 100 / 100 := Nat.div_le_div_right (Nat.mul_le_mul_left _ hpercentage)
    _ = stake.toNat := Nat.mul_div_cancel _ (by decide)

/-- A product that fits can be slashed. -/
theorem exists_slashAmount (hfits : stake.toNat * percentage.toNat < 2 ^ 128) :
    ∃ amount, slashAmount T stake percentage = .ok amount :=
  ⟨_, slashAmount_eq_ok.2
    ⟨mulChecked_of_lt _ ((toNat_setWidth_percentage percentage).symm ▸ hfits), rfl⟩⟩

end Amount

/-! ## Reports on file -/

/-- `DoubleSignReports::get(v)` and `InvalidBlockReports::get(v)`; no other reason is put on file. -/
def onFile (s : State α H B) (v : α) : SlashingReason → Bool
  | .doubleSigning => (s.doubleSignReports v).getD false
  | .invalidBlock => (s.invalidBlockReports v).getD false
  | _ => false

theorem onFile_recordReport_of_ne (s : State α H B) {v who : α} {reason r : SlashingReason}
    (h : ¬(who = v ∧ r = reason)) : onFile (recordReport s v reason) who r = onFile s who r := by
  have hne : r = reason → who ≠ v := fun hr hwho => h ⟨hwho, hr⟩
  cases reason <;> cases r <;> first
    | rfl
    | exact congrArg (Option.getD · false) (StorageMap.insert_of_ne _ (hne rfl) _)

theorem onFile_recordReport (s : State α H B) {v who : α} {reason r : SlashingReason}
    (h : onFile s who r = true) : onFile (recordReport s v reason) who r = true := by
  by_cases hsame : who = v ∧ r = reason
  · obtain ⟨rfl, rfl⟩ := hsame
    cases r with
    | doubleSigning | invalidBlock =>
      exact congrArg (Option.getD · false) (StorageMap.insert_self _ _ _)
    | downtime | other => cases h
  · rw [onFile_recordReport_of_ne s hsame, h]

/-! ## The check -/

variable {T : Config α H B}

variable (T) in
/-- The stake of `v` that a check in the current runtime block slashes: `v` has a record of activity
and a stake, and the record is out of date. -/
def dueStake (s : State α H B) (v : α) : Option U128 :=
  (s.lastActiveBlock.get v).bind fun lastActive =>
    if downtimeExceeded T s lastActive then s.validatorStakes.get v else none

theorem downtimeExceeded_iff {s : State α H B} {n : U32} : downtimeExceeded T s n ↔
    T.maxDowntimeBlocks.toNat < (saturatedInto 32 s.blockNumber : U32).toNat - n.toNat := by
  rw [downtimeExceeded, BitVec.lt_def, toNat_saturatingSub, currentBlock]

theorem dueStake_eq_some {s : State α H B} {v : α} {stake : U128} :
    dueStake T s v = some stake ↔ ∃ lastActive, s.lastActiveBlock.get v = some lastActive ∧
      downtimeExceeded T s lastActive ∧ s.validatorStakes.get v = some stake := by
  rw [dueStake, Option.bind_eq_some_iff]
  refine exists_congr fun lastActive => and_congr_right fun _ => ?_
  by_cases h : downtimeExceeded T s lastActive
  · rw [if_pos h]
    exact ⟨fun hstake => ⟨h, hstake⟩, fun hstake => hstake.2⟩
  · rw [if_neg h]
    exact ⟨fun hstake => (Option.some_ne_none _ hstake.symm).elim, fun hstake => absurd hstake.1 h⟩

variable (T) in
/-- The standing of an account after a check that found `due` of its stake due. -/
def Checked (due : Option U128) (before after : Standing) : Prop :=
  (∃ stake amount, due = some stake ∧ slashAmount T stake T.downtimeSlashPercentage = .ok amount ∧
      after = ⟨some (saturatingSub stake amount), before.slashes ++ [(.downtime, amount)]⟩) ∨
    due = none ∧ after = before

/-- The body of the loop leaves every account but the visited one as it is. -/
theorem slashIfDown_standing_of_ne {s s' : State α H B} {e : α × U32} {v : α}
    (h : slashIfDown T s e = .ok s') (hne : v ≠ e.1) :
    (s'.blockNumber, s'.standing v) = (s.blockNumber, s.standing v) := by
  rcases slashIfDown_eq_ok h with rfl | ⟨-, stake, amount, -, -, rfl⟩
  · rfl
  · have hstanding := applySlash_standing { s with slashingRecords :=
      s.slashingRecords ++ [(e.1, .downtime, amount, s.blockNumber)] } e.1 v .downtime stake amount
    rw [if_neg hne] at hstanding
    exact Prod.ext rfl hstanding

/-- The body of the loop checks the visited account. -/
theorem slashIfDown_standing_self {s s' : State α H B} {e : α × U32}
    (h : slashIfDown T s e = .ok s') :
    s'.blockNumber = s.blockNumber ∧
      Checked T (if downtimeExceeded T s e.2 then (s.standing e.1).stake else none)
        (s.standing e.1) (s'.standing e.1) := by
  unfold slashIfDown at h
  split at h
  · rename_i hdown
    split at h
    · rename_i stake hstake
      obtain ⟨amount, hamount, hs'⟩ := bind_eq_ok.1 h
      obtain rfl := pure_eq_ok.1 hs'
      refine ⟨rfl, Or.inl ⟨stake, amount, (if_pos hdown).trans hstake, hamount, ?_⟩⟩
      exact (applySlash_standing _ e.1 e.1 .downtime stake amount).trans (if_pos rfl)
    · rename_i hnone
      obtain rfl := Except.ok.inj h
      exact ⟨rfl, Or.inr ⟨(if_pos hdown).trans hnone, rfl⟩⟩
  · rename_i hup
    obtain rfl := Except.ok.inj h
    exact ⟨rfl, Or.inr ⟨if_neg hup, rfl⟩⟩

/-- The check slashes exactly the stakes that are due. -/
theorem checkDowntimeSlashing_standing {s s' : State α H B} (h : checkDowntimeSlashing T s = .ok s')
    (v : α) : Checked T (dueStake T s v) (s.standing v) (s'.standing v) := by
  have hexceeded : ∀ (t : State α H B) (lastActive : U32), downtimeExceeded T t lastActive ↔
      T.maxDowntimeBlocks < saturatingSub (saturatedInto 32 t.blockNumber) lastActive :=
    fun _ _ => Iff.rfl
  obtain ⟨hstored, habsent⟩ := s.lastActiveBlock.foldlM_iter
    (g := fun t v => (t.blockNumber, t.standing v))
    (R := fun e w w' => w'.1 = w.1 ∧ Checked T
      (if T.maxDowntimeBlocks < saturatingSub (saturatedInto 32 w.1) e.2 then w.2.stake else none)
      w.2 w'.2)
    (fun hbody => by simpa only [hexceeded] using slashIfDown_standing_self hbody)
    (fun hbody hne => slashIfDown_standing_of_ne hbody hne) h v
  cases hget : s.lastActiveBlock.get v with
  | none =>
    refine Or.inr ⟨by rw [dueStake, hget]; rfl, ?_⟩
    exact (Prod.mk.inj (habsent hget)).2
  | some lastActive =>
    have hdue : dueStake T s v =
        if downtimeExceeded T s lastActive then (s.standing v).stake else none := by
      rw [dueStake, hget]
      rfl
    rw [hdue]
    simpa only [hexceeded] using (hstored lastActive hget).2

/-- The start of a runtime block slashes the stakes that are due, in every tenth block. -/
theorem onInitialize_standing {s s' : State α H B} {n : ℕ} (h : onInitialize T s n = .ok s') (v : α) :
    Checked T (if n % 10 = 0 then dueStake T s v else none) (s.standing v) (s'.standing v) := by
  simp only [onInitialize, bind_eq_ok] at h
  obtain ⟨t, hslash, hadjust⟩ := h
  have ht : Checked T (if n % 10 = 0 then dueStake T s v else none) (s.standing v) (t.standing v) := by
    split at hslash
    · rename_i hn
      rw [if_pos hn]
      exact checkDowntimeSlashing_standing hslash v
    · rename_i hn
      rw [if_neg hn]
      exact Or.inr ⟨rfl, Except.ok.inj hslash ▸ rfl⟩
  have hs' : s'.standing v = t.standing v := by
    split at hadjust
    · obtain ⟨entropy, difficulty, -, -, rfl⟩ := adjustDifficulty_eq_ok hadjust
      rw [State.standing, State.standing, slashesOf_append]
      split <;> simp [slashesOf, Event.slashOf]
    · exact Except.ok.inj hadjust ▸ rfl
  rw [hs']
  exact ht

/-- The slashes announced at the start of a runtime block are those of the stakes that were due. -/
theorem onInitialize_slashes {s s' : State α H B} {n : ℕ} (h : onInitialize T s n = .ok s') :
    ∃ new, s'.events = s.events ++ new ∧ ∀ v,
      Checked T (if n % 10 = 0 then dueStake T s v else none) ⟨s.validatorStakes.get v, []⟩
        ⟨s'.validatorStakes.get v, slashesOf v new⟩ := by
  obtain ⟨new, hevents, -⟩ := onInitialize_events_induction (P := fun _ _ => True) h trivial
    (fun _ _ _ _ _ _ _ _ _ _ _ _ => trivial) (fun _ _ _ _ _ _ => trivial)
  refine ⟨new, hevents, fun v => ?_⟩
  have hslashes : (s'.standing v).slashes = (s.standing v).slashes ++ slashesOf v new := by
    rw [State.standing, State.standing, hevents, slashesOf_append]
  rcases onInitialize_standing h v with ⟨stake, amount, hdue, hamount, hafter⟩ | ⟨hdue, hafter⟩
  · rw [congrArg Standing.slashes hafter] at hslashes
    refine Or.inl ⟨stake, amount, hdue, hamount, ?_⟩
    rw [← List.append_cancel_left hslashes, List.nil_append]
    exact congrArg (Standing.mk · _) (congrArg Standing.stake hafter)
  · rw [congrArg Standing.slashes hafter] at hslashes
    refine Or.inr ⟨hdue, ?_⟩
    rw [List.self_eq_append_right.1 hslashes]
    exact congrArg (Standing.mk · _) (congrArg Standing.stake hafter)

end GhostConsensus
