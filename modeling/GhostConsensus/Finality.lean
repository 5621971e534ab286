import GhostConsensus.Chain
import GhostConsensus.Lib.Log

/-!
# Finality

What the two storage maps of the chain stand for is a log: `submit_block` proposes an entry on top of
the last one, `validate_block` settles it in its signed form. As long as no number is mined twice and
no block but the last is signed, the pallet is a refinement of the log (`Represents.step`), so that
what is stored between two rounds is final (`run_final`).
-/

namespace GhostConsensus

open Transition

variable {α H B : Type}

/-! ## Maps and lists -/

section Maps

variable {V E : Type} {m : StorageMap U32 V} {f : E → Option V} {l t : List E}

/-- Writing at the number after `l` replaces what may follow there. -/
theorem insert_eq_getElem? (hm : ∀ n : U32, m n = ((l ++ t)[n.toNat]?).bind f) (ht : t.length ≤ 1)
    {k : U32} (hk : k.toNat = l.length) {e : E} {v : V} (he : f e = some v) (n : U32) :
    m.insert k v n = ((l ++ [e])[n.toNat]?).bind f := by
  rw [StorageMap.insert_apply]
  split
  · rename_i heq
    rw [heq, hk, List.getElem?_concat_length]
    exact he.symm
  · rename_i hne
    have hnat : n.toNat ≠ l.length := fun heq => hne (BitVec.eq_of_toNat_eq (heq.trans hk.symm))
    rw [hm]
    rcases Nat.lt_or_ge n.toNat l.length with hlt | hge
    · rw [List.getElem?_append_left hlt, List.getElem?_append_left hlt]
    · rw [List.getElem?_eq_none (by rw [List.length_append]; omega),
        List.getElem?_eq_none (by rw [List.length_append, List.length_singleton]; omega)]

/-- An entry that looks the same can take the place of the last one. -/
theorem bind_getElem?_concat {p e : E} (h : f e = f p) (i : ℕ) :
    ((l ++ [e])[i]?).bind f = ((l ++ [p])[i]?).bind f := by
  rw [List.getElem?_append, List.getElem?_append]
  split
  · rfl
  · cases i - l.length with
    | zero => exact h
    | succ => rfl

end Maps

variable [AccountId α] [DecidableEq H]

/-! ## The log of a state -/

section Definitions

variable (T : Config α H B)

/-- The header of `e` names the hash of the header of `p`. -/
def IsChild (e p : GhostBlockHeader H × Option α) : Prop :=
  e.1.parentHash = T.hashOf (.header p.1)

/-- `e` is `p` with the signatures of a validator. -/
def IsSealed (e p : GhostBlockHeader H × Option α) : Prop :=
  ∃ v n sig, e = (signHeader T p.1 v n sig, p.2)

/-- A call that closes the round names the last block. -/
def NamesLast (s : State α H B) (a : Action α H) : Prop :=
  ∀ c ∈ closing T s a, c.2.1 + 1 = 0 ∨ s.blockHeaders (c.2.1 + 1) = none

instance (s : State α H B) (a : Action α H) : Decidable (NamesLast T s a) :=
  inferInstanceAs (Decidable (∀ _ ∈ _, _ ∨ _))

end Definitions

/-- The blocks of the state are the entries of the log, each under its position, and the last one is
pending while the round is open. -/
structure Represents (s : State α H B) (L : Log (GhostBlockHeader H × Option α)) : Prop where
  headers : ∀ n : U32, s.blockHeaders n = (L.entries[n.toNat]?).map Prod.fst
  producers : ∀ n : U32, s.blockProducers n = (L.entries[n.toNat]?).bind Prod.snd
  pending : L.pending.isSome = true ↔ s.currentPhase = .posValidation
  length_le : L.entries.length ≤ 2 ^ 32

variable {T : Config α H B} {s s' : State α H B} {L : Log (GhostBlockHeader H × Option α)}

omit [DecidableEq H] in
theorem Represents.isSome_blockHeaders (hs : Represents s L) (n : U32) :
    (s.blockHeaders n).isSome = true ↔ n.toNat < L.entries.length := by
  rw [hs.headers, Option.isSome_map, ← Option.ne_none_iff_isSome, ne_eq, List.getElem?_eq_none_iff,
    not_le]

omit [DecidableEq H] in
theorem Represents.headers_bind (hs : Represents s L)
    {l : List (GhostBlockHeader H × Option α)} (h : L.entries = l) (n : U32) :
    s.blockHeaders n = (l[n.toNat]?).bind (some ∘ Prod.fst) := by
  rw [hs.headers, h, Option.map_eq_bind]

omit [DecidableEq H] in
theorem Represents.producers_bind (hs : Represents s L)
    {l : List (GhostBlockHeader H × Option α)} (h : L.entries = l) (n : U32) :
    s.blockProducers n = (l[n.toNat]?).bind Prod.snd := by
  rw [hs.producers, h]

/-- An accepted block with a fresh number is proposed. -/
theorem Represents.propose (hs : Represents s L) {miner : α} {header parent : GhostBlockHeader H}
    (haccepts : Accepts T s header parent) (hfresh : s.blockHeaders header.number = none) :
    ∃ L', Log.step (IsChild T) (IsSealed T) L (.propose (header, some miner)) = some L' ∧
      Represents (acceptBlock s miner header) L' := by
  have hpending : L.pending = none := by
    rw [← Option.not_isSome_iff_eq_none, hs.pending, haccepts.phase]
    decide
  have hentries : L.entries = L.settled := by
    rw [Log.entries, hpending]
    exact List.append_nil _
  have hpos : 1 ≤ header.number.toNat := BitVec.lt_def.1 haccepts.positive
  have hsub : (header.number - 1).toNat = header.number.toNat - 1 :=
    BitVec.toNat_sub_of_le (BitVec.le_def.2 hpos)
  have hbelow : (header.number - 1).toNat < L.entries.length :=
    (hs.isSome_blockHeaders _).1 (haccepts.parent_stored ▸ rfl)
  have habove : ¬header.number.toNat < L.entries.length := by
    rw [← hs.isSome_blockHeaders, hfresh]
    exact Bool.false_ne_true
  have hnumber : header.number.toNat = L.settled.length := by
    rw [← hentries]
    omega
  have hlast : (L.settled.getLast?).map Prod.fst = some parent := by
    rw [List.getLast?_eq_getElem?, ← hnumber, ← hentries, ← hsub, ← hs.headers]
    exact haccepts.parent_stored
  obtain ⟨-, hhash, -⟩ := validateBlockHeader_eq_ok.1 haccepts.valid
  refine ⟨{ L with pending := some (header, some miner) }, Log.step_propose_eq_some.2
    ⟨⟨hpending, fun top htop => ?_⟩, rfl⟩, ⟨fun n => ?_, fun n => ?_, ?_, ?_⟩⟩
  · rw [Option.mem_def] at htop
    rw [htop] at hlast
    obtain rfl := Option.some.inj hlast
    exact hhash
  · rw [acceptBlock_blockHeaders, Option.map_eq_bind]
    exact insert_eq_getElem? (t := []) (e := (header, some miner))
      (hs.headers_bind (hentries.trans (List.append_nil _).symm)) (Nat.zero_le 1) hnumber rfl n
  · rw [acceptBlock_blockProducers]
    exact insert_eq_getElem? (t := []) (e := (header, some miner))
      (hs.producers_bind (hentries.trans (List.append_nil _).symm)) (Nat.zero_le 1) hnumber rfl n
  · exact ⟨fun _ => rfl, fun _ => rfl⟩
  · show (L.settled ++ [(header, some miner)]).length ≤ 2 ^ 32
    rw [List.length_append, List.length_singleton, ← hnumber]
    exact header.number.isLt

omit [DecidableEq H] in
/-- A closed round of the last block settles it. -/
theorem Represents.settle (hs : Represents s L) {validator miner : α} {n : U32} {sig : PqcSignature}
    {header : GhostBlockHeader H} {selection : PosSelection α} {reward : BlockReward} {balances : B}
    (hcloses : Closes T s validator n sig header selection reward miner balances)
    (hlast : n + 1 = 0 ∨ s.blockHeaders (n + 1) = none) :
    ∃ e L', Log.step (IsChild T) (IsSealed T) L (.settle e) = some L' ∧
      Represents (closedState T s validator n sig header selection reward miner balances) L' := by
  obtain ⟨p, hp⟩ := Option.isSome_iff_exists.1 (hs.pending.2 hcloses.phase)
  have hentries : L.entries = L.settled ++ [p] := by
    rw [Log.entries, hp]
    rfl
  have hlength : L.entries.length = L.settled.length + 1 := by
    rw [hentries, List.length_append, List.length_singleton]
  have hstored : n.toNat < L.entries.length :=
    (hs.isSome_blockHeaders n).1 (hcloses.header_stored ▸ rfl)
  have hle := hs.length_le
  have hnumber : n.toNat = L.settled.length := by
    rcases hlast with hzero | hnone
    · have hmax : n.toNat = 2 ^ 32 - 1 := by bv_omega
      omega
    · have hnot : ¬(n + 1).toNat < L.entries.length := by
        rw [← hs.isSome_blockHeaders, hnone]
        exact Bool.false_ne_true
      have hlt := n.isLt
      rw [BitVec.toNat_add] at hnot
      have hone : (1 : U32).toNat = 1 := rfl
      omega
  have hheader : header = p.1 := by
    have hget := hs.headers_bind hentries n
    rw [hnumber, List.getElem?_concat_length, hcloses.header_stored] at hget
    exact Option.some.inj hget
  refine ⟨(signHeader T header validator n sig, p.2), _, Log.step_settle_eq_some.2
    ⟨⟨p, hp, validator, n, sig, hheader ▸ rfl⟩, rfl⟩, ⟨fun m => ?_, fun m => ?_, ?_, ?_⟩⟩
  · show s.blockHeaders.insert n (signHeader T header validator n sig) m =
      ((L.settled ++ [_] ++ [])[m.toNat]?).map Prod.fst
    rw [List.append_nil, Option.map_eq_bind]
    exact insert_eq_getElem? (e := (signHeader T header validator n sig, p.2))
      (hs.headers_bind hentries) le_rfl hnumber rfl m
  · show s.blockProducers m = ((L.settled ++ [_] ++ [])[m.toNat]?).bind Prod.snd
    rw [List.append_nil, hs.producers_bind hentries]
    exact (bind_getElem?_concat (p := p) (e := (signHeader T header validator n sig, p.2)) rfl _).symm
  · show false = true ↔ ConsensusPhase.finalization = .posValidation
    decide
  · show (L.settled ++ [_] ++ []).length ≤ 2 ^ 32
    rw [List.append_nil, List.length_append, List.length_singleton, ← hlength]
    exact hle

/-- A step of the pallet that mines no number twice and signs no block but the last is a step of the
log, or leaves it. -/
theorem Represents.step (hs : Represents s L) {a : Action α H} (hfresh : FreshNumber T s a)
    (hlast : NamesLast T s a) (h : GhostConsensus.step T s a = some s') :
    ∃ h' L', Run (Log.step (IsChild T) (IsSealed T)) L h' L' ∧ Represents s' L' := by
  cases step_chain h with
  | @accepted miner header parent ha _ _ haccepts =>
    obtain ⟨L', hstep, hs'⟩ := hs.propose haccepts (hfresh _ (ha ▸ haccepts.mem_offered))
    exact ⟨_, L', Run.nil.cons hstep, hs'⟩
  | closed ha _ _ hcloses =>
    obtain ⟨e, L', hstep, hs'⟩ := hs.settle hcloses (hlast _ (ha ▸ hcloses.mem_closing))
    exact ⟨_, L', Run.nil.cons hstep, hs'⟩
  | reopened _ hphase =>
    refine ⟨[], L, .nil, hs.headers, hs.producers, hs.pending.trans ?_, hs.length_le⟩
    rw [hphase]
    show ConsensusPhase.finalization = .posValidation ↔ ConsensusPhase.powMining = .posValidation
    decide
  | unchanged _ _ _ hsame =>
    refine ⟨[], L, .nil, fun n => ?_, fun n => ?_, ?_, hs.length_le⟩
    · rw [hsame.blockHeaders]
      exact hs.headers n
    · rw [hsame.blockProducers]
      exact hs.producers n
    · rw [hsame.currentPhase]
      exact hs.pending

/-- Every run of the pallet that mines no number twice and signs no block but the last is a run of
the log. -/
theorem Represents.run (hs : Represents s L) {h : List (Record α H B)}
    (run : Run (GhostConsensus.step T) s h s') (fresh : ∀ e ∈ h, FreshNumber T e.1 e.2)
    (last : ∀ e ∈ h, NamesLast T e.1 e.2) :
    ∃ h' L', Run (Log.step (IsChild T) (IsSealed T)) L h' L' ∧ Represents s' L' := by
  refine run.invariant_of (I := fun t => ∃ h' L', Run (Log.step (IsChild T) (IsSealed T)) L h' L' ∧
    Represents t L') (C := fun t a => FreshNumber T t a ∧ NamesLast T t a) ⟨[], L, .nil, hs⟩
    (fun e he => ⟨fresh e he, last e he⟩) ?_
  rintro t a t' ⟨h₁, M, run₁, ht⟩ ⟨hfresh, hlast⟩ hstep
  obtain ⟨h₂, M', run₂, ht'⟩ := ht.step hfresh hlast hstep
  exact ⟨h₂ ++ h₁, M', run₁.append run₂, ht'⟩

/-! ## What is final -/

omit [DecidableEq H] in
theorem represents_start {header₀ : GhostBlockHeader H}
    (stored : s.blockHeaders = StorageMap.empty.insert 0 header₀)
    (noProducers : s.blockProducers = .empty) (phase : s.currentPhase ≠ .posValidation) :
    Represents s ⟨[(header₀, none)], none⟩ := by
  have hentries (n : U32) : (Log.entries ⟨[(header₀, (none : Option α))], none⟩)[n.toNat]? =
      if n = 0 then some (header₀, none) else none := by
    show [(header₀, (none : Option α))][n.toNat]? = _
    rw [List.getElem?_singleton]
    exact if_congr (BitVec.toNat_eq (y := 0)).symm rfl rfl
  refine ⟨fun n => ?_, fun n => ?_, ?_, ?_⟩
  · rw [hentries, stored, StorageMap.insert_apply]
    split <;> rfl
  · rw [hentries, noProducers]
    split <;> rfl
  · simpa using phase
  · show 1 ≤ 2 ^ 32
    decide

omit [DecidableEq H] in
/-- A state whose log only continues that of another keeps what is stored there. -/
theorem Represents.stored {t : State α H B} {L₁ : Log (GhostBlockHeader H × Option α)}
    (ht : Represents t L₁) (hs : Represents s L) (hcontinues : L₁.entries <+: L.entries) {n : U32}
    {header : GhostBlockHeader H} (hstored : t.blockHeaders n = some header) :
    s.blockHeaders n = some header ∧ s.blockProducers n = t.blockProducers n := by
  have hlt : n.toNat < L₁.entries.length := (ht.isSome_blockHeaders n).1 (hstored ▸ rfl)
  have hget : L.entries[n.toNat]? = L₁.entries[n.toNat]? := by
    rw [List.prefix_iff_getElem?.1 hcontinues _ hlt, List.getElem?_eq_getElem hlt]
  constructor
  · rw [hs.headers, hget, ← ht.headers, hstored]
  · rw [hs.producers, hget, ← ht.producers]

/-- In every run from a header at number `0` that mines no number twice and signs no block but the
last, the pallet follows a log, which is a chain of parents and children, and what is stored while no
round is open is final: header, signatures and producer. -/
theorem run_final {s₀ t s : State α H B} {h₁ h₂ : List (Record α H B)}
    {header₀ : GhostBlockHeader H} (run₁ : Run (step T) s₀ h₁ t)
    (run₂ : Run (step T) t h₂ s)
    (stored : s₀.blockHeaders = StorageMap.empty.insert 0 header₀)
    (noProducers : s₀.blockProducers = .empty) (phase : s₀.currentPhase ≠ .posValidation)
    (fresh : ∀ e ∈ h₂ ++ h₁, FreshNumber T e.1 e.2) (last : ∀ e ∈ h₂ ++ h₁, NamesLast T e.1 e.2)
    (idle : t.currentPhase ≠ .posValidation) :
    ∃ L₁ h L, Represents t L₁ ∧ Run (Log.step (IsChild T) (IsSealed T)) L₁ h L ∧ Represents s L ∧
      Log.Chained (IsChild T) L ∧ ∀ n header, t.blockHeaders n = some header →
        s.blockHeaders n = some header ∧ s.blockProducers n = t.blockProducers n := by
  have hsealed (e p top : GhostBlockHeader H × Option α) (hseals : IsSealed T e p)
      (hchild : IsChild T p top) : IsChild T e top := by
    obtain ⟨v, n, sig, rfl⟩ := hseals
    exact hchild
  have hstart : Log.Chained (IsChild T) ⟨[(header₀, (none : Option α))], none⟩ :=
    List.isChain_singleton _
  obtain ⟨g₁, L₁, logRun₁, ht⟩ := (represents_start stored noProducers phase).run run₁
    (fun e he => fresh e (List.mem_append_right _ he))
    (fun e he => last e (List.mem_append_right _ he))
  obtain ⟨g₂, L, logRun₂, hs⟩ := ht.run run₂ (fun e he => fresh e (List.mem_append_left _ he))
    (fun e he => last e (List.mem_append_left _ he))
  refine ⟨L₁, g₂, L, ht, logRun₂, hs, Log.chained hsealed (logRun₁.append logRun₂) hstart, ?_⟩
  have hpending : L₁.pending = none := by
    rw [← Option.not_isSome_iff_eq_none, ht.pending]
    exact idle
  have hsettled : L₁.entries = L₁.settled := by
    rw [Log.entries, hpending]
    exact List.append_nil _
  have hcontinues : L₁.entries <+: L.entries := by
    rw [hsettled]
    exact (Log.settled_prefix logRun₂).trans (List.prefix_append _ _)
  intro n header hstored
  exact ht.stored hs hcontinues hstored

theorem run_final_devRound :
    ∃ h₁ t h₂ s L₁ h L, Run (step devConfig) devState h₁ t ∧
      Run (step devConfig) t h₂ s ∧ (s.blockHeaders 2).isSome = true ∧
      Represents t L₁ ∧ Run (Log.step (IsChild devConfig) (IsSealed devConfig)) L₁ h L ∧
      Represents s L ∧ Log.Chained (IsChild devConfig) L ∧
      ∀ n header, t.blockHeaders n = some header →
        s.blockHeaders n = some header ∧ s.blockProducers n = t.blockProducers n := by
  obtain ⟨h₁, t, run₁, hsecond⟩ := exists_run_of_exec (step devConfig) devState devRound
    (fun r₁ => (exec (step devConfig) [] r₁.2
        [.dispatch (.signed 2) (.submitBlock devNextBlock),
          .dispatch (.signed 1) (.validateBlock 2 ⟨0⟩)]).any
      fun r₂ : List (Record ℕ (List ℕ) (Accounts ℕ)) × State ℕ (List ℕ) (Accounts ℕ) =>
        decide ((r₂.2.blockHeaders 2).isSome = true ∧ r₁.2.currentPhase ≠ .posValidation ∧
          ∀ e ∈ r₂.1 ++ r₁.1, FreshNumber devConfig e.1 e.2 ∧ NamesLast devConfig e.1 e.2))
    (by decide +kernel)
  obtain ⟨h₂, s, run₂, hcheck⟩ := exists_run_of_exec _ _ _ _ hsecond
  obtain ⟨hstored, hidle, hnumbers⟩ := of_decide_eq_true hcheck
  obtain ⟨L₁, h, L, hfinal⟩ := run_final run₁ run₂ rfl rfl (by decide)
    (fun e he => (hnumbers e he).1) (fun e he => (hnumbers e he).2) hidle
  exact ⟨h₁, t, h₂, s, L₁, h, L, run₁, run₂, hstored, hfinal⟩

end GhostConsensus
