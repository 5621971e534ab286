import GhostConsensus.Runtime

/-!
# The stored chain

Three properties one expects of the stored headers: each is linked to its parent (`Linked`), what is
accepted stays (`AppendOnly`), and signatures are those of validators (`Genuine`). Each of them
breaks when a header is written in a way the pallet does not exclude, and holds in every run that
does not write one so.
-/

namespace GhostConsensus

open Transition

variable {α H B : Type} [AccountId α] [DecidableEq H]

/-! ## Links -/

/-- Every header above number `0` names the hash of the header stored below it. -/
def Linked (T : Config α H B) (headers : StorageMap U32 (GhostBlockHeader H)) : Prop :=
  ∀ n, n ≠ 0 → ∀ header, headers n = some header →
    ∃ parent, headers (n - 1) = some parent ∧ header.parentHash = T.hashOf (.header parent)

/-- Writing `header` at number `n` leaves the header that is stored there, or no header is stored
above it. -/
def KeepsParent (s : State α H B) (n : U32) (header : GhostBlockHeader H) : Prop :=
  s.blockHeaders n = some header ∨ n + 1 = 0 ∨ s.blockHeaders (n + 1) = none

instance (s : State α H B) (n : U32) (header : GhostBlockHeader H) :
    Decidable (KeepsParent s n header) :=
  inferInstanceAs (Decidable (_ ∨ _))

/-- No header that is the parent of a stored one changes: neither by a header that the guards of
`submit_block` let pass, nor by the signature of a call that closes a round. -/
def KeepsParents (T : Config α H B) (s : State α H B) (a : Action α H) : Prop :=
  (∀ c ∈ offered T s a, KeepsParent s c.2.number c.2) ∧
  ∀ c ∈ closing T s a, ∀ header ∈ s.blockHeaders c.2.1,
    KeepsParent s c.2.1 (signHeader T header c.1 c.2.1 c.2.2)

instance (T : Config α H B) (s : State α H B) (a : Action α H) : Decidable (KeepsParents T s a) :=
  inferInstanceAs (Decidable (_ ∧ _))

variable {T : Config α H B}

omit [AccountId α] [DecidableEq H] in
theorem linked_start {header₀ : GhostBlockHeader H} :
    Linked T (StorageMap.empty.insert 0 header₀) := by
  intro n hn header hheader
  rw [StorageMap.insert_of_ne _ hn] at hheader
  cases hheader

omit [DecidableEq H] in
/-- Writing a header with the right parent keeps the links, if it keeps the parents. -/
theorem Linked.insert {s : State α H B} (hs : Linked T s.blockHeaders) {n : U32}
    {header : GhostBlockHeader H} (hkeep : KeepsParent s n header)
    (hparent : n ≠ 0 → ∃ parent, s.blockHeaders (n - 1) = some parent ∧
      header.parentHash = T.hashOf (.header parent)) :
    Linked T (s.blockHeaders.insert n header) := by
  intro m hm hd hstored
  rw [StorageMap.insert_eq_some] at hstored
  rcases hstored with ⟨rfl, rfl⟩ | ⟨-, hstored⟩
  · obtain ⟨parent, hget, hhash⟩ := hparent hm
    have hne : m - 1 ≠ m := by bv_omega
    exact ⟨parent, by rwa [StorageMap.insert_of_ne _ hne], hhash⟩
  · obtain ⟨parent, hget, hhash⟩ := hs m hm hd hstored
    by_cases hbelow : m - 1 = n
    · subst hbelow
      -- the header written is the parent of `hd`, which is stored, so it is the one stored before
      have habove : m - 1 + 1 = m := by bv_omega
      rw [KeepsParent, habove] at hkeep
      rcases hkeep with hsame | hzero | hnone
      · obtain rfl := Option.some.inj (hget.symm.trans hsame)
        exact ⟨parent, StorageMap.insert_self _ _ _, hhash⟩
      · exact absurd hzero hm
      · rw [hnone] at hstored
        cases hstored
    · exact ⟨parent, by rwa [StorageMap.insert_of_ne _ hbelow], hhash⟩

theorem Linked.step {s s' : State α H B} {a : Action α H} (hs : Linked T s.blockHeaders)
    (hkeeps : KeepsParents T s a) (h : step T s a = some s') : Linked T s'.blockHeaders := by
  cases step_chain h with
  | @accepted miner header parent ha _ _ haccepts =>
    have hkeep : KeepsParent s header.number header := hkeeps.1 _ (ha ▸ haccepts.mem_offered)
    obtain ⟨-, hhash, -⟩ := validateBlockHeader_eq_ok.1 haccepts.valid
    exact hs.insert hkeep fun _ => ⟨parent, haccepts.parent_stored, hhash⟩
  | @closed validator _ n sig header _ _ _ ha _ _ hcloses =>
    have hkeep : KeepsParent s n (signHeader T header validator n sig) :=
      hkeeps.2 _ (ha ▸ hcloses.mem_closing) header hcloses.header_stored
    exact hs.insert hkeep fun hn => hs n hn header hcloses.header_stored
  | reopened => exact hs
  | unchanged _ _ _ hsame =>
    rw [hsame.blockHeaders]
    exact hs

/-- In every run from a header at number `0` that keeps the parents of stored headers, every header
is linked to its parent. -/
theorem run_linked {s₀ s : State α H B} {h : List (Record α H B)} {header₀ : GhostBlockHeader H}
    (run : Run (step T) s₀ h s) (stored : s₀.blockHeaders = StorageMap.empty.insert 0 header₀)
    (keeps : ∀ e ∈ h, KeepsParents T e.1 e.2) : Linked T s.blockHeaders :=
  run.invariant_of (I := fun s => Linked T s.blockHeaders) (stored ▸ linked_start) keeps
    fun _ _ _ hs hkeeps hstep => hs.step hkeeps hstep

theorem run_linked_devRound :
    ∃ h s, Run (step devConfig) devState h s ∧ s.blockHeaders 2 = some devNextBlock ∧
      Linked devConfig s.blockHeaders := by
  obtain ⟨h, s, run, hcheck⟩ := exists_run_of_exec (step devConfig) devState
    (devRound ++ [.dispatch (.signed 2) (.submitBlock devNextBlock)])
    (fun r => decide (r.2.blockHeaders 2 = some devNextBlock ∧
      ∀ e ∈ r.1, KeepsParents devConfig e.1 e.2)) (by decide +kernel)
  obtain ⟨hstored, hkeeps⟩ := of_decide_eq_true hcheck
  exact ⟨h, s, run, hstored, run_linked run rfl hkeeps⟩

/-- In the round of the second block the validator signs the first one again, with another PQC
signature, and the second block names a hash that its parent no longer has. -/
theorem not_linked :
    ∃ h s, Run (step devConfig) devState h s ∧
      devState.blockHeaders = StorageMap.empty.insert 0 devHeader ∧
      devState.currentPhase = .powMining ∧ devConfig.pqcRequired = false ∧
      (Function.Injective fun header => devConfig.hashOf (.header header)) ∧
      ¬Linked devConfig s.blockHeaders := by
  obtain ⟨h, s, run, hcheck⟩ := exists_run_of_exec (step devConfig) devState
    (devRound ++ [.dispatch (.signed 2) (.submitBlock devNextBlock),
      .dispatch (.signed 1) (.validateBlock 1 ⟨1⟩)])
    (fun r => decide (∃ child ∈ r.2.blockHeaders 2, ∃ header ∈ r.2.blockHeaders 1,
      child.parentHash ≠ devConfig.hashOf (.header header))) (by decide +kernel)
  obtain ⟨child, hchild, header, hheader, hne⟩ := of_decide_eq_true hcheck
  refine ⟨h, s, run, rfl, rfl, rfl, spell_header_injective, fun hlinked => ?_⟩
  obtain ⟨parent, hparent, hhash⟩ := hlinked 2 (by decide) child hchild
  obtain rfl := Option.some.inj (hparent.symm.trans hheader)
  exact hne hhash

/-! ## What is accepted stays -/

/-- What a validator does not change of a header. -/
def GhostBlockHeader.body (header : GhostBlockHeader H) : GhostBlockHeader H :=
  { header with validatorSignature := none, pqcSignature := none }

/-- `n` is the largest number of a stored header. -/
def IsLargest (s : State α H B) (n : U32) : Prop :=
  (s.blockHeaders n).isSome = true ∧ ∀ m, (s.blockHeaders m).isSome = true → m.toNat ≤ n.toNat

/-- The block that `miner` submitted with `header` is stored under its miner, with its body. -/
def Kept (s : State α H B) (miner : α) (header : GhostBlockHeader H) : Prop :=
  s.blockProducers header.number = some miner ∧
    ∃ stored, s.blockHeaders header.number = some stored ∧ stored.body = header.body

/-- The history has extended the chain by one number at a time, and all it added is in the state. -/
structure AppendOnly (T : Config α H B) (h : List (Record α H B)) (s : State α H B) : Prop where
  next : ∀ e ∈ h, ∀ miner header, submission T e = some (miner, header) →
    ∃ n, IsLargest e.1 n ∧ header.number.toNat = n.toNat + 1
  kept : ∀ e ∈ h, ∀ miner header, submission T e = some (miner, header) → Kept s miner header

/-- A header that the guards of `submit_block` let pass has a number that is not stored yet. -/
def FreshNumber (T : Config α H B) (s : State α H B) (a : Action α H) : Prop :=
  ∀ c ∈ offered T s a, s.blockHeaders c.2.number = none

instance (T : Config α H B) (s : State α H B) (a : Action α H) : Decidable (FreshNumber T s a) :=
  inferInstanceAs (Decidable (∀ _ ∈ offered T s a, _))

/-- The stored numbers are those up to some `n`. -/
def Contiguous (headers : StorageMap U32 (GhostBlockHeader H)) : Prop :=
  ∃ n : U32, ∀ m, (headers m).isSome = true ↔ m.toNat ≤ n.toNat

omit [DecidableEq H] in
theorem contiguous_start {header₀ : GhostBlockHeader H} :
    Contiguous (StorageMap.empty.insert 0 header₀) := by
  refine ⟨0, fun m => ?_⟩
  by_cases hm : m = 0
  · subst hm
    simp
  · have hpos : 0 < m.toNat := BitVec.toNat_pos_of_ne_zero hm
    rw [StorageMap.insert_of_ne _ hm]
    simpa [StorageMap.empty] using hpos.ne'

omit [DecidableEq H] in
/-- A number that is not stored, above one that is, is the next one. -/
theorem Contiguous.next {headers : StorageMap U32 (GhostBlockHeader H)} {n m : U32}
    (hn : ∀ m, (headers m).isSome = true ↔ m.toNat ≤ n.toNat) (hpos : 0 < m)
    (hbelow : (headers (m - 1)).isSome = true) (hfresh : headers m = none) :
    m.toNat = n.toNat + 1 := by
  have hpos' : 1 ≤ m.toNat := BitVec.lt_def.1 hpos
  have hle := (hn _).1 hbelow
  have hsub : (m - 1).toNat = m.toNat - 1 := BitVec.toNat_sub_of_le (BitVec.le_def.2 hpos')
  have hgt : ¬m.toNat ≤ n.toNat := by
    rw [← hn, hfresh]
    simp
  omega

theorem Accepts.next {s : State α H B} {header parent : GhostBlockHeader H} {n : U32}
    (haccepts : Accepts T s header parent)
    (hn : ∀ m, (s.blockHeaders m).isSome = true ↔ m.toNat ≤ n.toNat)
    (hfresh : s.blockHeaders header.number = none) : header.number.toNat = n.toNat + 1 :=
  Contiguous.next hn haccepts.positive (haccepts.parent_stored ▸ rfl) hfresh

theorem Contiguous.step {s s' : State α H B} {a : Action α H} (hs : Contiguous s.blockHeaders)
    (hfresh : FreshNumber T s a) (h : step T s a = some s') : Contiguous s'.blockHeaders := by
  obtain ⟨n, hn⟩ := hs
  cases step_chain h with
  | @accepted miner header parent ha _ _ haccepts =>
    have hnext := haccepts.next hn (hfresh _ (ha ▸ haccepts.mem_offered))
    refine ⟨header.number, fun m => ?_⟩
    rw [acceptBlock_blockHeaders, StorageMap.insert_apply]
    split_ifs with hm
    · simp [hm]
    · have hne : m.toNat ≠ header.number.toNat := fun heq => hm (BitVec.eq_of_toNat_eq heq)
      rw [hn]
      omega
  | closed _ _ _ hcloses =>
    exact ⟨n, fun k => (hcloses.isSome_blockHeaders k).trans (hn k)⟩
  | reopened => exact ⟨n, hn⟩
  | unchanged _ _ _ hsame => exact ⟨n, hsame.blockHeaders ▸ hn⟩

theorem Kept.step {s s' : State α H B} {a : Action α H} {miner : α} {header : GhostBlockHeader H}
    (hs : Kept s miner header) (hfresh : FreshNumber T s a) (h : step T s a = some s') :
    Kept s' miner header := by
  obtain ⟨hminer, stored, hstored, hbody⟩ := hs
  cases step_chain h with
  | @accepted miner' header' parent ha _ _ haccepts =>
    have hnone : s.blockHeaders header'.number = none := hfresh _ (ha ▸ haccepts.mem_offered)
    have hne : header.number ≠ header'.number := by
      intro heq
      rw [heq, hnone] at hstored
      cases hstored
    exact ⟨(StorageMap.insert_of_ne _ hne _).trans hminer, stored,
      (StorageMap.insert_of_ne _ hne _).trans hstored, hbody⟩
  | @closed validator _ n sig header' _ _ _ _ _ _ hcloses =>
    refine ⟨hminer, ?_⟩
    by_cases heq : header.number = n
    · subst heq
      obtain rfl := Option.some.inj (hstored.symm.trans hcloses.header_stored)
      exact ⟨_, StorageMap.insert_self _ _ _, hbody⟩
    · exact ⟨stored, (StorageMap.insert_of_ne _ heq _).trans hstored, hbody⟩
  | reopened => exact ⟨hminer, stored, hstored, hbody⟩
  | unchanged _ _ _ hsame =>
    exact ⟨hsame.blockProducers ▸ hminer, stored, hsame.blockHeaders ▸ hstored, hbody⟩

theorem AppendOnly.step {h : List (Record α H B)} {s s' : State α H B} {a : Action α H}
    (hs : AppendOnly T h s) (hcontiguous : Contiguous s.blockHeaders) (hfresh : FreshNumber T s a)
    (hstep : step T s a = some s') : AppendOnly T ((s, a) :: h) s' := by
  have hnew : ∀ miner header, submission T (s, a) = some (miner, header) →
      (∃ n, IsLargest s n ∧ header.number.toNat = n.toNat + 1) ∧ Kept s' miner header := by
    intro miner header hsubmission
    cases step_chain hstep with
    | accepted ha hsub _ haccepts =>
      obtain ⟨rfl, rfl⟩ := Prod.mk.inj (Option.some.inj (hsubmission.symm.trans hsub))
      obtain ⟨n, hn⟩ := hcontiguous
      have hnone : s.blockHeaders header.number = none := hfresh _ (ha ▸ haccepts.mem_offered)
      exact ⟨⟨n, ⟨(hn n).2 le_rfl, fun m => (hn m).1⟩, haccepts.next hn hnone⟩,
        StorageMap.insert_self _ _ _, header, StorageMap.insert_self _ _ _, rfl⟩
    | closed _ hsub | reopened _ _ hsub | unchanged hsub =>
      rw [hsubmission] at hsub
      cases hsub
  refine ⟨fun e he miner header hsub => ?_, fun e he miner header hsub => ?_⟩
  · rcases List.mem_cons.1 he with rfl | he
    · exact (hnew miner header hsub).1
    · exact hs.next e he miner header hsub
  · rcases List.mem_cons.1 he with rfl | he
    · exact (hnew miner header hsub).2
    · exact (hs.kept e he miner header hsub).step hfresh hstep

/-- In every run from a header at number `0` that submits no number twice, the stored chain is only
extended. -/
theorem run_appendOnly {s₀ s : State α H B} {h : List (Record α H B)} {header₀ : GhostBlockHeader H}
    (run : Run (step T) s₀ h s) (stored : s₀.blockHeaders = StorageMap.empty.insert 0 header₀)
    (fresh : ∀ e ∈ h, FreshNumber T e.1 e.2) : AppendOnly T h s := by
  have hinv : Contiguous s.blockHeaders ∧ AppendOnly T h s := by
    refine run.history_invariant (I := fun h s => Contiguous s.blockHeaders ∧ AppendOnly T h s)
      ⟨stored ▸ contiguous_start, ?_⟩ fresh ?_
    · exact ⟨fun _ he => (List.not_mem_nil he).elim, fun _ he => (List.not_mem_nil he).elim⟩
    · intro h t a t' _ hs hfresh hstep
      exact ⟨hs.1.step hfresh hstep, hs.2.step hs.1 hfresh hstep⟩
  exact hinv.2

theorem run_appendOnly_devRound :
    ∃ h s, Run (step devConfig) devState h s ∧ s.blockHeaders 2 = some devNextBlock ∧
      AppendOnly devConfig h s := by
  obtain ⟨h, s, run, hcheck⟩ := exists_run_of_exec (step devConfig) devState
    (devRound ++ [.dispatch (.signed 2) (.submitBlock devNextBlock)])
    (fun r => decide (r.2.blockHeaders 2 = some devNextBlock ∧
      ∀ e ∈ r.1, FreshNumber devConfig e.1 e.2)) (by decide +kernel)
  obtain ⟨hstored, hfresh⟩ := of_decide_eq_true hcheck
  exact ⟨h, s, run, hstored, run_appendOnly run rfl hfresh⟩

/-- After a round the miner submits another block on top of header `0`, which replaces the block of
that round. -/
theorem not_appendOnly :
    ∃ h s, Run (step devConfig) devState h s ∧
      devState.blockHeaders = StorageMap.empty.insert 0 devHeader ∧
      devState.currentPhase = .powMining ∧ ¬AppendOnly devConfig h s := by
  obtain ⟨h, s, run, hcheck⟩ := exists_run_of_exec (step devConfig) devState
    (devRound ++ [.dispatch (.signed 2) (.submitBlock (devChild devHeader 1))])
    (fun r => decide (∃ e ∈ r.1, ∃ x ∈ submission devConfig e,
      ∃ stored ∈ r.2.blockHeaders x.2.number, stored.body ≠ x.2.body)) (by decide +kernel)
  obtain ⟨e, he, x, hx, stored, hstored, hne⟩ := of_decide_eq_true hcheck
  refine ⟨h, s, run, rfl, rfl, fun happend => ?_⟩
  obtain ⟨-, stored', hstored', hbody⟩ := happend.kept e he x.1 x.2 hx
  obtain rfl := Option.some.inj (hstored.symm.trans hstored')
  exact hne hbody

/-! ## Signatures -/

/-- The steps since the last submission of a block with number `n`. -/
def sinceSubmission (T : Config α H B) (n : U32) (h : List (Record α H B)) : List (Record α H B) :=
  h.takeWhile fun e => decide ((submission T e).map (fun x => x.2.number) ≠ some n)

/-- The signatures of `header`, stored at number `n`, were made in the step `e` by the validator
selected for that block. -/
def SignedIn (T : Config α H B) (n : U32) (header : GhostBlockHeader H) (e : Record α H B) : Prop :=
  ∃ validator sig, validation T e = some (validator, n, sig) ∧
    selectedValidator T e.1 n = some validator ∧
    header.validatorSignature = some (signature T validator n) ∧ header.pqcSignature = some sig

/-- Every signature stored was made since the block was submitted. -/
def Genuine (T : Config α H B) (h : List (Record α H B)) (s : State α H B) : Prop :=
  ∀ n header, s.blockHeaders n = some header →
    header.validatorSignature.isSome = true ∨ header.pqcSignature.isSome = true →
    ∃ e ∈ sinceSubmission T n h, SignedIn T n header e

/-- A header without signatures. -/
def Unsigned (header : GhostBlockHeader H) : Prop :=
  header.validatorSignature = none ∧ header.pqcSignature = none

instance (header : GhostBlockHeader H) : Decidable (Unsigned header) :=
  inferInstanceAs (Decidable (_ ∧ _))

/-- A header that the guards of `submit_block` let pass has no signatures. -/
def SubmitsUnsigned (T : Config α H B) (s : State α H B) (a : Action α H) : Prop :=
  ∀ c ∈ offered T s a, Unsigned c.2

instance (T : Config α H B) (s : State α H B) (a : Action α H) : Decidable (SubmitsUnsigned T s a) :=
  inferInstanceAs (Decidable (∀ _ ∈ offered T s a, _))

omit [AccountId α] [DecidableEq H] in
theorem Unsigned.not_signed {header : GhostBlockHeader H} (h : Unsigned header) :
    ¬(header.validatorSignature.isSome = true ∨ header.pqcSignature.isSome = true) := by
  rw [h.1, h.2]
  simp

theorem sinceSubmission_cons {e : Record α H B} {n : U32} (h : List (Record α H B))
    (hne : (submission T e).map (fun x => x.2.number) ≠ some n) :
    sinceSubmission T n (e :: h) = e :: sinceSubmission T n h := by
  rw [sinceSubmission, List.takeWhile_cons]
  exact if_pos (decide_eq_true hne)

theorem Genuine.step {h : List (Record α H B)} {s s' : State α H B} {a : Action α H}
    (hs : Genuine T h s) (hunsigned : SubmitsUnsigned T s a) (hstep : step T s a = some s') :
    Genuine T ((s, a) :: h) s' := by
  intro n header hheader hsigned
  -- a header that is not written in this step keeps its witness
  have hold : (submission T (s, a)).map (fun x => x.2.number) ≠ some n →
      s.blockHeaders n = some header →
      ∃ e ∈ sinceSubmission T n ((s, a) :: h), SignedIn T n header e := by
    intro hne hget
    obtain ⟨e, he, hin⟩ := hs n header hget hsigned
    exact ⟨e, sinceSubmission_cons h hne ▸ List.mem_cons_of_mem _ he, hin⟩
  cases step_chain hstep with
  | @accepted miner header' parent ha hsub _ haccepts =>
    rw [acceptBlock_blockHeaders, StorageMap.insert_eq_some] at hheader
    rcases hheader with ⟨-, rfl⟩ | ⟨hne, hget⟩
    · have hnone : Unsigned header' := hunsigned _ (ha ▸ haccepts.mem_offered)
      exact absurd hsigned hnone.not_signed
    · refine hold ?_ hget
      rw [hsub]
      exact fun h => hne (Option.some.inj h).symm
  | @closed validator _ m sig header' _ _ _ ha hsub hval hcloses =>
    have hne : (submission T (s, a)).map (fun x => x.2.number) ≠ some n := by
      rw [hsub]
      exact fun h => by cases h
    rw [closedState_blockHeaders, StorageMap.insert_eq_some] at hheader
    rcases hheader with ⟨rfl, rfl⟩ | ⟨-, hget⟩
    · refine ⟨(s, a), ?_, validator, sig, hval, hcloses.selectedValidator_eq, rfl, rfl⟩
      rw [sinceSubmission_cons h hne]
      exact List.mem_cons_self
    · exact hold hne hget
  | reopened _ _ hsub =>
    exact hold (by rw [hsub]; exact fun h => by cases h) hheader
  | unchanged hsub _ _ hsame =>
    exact hold (by rw [hsub]; exact fun h => by cases h) (hsame.blockHeaders ▸ hheader)

/-- In every run from an unsigned header at number `0` whose submitted headers are unsigned, every
stored signature was made by a selected validator since the block was submitted. -/
theorem run_genuine {s₀ s : State α H B} {h : List (Record α H B)} {header₀ : GhostBlockHeader H}
    (run : Run (step T) s₀ h s) (stored : s₀.blockHeaders = StorageMap.empty.insert 0 header₀)
    (unsigned : Unsigned header₀) (submits : ∀ e ∈ h, SubmitsUnsigned T e.1 e.2) :
    Genuine T h s := by
  refine run.history_invariant (I := Genuine T) ?_ submits fun _ _ _ _ _ hs hsubmits hstep =>
    hs.step hsubmits hstep
  intro n header hheader hsigned
  rw [stored, StorageMap.insert_eq_some] at hheader
  rcases hheader with ⟨-, rfl⟩ | ⟨-, hnone⟩
  · exact absurd hsigned unsigned.not_signed
  · cases hnone

theorem run_genuine_devRound :
    ∃ h s, Run (step devConfig) devState h s ∧
      s.blockHeaders 1 = some (signHeader devConfig devBlock 1 1 ⟨0⟩) ∧ Genuine devConfig h s := by
  obtain ⟨h, s, run, hcheck⟩ := exists_run_of_exec (step devConfig) devState devRound
    (fun r => decide (r.2.blockHeaders 1 = some (signHeader devConfig devBlock 1 1 ⟨0⟩) ∧
      ∀ e ∈ r.1, SubmitsUnsigned devConfig e.1 e.2)) (by decide +kernel)
  obtain ⟨hstored, hsubmits⟩ := of_decide_eq_true hcheck
  exact ⟨h, s, run, hstored, run_genuine run rfl ⟨rfl, rfl⟩ hsubmits⟩

/-- A miner submits a block with a validator signature of its own making, and it is stored. -/
theorem not_genuine :
    ∃ h s, Run (step devConfig) devState h s ∧
      devState.blockHeaders = StorageMap.empty.insert 0 devHeader ∧ Unsigned devHeader ∧
      ¬Genuine devConfig h s := by
  obtain ⟨h, s, run, hcheck⟩ := exists_run_of_exec (step devConfig) devState
    [.dispatch (.signed 2) (.submitBlock { devBlock with validatorSignature := some [] })]
    (fun r => decide ((∃ header ∈ r.2.blockHeaders 1, header.validatorSignature.isSome = true) ∧
      ∀ e ∈ r.1, validation devConfig e = none)) (by decide +kernel)
  obtain ⟨⟨header, hheader, hsigned⟩, hnone⟩ := of_decide_eq_true hcheck
  refine ⟨h, s, run, rfl, ⟨rfl, rfl⟩, fun hgenuine => ?_⟩
  obtain ⟨e, he, _, _, hval, -⟩ := hgenuine 1 header hheader (Or.inl hsigned)
  rw [hnone e ((List.takeWhile_sublist _).subset he)] at hval
  cases hval

end GhostConsensus
