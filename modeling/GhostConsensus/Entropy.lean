import GhostConsensus.Logarithm
import GhostConsensus.Lib.Entropy

/-!
# The entropy of the block producers

What `calculate_entropy` computes on a list of at most a million producers: the rounded entropy of
the list in millionths of a bit, without overflow or saturation.
-/

namespace GhostConsensus

open MachineInt LinLog

variable {α H B : Type} [AccountId α] (T : Config α H B)

/-! ## Counting -/

/-- The map holds exactly the elements of the list, each with how often it occurs. -/
def CountsOf (counts : BTreeMap α U64) (l : List α) : Prop :=
  ∀ x, counts.get x = if x ∈ l then some (BitVec.ofNat 64 (l.count x)) else none

section Counting

variable {counts : BTreeMap α U64} {l : List α}

theorem CountsOf.getD (h : CountsOf counts l) (a : α) :
    (counts.get a).getD 0 = BitVec.ofNat 64 (l.count a) := by
  rw [h a]
  by_cases ha : a ∈ l
  · rw [if_pos ha, Option.getD_some]
  · rw [if_neg ha, Option.getD_none, List.count_eq_zero.2 ha]
    rfl

theorem CountsOf.exists_countProducer (h : CountsOf counts l) {a : α}
    (hlen : (l ++ [a]).length < 2 ^ 64) :
    ∃ counts', countProducer T counts a = .ok counts' ∧ CountsOf counts' (l ++ [a]) := by
  have hcount : l.count a + 1 < 2 ^ 64 := by
    have : l.count a ≤ l.length := List.count_le_length
    rw [List.length_append, List.length_singleton] at hlen
    omega
  have hvalue : (BitVec.ofNat 64 (l.count a)).toNat = l.count a := toNat_ofNat_of_lt (by omega)
  have hadd : addChecked T.overflowChecks (BitVec.ofNat 64 (l.count a)) 1 =
      some (BitVec.ofNat 64 (l.count a + 1)) := by
    rw [addChecked_of_lt _ (by rw [hvalue]; exact hcount), BitVec.ofNat_add]
    rfl
  refine ⟨_, bind_eq_ok.2 ⟨_, orPanic_eq_ok.2 (h.getD a ▸ hadd), rfl⟩, fun x => ?_⟩
  rw [OrderedMap.get_insert]
  by_cases hx : x = a
  · subst hx
    simp
  · rw [if_neg hx, h x]
    simp [hx, List.count_append, Ne.symm hx]

/-- The loop over `rest` counts it on top of the elements counted before. -/
theorem CountsOf.exists_foldlM (h : CountsOf counts l) (rest : List α)
    (hlen : (l ++ rest).length < 2 ^ 64) :
    ∃ counts', rest.foldlM (countProducer T) counts = .ok counts' ∧
      CountsOf counts' (l ++ rest) := by
  induction rest generalizing counts l with
  | nil => exact ⟨counts, rfl, by rwa [List.append_nil]⟩
  | cons a rest ih =>
    rw [List.append_cons] at hlen ⊢
    have hfirst : (l ++ [a]).length < 2 ^ 64 := by
      rw [List.length_append] at hlen
      omega
    obtain ⟨next, hnext, hcounts⟩ := h.exists_countProducer T hfirst
    obtain ⟨last, hlast, hall⟩ := ih hcounts hlen
    refine ⟨last, ?_, hall⟩
    rw [List.foldlM_cons]
    exact bind_eq_ok.2 ⟨next, hnext, hlast⟩

theorem countsOf_nil : CountsOf (∅ : BTreeMap α U64) [] := fun _ => rfl

/-- The counting loop goes through on every list that is not too long. -/
theorem exists_counts (hlen : l.length < 2 ^ 64) :
    ∃ counts, l.foldlM (countProducer T) ∅ = .ok counts ∧ CountsOf counts l :=
  countsOf_nil.exists_foldlM T l hlen

theorem CountsOf.mem_values (h : CountsOf counts l) {c : U64}
    (hc : c ∈ counts.iter.map Prod.snd) : ∃ x ∈ l, c = BitVec.ofNat 64 (l.count x) := by
  obtain ⟨⟨x, v⟩, hentry, rfl⟩ := List.mem_map.1 hc
  have hget := counts.mem_iter.1 hentry
  rw [h x] at hget
  split_ifs at hget with hx
  exact ⟨x, hx, (Option.some.inj hget).symm⟩

/-- A sum over the values is a sum over the distinct elements. -/
theorem CountsOf.sum_values (h : CountsOf counts l) (f : U64 → ℕ) :
    ((counts.iter.map Prod.snd).map f).sum =
      ∑ x ∈ l.toFinset, f (BitVec.ofNat 64 (l.count x)) := by
  have hkeys : (counts.iter.map Prod.fst).toFinset = l.toFinset := by
    ext x
    rw [List.mem_toFinset, List.mem_toFinset, List.mem_map]
    constructor
    · rintro ⟨⟨x, v⟩, hentry, rfl⟩
      have hget := counts.mem_iter.1 hentry
      rw [h x] at hget
      split_ifs at hget with hx
      exact hx
    · intro hx
      refine ⟨(x, BitVec.ofNat 64 (l.count x)), counts.mem_iter.2 ?_, rfl⟩
      rw [h x, if_pos hx]
  rw [← hkeys, List.sum_toFinset _ counts.nodup_keys, List.map_map, List.map_map]
  refine congrArg List.sum (List.map_congr_left fun e hentry => ?_)
  have hget := counts.mem_iter.1 hentry
  rw [h e.1] at hget
  split_ifs at hget with hx
  rw [Function.comp_apply, Function.comp_apply, Option.some.inj hget]

end Counting

/-! ## Summing -/

/-- `addEntropyTerm` where an operation that would saturate panics, as one that overflows does. -/
def addEntropyTermStrict (log2Total totalCount totalEntropy count : U64) : Except Failure U64 := do
  let log2Count ← integerLog2Scaled T.checked count
  let gain ← orPanic (subChecked true log2Total log2Count)
  let product ← orPanic (mulChecked true count gain)
  let term ← orPanic (divChecked product totalCount)
  orPanic (addChecked true totalEntropy term)

/-- `calculateEntropy` where every operation that would overflow or saturate panics. -/
def calculateEntropyStrict (producers : List α) : Except Failure U64 :=
  let totalCount := BitVec.ofNat 64 producers.length
  if totalCount = 0 then .ok 0
  else do
    let counts ← producers.foldlM (countProducer T.checked) ∅
    let log2Total ← integerLog2Scaled T.checked totalCount
    (counts.iter.map Prod.snd).foldlM (addEntropyTermStrict T log2Total totalCount) 0

omit [AccountId α] in
theorem addEntropyTerm_of_strict {log2Total totalCount totalEntropy count r : U64}
    (h : addEntropyTermStrict T log2Total totalCount totalEntropy count = .ok r) :
    addEntropyTerm T log2Total totalCount totalEntropy count = .ok r := by
  obtain ⟨log2Count, hlog, h⟩ := bind_eq_ok.1 h
  obtain ⟨gain, hgain, h⟩ := bind_eq_ok.1 h
  obtain ⟨product, hproduct, h⟩ := bind_eq_ok.1 h
  obtain ⟨term, hterm, h⟩ := bind_eq_ok.1 h
  rw [orPanic_eq_ok] at hgain hproduct h
  refine bind_eq_ok.2 ⟨log2Count, integerLog2Scaled_of_checked T hlog, ?_⟩
  rw [saturatingSub_of_subChecked hgain]
  refine bind_eq_ok.2 ⟨product, orPanic_eq_ok.2 (mulChecked_of_true _ hproduct), ?_⟩
  exact bind_eq_ok.2 ⟨term, hterm, pure_eq_ok.2 (saturatingAdd_of_addChecked h)⟩

theorem countProducer_of_checked {counts counts' : BTreeMap α U64} {producer : α}
    (h : countProducer T.checked counts producer = .ok counts') :
    countProducer T counts producer = .ok counts' := by
  obtain ⟨count, hcount, h⟩ := bind_eq_ok.1 h
  rw [orPanic_eq_ok] at hcount
  exact bind_eq_ok.2 ⟨count, orPanic_eq_ok.2 (addChecked_of_true _ hcount), h⟩

/-- Where nothing overflows or saturates, neither overflow checks nor saturation matter. -/
theorem calculateEntropy_of_strict {producers : List α} {e : U64}
    (h : calculateEntropyStrict T producers = .ok e) : calculateEntropy T producers = .ok e := by
  unfold calculateEntropyStrict at h
  unfold calculateEntropy
  by_cases hzero : BitVec.ofNat 64 producers.length = 0
  · simp only [if_pos hzero] at h ⊢
    exact h
  · simp only [if_neg hzero] at h ⊢
    obtain ⟨counts, hcounts, h⟩ := bind_eq_ok.1 h
    obtain ⟨log2Total, hlog, h⟩ := bind_eq_ok.1 h
    refine bind_eq_ok.2 ⟨counts, foldlM_eq_ok_of_imp (countProducer_of_checked T) hcounts, ?_⟩
    refine bind_eq_ok.2 ⟨log2Total, integerLog2Scaled_of_checked T hlog, ?_⟩
    exact foldlM_eq_ok_of_imp (addEntropyTerm_of_strict T) h

section Summing

omit [AccountId α]

theorem toNat_ofNat_of_le {n : ℕ} (h : n ≤ 20000000) : (BitVec.ofNat 64 n).toNat = n :=
  toNat_ofNat_of_lt (by omega)

theorem linLog_le {n : ℕ} (h : n ≤ 1000000) : linLog 1000000 n ≤ 20000000 :=
  linLog_le_mul 1000000 (k := 20) (by omega)

/-- A loop whose steps add to a sum that fits computes the sum. -/
theorem foldlM_eq_ok_of_add {f : U64 → U64 → Except Failure U64} {g : U64 → ℕ} {bound : ℕ} :
    ∀ {l : List U64} {init : ℕ},
      (∀ c ∈ l, ∀ n, n + g c ≤ bound → f (BitVec.ofNat 64 n) c = .ok (BitVec.ofNat 64 (n + g c))) →
      init + (l.map g).sum ≤ bound →
      l.foldlM f (BitVec.ofNat 64 init) = .ok (BitVec.ofNat 64 (init + (l.map g).sum))
  | [], _, _, _ => rfl
  | c :: l, init, hstep, hbound => by
      rw [List.map_cons, List.sum_cons, ← Nat.add_assoc] at hbound ⊢
      have hfirst := hstep c List.mem_cons_self init (by omega)
      have hrest := foldlM_eq_ok_of_add (fun d hd => hstep d (List.mem_cons_of_mem _ hd)) hbound
      rw [List.foldlM_cons]
      exact bind_eq_ok.2 ⟨_, hfirst, hrest⟩

variable {total count : ℕ}

/-- The product of one contribution fits, and its quotient is the contribution. -/
theorem product_spec (hpos : 0 < count) (hle : count ≤ total) (hmillion : total ≤ 1000000) :
    (BitVec.ofNat 64 count).toNat *
        (BitVec.ofNat 64 (linLog 1000000 total - linLog 1000000 count)).toNat < 2 ^ 64 ∧
      BitVec.ofNat 64 count * BitVec.ofNat 64 (linLog 1000000 total - linLog 1000000 count) /
        BitVec.ofNat 64 total = BitVec.ofNat 64 (Entropy.part 1000000 total count) := by
  have hlog := linLog_le hmillion
  have hcount := toNat_ofNat_of_le (n := count) (by omega)
  have htotal := toNat_ofNat_of_le (n := total) (by omega)
  have hgain := toNat_ofNat_of_le (n := linLog 1000000 total - linLog 1000000 count) (by omega)
  have hproduct : count * (linLog 1000000 total - linLog 1000000 count) ≤ 1000000 * 20000000 :=
    Nat.mul_le_mul (by omega) (by omega)
  have hfits : (BitVec.ofNat 64 count).toNat *
      (BitVec.ofNat 64 (linLog 1000000 total - linLog 1000000 count)).toNat < 2 ^ 64 := by
    rw [hcount, hgain]
    omega
  refine ⟨hfits, BitVec.eq_of_toNat_eq ?_⟩
  have hpart : Entropy.part 1000000 total count < 2 ^ 64 := by
    have := Nat.div_le_self (count * (linLog 1000000 total - linLog 1000000 count)) total
    rw [Entropy.part]
    omega
  rw [BitVec.toNat_udiv, toNat_mul_of_lt hfits, hcount, hgain, htotal,
    toNat_ofNat_of_lt hpart]
  rfl

theorem addEntropyTermStrict_eq (hpos : 0 < count) (hle : count ≤ total)
    (hmillion : total ≤ 1000000) {n : ℕ}
    (hn : n + Entropy.part 1000000 total count ≤ 20000000) :
    addEntropyTermStrict T (BitVec.ofNat 64 (linLog 1000000 total)) (BitVec.ofNat 64 total)
        (BitVec.ofNat 64 n) (BitVec.ofNat 64 count) =
      .ok (BitVec.ofNat 64 (n + Entropy.part 1000000 total count)) := by
  have hlog := linLog_le hmillion
  have hmono := linLog_mono 1000000 hle
  obtain ⟨hfits, hquotient⟩ := product_spec hpos hle hmillion
  have htotal : BitVec.ofNat 64 total ≠ 0 := by
    intro h
    have hvalue := toNat_ofNat_of_le (n := total) (by omega)
    rw [h] at hvalue
    exact absurd hvalue (by simp; omega)
  have hlogTotal := toNat_ofNat_of_le hlog
  have hlogCount := toNat_ofNat_of_le (hmono.trans hlog)
  have hgain : subChecked true (BitVec.ofNat 64 (linLog 1000000 total))
      (BitVec.ofNat 64 (linLog 1000000 count)) =
        some (BitVec.ofNat 64 (linLog 1000000 total - linLog 1000000 count)) := by
    rw [subChecked_of_le true (by omega)]
    refine congrArg some (BitVec.eq_of_toNat_eq ?_)
    rw [BitVec.toNat_sub_of_le (BitVec.le_def.2 (by omega)), hlogTotal, hlogCount,
      toNat_ofNat_of_le (by omega)]
  have hsum : (BitVec.ofNat 64 n).toNat +
      (BitVec.ofNat 64 (Entropy.part 1000000 total count)).toNat < 2 ^ 64 := by
    rw [toNat_ofNat_of_le (by omega), toNat_ofNat_of_le (by omega)]
    omega
  refine bind_eq_ok.2 ⟨_, integerLog2Scaled_ofNat T.checked hpos (by omega), ?_⟩
  refine bind_eq_ok.2 ⟨_, orPanic_eq_ok.2 hgain, ?_⟩
  refine bind_eq_ok.2 ⟨_, orPanic_eq_ok.2 (mulChecked_of_lt true hfits), ?_⟩
  refine bind_eq_ok.2 ⟨_, orPanic_eq_ok.2 (divChecked_of_ne _ htotal), orPanic_eq_ok.2 ?_⟩
  rw [hquotient, addChecked_of_lt true hsum, BitVec.ofNat_add]

end Summing

/-! ## The value -/

section Value

variable {l : List α}

theorem approx_le_of_length (hlen : l.length ≤ 1000000) : Entropy.approx 1000000 l ≤ 20000000 :=
  (Entropy.approx_le 1000000 l).trans (linLog_le hlen)

/-- The loop over the values, for a body that adds one contribution. -/
theorem CountsOf.foldlM_terms {counts : BTreeMap α U64} (h : CountsOf counts l)
    (hlen : l.length ≤ 1000000) {f : U64 → U64 → Except Failure U64}
    (hf : ∀ {count n : ℕ}, 0 < count → count ≤ l.length →
      n + Entropy.part 1000000 l.length count ≤ 20000000 →
        f (BitVec.ofNat 64 n) (BitVec.ofNat 64 count) =
          .ok (BitVec.ofNat 64 (n + Entropy.part 1000000 l.length count))) :
    (counts.iter.map Prod.snd).foldlM f 0 = .ok (BitVec.ofNat 64 (Entropy.approx 1000000 l)) := by
  have hcount : ∀ x, (BitVec.ofNat 64 (l.count x)).toNat = l.count x := by
    intro x
    have : l.count x ≤ l.length := List.count_le_length
    exact toNat_ofNat_of_le (by omega)
  have hsum : ((counts.iter.map Prod.snd).map
      fun c => Entropy.part 1000000 l.length c.toNat).sum = Entropy.approx 1000000 l := by
    rw [h.sum_values]
    simp only [hcount]
    rfl
  have hstep : ∀ c ∈ counts.iter.map Prod.snd, ∀ n,
      n + Entropy.part 1000000 l.length c.toNat ≤ 20000000 → f (BitVec.ofNat 64 n) c =
        .ok (BitVec.ofNat 64 (n + Entropy.part 1000000 l.length c.toNat)) := by
    intro c hc n hn
    obtain ⟨x, hx, rfl⟩ := h.mem_values hc
    rw [hcount] at hn ⊢
    exact hf (List.count_pos_iff.2 hx) List.count_le_length hn
  have hbound : 0 + ((counts.iter.map Prod.snd).map
      fun c => Entropy.part 1000000 l.length c.toNat).sum ≤ 20000000 := by
    rw [hsum, Nat.zero_add]
    exact approx_le_of_length hlen
  have hloop := foldlM_eq_ok_of_add hstep hbound
  rwa [hsum, Nat.zero_add] at hloop

omit [AccountId α] in
theorem ofNat_length_ne_zero (hne : l ≠ []) (hlen : l.length ≤ 1000000) :
    BitVec.ofNat 64 l.length ≠ 0 := by
  intro h
  have hpos := List.length_pos_of_ne_nil hne
  have hvalue := toNat_ofNat_of_le (n := l.length) (by omega)
  rw [h] at hvalue
  exact absurd hvalue hpos.ne

theorem calculateEntropyStrict_eq (hlen : l.length ≤ 1000000) :
    calculateEntropyStrict T l = .ok (BitVec.ofNat 64 (Entropy.approx 1000000 l)) := by
  rcases eq_or_ne l [] with rfl | hne
  · rfl
  have hpos := List.length_pos_of_ne_nil hne
  obtain ⟨counts, hloop, hcounts⟩ := exists_counts (l := l) T.checked (by omega)
  rw [calculateEntropyStrict]
  simp only [if_neg (ofNat_length_ne_zero hne hlen)]
  refine bind_eq_ok.2
    ⟨counts, hloop, bind_eq_ok.2 ⟨_, integerLog2Scaled_ofNat T.checked hpos (by omega), ?_⟩⟩
  exact hcounts.foldlM_terms hlen fun hc hle hn => addEntropyTermStrict_eq T hc hle hlen hn

theorem calculateEntropy_eq (hlen : l.length ≤ 1000000) :
    calculateEntropy T l = .ok (BitVec.ofNat 64 (Entropy.approx 1000000 l)) :=
  calculateEntropy_of_strict T (calculateEntropyStrict_eq T hlen)

theorem toNat_ofNat_approx (hlen : l.length ≤ 1000000) :
    (BitVec.ofNat 64 (Entropy.approx 1000000 l)).toNat = Entropy.approx 1000000 l :=
  toNat_ofNat_of_le (approx_le_of_length hlen)

end Value

end GhostConsensus
