import Mathlib.Data.List.Pairwise
import Mathlib.Data.List.Perm.Lattice
import Mathlib.Logic.Embedding.Basic
import Mathlib.Order.Defs.LinearOrder
import Mathlib.Algebra.GroupWithZero.Nat
import Mathlib.Algebra.Order.BigOperators.Group.List
import Mathlib.Algebra.Order.Group.Nat
import Mathlib.Tactic.Common

/-!
# Finite maps with an iteration order

A map from `K` to `V` whose entries are kept in the order of an injective sort key, the order in
which the map is iterated. The well-formedness of the entry list is a field of the structure.
The lemmas describe lookup after insertion, the correspondence between the entries and lookup,
and how the total of a weight over the values (`total`) changes with an insertion.
-/

/-- A finite map iterated in the order of `key`. -/
structure OrderedMap (K V : Type*) {ι : Type*} [LinearOrder ι] (key : K ↪ ι) where
  /-- The entries, in iteration order. -/
  iter : List (K × V)
  sorted : iter.Pairwise fun e e' => key e.1 < key e'.1

namespace OrderedMap

variable {K V ι : Type*} [LinearOrder ι] {key : K ↪ ι}

/-! ## Entry lists -/

/-- Insert into a sorted entry list, replacing the entry with the same key. -/
def insertEntry (key : K ↪ ι) (k : K) (v : V) : List (K × V) → List (K × V)
  | [] => [(k, v)]
  | e :: l =>
    if key k < key e.1 then (k, v) :: e :: l
    else if key k = key e.1 then (k, v) :: l
    else e :: insertEntry key k v l

/-- The value of the first entry with key `k`. -/
def lookup (key : K ↪ ι) (k : K) : List (K × V) → Option V
  | [] => none
  | e :: l => if key e.1 = key k then some e.2 else lookup key k l

theorem mem_insertEntry {k : K} {v : V} {e : K × V} {l : List (K × V)}
    (h : e ∈ insertEntry key k v l) : e = (k, v) ∨ e ∈ l := by
  induction l with
  | nil => exact Or.inl (List.mem_singleton.1 h)
  | cons e' l ih =>
    rw [insertEntry] at h
    split_ifs at h
    · exact List.mem_cons.1 h
    · rcases List.mem_cons.1 h with h | h
      · exact Or.inl h
      · exact Or.inr (List.mem_cons_of_mem _ h)
    · rcases List.mem_cons.1 h with h | h
      · exact Or.inr (h ▸ List.mem_cons_self)
      · exact (ih h).imp_right (List.mem_cons_of_mem _)

theorem pairwise_insertEntry (k : K) (v : V) {l : List (K × V)}
    (h : l.Pairwise fun e e' => key e.1 < key e'.1) :
    (insertEntry key k v l).Pairwise fun e e' => key e.1 < key e'.1 := by
  induction l with
  | nil => exact List.pairwise_singleton _ _
  | cons e l ih =>
    obtain ⟨he, hl⟩ := List.pairwise_cons.1 h
    rw [insertEntry]
    split_ifs with hlt heq
    · refine List.pairwise_cons.2 ⟨fun e' he' => ?_, h⟩
      rcases List.mem_cons.1 he' with rfl | he'
      · exact hlt
      · exact hlt.trans (he e' he')
    · exact List.pairwise_cons.2 ⟨fun e' he' => by simpa only [heq] using he e' he', hl⟩
    · refine List.pairwise_cons.2 ⟨fun e' he' => ?_, ih hl⟩
      rcases mem_insertEntry he' with rfl | he'
      · exact lt_of_le_of_ne (not_lt.1 hlt) (Ne.symm heq)
      · exact he e' he'

theorem lookup_insertEntry_self (k : K) (v : V) (l : List (K × V)) :
    lookup key k (insertEntry key k v l) = some v := by
  induction l with
  | nil => simp [insertEntry, lookup]
  | cons e l ih =>
    rw [insertEntry]
    split_ifs with hlt heq
    · simp [lookup]
    · simp [lookup]
    · rw [lookup, if_neg (Ne.symm heq), ih]

theorem lookup_insertEntry_of_ne {k k' : K} (hk : k' ≠ k) (v : V) (l : List (K × V)) :
    lookup key k' (insertEntry key k v l) = lookup key k' l := by
  induction l with
  | nil => simp [insertEntry, lookup, hk.symm]
  | cons e l ih =>
    have hne : key k ≠ key k' := fun h => hk (key.injective h).symm
    rw [insertEntry]
    split_ifs with hlt heq
    · rw [lookup, if_neg hne]
    · rw [lookup, if_neg hne, lookup, if_neg (heq ▸ hne)]
    · rw [lookup, lookup, ih]

theorem lookup_eq_none_of_lt {k : K} {l : List (K × V)} (h : ∀ e ∈ l, key k < key e.1) :
    lookup key k l = none := by
  induction l with
  | nil => rfl
  | cons e l ih =>
    rw [lookup, if_neg (h e List.mem_cons_self).ne']
    exact ih fun e' he' => h e' (List.mem_cons_of_mem _ he')

theorem mem_iff_lookup_eq_some {k : K} {v : V} {l : List (K × V)}
    (h : l.Pairwise fun e e' => key e.1 < key e'.1) : (k, v) ∈ l ↔ lookup key k l = some v := by
  induction l with
  | nil => simp [lookup]
  | cons e l ih =>
    obtain ⟨he, hl⟩ := List.pairwise_cons.1 h
    rw [lookup, List.mem_cons, ih hl]
    by_cases hk : key e.1 = key k
    · have hnone : lookup key k l = none :=
        lookup_eq_none_of_lt fun e' he' => hk ▸ he e' he'
      rw [if_pos hk, hnone, Option.some.injEq]
      constructor
      · rintro (rfl | h)
        · rfl
        · cases h
      · rintro rfl
        exact Or.inl (Prod.ext (key.injective hk.symm) rfl)
    · rw [if_neg hk, or_iff_right]
      rintro rfl
      exact hk rfl

/-- An insertion trades the weight of the old value for the weight of the new one. -/
theorem sum_insertEntry (f : V → ℕ) (k : K) (v : V) {l : List (K × V)}
    (h : l.Pairwise fun e e' => key e.1 < key e'.1) :
    ((insertEntry key k v l).map fun e => f e.2).sum + (lookup key k l).elim 0 f =
      (l.map fun e => f e.2).sum + f v := by
  induction l with
  | nil => simp [insertEntry, lookup]
  | cons e l ih =>
    obtain ⟨he, hl⟩ := List.pairwise_cons.1 h
    rw [insertEntry]
    by_cases hlt : key k < key e.1
    · have hnone : lookup key k (e :: l) = none := by
        refine lookup_eq_none_of_lt fun e' he' => ?_
        rcases List.mem_cons.1 he' with rfl | he'
        · exact hlt
        · exact hlt.trans (he e' he')
      rw [if_pos hlt, hnone]
      simp only [List.map_cons, List.sum_cons, Option.elim_none]
      omega
    · rw [if_neg hlt, lookup]
      by_cases heq : key k = key e.1
      · rw [if_pos heq, if_pos heq.symm]
        simp only [List.map_cons, List.sum_cons, Option.elim_some]
        omega
      · rw [if_neg heq, if_neg (Ne.symm heq)]
        have hrest := ih hl
        simp only [List.map_cons, List.sum_cons]
        omega

/-! ## Maps -/

/-- The map without entries. -/
def empty : OrderedMap K V key := ⟨[], List.Pairwise.nil⟩

instance : EmptyCollection (OrderedMap K V key) := ⟨empty⟩

/-- The value stored under `k`. -/
def get (m : OrderedMap K V key) (k : K) : Option V := lookup key k m.iter

/-- Store `v` under `k`. -/
def insert (m : OrderedMap K V key) (k : K) (v : V) : OrderedMap K V key :=
  ⟨insertEntry key k v m.iter, pairwise_insertEntry k v m.sorted⟩

/-- Whether a value is stored under `k`. -/
def containsKey (m : OrderedMap K V key) (k : K) : Bool := (m.get k).isSome

/-- The total weight of the values. -/
def total (m : OrderedMap K V key) (f : V → ℕ) : ℕ := (m.iter.map fun e => f e.2).sum

variable (m : OrderedMap K V key)

@[simp]
theorem get_insert_self (k : K) (v : V) : (m.insert k v).get k = some v :=
  lookup_insertEntry_self k v m.iter

theorem get_insert_of_ne {k k' : K} (h : k' ≠ k) (v : V) : (m.insert k v).get k' = m.get k' :=
  lookup_insertEntry_of_ne h v m.iter

theorem get_insert [DecidableEq K] (k k' : K) (v : V) :
    (m.insert k v).get k' = if k' = k then some v else m.get k' := by
  split_ifs with h
  · rw [h, get_insert_self]
  · exact m.get_insert_of_ne h v

theorem mem_iter {k : K} {v : V} : (k, v) ∈ m.iter ↔ m.get k = some v :=
  mem_iff_lookup_eq_some m.sorted

theorem containsKey_eq_true {k : K} : m.containsKey k = true ↔ ∃ v, m.get k = some v :=
  Option.isSome_iff_exists

/-- Insertion trades the weight of the old value for the weight of the new one. -/
theorem total_insert (f : V → ℕ) (k : K) (v : V) :
    (m.insert k v).total f + (m.get k).elim 0 f = m.total f + f v :=
  sum_insertEntry f k v m.sorted

theorem le_total {f : V → ℕ} {k : K} {v : V} (h : m.get k = some v) : f v ≤ m.total f :=
  List.le_sum_of_mem (List.mem_map.2 ⟨(k, v), m.mem_iter.2 h, rfl⟩)

/-- The keys of the entries are pairwise distinct. -/
theorem nodup_keys : (m.iter.map Prod.fst).Nodup := by
  refine List.Pairwise.map _ (fun e e' h => ?_) m.sorted
  exact fun heq => h.ne (congrArg key heq)

/-- Two maps that store the same values are the same. -/
theorem ext_get {m m' : OrderedMap K V key} (h : ∀ k, m.get k = m'.get k) : m = m' := by
  have hmem : ∀ e, e ∈ m.iter ↔ e ∈ m'.iter := by
    rintro ⟨k, v⟩
    rw [m.mem_iter, m'.mem_iter, h]
  have hnodup : ∀ m : OrderedMap K V key, m.iter.Nodup := fun m => List.Nodup.of_map _ m.nodup_keys
  have hperm : m.iter.Perm m'.iter := (List.perm_ext_iff_of_nodup (hnodup m) (hnodup m')).2 hmem
  have hiter : m.iter = m'.iter :=
    hperm.eq_of_pairwise (fun _ _ _ _ hlt hgt => absurd hgt (lt_asymm hlt)) m.sorted m'.sorted
  obtain ⟨iter, sorted⟩ := m
  cases hiter
  rfl

theorem insert_comm {k k' : K} (hne : k ≠ k') (v v' : V) :
    (m.insert k v).insert k' v' = (m.insert k' v').insert k v := by
  classical
  apply ext_get
  intro j
  rw [get_insert, get_insert, get_insert, get_insert]
  by_cases hj : j = k
  · rw [if_pos hj, if_pos hj, if_neg (hj ▸ hne)]
  · rw [if_neg hj, if_neg hj]

/-- A map with no keys but those of another map and those in a list has no more entries. -/
theorem length_iter_le {m' : OrderedMap K V key} {l : List K}
    (h : ∀ k, m.containsKey k = true → m'.containsKey k = true ∨ k ∈ l) :
    m.iter.length ≤ m'.iter.length + l.length := by
  have hsubset : m.iter.map Prod.fst ⊆ m'.iter.map Prod.fst ++ l := by
    intro k hk
    obtain ⟨e, he, rfl⟩ := List.mem_map.1 hk
    rw [List.mem_append]
    refine (h e.1 (m.containsKey_eq_true.2 ⟨e.2, m.mem_iter.1 he⟩)).imp_left fun hkey => ?_
    obtain ⟨v, hv⟩ := m'.containsKey_eq_true.1 hkey
    exact List.mem_map.2 ⟨(e.1, v), m'.mem_iter.2 hv, rfl⟩
  have hle := (List.subperm_of_subset m.nodup_keys hsubset).length_le
  rwa [List.length_append, List.length_map, List.length_map] at hle

/-! ## Loops over the entries -/

section Loop

variable {σ ε ω : Type*} {f : σ → K × V → Except ε σ} {g : σ → K → ω} {R : K × V → ω → ω → Prop}

/-- A loop whose body acts, for an entry, on the part of the state at the key of that entry only:
over entries with distinct keys it acts once on the part at each of them, and on no other part. -/
theorem foldlM_keyed (self : ∀ {s s' e}, f s e = .ok s' → R e (g s e.1) (g s' e.1))
    (other : ∀ {s s' e k}, f s e = .ok s' → k ≠ e.1 → g s' k = g s k) :
    ∀ {l : List (K × V)} {s s' : σ}, (l.map Prod.fst).Nodup → l.foldlM f s = .ok s' →
      (∀ e ∈ l, R e (g s e.1) (g s' e.1)) ∧ ∀ k, k ∉ l.map Prod.fst → g s' k = g s k
  | [], s, s', _, h => by
      obtain rfl := Except.ok.inj h
      exact ⟨fun _ he => (List.not_mem_nil he).elim, fun _ _ => rfl⟩
  | e :: l, s, s', hnodup, h => by
      rw [List.map_cons, List.nodup_cons] at hnodup
      rw [List.foldlM_cons] at h
      cases hbody : f s e with
      | error _ =>
        rw [hbody] at h
        cases h
      | ok t =>
        rw [hbody] at h
        obtain ⟨hl, hrest⟩ := foldlM_keyed self other hnodup.2 h
        refine ⟨fun d hd => ?_, fun k hk => ?_⟩
        · rcases List.mem_cons.1 hd with rfl | hd
          · rw [hrest d.1 hnodup.1]
            exact self hbody
          · have hne : d.1 ≠ e.1 := fun heq => hnodup.1 (heq ▸ List.mem_map_of_mem hd)
            rw [← other hbody hne]
            exact hl d hd
        · rw [List.map_cons, List.mem_cons, not_or] at hk
          rw [hrest k hk.2, other hbody hk.1]

/-- The same for the loop over a map: it acts on the part at each stored key. -/
theorem foldlM_iter (self : ∀ {s s' e}, f s e = .ok s' → R e (g s e.1) (g s' e.1))
    (other : ∀ {s s' e k}, f s e = .ok s' → k ≠ e.1 → g s' k = g s k) {s s' : σ}
    (h : m.iter.foldlM f s = .ok s') (k : K) :
    (∀ v, m.get k = some v → R (k, v) (g s k) (g s' k)) ∧
      (m.get k = none → g s' k = g s k) := by
  obtain ⟨hstored, hrest⟩ := foldlM_keyed self other m.nodup_keys h
  refine ⟨fun v hv => hstored (k, v) (m.mem_iter.2 hv), fun hnone => hrest k fun hmem => ?_⟩
  obtain ⟨e, he, rfl⟩ := List.mem_map.1 hmem
  rw [m.mem_iter.1 he] at hnone
  cases hnone

end Loop

end OrderedMap
