import Mathlib.Data.Finset.Card
import Mathlib.Data.List.Nodup
import Mathlib.Order.Defs.LinearOrder

/-! # The largest entries of a pool, in any tie order

`IsTopK score pool n chosen` says that the list `chosen` holds `n` entries of largest score: no
entry left out scores more than one taken.  Ties at the last level may be broken either way, so an
entry `c` can be taken without an entry `p` of no smaller score exactly when the two scores are
equal and the cut falls inside their level: fewer than `n` entries score more, and more than `n`
score at least as much (`exists_isTopK_iff`).
-/
namespace LargestEntries
variable {ι K : Type*} [LinearOrder K]

/-- A choice of `n` largest entries, in any order. -/
structure IsTopK (score : ι → K) (pool : Finset ι) (n : ℕ) (chosen : List ι) : Prop where
  length : chosen.length = n
  nodup : chosen.Nodup
  mem : ∀ i ∈ chosen, i ∈ pool
  largest : ∀ i ∈ chosen, ∀ j ∈ pool, j ∉ chosen → score j ≤ score i

/-- The entries that score more than `x`. -/
def above (score : ι → K) (pool : Finset ι) (x : K) : Finset ι := pool.filter fun i => x < score i

/-- The entries that score at least `x`. -/
def atLeast (score : ι → K) (pool : Finset ι) (x : K) : Finset ι :=
  pool.filter fun i => x ≤ score i

/-- The cut after `n` entries falls inside the level of the entries that score `x`. -/
def CutsLevel (score : ι → K) (pool : Finset ι) (n : ℕ) (x : K) : Prop :=
  (above score pool x).card < n ∧ n < (atLeast score pool x).card

variable {score : ι → K} {pool : Finset ι} {n : ℕ} {c p : ι} {chosen : List ι}

theorem mem_above {x : K} {i : ι} : i ∈ above score pool x ↔ i ∈ pool ∧ x < score i :=
  Finset.mem_filter

theorem mem_atLeast {x : K} {i : ι} : i ∈ atLeast score pool x ↔ i ∈ pool ∧ x ≤ score i :=
  Finset.mem_filter

theorem above_subset_atLeast (score : ι → K) (pool : Finset ι) (x : K) :
    above score pool x ⊆ atLeast score pool x := by
  intro i hi
  rw [mem_above] at hi
  exact mem_atLeast.mpr ⟨hi.1, hi.2.le⟩

/-- Only the scores of the pool count. -/
theorem IsTopK.congr {score' : ι → K} (h : IsTopK score pool n chosen)
    (heq : ∀ i ∈ pool, score' i = score i) : IsTopK score' pool n chosen := by
  refine ⟨h.length, h.nodup, h.mem, fun i hi j hj hnot => ?_⟩
  rw [heq i (h.mem i hi), heq j hj]
  exact h.largest i hi j hj hnot

variable [DecidableEq ι]

theorem IsTopK.card (h : IsTopK score pool n chosen) : chosen.toFinset.card = n := by
  rw [List.toFinset_card_of_nodup h.nodup, h.length]

/-- An entry taken and one left out that scores as much: the cut falls inside their level. -/
theorem IsTopK.cutsLevel (h : IsTopK score pool n chosen) (hc : c ∈ chosen) (hp : p ∈ pool)
    (hnot : p ∉ chosen) (hle : score c ≤ score p) :
    score p = score c ∧ CutsLevel score pool n (score c) := by
  have heq : score p = score c := le_antisymm (h.largest c hc p hp hnot) hle
  refine ⟨heq, ?_, ?_⟩
  · -- everything above the level is taken, and so is `c`
    have hsub : insert c (above score pool (score c)) ⊆ chosen.toFinset := by
      intro i hi
      rw [List.mem_toFinset]
      rcases Finset.mem_insert.mp hi with rfl | hi
      · exact hc
      · obtain ⟨hpool, hlt⟩ := mem_above.mp hi
        by_contra hout
        exact absurd (h.largest c hc i hpool hout) (not_le.mpr hlt)
    have hfresh : c ∉ above score pool (score c) := fun hmem => lt_irrefl _ (mem_above.mp hmem).2
    have hcard := Finset.card_le_card hsub
    rw [Finset.card_insert_of_notMem hfresh, h.card] at hcard
    omega
  · -- everything taken is on the level or above it, and `p` is there too
    have hsub : insert p chosen.toFinset ⊆ atLeast score pool (score c) := by
      intro i hi
      rcases Finset.mem_insert.mp hi with rfl | hi
      · exact mem_atLeast.mpr ⟨hp, hle⟩
      · have hi' := List.mem_toFinset.mp hi
        refine mem_atLeast.mpr ⟨h.mem i hi', ?_⟩
        rw [← heq]
        exact h.largest i hi' p hp hnot
    have hfresh : p ∉ chosen.toFinset := fun hmem => hnot (List.mem_toFinset.mp hmem)
    have hcard := Finset.card_le_card hsub
    rw [Finset.card_insert_of_notMem hfresh, h.card] at hcard
    omega

/-- **When one entry can be taken without another** that scores at least as much. -/
theorem exists_isTopK_iff (hc : c ∈ pool) (hp : p ∈ pool) (hne : c ≠ p)
    (hle : score c ≤ score p) :
    (∃ chosen, IsTopK score pool n chosen ∧ c ∈ chosen ∧ p ∉ chosen) ↔
      score p = score c ∧ CutsLevel score pool n (score c) := by
  constructor
  · rintro ⟨chosen, h, hcmem, hpmem⟩
    exact h.cutsLevel hcmem hp hpmem hle
  · rintro ⟨heq, habove, hatLeast⟩
    set x := score c with hx
    -- everything above the level, `c`, and enough of the level without `p`
    have hfresh : c ∉ above score pool x := fun hmem => lt_irrefl _ (mem_above.mp hmem).2
    have hsub : insert c (above score pool x) ⊆ (atLeast score pool x).erase p := by
      intro i hi
      rcases Finset.mem_insert.mp hi with rfl | hi
      · exact Finset.mem_erase.mpr ⟨hne, mem_atLeast.mpr ⟨hc, hx.le⟩⟩
      · refine Finset.mem_erase.mpr ⟨?_, above_subset_atLeast score pool x hi⟩
        rintro rfl
        exact absurd (mem_above.mp hi).2 (not_lt.mpr heq.le)
    have hlow : (insert c (above score pool x)).card ≤ n := by
      rw [Finset.card_insert_of_notMem hfresh]
      omega
    have hhigh : n ≤ ((atLeast score pool x).erase p).card := by
      rw [Finset.card_erase_of_mem (mem_atLeast.mpr ⟨hp, heq.ge⟩)]
      omega
    obtain ⟨taken, hin, hout, hcard⟩ := Finset.exists_subsuperset_card_eq hsub hlow hhigh
    refine ⟨taken.toList, ⟨?_, taken.nodup_toList, ?_, ?_⟩, ?_, ?_⟩
    · rw [Finset.length_toList, hcard]
    · intro i hi
      have hmem := Finset.mem_of_mem_erase (hout (Finset.mem_toList.mp hi))
      exact (mem_atLeast.mp hmem).1
    · intro i hi j hj hnot
      have hi' := mem_atLeast.mp (Finset.mem_of_mem_erase (hout (Finset.mem_toList.mp hi)))
      have hj' : j ∉ above score pool x := fun hmem =>
        hnot (Finset.mem_toList.mpr (hin (Finset.mem_insert_of_mem hmem)))
      have hlow : score j ≤ x := by
        by_contra hlt
        exact hj' (mem_above.mpr ⟨hj, not_le.mp hlt⟩)
      exact hlow.trans hi'.2
    · exact Finset.mem_toList.mpr (hin (Finset.mem_insert_self c _))
    · intro hmem
      exact Finset.notMem_erase p _ (hout (Finset.mem_toList.mp hmem))

end LargestEntries
