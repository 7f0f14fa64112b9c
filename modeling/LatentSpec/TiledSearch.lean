import LatentSpec.Categorical

/-! # Walking a row tile by tile

A kernel reads a row of `n` values in tiles of `bv` lanes, the lanes past the end of
the row reading zero.  It adds the tiles up (`tiledSum`), and it searches the running
totals for the first one above a level, carrying the total from tile to tile and
stopping at the first tile that holds a match (`tiledSearch`).

`tiledSum_eq` and `tiledSearch_eq` say that both agree with the whole row, also when
the last tile is partial.
-/
namespace TiledSearch
open Categorical

variable {K : Type*} [Field K] [LinearOrder K]

/-- `range(0, n, bv)`. -/
def tileStarts (n bv : ℕ) : List ℕ := (List.range ((n + bv - 1) / bv)).map (· * bv)

/-- The lanes of the tile that starts at `start`. -/
def lanes (bv : ℕ) (val : ℕ → K) (start : ℕ) : List K :=
  (List.range bv).map fun i => val (start + i)

/-- The sum of a row, tile by tile. -/
def tiledSum (n bv : ℕ) (val : ℕ → K) : K :=
  (tileStarts n bv).foldl (fun acc start => acc + (lanes bv val start).sum) 0

/-- `cumsum`, started from a running total. -/
def runningTotals (c : K) : List K → List K
  | [] => []
  | w :: ws => (c + w) :: runningTotals (c + w) ws

/-- The variables of the search. -/
structure Scan (K : Type*) where
  cumSum : K
  token : ℕ
  found : Bool

/-- One tile of the search: the first lane whose running total is above the level. -/
def scanTile (bv : ℕ) (val : ℕ → K) (level : K) (s : Scan K) (start : ℕ) : Scan K :=
  if s.found then s
  else
    let vals := lanes bv val start
    match (runningTotals s.cumSum vals).findIdx? (fun c => decide (level < c)) with
    | some lane => ⟨s.cumSum + vals.sum, start + lane, true⟩
    | none => { s with cumSum := s.cumSum + vals.sum }

/-- The search of a row, tile by tile; `fallback` is returned when no total is above
the level. -/
def tiledSearch (n bv : ℕ) (val : ℕ → K) (level : K) (fallback : ℕ) : Scan K :=
  (tileStarts n bv).foldl (scanTile bv val level) ⟨0, fallback, false⟩

theorem findIdx?_runningTotals (c : K) (ws : List K) (level : K) :
    (runningTotals c ws).findIdx? (fun c => decide (level < c)) = searchFrom c ws level := by
  induction ws generalizing c with
  | nil => rfl
  | cons w ws ih =>
    rw [runningTotals, List.findIdx?_cons, searchFrom, ih]
    by_cases h : level < c + w <;> simp [h]

omit [Field K] [LinearOrder K] in
theorem map_range_succ_mul (m bv : ℕ) (val : ℕ → K) :
    (List.range ((m + 1) * bv)).map val =
      (List.range (m * bv)).map val ++ lanes bv val (m * bv) := by
  rw [Nat.succ_mul, List.range_add, List.map_append, List.map_map]
  rfl

omit [LinearOrder K] in
/-- The tiles added so far. -/
theorem foldl_sum (m bv : ℕ) (val : ℕ → K) :
    ((List.range m).map (· * bv)).foldl (fun acc start => acc + (lanes bv val start).sum) 0 =
      ((List.range (m * bv)).map val).sum := by
  induction m with
  | zero => simp
  | succ m ih =>
    rw [List.range_succ, List.map_append, List.foldl_append, ih, map_range_succ_mul,
      List.sum_append]
    rfl

/-- **The tiles searched so far**: the search of the row up to the end of the tile. -/
theorem foldl_scanTile (m bv : ℕ) (val : ℕ → K) (level : K) (fallback : ℕ) :
    let s := ((List.range m).map (· * bv)).foldl (scanTile bv val level) ⟨0, fallback, false⟩
    let o := searchFrom 0 ((List.range (m * bv)).map val) level
    s.token = o.getD fallback ∧ s.found = o.isSome ∧
      (o = none → s.cumSum = ((List.range (m * bv)).map val).sum) := by
  induction m with
  | zero => simp
  | succ m ih =>
    rw [List.range_succ, List.map_append, List.foldl_append, map_range_succ_mul,
      searchFrom_append, List.length_map, List.length_range, zero_add]
    obtain ⟨htoken, hfound, hsum⟩ := ih
    generalize ((List.range m).map (· * bv)).foldl (scanTile bv val level) ⟨0, fallback, false⟩ = s
      at htoken hfound hsum ⊢
    simp only [List.map_singleton, List.foldl_cons, List.foldl_nil]
    cases ho : searchFrom 0 ((List.range (m * bv)).map val) level with
    | some i =>
      rw [ho] at htoken hfound
      simp only [scanTile, hfound, Option.isSome_some, if_true, Option.some_or, htoken]
      exact ⟨trivial, trivial, by simp⟩
    | none =>
      rw [ho] at htoken hfound hsum
      simp only [scanTile, hfound, Option.isSome_none, Bool.false_eq_true, if_false,
        findIdx?_runningTotals, hsum rfl, Option.none_or]
      cases searchFrom ((List.range (m * bv)).map val).sum (lanes bv val (m * bv)) level with
      | some lane => simp [Nat.add_comm]
      | none => simp [htoken]

section Row
variable {n bv : ℕ} (hbv : 0 < bv) {val : ℕ → K} (hval : ∀ v, n ≤ v → val v = 0)
include hbv hval

omit [LinearOrder K] in
/-- The tiles cover the row and pad it with zeros. -/
theorem map_range_tiles :
    ∃ pad, (List.range ((n + bv - 1) / bv * bv)).map val =
      (List.range n).map val ++ List.replicate pad 0 := by
  have hcover : n ≤ (n + bv - 1) / bv * bv := by
    have := Nat.div_add_mod (n + bv - 1) bv
    have := Nat.mod_lt (n + bv - 1) hbv
    rw [Nat.mul_comm]
    omega
  obtain ⟨pad, hpad⟩ := Nat.exists_eq_add_of_le hcover
  refine ⟨pad, ?_⟩
  rw [hpad, List.range_add, List.map_append, List.map_map]
  congr 1
  refine List.eq_replicate_iff.mpr ⟨by simp, fun b hb => ?_⟩
  obtain ⟨i, -, rfl⟩ := List.mem_map.mp hb
  exact hval _ (Nat.le_add_right n i)

omit [LinearOrder K] in
theorem tiledSum_eq : tiledSum n bv val = ((List.range n).map val).sum := by
  obtain ⟨pad, hpad⟩ := map_range_tiles hbv hval
  rw [tiledSum, tileStarts, foldl_sum, hpad, List.sum_append]
  simp

/-- **The tiled search is the search of the row**, and it reports a match exactly
when the row has one. -/
theorem tiledSearch_eq {level : K} (h : 0 ≤ level) (fallback : ℕ) :
    let o := searchFrom 0 ((List.range n).map val) level
    (tiledSearch n bv val level fallback).token = o.getD fallback ∧
      (tiledSearch n bv val level fallback).found = o.isSome := by
  obtain ⟨pad, hpad⟩ := map_range_tiles hbv hval
  obtain ⟨htoken, hfound, -⟩ := foldl_scanTile ((n + bv - 1) / bv) bv val level fallback
  have hsearch : searchFrom 0 ((List.range n).map val ++ List.replicate pad 0) level =
      searchFrom 0 ((List.range n).map val) level := by
    rw [searchFrom_append]
    cases ho : searchFrom 0 ((List.range n).map val) level with
    | some i => rfl
    | none =>
      have hle : 0 + ((List.range n).map val).sum ≤ level := by
        by_contra hlt
        obtain ⟨i, hi⟩ := searchFrom_isSome (not_le.mp hlt) h
        rw [ho] at hi
        cases hi
      rw [searchFrom_zeros pad hle]
      rfl
  rw [hpad, hsearch] at htoken hfound
  exact ⟨htoken, hfound⟩

end Row

end TiledSearch
