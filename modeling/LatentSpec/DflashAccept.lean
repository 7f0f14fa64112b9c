import Mathlib.Algebra.Ring.Int.Defs
import Mathlib.Data.Nat.Log
import LatentSpec.LeadingRun
import LatentSpec.TiledStores

/-! # Greedy verification of a draft block

The greedy accept rule of DFlash and LatentSpec has three implementations: the torch
path of `compute_dflash_correct_drafts_and_bonus` (cumulative products), its fused
triton kernel (the minimum over the mismatching lanes) and
`_dflash_accept_bonus_contig_kernel`, which loops over a padded row and also writes
commit lengths, the committed tokens and the new sequence length.  The first two are
completed by `_commit_accept`.

Rows of token matrices are functions of the column; a masked load reads its `other`
value where the mask is off.  All three are shown to compute the same record, for
every block size, and the committed tokens to be the target's greedy continuation.
-/
namespace LatentSpec
open LeadingRun

/-- `triton.next_power_of_2`. -/
def nextPowerOf2 (n : ℕ) : ℕ := 2 ^ Nat.clog 2 n

theorem le_nextPowerOf2 (n : ℕ) : n ≤ nextPowerOf2 n := Nat.le_pow_clog Nat.one_lt_two n

/-- The inputs of one greedy verification: `candidates` holds the current token and the
drafts, `targetPredict` the target's argmax at every position of the block. -/
structure GreedyBlock where
  candidates : ℕ → ℕ → ℤ
  targetPredict : ℕ → ℕ → ℤ
  prefixLens : ℕ → ℕ
  blockSize : ℕ

/-- What a verification returns for one request. -/
structure AcceptOutput where
  acceptLen : ℕ
  bonus : ℤ
  commitLen : ℕ
  outTokens : List ℤ
  newSeqLen : ℕ
  deriving DecidableEq, Repr

namespace GreedyBlock
variable (g : GreedyBlock) (b : ℕ)

/-! ### The torch path -/

/-- `candidates[:, 1:] == target_predict[:, :-1]`. -/
def matchRow : List Bool :=
  List.zipWith (fun c t => decide (c = t))
    ((List.range (g.blockSize - 1)).map fun i => g.candidates b (i + 1))
    ((List.range (g.blockSize - 1)).map fun i => g.targetPredict b i)

/-- `matches.to(torch.int32).cumprod(dim=1).sum(dim=1)`. -/
def correctLenTorch : ℕ := (cumprod ((g.matchRow b).map Bool.toNat)).sum

/-! ### The fused kernel -/

/-- A lane of `tl.where(eq, BLOCK, offs)`. -/
def fusedLane (block offs : ℕ) : ℕ :=
  let inRow := decide (offs < g.blockSize - 1)
  let drafts := if inRow then g.candidates b (1 + offs) else -1
  let targets := if inRow then g.targetPredict b offs else -2
  let eq := decide (drafts = targets) && inRow
  if eq then block else offs

/-- `num_correct` of `_fused_correct_drafts_and_bonus_kernel`: the minimum over the
lanes, none of which exceeds `BLOCK`. -/
def correctLenFused : ℕ :=
  let block := nextPowerOf2 (max (g.blockSize - 1) 1)
  ((List.range block).map (g.fusedLane b block)).foldl min block

/-! ### Committing -/

/-- `_commit_accept`: the drafts shifted left, the bonus at the accept boundary, and
the commit length. -/
def commitAccept (acceptLen : ℕ) (bonus : ℤ) : List ℤ × ℕ :=
  ((((List.range (g.blockSize - 1)).map fun i => g.candidates b (i + 1)) ++ [0]).set
      acceptLen bonus,
    acceptLen + 1)

/-- An accept length completed to the full result: the bonus is the target's token at
the accept boundary. -/
def complete (acceptLen : ℕ) : AcceptOutput where
  acceptLen := acceptLen
  bonus := g.targetPredict b acceptLen
  commitLen := (g.commitAccept b acceptLen (g.targetPredict b acceptLen)).2
  outTokens := (g.commitAccept b acceptLen (g.targetPredict b acceptLen)).1
  newSeqLen := g.prefixLens b + (g.commitAccept b acceptLen (g.targetPredict b acceptLen)).2

/-- The torch path followed by `_commit_accept`. -/
def acceptTorch : AcceptOutput := g.complete b (g.correctLenTorch b)

/-- The fused kernel followed by `_commit_accept`. -/
def acceptFused : AcceptOutput := g.complete b (g.correctLenFused b)

/-! ### The contiguous kernel -/

/-- The variables of the kernel's loop. -/
structure LoopVars where
  acceptLen : ℕ
  prefixLive : ℕ

/-- One column of the loop. -/
def contigStep (s : LoopVars) (col : ℕ) : LoopVars :=
  let inRange := decide (col < g.blockSize - 1)
  let candidateId := if inRange then g.candidates b (col + 1) else 0
  let targetId := if inRange then g.targetPredict b col else 0
  let matchI32 := if candidateId = targetId then 1 else 0
  let keep := inRange && decide (s.prefixLive ≠ 0) && decide (matchI32 ≠ 0)
  { acceptLen := s.acceptLen + keep.toNat
    prefixLive := if inRange then s.prefixLive &&& matchI32 else s.prefixLive }

/-- `_dflash_accept_bonus_contig_kernel`, one row. -/
def acceptContig : AcceptOutput :=
  let block := nextPowerOf2 g.blockSize
  let acceptLen := ((List.range (block - 1)).foldl (g.contigStep b) ⟨0, 1⟩).acceptLen
  let commitLen := acceptLen + 1
  let bonus := g.targetPredict b acceptLen
  let outVal := fun col =>
    let tail := if col < g.blockSize - 1 then g.candidates b (col + 1) else 0
    let val := if col < g.blockSize - 1 then tail else 0
    if col = acceptLen then bonus else val
  { acceptLen := acceptLen
    bonus := bonus
    commitLen := commitLen
    -- only the lanes below `block_size` are stored
    outTokens := ((List.range block).filter (· < g.blockSize)).map outVal
    newSeqLen := g.prefixLens b + commitLen }

/-! ### One accept length -/

/-- **The accept rule**: the leading drafts that equal the target's tokens. -/
def acceptLen : ℕ :=
  leadingRun ((List.range (g.blockSize - 1)).map fun i =>
    decide (g.candidates b (i + 1) = g.targetPredict b i))

theorem acceptLen_le : g.acceptLen b ≤ g.blockSize - 1 := by
  refine (leadingRun_le_length _).trans ?_
  rw [List.length_map, List.length_range]

theorem correctLenTorch_eq : g.correctLenTorch b = g.acceptLen b := by
  rw [correctLenTorch, sum_cumprod, matchRow, acceptLen, List.zipWith_map_left,
    List.zipWith_map_right, List.zipWith_self]

theorem le_foldl_min {k a : ℕ} {xs : List ℕ} :
    k ≤ xs.foldl min a ↔ k ≤ a ∧ ∀ x ∈ xs, k ≤ x := by
  induction xs generalizing a with
  | nil => simp
  | cons x xs ih =>
    rw [List.foldl_cons, ih, Nat.le_min, List.forall_mem_cons, and_assoc]

/-- A lane inside the row that matches is raised to `BLOCK`, any other keeps its
offset. -/
theorem fusedLane_eq (block offs : ℕ) :
    g.fusedLane b block offs = if offs < g.blockSize - 1 ∧
      g.candidates b (offs + 1) = g.targetPredict b offs then block else offs := by
  unfold fusedLane
  by_cases h : offs < g.blockSize - 1
  · simp [h, Nat.add_comm 1 offs]
  · simp [h]

/-- The minimum over the mismatching lanes is the leading run, also when the row fills
every lane and when lanes lie past the row. -/
theorem correctLenFused_eq : g.correctLenFused b = g.acceptLen b := by
  have hnb : g.blockSize - 1 ≤ nextPowerOf2 (max (g.blockSize - 1) 1) :=
    (le_max_left _ 1).trans (le_nextPowerOf2 _)
  unfold correctLenFused
  generalize nextPowerOf2 (max (g.blockSize - 1) 1) = block at hnb ⊢
  have hle := g.acceptLen_le b
  obtain ⟨hpass, hfail⟩ := leadingRun_eq_iff.mp (show _ = g.acceptLen b from rfl)
  have hmatch : ∀ offs, offs < g.acceptLen b →
      g.candidates b (offs + 1) = g.targetPredict b offs := by
    intro offs hlt
    have := hpass offs hlt
    rw [List.getElem?_map, List.getElem?_range (by omega)] at this
    simpa using this
  refine Nat.le_antisymm ?_ (le_foldl_min.mpr ⟨by omega, fun x hx => ?_⟩)
  · by_contra hlt
    obtain ⟨hinit, hlanes⟩ := le_foldl_min.mp (Nat.lt_of_not_le hlt)
    have hlane := hlanes _ (List.mem_map_of_mem (List.mem_range.mpr hinit))
    rw [fusedLane_eq, if_neg] at hlane
    · omega
    · rintro ⟨hin, heq⟩
      refine hfail ?_
      rw [List.getElem?_map, List.getElem?_range hin]
      simpa using heq
  · obtain ⟨offs, -, rfl⟩ := List.mem_map.mp hx
    rw [fusedLane_eq]
    split
    · omega
    · rename_i hne
      by_contra hlt
      exact hne ⟨by omega, hmatch offs (by omega)⟩

/-- The loop of the contiguous kernel after `m` columns: the leading run of the columns
inside the row, still live when all of them matched. -/
theorem foldl_contigStep (m : ℕ) :
    (List.range m).foldl (g.contigStep b) ⟨0, 1⟩ =
      let tests := (List.range (min m (g.blockSize - 1))).map fun i =>
        decide (g.candidates b (i + 1) = g.targetPredict b i)
      ⟨leadingRun tests, if leadingRun tests = min m (g.blockSize - 1) then 1 else 0⟩ := by
  induction m with
  | zero => simp [leadingRun]
  | succ m ih =>
    rw [List.range_succ, List.foldl_append, ih]
    simp only [List.foldl_cons, List.foldl_nil, contigStep]
    by_cases hin : m < g.blockSize - 1
    · have hmin : min m (g.blockSize - 1) = m := by omega
      have hmin' : min (m + 1) (g.blockSize - 1) = m + 1 := by omega
      rw [hmin, hmin', List.range_succ, List.map_append, List.map_singleton, leadingRun_concat,
        List.length_map, List.length_range]
      have hle : leadingRun ((List.range m).map fun i =>
          decide (g.candidates b (i + 1) = g.targetPredict b i)) ≤ m := by
        simpa using leadingRun_le_length ((List.range m).map fun i =>
          decide (g.candidates b (i + 1) = g.targetPredict b i))
      generalize leadingRun ((List.range m).map fun i =>
          decide (g.candidates b (i + 1) = g.targetPredict b i)) = r at hle ⊢
      by_cases heq : g.candidates b (m + 1) = g.targetPredict b m
      · by_cases hr : r = m
        · simp [hin, heq, hr]
        · have hr' : r ≠ m + 1 := by omega
          simp [hin, heq, hr, hr']
      · have hr' : r ≠ m + 1 := by omega
        simp [hin, heq, hr']
    · have hmin : min m (g.blockSize - 1) = g.blockSize - 1 := by omega
      have hmin' : min (m + 1) (g.blockSize - 1) = g.blockSize - 1 := by omega
      rw [hmin, hmin']
      simp [hin]

theorem acceptContig_acceptLen : (g.acceptContig b).acceptLen = g.acceptLen b := by
  have hge := le_nextPowerOf2 g.blockSize
  have hmin : min (nextPowerOf2 g.blockSize - 1) (g.blockSize - 1) = g.blockSize - 1 := by omega
  show ((List.range (nextPowerOf2 g.blockSize - 1)).foldl (g.contigStep b) ⟨0, 1⟩).acceptLen = _
  rw [foldl_contigStep, hmin]
  rfl

/-- **The contiguous kernel writes what `_commit_accept` builds.** -/
theorem acceptContig_eq (h : 0 < g.blockSize) :
    g.acceptContig b = g.complete b (g.acceptLen b) := by
  have hlen := g.acceptContig_acceptLen b
  have hle := g.acceptLen_le b
  have hout : (g.acceptContig b).outTokens =
      (g.commitAccept b (g.acceptLen b) (g.targetPredict b (g.acceptLen b))).1 := by
    simp only [acceptContig] at hlen ⊢
    rw [hlen, TiledStores.filter_range_lt (le_nextPowerOf2 _), commitAccept]
    refine List.ext_getElem (by simp; omega) fun i hi _ => ?_
    have hi' : i < g.blockSize := by simpa using hi
    rw [List.getElem_set, List.getElem_map, List.getElem_range]
    by_cases hacc : i = g.acceptLen b
    · rw [if_pos hacc, if_pos hacc.symm]
    · rw [if_neg hacc, if_neg (Ne.symm hacc), List.getElem_append]
      by_cases hin : i < g.blockSize - 1
      · simp [hin]
      · simp [hin]
  have hcommit : (g.acceptContig b).commitLen = (g.acceptContig b).acceptLen + 1 := rfl
  have hbonus : (g.acceptContig b).bonus = g.targetPredict b (g.acceptContig b).acceptLen := rfl
  have hseq : (g.acceptContig b).newSeqLen =
      g.prefixLens b + (g.acceptContig b).commitLen := rfl
  rw [hcommit] at hseq
  rw [hlen] at hcommit hbonus hseq
  cases hrec : g.acceptContig b
  simp only [hrec] at hlen hout hcommit hbonus hseq
  rw [hlen, hout, hcommit, hbonus, hseq]
  rfl

/-! ### The committed tokens -/

/-- The target's greedy continuation of a prefix, one token at a time. -/
def greedyContinuation (next : List ℤ → ℤ) : ℕ → List ℤ → List ℤ
  | 0, _ => []
  | n + 1, pre => next pre :: greedyContinuation next n (pre ++ [next pre])

/-- The argmax matrix of a target that maps a prefix to its next token: position `j` of
the block has read the committed prefix and the candidates up to `j`. -/
def TargetPredicts (next : List ℤ → ℤ) (pre : List ℤ) : Prop :=
  ∀ j < g.blockSize,
    g.targetPredict b j = next (pre ++ (List.range (j + 1)).map (g.candidates b))

theorem acceptLen_match {i : ℕ} (h : i < g.acceptLen b) :
    g.candidates b (i + 1) = g.targetPredict b i := by
  have hle := g.acceptLen_le b
  have hpass := (leadingRun_eq_iff.mp (show _ = g.acceptLen b from rfl)).1 i h
  rw [List.getElem?_map, List.getElem?_range (by omega)] at hpass
  simpa using hpass

/-- The target's tokens at positions `i ..` of the block, up to the accept boundary,
are its greedy continuation of what position `i` has read. -/
theorem greedyContinuation_eq {next : List ℤ → ℤ} {pre : List ℤ}
    (hnext : g.TargetPredicts b next pre) {n i : ℕ} (hle : i + n ≤ g.acceptLen b + 1)
    (hblock : i + n ≤ g.blockSize) :
    greedyContinuation next n (pre ++ (List.range (i + 1)).map (g.candidates b)) =
      (List.range n).map fun j => g.targetPredict b (i + j) := by
  induction n generalizing i with
  | zero => rfl
  | succ n ih =>
    rw [greedyContinuation, ← hnext i (by omega), List.range_succ_eq_map (n := n), List.map_cons,
      List.map_map]
    refine congrArg₂ List.cons rfl ?_
    rcases n with - | n
    · rfl
    · have hstep : pre ++ (List.range (i + 1)).map (g.candidates b) ++ [g.targetPredict b i] =
          pre ++ (List.range (i + 1 + 1)).map (g.candidates b) := by
        rw [← g.acceptLen_match b (i := i) (by omega), List.range_succ (n := i + 1),
          List.map_append, List.append_assoc]
        rfl
      rw [hstep, ih (by omega) (by omega)]
      refine List.map_congr_left fun j _ => ?_
      rw [Function.comp_apply, Nat.add_right_comm, Nat.add_assoc]

/-- The committed prefix is the target's row up to the accept boundary. -/
theorem take_outTokens :
    (g.complete b (g.acceptLen b)).outTokens.take (g.acceptLen b + 1) =
      (List.range (g.acceptLen b + 1)).map (g.targetPredict b) := by
  have hle := g.acceptLen_le b
  refine List.ext_getElem (by simp [complete, commitAccept]; omega) fun i hi _ => ?_
  have hi' : i < g.acceptLen b + 1 := by
    rw [List.length_take] at hi
    omega
  simp only [complete, commitAccept, List.getElem_take, List.getElem_map, List.getElem_range]
  rw [List.getElem_set]
  split
  · rename_i heq
    rw [heq]
  · have hlt : i < g.acceptLen b := by omega
    rw [List.getElem_append_left (by simp; omega), List.getElem_map, List.getElem_range,
      g.acceptLen_match b hlt]

end GreedyBlock

/-- **Greedy verification of a block.**  For every block size, every pair of matrices
and every row the torch path, the fused kernel and the contiguous kernel return the same
accept length, bonus, commit length, tokens and new sequence length; where the argmax
matrix is that of a target reading the block, the committed tokens are the target's
greedy continuation of the prefix and the current token. -/
theorem acceptTorch_eq_fused_eq_contig (g : GreedyBlock) (hblock : 0 < g.blockSize) (b : ℕ) :
    g.acceptFused b = g.acceptTorch b ∧ g.acceptContig b = g.acceptTorch b ∧
      (g.acceptTorch b).commitLen = (g.acceptTorch b).acceptLen + 1 ∧
      (g.acceptTorch b).newSeqLen = g.prefixLens b + (g.acceptTorch b).acceptLen + 1 ∧
      ∀ (next : List ℤ → ℤ) (pre : List ℤ), g.TargetPredicts b next pre →
        (g.acceptTorch b).outTokens.take (g.acceptTorch b).commitLen =
          GreedyBlock.greedyContinuation next ((g.acceptTorch b).acceptLen + 1)
            (pre ++ [g.candidates b 0]) := by
  have hle := g.acceptLen_le b
  have htorch : g.acceptTorch b = g.complete b (g.acceptLen b) := by
    rw [GreedyBlock.acceptTorch, g.correctLenTorch_eq]
  have hfused : g.acceptFused b = g.complete b (g.acceptLen b) := by
    rw [GreedyBlock.acceptFused, g.correctLenFused_eq]
  refine ⟨hfused.trans htorch.symm, (g.acceptContig_eq b hblock).trans htorch.symm, rfl, rfl, ?_⟩
  intro next pre hnext
  rw [htorch]
  have hcont := g.greedyContinuation_eq b hnext (n := g.acceptLen b + 1) (i := 0)
    (by omega) (by omega)
  simp only [Nat.zero_add] at hcont
  exact (g.take_outTokens b).trans hcont.symm

/-- A block of three against a target that counts upwards, accepted up to its first
draft. -/
def countingBlock : GreedyBlock where
  candidates := fun _ i => [4, 5, 9].getD i 0
  targetPredict := fun _ i => [5, 6, 10].getD i 0
  prefixLens := fun _ => 1
  blockSize := 3

theorem countingBlock_targetPredicts :
    countingBlock.TargetPredicts 0 (fun xs => xs.getLastD 0 + 1) [3] := by
  intro j hj
  have hj' : j < 3 := hj
  rcases (by omega : j = 0 ∨ j = 1 ∨ j = 2) with rfl | rfl | rfl
  all_goals rfl

theorem acceptTorch_eq_fused_eq_contig_counting :
    countingBlock.acceptTorch 0 = ⟨1, 6, 2, [5, 6, 0], 3⟩ ∧
      countingBlock.acceptContig 0 = countingBlock.acceptTorch 0 ∧
      (countingBlock.acceptTorch 0).outTokens.take (countingBlock.acceptTorch 0).commitLen =
        GreedyBlock.greedyContinuation (fun xs => xs.getLastD 0 + 1) 2 [3, 4] := by
  obtain ⟨-, hcontig, -, -, hcont⟩ := acceptTorch_eq_fused_eq_contig countingBlock (by decide) 0
  exact ⟨by decide +kernel, hcontig, hcont _ _ countingBlock_targetPredicts⟩

end LatentSpec
