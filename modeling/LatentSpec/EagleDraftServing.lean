import LatentSpec.EagleDraftTree
import LatentSpec.EagleServingRun

/-! # The trees that EAGLE drafts

What the draft loop and `organize_draft_results` hand to the verify step.  A node of the tree is a
selected candidate; its parent is the candidate that its slot grew from, when that one was selected
too.  So a parent has a smaller index and is one step older, and no path is longer than the loop;
two children of a node have different tokens, as the draft model proposes each token once.
`drafted_gathered` puts this together: a step that verifies such drafts meets its contract, whatever
`torch.topk` does with ties and whether or not the selection is closed under parents.
-/
namespace LatentSpec.EagleTree
open SiblingLists TiledStores EagleDraft LargestEntries EagleServer

variable {K H S : Type} [Mul K] [Zero K] [One K] [LinearOrder K]

/-- The draft of a request is what `organize_draft_results` returned for its row. -/
structure Drafted (run : DraftRun K H) (m : EagleServer S) (d : VerifyStep) (b : ℕ)
    (chosen : List ℕ) : Prop where
  topk : run.topk = m.topk
  picked : IsTopK (fun s => (scoreList (run.treeInfos m.numSteps) b).getD s 0)
    (Finset.range (scoreList (run.treeInfos m.numSteps) b).length) (m.numDraftTokens - 1) chosen
  parentList : ∀ (j : ℕ) (p : ℤ),
    (organizeDraftResults (run.treeInfos m.numSteps) b chosen).1[j]? = some p → d.parentList b j = p
  topScoresIndex : ∀ j s : ℕ,
    (organizeDraftResults (run.treeInfos m.numSteps) b chosen).2.1[j]? = some s →
      d.topScoresIndex b j = s
  draftTokens : ∀ (j : ℕ) (t : ℤ),
    (organizeDraftResults (run.treeInfos m.numSteps) b chosen).2.2[j]? = some t →
      d.draftTokens b j = t

namespace Drafted
variable {run : DraftRun K H} {m : EagleServer S} {s : EagleState S} {d : VerifyStep} {b : ℕ}
  {chosen : List ℕ}

section Selected
variable (hvalid : run.Valid d.bs m.numSteps) (hb : b < d.bs) (h : Drafted run m d b chosen)
include hvalid hb h

/-! ### Selected candidates -/

/-- Every place of the selection holds the index of a candidate, and its token. -/
theorem exists_candidate {j : ℕ} (hj : j < m.numDraftTokens - 1) :
    ∃ k q, k < m.numSteps ∧ q < run.width k ∧ d.topScoresIndex b j = run.flat k q ∧
      some (d.draftTokens b j) = ((run.select k).treeInfo.tokens b)[q]? := by
  have hlen : j < (chosen.insertionSort (· ≤ ·)).length := by
    rwa [List.length_insertionSort, h.picked.length]
  have hget := List.getElem?_eq_getElem hlen
  have hmem : (chosen.insertionSort (· ≤ ·))[j] ∈ chosen :=
    (List.mem_insertionSort (· ≤ ·)).mp (List.getElem_mem hlen)
  have hpool := Finset.mem_range.mp (h.picked.mem _ hmem)
  rw [DraftRun.length_scoreList hvalid hb] at hpool
  obtain ⟨k, q, hk, hq, hflat⟩ := DraftRun.exists_flat hvalid.steps_pos hpool
  have hindex : d.topScoresIndex b j = run.flat k q := by
    rw [← hflat]
    exact h.topScoresIndex j _ hget
  refine ⟨k, q, hk, hq, hindex, ?_⟩
  have htoken := DraftRun.getElem?_ssTokenList hvalid hb hk hq
  have hqlen := hq.trans_eq (DraftRun.length_tokens (i := k) hvalid hb).symm
  rw [List.getElem?_eq_getElem hqlen] at htoken ⊢
  refine congrArg some (h.draftTokens j _ ?_)
  show (List.map _ (chosen.insertionSort (· ≤ ·)))[j]? = _
  rw [List.getElem?_map, hget, hflat, Option.map_some, List.getD_eq_getElem?_getD, htoken]
  rfl

omit [One K] hvalid hb in
/-- The selection is in order. -/
theorem topScoresIndex_lt {i j : ℕ} (hij : i < j) (hj : j < m.numDraftTokens - 1) :
    d.topScoresIndex b i < d.topScoresIndex b j := by
  have hlen : (chosen.insertionSort (· ≤ ·)).length = m.numDraftTokens - 1 := by
    rw [List.length_insertionSort, h.picked.length]
  have hi : i < (chosen.insertionSort (· ≤ ·)).length := by omega
  have hj' : j < (chosen.insertionSort (· ≤ ·)).length := by omega
  have hnodup : (chosen.insertionSort (· ≤ ·)).Nodup :=
    (List.perm_insertionSort (· ≤ ·) chosen).nodup_iff.mpr h.picked.nodup
  have hle :=
    List.pairwise_iff_getElem.mp (List.pairwise_insertionSort (· ≤ ·) chosen) i j hi hj' hij
  have hne : (chosen.insertionSort (· ≤ ·))[i] ≠ (chosen.insertionSort (· ≤ ·))[j] := by
    intro heq
    exact hij.ne ((List.Nodup.getElem_inj_iff hnodup).mp heq)
  rw [h.topScoresIndex i _ (List.getElem?_eq_getElem hi),
    h.topScoresIndex j _ (List.getElem?_eq_getElem hj')]
  exact lt_of_le_of_ne hle hne

omit [One K] hvalid hb in
theorem topScoresIndex_inj {i j : ℕ} (hi : i < m.numDraftTokens - 1) (hj : j < m.numDraftTokens - 1)
    (heq : d.topScoresIndex b i = d.topScoresIndex b j) : i = j := by
  rcases Nat.lt_trichotomy i j with hlt | rfl | hgt
  · exact absurd heq (h.topScoresIndex_lt hlt hj).ne
  · rfl
  · exact absurd heq.symm (h.topScoresIndex_lt hgt hi).ne

/-- Where the parent list sends a candidate of a later step. -/
theorem parentList_flat {k q : ℕ} (hk : k + 1 < m.numSteps) (hq : q < run.topk * run.topk) :
    run.flat (k + 1) q / m.topk ≠ 0 ∧
      d.parentList b (run.flat (k + 1) q / m.topk) =
        ((run.flat k (run.slot b k (q / run.topk)) : ℕ) : ℤ) := by
  rw [← h.topk]
  refine ⟨?_, h.parentList _ _ (DraftRun.getElem?_parentList_flat hvalid hb hk hq)⟩
  rw [DraftRun.flat_div hvalid.topk_pos]
  exact (Nat.add_pos_left (Nat.add_pos_left Nat.one_pos _) _).ne'

omit h in
/-- Two slots of a step grow from different candidates. -/
theorem slot_inj {k j j' : ℕ} (hk : k < m.numSteps) (hj : j < run.topk) (hj' : j' < run.topk)
    (heq : run.slot b k j = run.slot b k j') : j = j' := by
  cases k with
  | zero => exact heq
  | succ k =>
    have hpick := hvalid.pick (k + 1) (Nat.succ_pos k) hk b hb
    have hlen : j < (run.pick (k + 1) b).length := by rwa [hpick.length]
    have hlen' : j' < (run.pick (k + 1) b).length := by rwa [hpick.length]
    rw [DraftRun.slot_succ, DraftRun.slot_succ, List.getD_eq_getElem _ 0 hlen,
      List.getD_eq_getElem _ 0 hlen'] at heq
    exact (List.Nodup.getElem_inj_iff hpick.nodup).mp heq

/-! ### Parents -/

/-- **The parent of a node** is the root for a candidate of the first step, and else the place that
holds the candidate its slot grew from. -/
theorem parent_cases {i k q : ℕ} (hi : 0 < i) (hn : i < m.numDraftTokens) (hk : k < m.numSteps)
    (hq : q < run.width k) (hindex : d.topScoresIndex b (i - 1) = run.flat k q) {p : ℕ}
    (hp : m.parent s d b i = some p) :
    (p = 0 ∧ k = 0) ∨ ∃ k', k = k' + 1 ∧ 0 < p ∧ p < m.numDraftTokens ∧
      d.topScoresIndex b (p - 1) = run.flat k' (run.slot b k' (q / run.topk)) := by
  have hparent : m.parent s d b i = (m.buildArgs s d).parentPosition b i :=
    BuildArgs.parentOf_of_lt hi hn
  unfold BuildArgs.parentPosition at hparent
  have hsel : (m.buildArgs s d).selectedIndex b (i - 1) = run.flat k q := hindex
  rw [hsel] at hparent
  rw [hparent] at hp
  cases k with
  | zero =>
    left
    have hdiv : run.flat 0 q / (m.buildArgs s d).topk = 0 :=
      Nat.div_eq_of_lt (show q < m.topk by rw [← h.topk]; exact hq)
    dsimp only at hp
    rw [if_pos hdiv] at hp
    exact ⟨(Option.some.inj hp).symm, rfl⟩
  | succ k =>
    right
    obtain ⟨hne, hlist⟩ := h.parentList_flat hvalid hb hk hq
    have hne' : ¬ run.flat (k + 1) q / (m.buildArgs s d).topk = 0 := hne
    dsimp only at hp
    rw [if_neg hne'] at hp
    obtain ⟨pp, hpp, rfl⟩ := Option.map_eq_some_iff.mp hp
    obtain ⟨hlt, hfound⟩ := BuildArgs.findSelected_eq_some hpp
    have hfound' : ((d.topScoresIndex b pp : ℕ) : ℤ) = _ := hfound.trans hlist
    have hlt' : pp < m.numDraftTokens - 1 := hlt
    exact ⟨k, rfl, Nat.succ_pos pp, by omega, Int.ofNat_inj.mp hfound'⟩

theorem ordered (s : EagleState S) : (m.buildArgs s d).Ordered b := by
  refine ⟨fun i j hij hj => h.topScoresIndex_lt hij hj, fun j hj hne => ?_⟩
  have hj' : j < m.numDraftTokens - 1 := hj
  obtain ⟨k, q, hk, hq, hindex, -⟩ := h.exists_candidate hvalid hb hj'
  have hsel : (m.buildArgs s d).selectedIndex b j = run.flat k q := hindex
  rw [hsel] at hne ⊢
  cases k with
  | zero =>
    exact absurd (Nat.div_eq_of_lt (show q < m.topk by rw [← h.topk]; exact hq)) hne
  | succ k =>
    have hslot := DraftRun.slot_div_lt hvalid hb (by omega : k < m.numSteps) hq
    have hlt := DraftRun.flat_slot_lt hslot q
    have hlist : (m.buildArgs s d).parentList b (run.flat (k + 1) q / (m.buildArgs s d).topk) = _ :=
      (h.parentList_flat hvalid hb hk hq).2
    rw [hlist]
    exact_mod_cast hlt

/-- No node is deeper than the step of its candidate. -/
theorem depth_le {i k q : ℕ} (hi : 0 < i) (hn : i < m.numDraftTokens) (hk : k < m.numSteps)
    (hq : q < run.width k) (hindex : d.topScoresIndex b (i - 1) = run.flat k q) :
    depth (m.parent s d b) i ≤ k + 1 := by
  have hlt : ∀ i p, m.parent s d b i = some p → p < i :=
    fun _ _ hp => (h.ordered hvalid hb s).parentOf_lt hp
  induction k generalizing i q with
  | zero =>
    cases hp : m.parent s d b i with
    | none => exact depth_of_none hp
    | some p =>
      rcases h.parent_cases hvalid hb hi hn hk hq hindex hp with ⟨rfl, -⟩ | ⟨k', hk', -⟩
      · rw [depth_of_parent hlt hp]
        exact le_rfl
      · omega
  | succ k ih =>
    cases hp : m.parent s d b i with
    | none => exact (depth_of_none hp).trans (by omega)
    | some p =>
      rcases h.parent_cases hvalid hb hi hn hk hq hindex hp with
        ⟨-, hk0⟩ | ⟨k', hk', hpos, hpn, hpi⟩
      · omega
      · obtain rfl := Nat.succ.inj hk'
        have hslot := DraftRun.slot_div_lt hvalid hb (by omega : k < m.numSteps) hq
        have hparent := ih hpos hpn (by omega) hslot hpi
        rw [depth_of_parent hlt hp]
        omega

/-- **The kernel can build the tree.** -/
theorem buildable (s : EagleState S) : (m.buildArgs s d).Buildable b := by
  refine ⟨h.ordered hvalid hb s, fun tx htx => ?_⟩
  rcases Nat.eq_zero_or_pos tx with rfl | hpos
  · exact Nat.zero_le _
  · have htx' : tx < m.numDraftTokens := htx
    obtain ⟨k, q, hk, hq, hindex, -⟩ :=
      h.exists_candidate hvalid hb (show tx - 1 < m.numDraftTokens - 1 by omega)
    exact (h.depth_le hvalid hb hpos htx' hk hq hindex).trans hk

/-- **Two children of a node have different tokens**, when the draft model proposes no token twice
in one place. -/
theorem siblings (hfirst : (run.firstIndex b).Nodup)
    (hlater : ∀ i j, j < run.topk → (run.topkIndex i (b * run.topk + j)).Nodup) (v : ℕ) :
    ∀ c ∈ m.kids s d b v, ∀ c' ∈ m.kids s d b v,
      m.draftToken s d (b * m.numDraftTokens + c) = m.draftToken s d (b * m.numDraftTokens + c') →
        c = c' := by
  intro c hc c' hc' htokens
  obtain ⟨hpos, hn, hp⟩ := mem_children.mp hc
  obtain ⟨hpos', hn', hp'⟩ := mem_children.mp hc'
  have hc0 : 0 < c := hpos
  have hc0' : 0 < c' := hpos'
  have hcn : c < m.numDraftTokens := hn
  have hcn' : c' < m.numDraftTokens := hn'
  obtain ⟨k, q, hk, hq, hindex, htoken⟩ :=
    h.exists_candidate hvalid hb (show c - 1 < m.numDraftTokens - 1 by omega)
  obtain ⟨k', q', hk', hq', hindex', htoken'⟩ :=
    h.exists_candidate hvalid hb (show c' - 1 < m.numDraftTokens - 1 by omega)
  have hdraft : ∀ c, 0 < c → c < m.numDraftTokens →
      m.draftToken s d (b * m.numDraftTokens + c) = d.draftTokens b (c - 1) := by
    intro c hpos hlt
    rw [EagleServer.draftToken, block_div hlt, block_mod hlt, if_neg hpos.ne']
  rw [hdraft c hc0 hcn, hdraft c' hc0' hcn'] at htokens
  rw [htokens] at htoken
  have hsame : run.flat k q = run.flat k' q' := by
    rcases h.parent_cases hvalid hb hc0 hcn hk hq hindex hp with
        ⟨rfl, rfl⟩ | ⟨l, rfl, hv, -, hvi⟩ <;>
      rcases h.parent_cases hvalid hb hc0' hcn' hk' hq' hindex' hp' with
        ⟨hzero, rfl⟩ | ⟨l', rfl, hv', -, hvi'⟩
    · -- children of the root
      have hget : (run.firstIndex b)[q]? = (run.firstIndex b)[q']? := htoken.symm.trans htoken'
      have hqlen : q < (run.firstIndex b).length := by
        rw [hvalid.firstIndex_length b hb]
        exact hq
      rw [(List.getElem?_inj hqlen hfirst).mp hget]
    · exact absurd hv' (lt_irrefl 0)
    · exact absurd hv (by omega)
    · -- children of one slot
      have hparent := hvi.symm.trans hvi'
      have hslot := DraftRun.slot_div_lt hvalid hb (by omega : l < m.numSteps) hq
      have hslot' := DraftRun.slot_div_lt hvalid hb (by omega : l' < m.numSteps) hq'
      have hcandidate := congrArg run.candidate hparent
      rw [DraftRun.candidate_flat hslot, DraftRun.candidate_flat hslot'] at hcandidate
      obtain ⟨rfl, hslots⟩ := Prod.mk.inj hcandidate
      have hj := (Nat.div_lt_iff_lt_mul hvalid.topk_pos).mpr hq
      have hj' := (Nat.div_lt_iff_lt_mul hvalid.topk_pos).mpr hq'
      have hdiv := slot_inj hvalid hb (by omega) hj hj' hslots
      have hblocks : ∀ q < run.topk * run.topk,
          ((run.select (l + 1)).treeInfo.tokens b)[q]? =
            (run.topkIndex (l + 1) (b * run.topk + q / run.topk))[q % run.topk]? := by
        intro q hq
        exact DraftRun.getElem?_flatten_blocks
          (fun j hj => hvalid.topkIndex_length _ _ (DraftRun.row_lt hb hj)) hq
      rw [hblocks q hq] at htoken
      rw [hblocks q' hq', ← hdiv, htoken] at htoken'
      have hmodlen : q % run.topk <
          (run.topkIndex (l + 1) (b * run.topk + q / run.topk)).length := by
        rw [hvalid.topkIndex_length _ _ (DraftRun.row_lt hb hj)]
        exact Nat.mod_lt q hvalid.topk_pos
      have hmod := (List.getElem?_inj hmodlen (hlater _ _ hj)).mp htoken'
      have hq_eq : q = q' := by
        rw [← Nat.div_add_mod q run.topk, hdiv, hmod, Nat.div_add_mod]
      rw [hq_eq]
  have hplaces := h.topScoresIndex_inj (show c - 1 < m.numDraftTokens - 1 by omega)
    (show c' - 1 < m.numDraftTokens - 1 by omega) (by rw [hindex, hindex', hsame])
  omega

/-! ### One branch -/

/-- With one branch a selection that fills the tree takes the whole pool. -/
theorem topScoresIndex_eq (htopk : run.topk = 1) {j : ℕ} (hj : j < m.numDraftTokens - 1) :
    d.topScoresIndex b j = j := by
  have hpool : run.poolSize m.numSteps = m.numSteps := by
    have hsteps := hvalid.steps_pos
    unfold DraftRun.poolSize
    rw [htopk]
    omega
  have hbelow : ∀ j < m.numDraftTokens - 1, d.topScoresIndex b j < m.numSteps := by
    intro j hj
    obtain ⟨k, q, hk, hq, hindex, -⟩ := h.exists_candidate hvalid hb hj
    rw [hindex, ← hpool]
    exact DraftRun.flat_lt_poolSize hk hq
  -- the entries grow by one at least
  have hgrow : ∀ c i, i + c < m.numDraftTokens - 1 →
      d.topScoresIndex b i + c ≤ d.topScoresIndex b (i + c) := by
    intro c i hc
    induction c with
    | zero => exact le_rfl
    | succ c ih =>
      have hprev := ih (by omega)
      have hnext := h.topScoresIndex_lt (show i + c < i + c + 1 by omega) (by omega)
      show d.topScoresIndex b i + (c + 1) ≤ d.topScoresIndex b (i + c + 1)
      omega
  have hlow := hgrow j 0 (by omega)
  have hhigh := hgrow (m.numDraftTokens - 1 - 1 - j) j (by omega)
  have hlast := hbelow (j + (m.numDraftTokens - 1 - 1 - j)) (by omega)
  have hsteps := m.steps_lt
  rw [Nat.zero_add] at hlow
  omega

/-- **With one branch the tree is a chain.** -/
theorem chain (htopk : m.topk ≤ 1) (v : ℕ) : ∀ c ∈ m.kids s d b v, c = v + 1 := by
  have hone : run.topk = 1 := by
    have hpos := hvalid.topk_pos
    rw [h.topk] at hpos ⊢
    omega
  have hwidth : ∀ k, run.width k = 1 := by
    intro k
    cases k with
    | zero => exact hone
    | succ k =>
      show run.topk * run.topk = 1
      rw [hone]
  have hflat : ∀ k, run.flat k 0 = k := by
    intro k
    cases k with
    | zero => rfl
    | succ k =>
      show run.topk + run.topk * run.topk * k + 0 = k + 1
      rw [hone]
      omega
  intro c hc
  obtain ⟨hpos, hn, hp⟩ := mem_children.mp hc
  have hc0 : 0 < c := hpos
  have hcn : c < m.numDraftTokens := hn
  have hplace : c - 1 < m.numDraftTokens - 1 := by omega
  obtain ⟨k, q, hk, hq, hindex, -⟩ := h.exists_candidate hvalid hb hplace
  have hq0 : q = 0 := by
    rw [hwidth k] at hq
    omega
  have hself := h.topScoresIndex_eq hvalid hb hone hplace
  rw [hindex, hq0, hflat] at hself
  rcases h.parent_cases hvalid hb hc0 hcn hk hq hindex hp with
    ⟨rfl, hk0⟩ | ⟨k', hk', hv, hvn, hvi⟩
  · omega
  · have hslot := DraftRun.slot_div_lt hvalid hb (by omega : k' < m.numSteps)
      (show q < run.topk * run.topk by rw [hone]; omega)
    have hslot0 : run.slot b k' (q / run.topk) = 0 := by
      rw [hwidth k'] at hslot
      omega
    have hparent := h.topScoresIndex_eq hvalid hb hone (show v - 1 < m.numDraftTokens - 1 by omega)
    rw [hvi, hslot0, hflat] at hparent
    omega

end Selected

end Drafted

/-! ### One round -/

section Round
variable {run : DraftRun K H} {m : EagleServer S} {s : EagleState S} {d : VerifyStep}
  {chosen : ℕ → List ℕ}

/-- **A step that verifies drafts of the draft loop meets its contract.** -/
theorem drafted_gathered (hvalid : run.Valid d.bs m.numSteps)
    (hdrafted : ∀ b < d.bs, Drafted run m d b (chosen b)) (howns : s.Owns m d) :
    d.Gathered m s where
  owns := howns
  buildable b hb := (hdrafted b hb).buildable hvalid hb s
  chain htopk b hb v := (hdrafted b hb).chain hvalid hb htopk v

/-- **A round of EAGLE**, from any state of the engine: whatever the draft model proposes and
however `torch.topk` breaks ties, the draft loop, `organize_draft_results` and the verify step
commit for every request the next tokens of greedy decoding, and more of them than any branch of
the drafted tree that greedy decoding would take. -/
theorem drafted_round (h : m.Reachable s) (hvalid : run.Valid d.bs m.numSteps)
    (hdrafted : ∀ b < d.bs, Drafted run m d b (chosen b)) (howns : s.Owns m d)
    (hfirst : ∀ b < d.bs, (run.firstIndex b).Nodup)
    (hlater : ∀ i k, k < d.bs * run.topk → (run.topkIndex i k).Nodup) :
    m.Reachable (m.verify s d) ∧ ∀ b < d.bs,
      (m.verify s d).outputIds (d.reqPoolIndices b) = s.outputIds (d.reqPoolIndices b) ++
          m.model.greedyDecode (m.acceptLens s d b) (s.tokens (d.reqPoolIndices b)) ∧
        m.acceptLens s d b ≤ m.numSteps + 1 ∧
        ∀ p, m.Branch s d b p →
          m.spelled s d b p = s.tokens (d.reqPoolIndices b) ++
            m.model.greedyDecode p.length (s.tokens (d.reqPoolIndices b)) →
          p.length < m.acceptLens s d b := by
  have hd := drafted_gathered hvalid hdrafted howns
  refine ⟨h.verify hd, fun b hb => ?_⟩
  obtain ⟨houtput, -, hle, hlongest⟩ := h.verify_progress hd hb
  have hsiblings := (hdrafted b hb).siblings (s := s) hvalid hb (hfirst b hb)
    fun i j hj => hlater i _ (DraftRun.row_lt hb hj)
  exact ⟨houtput, hle, hlongest hsiblings⟩

end Round

/-- Its draft: the first slot proposes 4 and 5, and behind 4 comes 8. -/
def sumRun : DraftRun ℚ Unit where
  topk := 2
  firstP _ := [1, 0]
  firstIndex _ := [4, 5]
  firstHidden := none
  topkP _ m := if m = 0 then [1, 0] else [0, 0]
  topkIndex _ m := if m = 0 then [8, 9] else [1, 2]
  hidden _ := none
  pick _ _ := [0, 1]

theorem sumRun_valid : sumRun.Valid 1 2 where
  topk_pos := Nat.two_pos
  steps_pos := Nat.two_pos
  firstP_length _ _ := rfl
  firstIndex_length _ _ := rfl
  topkP_length i m _ := by
    show (if m = 0 then [1, 0] else [0, 0] : List ℚ).length = 2
    split <;> rfl
  topkIndex_length i m _ := by
    show (if m = 0 then [8, 9] else [1, 2] : List ℤ).length = 2
    split <;> rfl
  firstP_mem r _ := by
    show ∀ p ∈ ([1, 0] : List ℚ), 0 ≤ p ∧ p ≤ 1
    decide
  topkP_mem i m _ := by
    show ∀ p ∈ (if m = 0 then [1, 0] else [0, 0] : List ℚ), 0 ≤ p ∧ p ≤ 1
    split <;> decide
  pick i hi hlt r hr := by
    obtain rfl : i = 1 := by omega
    obtain rfl : r = 0 := by omega
    have hscores : ((sumRun.select 1).treeInfo.scores 0).flatten = [1, 0, 0, 0] := by
      decide +kernel
    rw [hscores]
    constructor <;> decide

theorem sumStep_drafted (b : ℕ) (hb : b < 1) : Drafted sumRun sumServer sumStep b [0, 1, 2] := by
  obtain rfl := Nat.lt_one_iff.mp hb
  have horganize : organizeDraftResults (sumRun.treeInfos 2) 0 [0, 1, 2] =
      ([-1, 0, 1], [0, 1, 2], [4, 5, 8]) := by decide +kernel
  have hget : ∀ {α : Type} (xs : List α) (j : ℕ) (x y : α), xs[j]? = some x → xs.getD j y = x := by
    intro α xs j x y hj
    rw [List.getD_eq_getElem?_getD, hj]
    rfl
  refine ⟨rfl, ?_, fun j p hj => ?_, fun j s hj => ?_, fun j t hj => ?_⟩
  · have hscores : scoreList (sumRun.treeInfos 2) 0 = [1, 0, 1, 0, 0, 0] := by decide +kernel
    show IsTopK (fun s => (scoreList (sumRun.treeInfos 2) 0).getD s 0)
      (Finset.range (scoreList (sumRun.treeInfos 2) 0).length) 3 [0, 1, 2]
    rw [hscores]
    constructor <;> decide
  · have hj' : (organizeDraftResults (sumRun.treeInfos 2) 0 [0, 1, 2]).1[j]? = some p := hj
    rw [horganize] at hj'
    exact hget _ j p 0 hj'
  · have hj' : (organizeDraftResults (sumRun.treeInfos 2) 0 [0, 1, 2]).2.1[j]? = some s := hj
    rw [horganize] at hj'
    exact hget _ j s 0 hj'
  · have hj' : (organizeDraftResults (sumRun.treeInfos 2) 0 [0, 1, 2]).2.2[j]? = some t := hj
    rw [horganize] at hj'
    exact hget _ j t 0 hj'

theorem drafted_round_sum :
    sumServer.Reachable (sumServer.verify sumAdmitted sumStep) ∧ ∀ b < 1,
      (sumServer.verify sumAdmitted sumStep).outputIds (sumStep.reqPoolIndices b) =
          sumAdmitted.outputIds (sumStep.reqPoolIndices b) ++
            sumServer.model.greedyDecode (sumServer.acceptLens sumAdmitted sumStep b)
              (sumAdmitted.tokens (sumStep.reqPoolIndices b)) ∧
        sumServer.acceptLens sumAdmitted sumStep b ≤ 2 + 1 ∧
        ∀ p, sumServer.Branch sumAdmitted sumStep b p →
          sumServer.spelled sumAdmitted sumStep b p =
            sumAdmitted.tokens (sumStep.reqPoolIndices b) ++
              sumServer.model.greedyDecode p.length
                (sumAdmitted.tokens (sumStep.reqPoolIndices b)) →
          p.length < sumServer.acceptLens sumAdmitted sumStep b :=
  drafted_round sumAdmitted_reachable sumRun_valid sumStep_drafted sumStep_owns
    (fun _ _ => (by decide : ([4, 5] : List ℤ).Nodup)) fun i k _ => by
      show (if k = 0 then [8, 9] else [1, 2] : List ℤ).Nodup
      split <;> decide

end LatentSpec.EagleTree
