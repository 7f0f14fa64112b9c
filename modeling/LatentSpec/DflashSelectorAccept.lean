import Mathlib.Data.Fin.SuccPred
import LatentSpec.TiledStores

/-! # The dense draft distribution of the selector

The selector draws every token from a few candidates; the rejection sampler reads a dense row over
the vocabulary.  The worker keeps one dense buffer for all steps: a call scatters the
probabilities of its candidates into the first rows and, when the sampler has returned or raised,
scatters zeros to the same places.  `selectorSamplingAccept_spec` is what one call hands over and
leaves behind, `selectorRun_spec` what every sequence of calls does.
-/
namespace LatentSpec
open TiledStores

/-- A tensor of the shape `[cap, gamma, vocab]`. -/
structure DraftProbsBuf (K : Type) where
  cap : ℕ
  gamma : ℕ
  vocab : ℕ
  data : ℕ → ℕ → ℕ → K

/-- The arguments of `_selector_sampling_accept`.  Candidates are tokens, distinct in each row;
`inputs` are the arguments that only the sampler reads. -/
structure SelectorCall (K Inputs : Type) where
  bs : ℕ
  gamma : ℕ
  vocab : ℕ
  topK : ℕ
  candidateIds : Fin bs → Fin gamma → Fin topK → Fin vocab
  distinct : ∀ r i, Function.Injective (candidateIds r i)
  qRows : Fin bs → Fin gamma → Fin topK → K
  inputs : Inputs

variable {K Inputs E : Type}

/-- The dense rows a call hands to the sampler. -/
abbrev SelectorCall.DraftProbs (c : SelectorCall K Inputs) : Type :=
  Fin c.bs → Fin c.gamma → Fin c.vocab → K

/-- `accept_sampling`: accepted lengths, bonus tokens and trimmed lengths, or what it raises. -/
abbrev AcceptSampling (K Inputs E : Type) : Type :=
  (c : SelectorCall K Inputs) → c.DraftProbs → Except E (List ℤ × List ℤ × List ℤ)

/-- What a call of `_selector_sampling_accept` does: the rows it hands to `accept_sampling`, what it
returns or raises, and the buffer it leaves. -/
structure SelectorOutcome (K Inputs E : Type) where
  call : SelectorCall K Inputs
  draftProbs : call.DraftProbs
  result : Except E (List ℤ × List ℤ)
  buffer : DraftProbsBuf K

namespace DraftProbsBuf

/-- `torch.zeros((cap, gamma, vocab))` -/
def zeros [Zero K] (cap gamma vocab : ℕ) : DraftProbsBuf K := ⟨cap, gamma, vocab, fun _ _ _ => 0⟩

/-- `buffer[:bs].scatter_(-1, candidate_ids, src)` -/
def scatter (buffer : DraftProbsBuf K) (c : SelectorCall K Inputs)
    (src : Fin c.bs → Fin c.gamma → Fin c.topK → K) : DraftProbsBuf K :=
  { buffer with
    data := fun r i =>
      if h : r < c.bs ∧ i < c.gamma then
        writeAll (buffer.data r i) ((List.finRange c.topK).map fun j =>
          ((c.candidateIds ⟨r, h.1⟩ ⟨i, h.2⟩ j : ℕ), src ⟨r, h.1⟩ ⟨i, h.2⟩ j))
      else buffer.data r i }

/-- The buffer a call writes to. -/
def forCall [Zero K] (buffer : Option (DraftProbsBuf K)) (c : SelectorCall K Inputs) :
    DraftProbsBuf K :=
  match buffer with
  | none => zeros c.bs c.gamma c.vocab
  | some buffer =>
    if buffer.cap < c.bs ∨ (buffer.gamma, buffer.vocab) ≠ (c.gamma, c.vocab) then
      zeros (max c.bs (buffer.cap * 2)) c.gamma c.vocab
    else buffer

end DraftProbsBuf

/-- `_selector_sampling_accept` -/
def selectorSamplingAccept [Zero K] (accept : AcceptSampling K Inputs E)
    (buffer : Option (DraftProbsBuf K)) (c : SelectorCall K Inputs) : SelectorOutcome K Inputs E :=
  let written := (DraftProbsBuf.forCall buffer c).scatter c c.qRows
  let draftProbs : c.DraftProbs := fun r i v => written.data r i v
  { call := c
    draftProbs := draftProbs
    result := (accept c draftProbs).map fun (acceptLen, bonus, _) => (acceptLen, bonus)
    -- `finally`
    buffer := written.scatter c fun _ _ _ => 0 }

/-- A worker that starts without a buffer makes one call after another. -/
def selectorRun [Zero K] (accept : AcceptSampling K Inputs E) :
    Option (DraftProbsBuf K) → List (SelectorCall K Inputs) → List (SelectorOutcome K Inputs E)
  | _, [] => []
  | buffer, c :: calls =>
    let outcome := selectorSamplingAccept accept buffer c
    outcome :: selectorRun accept (some outcome.buffer) calls

/-! ### Scattering -/

/-- Nothing but zeros. -/
def DraftProbsBuf.Clean [Zero K] (buffer : DraftProbsBuf K) : Prop := ∀ r i v, buffer.data r i v = 0

/-- The rows are the sparse probabilities of the call, and zero at every other token. -/
structure SelectorCall.Scattered [Zero K] (c : SelectorCall K Inputs) (rows : c.DraftProbs) :
    Prop where
  candidate : ∀ r i j, rows r i (c.candidateIds r i j) = c.qRows r i j
  other : ∀ r i v, (∀ j, c.candidateIds r i j ≠ v) → rows r i v = 0

namespace DraftProbsBuf
variable (buffer : DraftProbsBuf K) (c : SelectorCall K Inputs)
  (src : Fin c.bs → Fin c.gamma → Fin c.topK → K)

theorem scatter_of_notMem {r i v : ℕ}
    (h : ∀ (hr : r < c.bs) (hi : i < c.gamma) (j), (c.candidateIds ⟨r, hr⟩ ⟨i, hi⟩ j : ℕ) ≠ v) :
    (buffer.scatter c src).data r i v = buffer.data r i v := by
  unfold scatter
  dsimp only
  split
  · rename_i hrow
    apply writeAll_of_notMem
    rw [List.map_map]
    intro hmem
    obtain ⟨j, -, hj⟩ := List.mem_map.mp hmem
    exact h hrow.1 hrow.2 j hj
  · rfl

theorem scatter_candidate (r : Fin c.bs) (i : Fin c.gamma) (j : Fin c.topK) :
    (buffer.scatter c src).data r i (c.candidateIds r i j) = src r i j := by
  unfold scatter
  dsimp only
  rw [dif_pos ⟨r.isLt, i.isLt⟩]
  apply writeAll_of_mem
  · right
    rw [List.map_map]
    exact List.mem_map.mpr ⟨j, List.mem_finRange j, rfl⟩
  · intro w hw hcell
    obtain ⟨j', -, rfl⟩ := List.mem_map.mp hw
    rw [c.distinct r i (Fin.ext hcell)]

/-- **Un-scattering**: zeros at the places a call wrote leave the buffer as it was before, if that
was zero. -/
theorem Clean.unscatter [Zero K] {buffer : DraftProbsBuf K} (h : buffer.Clean) :
    ((buffer.scatter c src).scatter c fun _ _ _ => 0).Clean := by
  intro r i v
  by_cases hcell : ∃ (hr : r < c.bs) (hi : i < c.gamma), ∃ j,
    (c.candidateIds ⟨r, hr⟩ ⟨i, hi⟩ j : ℕ) = v
  · obtain ⟨hr, hi, j, rfl⟩ := hcell
    exact scatter_candidate _ c _ ⟨r, hr⟩ ⟨i, hi⟩ j
  · have hnot : ∀ (hr : r < c.bs) (hi : i < c.gamma) (j),
      (c.candidateIds ⟨r, hr⟩ ⟨i, hi⟩ j : ℕ) ≠ v :=
      fun hr hi j heq => hcell ⟨hr, hi, j, heq⟩
    rw [scatter_of_notMem _ c _ hnot, scatter_of_notMem _ c _ hnot]
    exact h r i v

variable [Zero K]

/-- The buffer of a call is zero, and wide enough. -/
theorem forCall_spec {buffer : Option (DraftProbsBuf K)} (h : ∀ b ∈ buffer, b.Clean) :
    (forCall buffer c).Clean ∧ c.bs ≤ (forCall buffer c).cap ∧
      (forCall buffer c).gamma = c.gamma ∧ (forCall buffer c).vocab = c.vocab := by
  cases buffer with
  | none => exact ⟨fun _ _ _ => rfl, le_rfl, rfl, rfl⟩
  | some b =>
    unfold forCall
    dsimp only
    split
    · exact ⟨fun _ _ _ => rfl, le_max_left _ _, rfl, rfl⟩
    · rename_i hfits
      rw [not_or, not_lt, not_not, Prod.mk.injEq] at hfits
      exact ⟨h b rfl, hfits.1, hfits.2⟩

end DraftProbsBuf

/-! ### Calls -/

section Calls
variable [Zero K] (accept : AcceptSampling K Inputs E)

/-- **One call on a zero buffer** hands over its own candidates, as rows of the buffer, and leaves
the buffer zero, whether the sampler raises or not. -/
theorem selectorSamplingAccept_spec {buffer : Option (DraftProbsBuf K)}
    (h : ∀ b ∈ buffer, b.Clean) (c : SelectorCall K Inputs) :
    c.Scattered (selectorSamplingAccept accept buffer c).draftProbs ∧
      (selectorSamplingAccept accept buffer c).buffer.Clean ∧
      c.bs ≤ (selectorSamplingAccept accept buffer c).buffer.cap := by
  obtain ⟨hclean, hcap, -⟩ := DraftProbsBuf.forCall_spec c h
  refine ⟨⟨fun r i j => ?_, fun r i v hother => ?_⟩, hclean.unscatter c _, hcap⟩
  · exact DraftProbsBuf.scatter_candidate _ c _ r i j
  · have hframe := DraftProbsBuf.scatter_of_notMem (DraftProbsBuf.forCall buffer c) c c.qRows
      (r := r) (i := i) (v := v) fun _ _ j heq => hother j (Fin.ext heq)
    exact hframe.trans (hclean r i v)

theorem selectorRun_calls (buffer : Option (DraftProbsBuf K))
    (calls : List (SelectorCall K Inputs)) :
    (selectorRun accept buffer calls).map (·.call) = calls := by
  induction calls generalizing buffer with
  | nil => rfl
  | cons c calls ih => exact congrArg (c :: ·) (ih _)

theorem selectorRun_outcomes {buffer : Option (DraftProbsBuf K)} (h : ∀ b ∈ buffer, b.Clean)
    {calls : List (SelectorCall K Inputs)} :
    ∀ o ∈ selectorRun accept buffer calls, o.call.Scattered o.draftProbs ∧ o.buffer.Clean ∧
      o.result = (accept o.call o.draftProbs).map fun (acceptLen, bonus, _) =>
        (acceptLen, bonus) := by
  induction calls generalizing buffer with
  | nil =>
    intro o ho
    cases ho
  | cons c calls ih =>
    intro o ho
    obtain ⟨hrows, hclean, -⟩ := selectorSamplingAccept_spec accept h c
    rcases List.mem_cons.mp ho with rfl | hrest
    · exact ⟨hrows, hclean, rfl⟩
    · apply ih _ o hrest
      rintro b ⟨⟩
      exact hclean

/-- **The buffer never leaks.**  Along every sequence of calls, whatever the sampler does, each call
hands over exactly its own probabilities, and the buffer is zero after it. -/
theorem selectorRun_spec (calls : List (SelectorCall K Inputs)) :
    (selectorRun accept none calls).map (·.call) = calls ∧
      ∀ o ∈ selectorRun accept none calls, o.call.Scattered o.draftProbs ∧ o.buffer.Clean ∧
        o.result = (accept o.call o.draftProbs).map fun (acceptLen, bonus, _) =>
          (acceptLen, bonus) := by
  refine ⟨selectorRun_calls accept none calls, selectorRun_outcomes accept ?_⟩
  rintro b ⟨⟩

end Calls

/-- Requests that draw the second of the last two of three tokens, in `gamma` steps. -/
def lastTwo (bs gamma : ℕ) : SelectorCall ℕ Unit where
  bs := bs
  gamma := gamma
  vocab := 3
  topK := 2
  candidateIds _ _ := Fin.succ
  distinct _ _ := Fin.succ_injective 2
  qRows _ _ := Fin.val
  inputs := ()

/-- A sampler that raises on a batch of two. -/
def raisesOnTwo : AcceptSampling ℕ Unit String := fun c _ =>
  if c.bs = 2 then .error "out of memory"
  else .ok (List.replicate c.bs 1, List.replicate c.bs 2, [])

/-- The batch grows, the sampler raises, and then the number of steps changes: three buffers, each
zero after its call. -/
theorem selectorRun_spec_grown :
    ((selectorRun raisesOnTwo none [lastTwo 1 2, lastTwo 2 2, lastTwo 1 3]).map (·.call) =
        [lastTwo 1 2, lastTwo 2 2, lastTwo 1 3] ∧
      ∀ o ∈ selectorRun raisesOnTwo none [lastTwo 1 2, lastTwo 2 2, lastTwo 1 3],
        o.call.Scattered o.draftProbs ∧ o.buffer.Clean ∧
          o.result = (raisesOnTwo o.call o.draftProbs).map fun (acceptLen, bonus, _) =>
            (acceptLen, bonus)) ∧
      (selectorRun raisesOnTwo none [lastTwo 1 2, lastTwo 2 2, lastTwo 1 3]).map
          (fun o => (o.buffer.cap, o.buffer.gamma)) = [(1, 2), (2, 2), (4, 3)] ∧
      (selectorRun raisesOnTwo none [lastTwo 1 2, lastTwo 2 2, lastTwo 1 3]).map
        (·.result.toOption) =
        [some ([1], [2]), none, some ([1], [2])] :=
  ⟨selectorRun_spec raisesOnTwo [lastTwo 1 2, lastTwo 2 2, lastTwo 1 3], rfl, rfl⟩

end LatentSpec
