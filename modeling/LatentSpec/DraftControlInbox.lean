import LatentSpec.OrderedDict
import Mathlib.Data.Finset.Lattice.Lemmas
import Mathlib.Data.List.Chain

/-! # The drafter's inbox of verifier control messages

A thread of the drafter receives batches of messages from the verifiers and leaves them in the
inbox; the scheduler extracts what it can use after each step.  The commits of one request are
kept as one segment, which grows with every commit and is cut at the front by an extract.  A close
drops what is pending for its request, and what comes with it.

Whatever the order of the calls, nothing raises as long as the verifiers keep to the protocol, and
what was extracted of a request followed by what is pending is what was received since its last
close (`inbox_conserves`).
-/
namespace LatentSpec

/-! ### Messages -/

structure DraftReqKey where
  srcVerifierRank : ℤ
  requestId : String
  deriving DecidableEq

structure DraftSync where
  requestId : String
  srcVerifierRank : ℤ
  dstDrafterRank : ℤ
  promptTokenIds : List ℤ
  committedOutputs : List ℤ

def DraftSync.draftKey (m : DraftSync) : DraftReqKey := ⟨m.srcVerifierRank, m.requestId⟩

structure VerifyCommit where
  requestId : String
  srcVerifierRank : ℤ
  dstDrafterRank : ℤ
  preVerifyCommittedLen : ℤ
  committedTokens : List ℤ

def VerifyCommit.draftKey (m : VerifyCommit) : DraftReqKey := ⟨m.srcVerifierRank, m.requestId⟩

structure DraftClose where
  requestId : String
  srcVerifierRank : ℤ
  dstDrafterRank : ℤ

def DraftClose.draftKey (m : DraftClose) : DraftReqKey := ⟨m.srcVerifierRank, m.requestId⟩

structure DraftControlBatch where
  syncMessages : List DraftSync
  verifyCommitMessages : List VerifyCommit
  closeMessages : List DraftClose

/-- What a call of the inbox may raise, with the values its message names. -/
inductive InboxError
  | differentRequest (segmentKey messageKey : DraftReqKey)
  | differentDrafterRank (requestId : String) (segmentDrafterRank messageDrafterRank : ℤ)
  | emptyCommittedTokens (requestId : String) (preVerifyCommittedLen : ℤ)
  | negativePreVerifyCommittedLen (requestId : String) (preVerifyCommittedLen : ℤ)
  | notContiguous (requestId : String) (expected actual : ℤ)
  | prefixNotPositive (requestId : String) (numTokens : ℤ)
  | prefixTooLong (requestId : String) (numTokens : ℤ) (segmentLen : ℕ)

def VerifyCommit.validateCommittedTokens (m : VerifyCommit) : Except InboxError Unit :=
  if m.committedTokens = [] then throw (.emptyCommittedTokens m.requestId m.preVerifyCommittedLen)
  else if m.preVerifyCommittedLen < 0 then
    throw (.negativePreVerifyCommittedLen m.requestId m.preVerifyCommittedLen)
  else pure ()

/-! ### Segments -/

structure VerifierCommitSegment where
  draftKey : DraftReqKey
  dstDrafterRank : ℤ
  preVerifyCommittedLen : ℤ
  committedTokens : List ℤ

namespace VerifierCommitSegment
variable (s : VerifierCommitSegment)

def endCommittedLen : ℤ := s.preVerifyCommittedLen + s.committedTokens.length

def appendMessage (m : VerifyCommit) : Except InboxError VerifierCommitSegment := do
  if m.draftKey ≠ s.draftKey then throw (.differentRequest s.draftKey m.draftKey)
  if m.dstDrafterRank ≠ s.dstDrafterRank then
    throw (.differentDrafterRank m.requestId s.dstDrafterRank m.dstDrafterRank)
  m.validateCommittedTokens
  if m.preVerifyCommittedLen ≠ s.endCommittedLen then
    throw (.notContiguous m.requestId s.endCommittedLen m.preVerifyCommittedLen)
  return { s with committedTokens := s.committedTokens ++ m.committedTokens }

/-- The extracted segment, and what the segment becomes. -/
def extractPrefix (numTokens : ℤ) :
    Except InboxError (VerifierCommitSegment × VerifierCommitSegment) := do
  if numTokens ≤ 0 then throw (.prefixNotPositive s.draftKey.requestId numTokens)
  if s.committedTokens.length < numTokens then
    throw (.prefixTooLong s.draftKey.requestId numTokens s.committedTokens.length)
  return ({ s with committedTokens := s.committedTokens.take numTokens.toNat },
    { s with
      preVerifyCommittedLen := s.preVerifyCommittedLen + numTokens
      committedTokens := s.committedTokens.drop numTokens.toNat })

end VerifierCommitSegment

/-! ### Tokens at their positions -/

/-- Tokens with the positions they stand at. -/
def placed (start : ℤ) (tokens : List ℤ) : List (ℤ × ℤ) :=
  tokens.mapIdx fun i token => (start + i, token)

theorem placed_append (start : ℤ) (xs ys : List ℤ) :
    placed start (xs ++ ys) = placed start xs ++ placed (start + xs.length) ys := by
  unfold placed
  rw [List.mapIdx_append]
  refine congrArg (_ ++ ·)
    (congrArg (fun f => List.mapIdx f ys) (funext fun i => funext fun token => ?_))
  refine congrArg (·, token) ?_
  omega

def VerifyCommit.placed (m : VerifyCommit) : List (ℤ × ℤ) :=
  LatentSpec.placed m.preVerifyCommittedLen m.committedTokens

def VerifyCommit.endLen (m : VerifyCommit) : ℤ :=
  m.preVerifyCommittedLen + m.committedTokens.length

namespace VerifierCommitSegment
variable {s : VerifierCommitSegment}

def placed (s : VerifierCommitSegment) : List (ℤ × ℤ) :=
  LatentSpec.placed s.preVerifyCommittedLen s.committedTokens

/-- The first tokens of a segment. -/
def front (n : ℤ) (s : VerifierCommitSegment) : VerifierCommitSegment :=
  { s with committedTokens := s.committedTokens.take n.toNat }

/-- The tokens after them. -/
def back (n : ℤ) (s : VerifierCommitSegment) : VerifierCommitSegment :=
  { s with
    preVerifyCommittedLen := s.preVerifyCommittedLen + n
    committedTokens := s.committedTokens.drop n.toNat }

/-- What an extract takes of a segment. -/
def taken (n : ℤ) (s : VerifierCommitSegment) : Option VerifierCommitSegment :=
  if n ≤ 0 then none else some (s.front n)

/-- What it leaves. -/
def left (n : ℤ) (s : VerifierCommitSegment) : Option VerifierCommitSegment :=
  if n ≤ 0 then some s
  else if (s.back n).committedTokens = [] then none
  else some (s.back n)

/-- **An extract only cuts.** -/
theorem placed_front_back {n : ℤ} (hpos : 0 < n) (hn : n ≤ s.committedTokens.length) :
    (s.front n).placed ++ (s.back n).placed = s.placed := by
  have hcast : (n.toNat : ℤ) = n := Int.toNat_of_nonneg hpos.le
  have hsplit := placed_append s.preVerifyCommittedLen (s.committedTokens.take n.toNat)
    (s.committedTokens.drop n.toNat)
  rw [List.take_append_drop, List.length_take, Nat.min_eq_left (by omega), hcast] at hsplit
  exact hsplit.symm

theorem placed_taken_left {n : ℤ} (hn : n ≤ s.committedTokens.length) :
    (taken n s).toList.flatMap placed ++ (left n s).toList.flatMap placed = s.placed := by
  unfold taken left
  by_cases hpos : n ≤ 0
  · rw [if_pos hpos, if_pos hpos]
    simp
  · rw [if_neg hpos, if_neg hpos]
    have hcut := placed_front_back (not_le.mp hpos) hn
    by_cases hnil : (s.back n).committedTokens = []
    · have hback : (s.back n).placed = [] := by rw [placed, hnil]; rfl
      rw [hback, List.append_nil] at hcut
      simpa [hnil] using hcut
    · simpa [hnil] using hcut

theorem appendMessage_ok {m : VerifyCommit} (hkey : m.draftKey = s.draftKey)
    (hrank : m.dstDrafterRank = s.dstDrafterRank) (htokens : m.committedTokens ≠ [])
    (hlen : 0 ≤ m.preVerifyCommittedLen) (hend : m.preVerifyCommittedLen = s.endCommittedLen) :
    s.appendMessage m =
      .ok { s with committedTokens := s.committedTokens ++ m.committedTokens } := by
  unfold appendMessage VerifyCommit.validateCommittedTokens
  simp only [hkey, hrank, hend, ne_eq, not_true_eq_false, if_false, htokens]
  rw [if_neg (not_lt.mpr (hend ▸ hlen))]
  rfl

theorem extractPrefix_ok {n : ℤ} (hpos : 0 < n) (hn : n ≤ s.committedTokens.length) :
    s.extractPrefix n = .ok (s.front n, s.back n) := by
  unfold extractPrefix
  rw [if_neg (not_le.mpr hpos), if_neg (not_lt.mpr hn)]
  rfl

end VerifierCommitSegment

/-! ### The inbox -/

structure DraftControlInbox where
  syncMessages : List DraftSync
  verifierCommitSegments : OrderedDict DraftReqKey VerifierCommitSegment
  closeKeys : Finset DraftReqKey

structure ReadyDraftControls where
  syncMessages : List DraftSync
  closeKeys : Finset DraftReqKey
  readyCommitSegments : List VerifierCommitSegment

/-! ### Calls, and what they leave behind -/

inductive Call
  | addControlBatch (batch : DraftControlBatch)
  | extractReadyControls (consumableCommitLen : VerifierCommitSegment → ℤ)

/-- A call with what it returned. -/
inductive InboxEvent
  | received (batch : DraftControlBatch)
  | extracted (consumableCommitLen : VerifierCommitSegment → ℤ) (ready : ReadyDraftControls)

def InboxEvent.call : InboxEvent → Call
  | received batch => .addControlBatch batch
  | extracted f _ => .extractReadyControls f

/-- The keys a batch closes. -/
def DraftControlBatch.closed (batch : DraftControlBatch) : Finset DraftReqKey :=
  (batch.closeMessages.map DraftClose.draftKey).toFinset

/-- The commits of a batch for one key. -/
def DraftControlBatch.commitsOf (batch : DraftControlBatch) (k : DraftReqKey) : List VerifyCommit :=
  batch.verifyCommitMessages.filter fun m => m.draftKey = k

/-! The calls of a run are listed from the last to the first. -/

/-- The commits of a key received since its last close. -/
def commitsSince (k : DraftReqKey) : List Call → List VerifyCommit
  | [] => []
  | .addControlBatch batch :: calls =>
    if k ∈ batch.closed then [] else commitsSince k calls ++ batch.commitsOf k
  | .extractReadyControls _ :: calls => commitsSince k calls

/-- The keys closed since the last extract. -/
def closesPending : List Call → Finset DraftReqKey
  | [] => ∅
  | .addControlBatch batch :: calls => closesPending calls ∪ batch.closed
  | .extractReadyControls _ :: _ => ∅

/-- The syncs received since the last extract, without those that a close of their key, in the same
batch or a later one, has dropped. -/
def syncsPending : List Call → List DraftSync
  | [] => []
  | .addControlBatch batch :: calls =>
    (syncsPending calls ++ batch.syncMessages).filter fun m => m.draftKey ∉ batch.closed
  | .extractReadyControls _ :: _ => []

/-- The segments of a key extracted since its last close. -/
def segmentsSince (k : DraftReqKey) : List InboxEvent → List VerifierCommitSegment
  | [] => []
  | .received batch :: events => if k ∈ batch.closed then [] else segmentsSince k events
  | .extracted _ ready :: events =>
    segmentsSince k events ++ ready.readyCommitSegments.filter fun s => s.draftKey = k

/-- Commits as the protocol has them: valid, for one drafter, each starting where the one before
ends. -/
structure ValidCommits (cs : List VerifyCommit) : Prop where
  tokens : ∀ c ∈ cs, c.committedTokens ≠ []
  nonneg : ∀ c ∈ cs, 0 ≤ c.preVerifyCommittedLen
  rank : ∀ c ∈ cs, ∀ c' ∈ cs, c.dstDrafterRank = c'.dstDrafterRank
  contiguous : cs.IsChain fun c c' => c'.preVerifyCommittedLen = c.endLen

theorem ValidCommits.left {cs cs' : List VerifyCommit} (h : ValidCommits (cs ++ cs')) :
    ValidCommits cs where
  tokens c hc := h.tokens c (List.mem_append_left _ hc)
  nonneg c hc := h.nonneg c (List.mem_append_left _ hc)
  rank c hc c' hc' := h.rank c (List.mem_append_left _ hc) c' (List.mem_append_left _ hc')
  contiguous := h.contiguous.left_of_append

/-- The calls keep to the protocol: the commits of a key are valid, a closed key is not used again
before its close was extracted, and no extract asks for more than a segment has. -/
inductive Admissible : List Call → Prop
  | nil : Admissible []
  | addControlBatch {calls : List Call} {batch : DraftControlBatch} (before : Admissible calls)
      (syncs : ∀ m ∈ batch.syncMessages, m.draftKey ∉ closesPending calls)
      (commits : ∀ m ∈ batch.verifyCommitMessages, m.draftKey ∉ closesPending calls)
      (valid : ∀ k, ValidCommits (commitsSince k (.addControlBatch batch :: calls))) :
      Admissible (.addControlBatch batch :: calls)
  | extractReadyControls {calls : List Call} {f : VerifierCommitSegment → ℤ}
      (before : Admissible calls) (len : ∀ s, f s ≤ s.committedTokens.length) :
      Admissible (.extractReadyControls f :: calls)

namespace DraftControlInbox

def empty : DraftControlInbox := ⟨[], .empty, ∅⟩

def addCloseKeyLocked (inbox : DraftControlInbox) (key : DraftReqKey) : DraftControlInbox where
  syncMessages := inbox.syncMessages.filter fun m => m.draftKey ≠ key
  verifierCommitSegments := inbox.verifierCommitSegments.pop key
  closeKeys := insert key inbox.closeKeys

/-- The loop of `add_control_batch_locked` over the syncs. -/
def addSync (inbox : DraftControlInbox) (m : DraftSync) : DraftControlInbox :=
  if m.draftKey ∉ inbox.closeKeys then
    { inbox with syncMessages := inbox.syncMessages ++ [m] }
  else inbox

def addVerifyCommitLocked (inbox : DraftControlInbox) (m : VerifyCommit) :
    Except InboxError DraftControlInbox := do
  if m.draftKey ∈ inbox.closeKeys then return inbox
  let segment := (inbox.verifierCommitSegments.get? m.draftKey).getD
    { draftKey := m.draftKey
      dstDrafterRank := m.dstDrafterRank
      preVerifyCommittedLen := m.preVerifyCommittedLen
      committedTokens := [] }
  let segment ← segment.appendMessage m
  return { inbox with
    verifierCommitSegments := inbox.verifierCommitSegments.set m.draftKey segment }

def addControlBatchLocked (inbox : DraftControlInbox) (batch : DraftControlBatch) :
    Except InboxError DraftControlInbox :=
  let inbox := (batch.closeMessages.map DraftClose.draftKey).foldl addCloseKeyLocked inbox
  let inbox := batch.syncMessages.foldl addSync inbox
  batch.verifyCommitMessages.foldlM addVerifyCommitLocked inbox

/-- The loop of `extract_ready_controls_locked`: the segments left, and those that are ready. -/
def extractSegment (consumableCommitLen : VerifierCommitSegment → ℤ)
    (state : OrderedDict DraftReqKey VerifierCommitSegment × List VerifierCommitSegment)
    (item : DraftReqKey × VerifierCommitSegment) :
    Except InboxError
      (OrderedDict DraftReqKey VerifierCommitSegment × List VerifierCommitSegment) := do
  let consumableLen := consumableCommitLen item.2
  if consumableLen ≤ 0 then return state
  let (ready, segment) ← item.2.extractPrefix consumableLen
  if segment.committedTokens = [] then return (state.1.pop item.1, state.2 ++ [ready])
  return (state.1.set item.1 segment, state.2 ++ [ready])

def extractReadyControlsLocked (inbox : DraftControlInbox)
    (consumableCommitLen : VerifierCommitSegment → ℤ) :
    Except InboxError (ReadyDraftControls × DraftControlInbox) := do
  let (segments, ready) ← inbox.verifierCommitSegments.items.foldlM
    (extractSegment consumableCommitLen) (inbox.verifierCommitSegments, [])
  return (⟨inbox.syncMessages, inbox.closeKeys, ready⟩, ⟨[], segments, ∅⟩)

/-! ### What one call does to the segment of a key -/

open VerifierCommitSegment

section Extract
variable {f : VerifierCommitSegment → ℤ} {d : OrderedDict DraftReqKey VerifierCommitSegment}

/-- One turn of the extracting loop. -/
theorem extractSegment_ok (ready : List VerifierCommitSegment) {key : DraftReqKey}
    {s : VerifierCommitSegment} (hlen : f s ≤ s.committedTokens.length)
    (hget : d.get? key = some s) :
    ∃ d', extractSegment f (d, ready) (key, s) = .ok (d', ready ++ (taken (f s) s).toList) ∧
      ∀ k, d'.get? k = if k = key then left (f s) s else d.get? k := by
  unfold extractSegment taken left
  by_cases hpos : f s ≤ 0
  · refine ⟨d, ?_, fun k => ?_⟩
    · simp only [if_pos hpos, Option.toList_none, List.append_nil]
      rfl
    · rw [if_pos hpos]
      by_cases hk : k = key
      · rw [if_pos hk, hk, hget]
      · rw [if_neg hk]
  · have hextract := extractPrefix_ok (not_le.mp hpos) hlen
    simp only [if_neg hpos, hextract]
    by_cases hnil : (s.back (f s)).committedTokens = []
    · refine ⟨d.pop key, ?_, fun k => ?_⟩
      · show (if (s.back (f s)).committedTokens = [] then _ else _) = _
        rw [if_pos hnil]
        rfl
      · rw [if_pos hnil, OrderedDict.get?_pop]
    · refine ⟨d.set key (s.back (f s)), ?_, fun k => ?_⟩
      · show (if (s.back (f s)).committedTokens = [] then _ else _) = _
        rw [if_neg hnil]
        rfl
      · rw [if_neg hnil, OrderedDict.get?_set]

/-- The loop over all segments: each key's is cut by itself. -/
theorem foldlM_extractSegment (hlen : ∀ s, f s ≤ s.committedTokens.length)
    {items : List (DraftReqKey × VerifierCommitSegment)} (hnodup : (items.map Prod.fst).Nodup)
    (hitems : ∀ item ∈ items, d.get? item.1 = some item.2) (ready : List VerifierCommitSegment) :
    ∃ d', items.foldlM (extractSegment f) (d, ready) =
        .ok (d', ready ++ items.filterMap fun item => taken (f item.2) item.2) ∧
      ∀ k, d'.get? k = match items.lookup k with
        | some s => left (f s) s
        | none => d.get? k := by
  induction items generalizing d ready with
  | nil => exact ⟨d, by simp [pure, Except.pure], fun k => rfl⟩
  | cons item items ih =>
    obtain ⟨key, s⟩ := item
    rw [List.map_cons, List.nodup_cons] at hnodup
    obtain ⟨d₁, hstep, hd₁⟩ := extractSegment_ok ready (hlen s)
      (hitems (key, s) List.mem_cons_self)
    have hitems₁ : ∀ item ∈ items, d₁.get? item.1 = some item.2 := by
      intro item hitem
      have hne : item.1 ≠ key := fun heq =>
        hnodup.1 (List.mem_map.mpr ⟨item, hitem, heq⟩)
      rw [hd₁, if_neg hne]
      exact hitems item (List.mem_cons_of_mem _ hitem)
    obtain ⟨d', hloop, hd'⟩ := ih hnodup.2 hitems₁ (ready ++ (taken (f s) s).toList)
    refine ⟨d', ?_, fun k => ?_⟩
    · rw [List.foldlM_cons, hstep]
      show items.foldlM (extractSegment f) (d₁, _) = _
      rw [hloop, List.append_assoc, List.filterMap_cons]
      cases taken (f s) s <;> rfl
    · rw [hd', OrderedDict.lookup_cons_ite]
      by_cases hk : k = key
      · have hnone : items.lookup k = none := OrderedDict.lookup_eq_none.mpr (hk ▸ hnodup.1)
        rw [hnone, if_pos hk]
        exact (hd₁ k).trans (if_pos hk)
      · rw [if_neg hk]
        cases items.lookup k with
        | some s' => rfl
        | none => exact (hd₁ k).trans (if_neg hk)

/-- Of each key an extract delivers what it takes of that key's segment. -/
theorem filter_taken (k : DraftReqKey) {items : List (DraftReqKey × VerifierCommitSegment)}
    (hnodup : (items.map Prod.fst).Nodup) (hkeyed : ∀ item ∈ items, item.2.draftKey = item.1) :
    (items.filterMap fun item => taken (f item.2) item.2).filter (fun s => s.draftKey = k) =
      ((items.lookup k).bind fun s => taken (f s) s).toList := by
  have htaken : ∀ {s s' : VerifierCommitSegment}, taken (f s) s = some s' →
      s'.draftKey = s.draftKey := by
    intro s s' h
    unfold taken at h
    split at h
    · cases h
    · rw [← Option.some.inj h]
      rfl
  induction items with
  | nil => rfl
  | cons item items ih =>
    obtain ⟨key, s⟩ := item
    rw [List.map_cons, List.nodup_cons] at hnodup
    have hkey : s.draftKey = key := hkeyed (key, s) List.mem_cons_self
    have hrest := ih hnodup.2 fun item hitem => hkeyed item (List.mem_cons_of_mem _ hitem)
    rw [List.filterMap_cons, OrderedDict.lookup_cons_ite]
    by_cases hk : k = key
    · have hnone : items.lookup k = none := OrderedDict.lookup_eq_none.mpr (hk ▸ hnodup.1)
      rw [hnone] at hrest
      rw [if_pos hk]
      cases hcase : taken (f s) s with
      | none => simpa [hcase] using hrest
      | some s' =>
        have hs' : s'.draftKey = k := (htaken hcase).trans (hkey.trans hk.symm)
        simpa [hcase, hs'] using hrest
    · rw [if_neg hk, ← hrest]
      cases hcase : taken (f s) s with
      | none => rfl
      | some s' =>
        have hs' : s'.draftKey ≠ k := fun heq => hk (heq.symm.trans ((htaken hcase).trans hkey))
        simp [hs']

end Extract

/-! ### Runs -/

/-- One call. -/
def perform (inbox : DraftControlInbox) : Call → Except InboxError (InboxEvent × DraftControlInbox)
  | .addControlBatch batch => do
    let inbox ← inbox.addControlBatchLocked batch
    return (.received batch, inbox)
  | .extractReadyControls f => do
    let (ready, inbox) ← inbox.extractReadyControlsLocked f
    return (.extracted f ready, inbox)

/-- All calls, on an inbox that starts empty. -/
def run : List Call → Except InboxError (List InboxEvent × DraftControlInbox)
  | [] => return ([], .empty)
  | call :: calls => do
    let (events, inbox) ← run calls
    let (event, inbox) ← inbox.perform call
    return (event :: events, inbox)

/-! ### The invariant -/

/-- The pending segment of a key. -/
def pending (inbox : DraftControlInbox) (k : DraftReqKey) : Option VerifierCommitSegment :=
  inbox.verifierCommitSegments.get? k

/-- What was extracted of a key and what is pending are its commits. -/
structure KeyInv (k : DraftReqKey) (cs : List VerifyCommit) (segs : List VerifierCommitSegment)
    (pending : Option VerifierCommitSegment) : Prop where
  placed : segs.flatMap VerifierCommitSegment.placed ++
    pending.toList.flatMap VerifierCommitSegment.placed = cs.flatMap VerifyCommit.placed
  keyed : ∀ s ∈ pending, s.draftKey = k
  nonempty : ∀ s ∈ pending, s.committedTokens ≠ []
  ends : ∀ s ∈ pending, ∃ c ∈ cs.getLast?, s.endCommittedLen = c.endLen
  rank : ∀ s ∈ pending, ∀ c ∈ cs, s.dstDrafterRank = c.dstDrafterRank

theorem keyInv_nil (k : DraftReqKey) : KeyInv k [] [] none :=
  ⟨rfl, nofun, nofun, nofun, nofun⟩

/-- A commit that continues the others is appended to the pending segment, or opens one. -/
theorem KeyInv.addVerifyCommit {inbox : DraftControlInbox} {m : VerifyCommit}
    {cs : List VerifyCommit} {segs : List VerifierCommitSegment}
    (h : KeyInv m.draftKey cs segs (inbox.pending m.draftKey))
    (hopen : m.draftKey ∉ inbox.closeKeys) (hvalid : ValidCommits (cs ++ [m])) :
    ∃ s, inbox.addVerifyCommitLocked m = .ok { inbox with
        verifierCommitSegments := inbox.verifierCommitSegments.set m.draftKey s } ∧
      KeyInv m.draftKey (cs ++ [m]) segs (some s) := by
  have hmem : m ∈ cs ++ [m] := List.mem_append_right _ List.mem_cons_self
  have htokens := hvalid.tokens m hmem
  have hlen := hvalid.nonneg m hmem
  have hlast : (cs ++ [m]).getLast? = some m := List.getLast?_concat
  unfold addVerifyCommitLocked
  rw [if_neg hopen]
  unfold pending at h
  cases hget : inbox.verifierCommitSegments.get? m.draftKey with
  | none =>
    rw [hget] at h
    refine ⟨⟨m.draftKey, m.dstDrafterRank, m.preVerifyCommittedLen, [] ++ m.committedTokens⟩,
      ?_, ?_⟩
    · simp only [Option.getD_none]
      rw [VerifierCommitSegment.appendMessage_ok rfl rfl htokens hlen (by
        simp [VerifierCommitSegment.endCommittedLen])]
      rfl
    · refine ⟨?_, ?_, ?_, ?_, ?_⟩
      · have hplaced := h.placed
        rw [Option.toList_none, List.flatMap_nil, List.append_nil] at hplaced
        rw [List.flatMap_append, ← hplaced]
        simp [VerifierCommitSegment.placed, VerifyCommit.placed]
      all_goals rintro s ⟨⟩
      · rfl
      · exact htokens
      · exact ⟨m, hlast, rfl⟩
      · exact fun c hc => hvalid.rank m hmem c hc
  | some s =>
    rw [hget] at h
    obtain ⟨c, hc, hends⟩ := h.ends s rfl
    have hcmem : c ∈ cs := List.mem_of_getLast? hc
    have hcont : m.preVerifyCommittedLen = s.endCommittedLen := by
      rw [hends]
      exact (List.isChain_append.mp hvalid.contiguous).2.2 c hc m rfl
    have hrank : m.dstDrafterRank = s.dstDrafterRank := by
      rw [h.rank s rfl c hcmem]
      exact hvalid.rank m hmem c (List.mem_append_left _ hcmem)
    refine ⟨{ s with committedTokens := s.committedTokens ++ m.committedTokens }, ?_, ?_⟩
    · simp only [Option.getD_some]
      rw [VerifierCommitSegment.appendMessage_ok (h.keyed s rfl).symm hrank htokens hlen hcont]
      rfl
    · refine ⟨?_, ?_, ?_, ?_, ?_⟩
      · rw [List.flatMap_append, ← h.placed, List.append_assoc]
        refine congrArg (_ ++ ·) ?_
        simp only [Option.toList_some, List.flatMap_singleton, VerifierCommitSegment.placed,
          VerifyCommit.placed, placed_append]
        rw [hcont]
        rfl
      all_goals rintro s' ⟨⟩
      · exact h.keyed s rfl
      · exact fun hnil => h.nonempty s rfl (List.append_eq_nil_iff.mp hnil).1
      · refine ⟨m, hlast, ?_⟩
        unfold VerifierCommitSegment.endCommittedLen at hcont ⊢
        rw [VerifyCommit.endLen, hcont, List.length_append, Int.natCast_add, Int.add_assoc]
      · intro c' hc'
        exact hrank.symm.trans (hvalid.rank m hmem c' hc')

/-- What an extract takes of the pending segment joins what was extracted before. -/
theorem KeyInv.extract {k : DraftReqKey} {cs : List VerifyCommit}
    {segs : List VerifierCommitSegment} {s : VerifierCommitSegment} (h : KeyInv k cs segs (some s))
    {n : ℤ} (hn : n ≤ s.committedTokens.length) :
    KeyInv k cs (segs ++ (s.taken n).toList) (s.left n) := by
  have hcut := VerifierCommitSegment.placed_taken_left hn
  have hplaced := h.placed
  rw [Option.toList_some, List.flatMap_singleton, ← hcut, ← List.append_assoc,
    ← List.flatMap_append] at hplaced
  -- what is left ends where the segment did
  have hleft : ∀ s' ∈ s.left n, s'.draftKey = s.draftKey ∧ s'.dstDrafterRank = s.dstDrafterRank ∧
      s'.endCommittedLen = s.endCommittedLen ∧ s'.committedTokens ≠ [] := by
    intro s' hs'
    unfold VerifierCommitSegment.left at hs'
    by_cases hpos : n ≤ 0
    · rw [if_pos hpos] at hs'
      obtain rfl := Option.some.inj hs'
      exact ⟨rfl, rfl, rfl, h.nonempty s rfl⟩
    · rw [if_neg hpos] at hs'
      by_cases hnil : (s.back n).committedTokens = []
      · rw [if_pos hnil] at hs'
        cases hs'
      · rw [if_neg hnil] at hs'
        obtain rfl := Option.some.inj hs'
        refine ⟨rfl, rfl, ?_, hnil⟩
        show s.preVerifyCommittedLen + n + (s.committedTokens.drop n.toNat).length =
          s.preVerifyCommittedLen + s.committedTokens.length
        rw [List.length_drop]
        omega
  refine ⟨hplaced, fun s' hs' => ?_, fun s' hs' => (hleft s' hs').2.2.2, fun s' hs' => ?_,
    fun s' hs' c hc => ?_⟩
  · exact (hleft s' hs').1.trans (h.keyed s rfl)
  · obtain ⟨c, hc, hends⟩ := h.ends s rfl
    exact ⟨c, hc, (hleft s' hs').2.2.1.trans hends⟩
  · exact (hleft s' hs').2.1.trans (h.rank s rfl c hc)

/-- The loop over the commits of a batch.  The keys that are closed ignore theirs. -/
theorem foldlM_addVerifyCommit {segs : DraftReqKey → List VerifierCommitSegment}
    (ms : List VerifyCommit) (inbox : DraftControlInbox) (cs : DraftReqKey → List VerifyCommit)
    (h : ∀ k ∉ inbox.closeKeys, KeyInv k (cs k) (segs k) (inbox.pending k))
    (hvalid : ∀ k ∉ inbox.closeKeys,
      ValidCommits (cs k ++ ms.filter fun m => m.draftKey = k)) :
    ∃ inbox', ms.foldlM addVerifyCommitLocked inbox = .ok inbox' ∧
      inbox'.closeKeys = inbox.closeKeys ∧ inbox'.syncMessages = inbox.syncMessages ∧
      (∀ k ∈ inbox.closeKeys, inbox'.pending k = inbox.pending k) ∧
      ∀ k ∉ inbox.closeKeys,
        KeyInv k (cs k ++ ms.filter fun m => m.draftKey = k) (segs k) (inbox'.pending k) := by
  induction ms generalizing inbox cs with
  | nil =>
    refine ⟨inbox, rfl, rfl, rfl, fun _ _ => rfl, fun k hk => ?_⟩
    rw [List.filter_nil, List.append_nil]
    exact h k hk
  | cons m ms ih =>
    rw [List.foldlM_cons]
    by_cases hclosed : m.draftKey ∈ inbox.closeKeys
    · -- a commit of a closed key is none of the others'
      have hfilter : ∀ k ∉ inbox.closeKeys, ((m :: ms).filter fun m => m.draftKey = k) =
          ms.filter fun m => m.draftKey = k := by
        intro k hk
        exact List.filter_cons_of_neg (by
          simp only [decide_eq_true_eq]
          exact fun heq => hk (heq ▸ hclosed))
      obtain ⟨inbox', hloop, hcloses, hsyncs, hsame, hkeys⟩ := ih inbox cs h fun k hk => by
        rw [← hfilter k hk]
        exact hvalid k hk
      refine ⟨inbox', ?_, hcloses, hsyncs, hsame, fun k hk => ?_⟩
      · rw [addVerifyCommitLocked, if_pos hclosed]
        exact hloop
      · rw [hfilter k hk]
        exact hkeys k hk
    · have hcons : ∀ k, ((m :: ms).filter fun m => m.draftKey = k) =
          (if m.draftKey = k then [m] else []) ++ ms.filter fun m => m.draftKey = k := by
        intro k
        by_cases hk : m.draftKey = k
        · simp [hk]
        · simp [hk]
      have hvalid' : ∀ k ∉ inbox.closeKeys, ValidCommits
          ((cs k ++ if m.draftKey = k then [m] else []) ++ ms.filter fun m => m.draftKey = k) := by
        intro k hk
        rw [List.append_assoc, ← hcons]
        exact hvalid k hk
      have hfirst := (hvalid' _ hclosed).left
      rw [if_pos rfl] at hfirst
      obtain ⟨s, hstep, hkey⟩ := (h _ hclosed).addVerifyCommit hclosed hfirst
      obtain ⟨inbox', hloop, hcloses, hsyncs, hsame, hkeys⟩ := ih
        { inbox with verifierCommitSegments := inbox.verifierCommitSegments.set m.draftKey s }
        (fun k => cs k ++ if m.draftKey = k then [m] else []) (fun k hk => by
          unfold pending
          rw [OrderedDict.get?_set]
          by_cases hmk : k = m.draftKey
          · subst hmk
            rw [if_pos rfl, if_pos rfl]
            exact hkey
          · rw [if_neg hmk, if_neg fun heq => hmk heq.symm, List.append_nil]
            exact h k hk) hvalid'
      refine ⟨inbox', ?_, hcloses, hsyncs, fun k hk => ?_, fun k hk => ?_⟩
      · rw [hstep]
        exact hloop
      · rw [hsame k hk]
        unfold pending
        exact (OrderedDict.get?_set ..).trans
          (if_neg fun heq : k = m.draftKey => hclosed (heq ▸ hk))
      · rw [hcons, ← List.append_assoc]
        exact hkeys k hk

theorem foldl_addCloseKey (keys : List DraftReqKey) (inbox : DraftControlInbox) :
    (keys.foldl addCloseKeyLocked inbox).closeKeys = inbox.closeKeys ∪ keys.toFinset ∧
      (keys.foldl addCloseKeyLocked inbox).syncMessages =
        inbox.syncMessages.filter (fun m => m.draftKey ∉ keys.toFinset) ∧
      ∀ k, (keys.foldl addCloseKeyLocked inbox).pending k =
        if k ∈ keys.toFinset then none else inbox.pending k := by
  induction keys generalizing inbox with
  | nil => simp
  | cons key keys ih =>
    obtain ⟨hcloses, hsyncs, hpending⟩ := ih (inbox.addCloseKeyLocked key)
    rw [List.foldl_cons, hcloses, hsyncs]
    refine ⟨?_, ?_, fun k => ?_⟩
    · rw [addCloseKeyLocked, List.toFinset_cons, Finset.insert_union, Finset.union_insert]
    · rw [addCloseKeyLocked, List.filter_filter]
      refine List.filter_congr fun m _ => ?_
      rw [List.toFinset_cons, ← Bool.decide_and, decide_eq_decide, Finset.mem_insert, not_or,
        and_comm]
    · have hpop : (inbox.addCloseKeyLocked key).pending k =
          if k = key then none else inbox.pending k := OrderedDict.get?_pop ..
      rw [hpending, hpop, List.toFinset_cons]
      by_cases hk : k = key
      · simp [hk]
      · simp [hk]

theorem foldl_addSync (ms : List DraftSync) (inbox : DraftControlInbox) :
    ms.foldl addSync inbox = { inbox with
      syncMessages := inbox.syncMessages ++ ms.filter fun m => m.draftKey ∉ inbox.closeKeys } := by
  induction ms generalizing inbox with
  | nil => simp
  | cons m ms ih =>
    rw [List.foldl_cons, ih]
    unfold addSync
    by_cases hm : m.draftKey ∈ inbox.closeKeys
    · simp [hm]
    · simp [hm]

/-- What the inbox holds after some calls, and what they returned. -/
structure Inv (calls : List Call) (events : List InboxEvent) (inbox : DraftControlInbox) :
    Prop where
  closes : inbox.closeKeys = closesPending calls
  syncs : inbox.syncMessages = syncsPending calls
  keys : ∀ k, KeyInv k (commitsSince k calls) (segmentsSince k events) (inbox.pending k)

/-- **A batch never raises**, and each key keeps its tokens. -/
theorem Inv.addControlBatch {calls : List Call} {events : List InboxEvent}
    {inbox : DraftControlInbox} {batch : DraftControlBatch} (h : Inv calls events inbox)
    (hsyncs : ∀ m ∈ batch.syncMessages, m.draftKey ∉ closesPending calls)
    (hcommits : ∀ m ∈ batch.verifyCommitMessages, m.draftKey ∉ closesPending calls)
    (hvalid : ∀ k, ValidCommits (commitsSince k (.addControlBatch batch :: calls))) :
    ∃ inbox', inbox.addControlBatchLocked batch = .ok inbox' ∧
      Inv (.addControlBatch batch :: calls) (.received batch :: events) inbox' := by
  obtain ⟨hcloses₁, hsyncs₁, hpending₁⟩ := foldl_addCloseKey
    (batch.closeMessages.map DraftClose.draftKey) inbox
  unfold addControlBatchLocked
  dsimp only
  rw [foldl_addSync]
  generalize (batch.closeMessages.map DraftClose.draftKey).foldl addCloseKeyLocked inbox = inbox₁
    at hcloses₁ hsyncs₁ hpending₁
  change inbox₁.closeKeys = inbox.closeKeys ∪ batch.closed at hcloses₁
  change inbox₁.syncMessages =
    inbox.syncMessages.filter (fun m => m.draftKey ∉ batch.closed) at hsyncs₁
  change ∀ k, inbox₁.pending k = if k ∈ batch.closed then none else inbox.pending k at hpending₁
  rw [h.closes] at hcloses₁
  rw [h.syncs] at hsyncs₁
  have hkeys₁ : ∀ k ∉ inbox₁.closeKeys, KeyInv k (commitsSince k calls)
      (segmentsSince k (.received batch :: events)) (inbox₁.pending k) := by
    intro k hk
    have hopen : k ∉ batch.closed := fun hmem => hk (hcloses₁ ▸ Finset.mem_union_right _ hmem)
    rw [segmentsSince, if_neg hopen, hpending₁, if_neg hopen]
    exact h.keys k
  have hvalid₁ : ∀ k ∉ inbox₁.closeKeys, ValidCommits
      (commitsSince k calls ++ batch.verifyCommitMessages.filter fun m => m.draftKey = k) := by
    intro k hk
    have hopen : k ∉ batch.closed := fun hmem => hk (hcloses₁ ▸ Finset.mem_union_right _ hmem)
    have hall := hvalid k
    rw [commitsSince, if_neg hopen] at hall
    exact hall
  obtain ⟨inbox', hloop, hcloses, hsyncs', hsame, hkeys⟩ := foldlM_addVerifyCommit
    batch.verifyCommitMessages
    { inbox₁ with syncMessages := inbox₁.syncMessages ++
        batch.syncMessages.filter fun m => m.draftKey ∉ inbox₁.closeKeys }
    (fun k => commitsSince k calls) hkeys₁ hvalid₁
  refine ⟨inbox', hloop, hcloses.trans hcloses₁, ?_, fun k => ?_⟩
  · rw [hsyncs', syncsPending, List.filter_append, hsyncs₁, hcloses₁]
    refine congrArg (_ ++ ·) (List.filter_congr fun m hm => ?_)
    simp [hsyncs m hm]
  · by_cases hclosed : k ∈ batch.closed
    · rw [commitsSince, if_pos hclosed, segmentsSince, if_pos hclosed,
        hsame k (hcloses₁ ▸ Finset.mem_union_right _ hclosed)]
      exact (hpending₁ k).trans (if_pos hclosed) ▸ keyInv_nil k
    · rw [commitsSince, if_neg hclosed]
      by_cases hpending : k ∈ closesPending calls
      · -- the key waits for its close to be extracted, and is not used meanwhile
        have hnone : batch.commitsOf k = [] := by
          refine List.filter_eq_nil_iff.mpr fun m hm heq => ?_
          exact hcommits m hm (of_decide_eq_true heq ▸ hpending)
        rw [hnone, List.append_nil, segmentsSince, if_neg hclosed,
          hsame k (hcloses₁ ▸ Finset.mem_union_left _ hpending)]
        exact (hpending₁ k).trans (if_neg hclosed) ▸ h.keys k
      · refine hkeys k fun hmem => ?_
        rcases Finset.mem_union.mp (hcloses₁ ▸ hmem) with hmem | hmem
        · exact hpending hmem
        · exact hclosed hmem

/-- **An extract never raises**, delivers the closes and syncs received since the last one, and of
each key the front of its segment. -/
theorem Inv.extractReadyControls {calls : List Call} {events : List InboxEvent}
    {inbox : DraftControlInbox} {f : VerifierCommitSegment → ℤ} (h : Inv calls events inbox)
    (hlen : ∀ s, f s ≤ s.committedTokens.length) :
    ∃ ready inbox', inbox.extractReadyControlsLocked f = .ok (ready, inbox') ∧
      ready.closeKeys = closesPending calls ∧ ready.syncMessages = syncsPending calls ∧
      Inv (.extractReadyControls f :: calls) (.extracted f ready :: events) inbox' := by
  have hitems : ∀ item ∈ inbox.verifierCommitSegments.items,
      inbox.verifierCommitSegments.get? item.1 = some item.2 := fun item hitem =>
    OrderedDict.get?_eq_some.mpr hitem
  have hkeyed : ∀ item ∈ inbox.verifierCommitSegments.items, item.2.draftKey = item.1 :=
    fun item hitem => (h.keys item.1).keyed item.2 (hitems item hitem)
  obtain ⟨segments, hloop, hsegments⟩ := foldlM_extractSegment hlen
    inbox.verifierCommitSegments.nodup hitems []
  rw [List.nil_append] at hloop
  refine ⟨_, _, by rw [extractReadyControlsLocked, hloop]; rfl, h.closes, h.syncs, rfl, rfl,
    fun k => ?_⟩
  have hkey := h.keys k
  have hready := filter_taken (f := f) k inbox.verifierCommitSegments.nodup hkeyed
  have hleft : segments.get? k = (inbox.pending k).bind fun s => s.left (f s) := by
    rw [hsegments]
    unfold pending OrderedDict.get?
    cases hget : inbox.verifierCommitSegments.items.lookup k with
    | none => rfl
    | some s => rfl
  rw [commitsSince, segmentsSince, hready]
  unfold pending at hleft ⊢
  rw [hleft]
  change KeyInv k _
    (segmentsSince k events ++ ((inbox.pending k).bind fun s => s.taken (f s)).toList)
    ((inbox.pending k).bind fun s => s.left (f s))
  cases hpending : inbox.pending k with
  | none =>
    rw [hpending] at hkey
    rw [Option.bind_none, Option.toList_none, List.append_nil]
    exact hkey
  | some s =>
    rw [hpending] at hkey
    exact hkey.extract (hlen s)

/-- The events of a run are its calls with their results, and each extract delivers the closes and
syncs that were pending. -/
def Delivers : List InboxEvent → Prop
  | [] => True
  | .received _ :: events => Delivers events
  | .extracted _ ready :: events => ready.closeKeys = closesPending (events.map InboxEvent.call) ∧
    ready.syncMessages = syncsPending (events.map InboxEvent.call) ∧ Delivers events

/-- **The inbox conserves the verifiers' commits.**  After any calls that keep to the protocol
nothing has raised.  Of each key, what was extracted since its last close followed by what is
pending are the tokens of the commits received since then, each at its position, and a pending
segment is not empty.  The inbox holds the closes and syncs received since the last extract, less
the syncs that a close has dropped, and every extract has delivered those of its time. -/
theorem inbox_conserves {calls : List Call} (h : Admissible calls) :
    ∃ events inbox, run calls = .ok (events, inbox) ∧ events.map InboxEvent.call = calls ∧
      (∀ k, (segmentsSince k events).flatMap VerifierCommitSegment.placed ++
          (inbox.pending k).toList.flatMap VerifierCommitSegment.placed =
        (commitsSince k calls).flatMap VerifyCommit.placed) ∧
      (∀ k, ∀ s ∈ inbox.pending k, s.draftKey = k ∧ s.committedTokens ≠ []) ∧
      inbox.closeKeys = closesPending calls ∧ inbox.syncMessages = syncsPending calls ∧
      Delivers events := by
  have hrun : ∃ events inbox, run calls = .ok (events, inbox) ∧
      events.map InboxEvent.call = calls ∧ Inv calls events inbox ∧ Delivers events := by
    induction h with
    | nil => exact ⟨[], .empty, rfl, rfl, ⟨rfl, rfl, keyInv_nil⟩, trivial⟩
    | addControlBatch before syncs commits valid ih =>
      obtain ⟨events, inbox, hrun, hcalls, hinv, hdelivers⟩ := ih
      obtain ⟨inbox', hadd, hinv'⟩ := hinv.addControlBatch syncs commits valid
      refine ⟨_, inbox', ?_, by rw [List.map_cons, hcalls]; rfl, hinv', hdelivers⟩
      rw [run, hrun]
      show (inbox.perform _ >>= _) = _
      rw [perform, hadd]
      rfl
    | extractReadyControls before len ih =>
      obtain ⟨events, inbox, hrun, hcalls, hinv, hdelivers⟩ := ih
      obtain ⟨ready, inbox', hextract, hcloses, hsyncs, hinv'⟩ := hinv.extractReadyControls len
      refine ⟨_, inbox', ?_, by rw [List.map_cons, hcalls]; rfl, hinv',
        hcalls.symm ▸ hcloses, hcalls.symm ▸ hsyncs, hdelivers⟩
      rw [run, hrun]
      show (inbox.perform _ >>= _) = _
      rw [perform, hextract]
      rfl
  obtain ⟨events, inbox, hok, hcalls, hinv, hdelivers⟩ := hrun
  exact ⟨events, inbox, hok, hcalls, fun k => (hinv.keys k).placed,
    fun k s hs => ⟨(hinv.keys k).keyed s hs, (hinv.keys k).nonempty s hs⟩, hinv.closes, hinv.syncs,
    hdelivers⟩

/-! A request is opened, commits twice, is partly extracted and then closed by a batch that brings
another commit. -/

def requestKey : DraftReqKey := ⟨0, "r"⟩

def openBatch : DraftControlBatch where
  syncMessages := [⟨"r", 0, 0, [7, 8], []⟩]
  verifyCommitMessages := [⟨"r", 0, 0, 0, [1, 2]⟩, ⟨"r", 0, 0, 2, [3]⟩]
  closeMessages := []

def closeBatch : DraftControlBatch where
  syncMessages := []
  verifyCommitMessages := [⟨"r", 0, 0, 3, [4]⟩]
  closeMessages := [⟨"r", 0, 0⟩]

/-- Two tokens, if there are as many. -/
def twoTokens (s : VerifierCommitSegment) : ℤ := min 2 s.committedTokens.length

def openCalls : List Call := [.extractReadyControls twoTokens, .addControlBatch openBatch]

def requestCalls : List Call :=
  .extractReadyControls twoTokens :: .addControlBatch closeBatch :: openCalls

theorem validCommits_nil : ValidCommits [] := ⟨nofun, nofun, nofun, List.isChain_nil⟩

theorem openCalls_admissible : Admissible openCalls := by
  have hopen : ∀ k, ValidCommits (commitsSince k [.addControlBatch openBatch]) := by
    intro k
    by_cases hk : requestKey = k
    · subst hk
      have hcommits : commitsSince requestKey [.addControlBatch openBatch] =
          openBatch.verifyCommitMessages := rfl
      rw [hcommits]
      refine ⟨?_, ?_, ?_, ?_⟩ <;> simp [openBatch, VerifyCommit.endLen]
    · have hcommits : commitsSince k [.addControlBatch openBatch] = [] := by
        show [] ++ openBatch.commitsOf k = []
        refine List.filter_eq_nil_iff.mpr fun m hm heq => ?_
        have hmk := of_decide_eq_true heq
        simp only [openBatch, List.mem_cons, List.not_mem_nil, or_false] at hm
        rcases hm with rfl | rfl
        · exact hk hmk
        · exact hk hmk
      rw [hcommits]
      exact validCommits_nil
  refine .extractReadyControls (.addControlBatch .nil ?_ ?_ hopen) fun s => min_le_right _ _
  all_goals exact fun _ _ => Finset.notMem_empty _

theorem requestCalls_admissible : Admissible requestCalls := by
  have hclose : ∀ k, ValidCommits (commitsSince k (.addControlBatch closeBatch :: openCalls)) := by
    intro k
    by_cases hk : k = requestKey
    · subst hk
      exact validCommits_nil
    · have hcommits : closeBatch.commitsOf k = [] := by
        refine List.filter_eq_nil_iff.mpr fun m hm heq => hk ?_
        obtain rfl := List.mem_singleton.mp hm
        exact (of_decide_eq_true heq).symm
      have hclosed : k ∉ closeBatch.closed := fun hmem =>
        hk (List.mem_singleton.mp (List.mem_toFinset.mp hmem))
      rw [commitsSince, if_neg hclosed, hcommits, List.append_nil]
      cases openCalls_admissible with
      | extractReadyControls before _ =>
        cases before with
        | addControlBatch _ _ _ valid => exact valid k
  refine .extractReadyControls (.addControlBatch openCalls_admissible ?_ ?_ hclose) fun s =>
    min_le_right _ _
  all_goals exact fun _ _ => Finset.notMem_empty _

/-- Before the close two tokens were extracted and the third is pending; it went with the close, as
did the fourth. -/
theorem inbox_conserves_request :
    (∃ events inbox, run openCalls = .ok (events, inbox) ∧
      (segmentsSince requestKey events).flatMap VerifierCommitSegment.placed ++
        (inbox.pending requestKey).toList.flatMap VerifierCommitSegment.placed =
          [(0, 1), (1, 2), (2, 3)]) ∧
    ∃ events inbox, run requestCalls = .ok (events, inbox) ∧
      events.map InboxEvent.call = requestCalls ∧
      (segmentsSince requestKey events).flatMap VerifierCommitSegment.placed ++
        (inbox.pending requestKey).toList.flatMap VerifierCommitSegment.placed = [] ∧
      Delivers events := by
  obtain ⟨events, inbox, hrun, -, hopened, -⟩ := inbox_conserves openCalls_admissible
  obtain ⟨events', inbox', hrun', hcalls, hplaced, -, -, -, hdelivers⟩ :=
    inbox_conserves requestCalls_admissible
  exact ⟨⟨events, inbox, hrun, hopened requestKey⟩,
    events', inbox', hrun', hcalls, hplaced requestKey, hdelivers⟩

end DraftControlInbox

end LatentSpec
