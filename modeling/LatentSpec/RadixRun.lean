import LatentSpec.RadixAccounts

/-! # Runs of the radix cache

Insertions, lookups, locks and evictions in any order.  A lock is taken on a node of the tree and
given back once; a value that is inserted covers the whole pages of its key.  Nothing then raises
(`Accounts.step_ok`), and the accounts hold in every state that is reached (`accounting`).
-/
namespace LatentSpec
open PageForest

inductive RadixOp
  | insert (key : RadixKey) (value : Option (List ℤ))
  | matchPrefix (key : RadixKey)
  | incLockRef (node : ℕ)
  | decLockRef (node : ℕ)
  | evict (numTokens : ℕ) (order : EvictionOrder)

inductive RadixOut
  | inserted (prefixLen : ℕ) (lastNode : Option ℕ)
  | matched (slots : List ℤ) (lastNode : ℕ)
  | locked (delta : ℤ)
  | evicted (numTokens : ℕ) (freed : List (List ℤ))

namespace RadixCache
variable (cfg : RadixConfig)

def step (c : RadixCache) : RadixOp → Except RadixError (RadixCache × RadixOut)
  | .insert key value => do
    let (c, prefixLen, last) ← c.insert cfg key value
    return (c, .inserted prefixLen last)
  | .matchPrefix key => do
    let (c, slots, last) ← c.matchPrefix cfg key
    return (c, .matched slots last)
  | .incLockRef node => do
    let (c, delta) ← c.incLockRef cfg node
    return (c, .locked delta)
  | .decLockRef node => do
    let (c, delta) ← c.decLockRef cfg node
    return (c, .locked delta)
  | .evict numTokens order => do
    let (c, num, freed) ← c.evict cfg numTokens order
    return (c, .evicted num freed)

/-- What callers may do. -/
def Allowed (c : RadixCache) (held : Multiset ℕ) : RadixOp → Prop
  | .insert key value => ∀ slots ∈ value, (alignedKey cfg key).len ≤ slots.length
  | .matchPrefix _ => True
  | .incLockRef node => ∃ n, c.nodes node = some n
  | .decLockRef node => node ∈ held
  | .evict _ _ => True

/-- The locks held after an operation. -/
def heldAfter (held : Multiset ℕ) : RadixOp → Multiset ℕ
  | .incLockRef node => node ::ₘ held
  | .decLockRef node => held.erase node
  | _ => held

/-- The states that are reached, with what was done and answered and the locks held. -/
inductive Run : List (RadixOp × RadixOut) → RadixCache → Multiset ℕ → Prop
  | reset : Run [] reset 0
  | step {trace : List (RadixOp × RadixOut)} {c c' : RadixCache} {held : Multiset ℕ} {op : RadixOp}
    {out : RadixOut} (hrun : Run trace c held) (hallowed : Allowed cfg c held op)
    (hstep : c.step cfg op = .ok (c', out)) : Run (trace ++ [(op, out)]) c' (heldAfter held op)

variable {cfg} {c c' : RadixCache} {path path' : ℕ → List (ℤ × Option ℤ)} {held : Multiset ℕ}

/-! ### The first state -/

theorem bare_reset : reset.bare = Function.update (fun _ => none) 0 (some rootNode) := by
  funext id
  unfold reset bare
  dsimp only
  by_cases hid : id = 0
  · rw [hid, Function.update_self]
    rfl
  · rw [Function.update_of_ne hid]
    rfl

theorem edgesOf_reset (id : ℕ) : edgesOf reset.bare id = none := by
  rw [edgesOf, bare_reset]
  by_cases hid : id = 0
  · rw [if_pos hid]
  · rw [if_neg hid, Function.update_of_ne hid]
    rfl

theorem accounts_reset (cfg : RadixConfig) : Accounts cfg reset (fun _ => []) 0 := by
  have hno : ∀ {id : ℕ} {e}, edgesOf reset.bare id = some e → False := fun {id e} he =>
    Option.some_ne_none e (he.symm.trans (edgesOf_reset id))
  have hbare : ∀ {id n}, reset.bare id = some n → id = 0 ∧ n = rootNode := by
    intro id n hn
    rw [bare_reset] at hn
    by_cases hid : id = 0
    · rw [hid, Function.update_self] at hn
      exact ⟨hid, (Option.some.inj hn).symm⟩
    · rw [Function.update_of_ne hid] at hn
      exact absurd hn.symm (Option.some_ne_none n)
  refine ⟨⟨⟨cfg.pageSize_pos, edgesOf_reset 0, rfl, ?_, ?_, ?_, ?_, ?_, ?_⟩, ?_, ?_, ?_, ?_⟩,
    ⟨?_, rfl, rfl, ?_⟩, ⟨?_, ?_⟩⟩
  · exact fun he => (hno he).elim
  · exact fun he => (hno he).elim
  · exact fun he => (hno he).elim
  · exact fun he => (hno he).elim
  · exact fun he => (hno he).elim
  · exact fun he => (hno he).elim
  · rw [bare_reset, Function.update_self]
  · exact fun hid hn => absurd (hbare hn).1 hid
  · intro id n hn key ch
    obtain ⟨rfl, hroot⟩ := hbare (bare_eq_some hn)
    have hn' : rootNode = n := by
      have hn₀ : reset.nodes 0 = some n := hn
      unfold reset at hn₀
      dsimp only at hn₀
      rw [Function.update_self] at hn₀
      exact Option.some.inj hn₀
    subst hn'
    refine iff_of_false nofun ?_
    rintro ⟨m, hm, hp, -⟩
    rw [(hbare hm).2] at hp
    exact absurd hp.symm (Option.some_ne_none 0)
  · intro id hid
    have hpos : 1 ≤ id := hid
    rw [bare_reset, Function.update_of_ne (by omega)]
  · intro id n hn
    rw [(hbare hn).2]
    exact zero_le_one
  · intro id
    refine iff_of_false (Finset.notMem_empty id) ?_
    rintro ⟨hid, ⟨n, hn, -⟩, -⟩
    exact hid (hbare hn).1
  · exact fun hid => absurd hid (Multiset.notMem_zero _)
  · exact fun hid hn => absurd (hbare hn).1 hid

/-! ### What an operation does -/

theorem insertArgs_fst (key : RadixKey) (value : Option (List ℤ)) :
    (insertArgs cfg key value).1 = alignedKey cfg key := by
  unfold insertArgs
  dsimp only
  split <;> rfl

theorem length_insertArgs {key : RadixKey} {value : Option (List ℤ)}
    (hvalue : ∀ slots ∈ value, (alignedKey cfg key).len ≤ slots.length) :
    (insertArgs cfg key value).2.length = (alignedKey cfg key).len := by
  have hle : (alignedKey cfg key).len ≤ (key.toBigramView cfg.isEagle).len := by
    rw [len_alignedKey]
    exact Nat.div_mul_le_self _ _
  cases value with
  | none =>
    have htokens := (alignedKey cfg key).len_le
    have hargs : (insertArgs cfg key none).2 =
        (alignedKey cfg key).tokenIds.take (alignedKey cfg key).len := by
      unfold insertArgs
      dsimp only [Option.map_none]
      rw [ite_self]
      rfl
    rw [hargs, List.length_take]
    omega
  | some slots =>
    have hslots := hvalue slots rfl
    unfold insertArgs
    dsimp only [Option.map_some]
    by_cases hbigram : (cfg.isEagle && !key.isBigram) = true
    · rw [if_pos hbigram]
      show ((slots.take _).take (alignedKey cfg key).len).length = _
      rw [List.length_take, List.length_take]
      omega
    · rw [if_neg hbigram]
      show (slots.take (alignedKey cfg key).len).length = _
      rw [List.length_take]
      omega

/-- What an operation answers and does to the tree. -/
inductive Effect (cfg : RadixConfig) (c : RadixCache) (path : ℕ → List (ℤ × Option ℤ)) :
    RadixOp → RadixOut → RadixCache → (ℕ → List (ℤ × Option ℤ)) → Prop
  | inserted {key : RadixKey} {value : Option (List ℤ)} {c₁ c' : RadixCache}
    {path₁ path' : ℕ → List (ℤ × Option ℤ)} {id₁ n id : ℕ} (hd : Descent cfg c path c₁ path₁)
    (hpoint : AttachPoint cfg c₁ path₁ key.namespaceOf (alignedKey cfg key).units id₁ n)
    (hattach : Attach cfg c₁ path₁ key.namespaceOf (alignedKey cfg key).units
      (insertArgs cfg key value).2 id₁ n c' path' id) :
    Effect cfg c path (.insert key value) (.inserted n (some id)) c' path'
  | matched {key : RadixKey} {c' : RadixCache} {path' : ℕ → List (ℤ × Option ℤ)} {slots : List ℤ}
    {id : ℕ} (hd : Descent cfg c path c' path')
    (hfound : Found cfg c' path' key.namespaceOf (alignedKey cfg key).units slots id) :
    Effect cfg c path (.matchPrefix key) (.matched slots id) c' path'
  | locked {node : ℕ} {delta : ℤ} {c' : RadixCache} (hclimb : IsClimb c c' 1 node) :
    Effect cfg c path (.incLockRef node) (.locked delta) c' path
  | unlocked {node : ℕ} {delta : ℤ} {c' : RadixCache} (hclimb : IsClimb c c' (-1) node) :
    Effect cfg c path (.decLockRef node) (.locked delta) c' path
  | evicted {numTokens num : ℕ} {order : EvictionOrder} {c' : RadixCache}
    {removed : List (ℕ × TreeNode)} (hd : Deletes cfg path c removed c')
    (hnum : num = (removed.map fun x => x.2.value.length).sum)
    (hle : min (numTokens : ℤ) c.evictableSize ≤ num) :
    Effect cfg c path (.evict numTokens order)
      (.evicted num (removed.map fun x => x.2.value)) c' path

/-- **An operation that is allowed raises nothing.** -/
theorem Accounts.step_ok (ha : Accounts cfg c path held) (henabled : cfg.disable = false)
    {op : RadixOp} (hallowed : Allowed cfg c held op) :
    ∃ c' out path', c.step cfg op = .ok (c', out) ∧ Effect cfg c path op out c' path' ∧
      Accounts cfg c' path' (heldAfter held op) := by
  cases op with
  | insert key value =>
    obtain ⟨c₁, path₁, id₁, n, c', path', id, hrun, hd, hpoint, hattach, h'⟩ :=
      insertHelper_ok ha.tree key (length_insertArgs hallowed)
    refine ⟨c', _, path', ?_, .inserted hd hpoint hattach,
      (ha.descent hd hpoint.tree).attach hattach h'⟩
    rw [step, RadixCache.insert, henabled, if_neg Bool.false_ne_true]
    dsimp only
    rw [insertArgs_fst, hrun]
    rfl
  | matchPrefix key =>
    obtain ⟨c', path', slots, id, hrun, hd, h', hfound⟩ := ha.tree.matchPrefix henabled key
    refine ⟨c', _, path', ?_, .matched hd hfound, ha.descent hd h'⟩
    rw [step, hrun]
    rfl
  | incLockRef node =>
    obtain ⟨n, hn⟩ := hallowed
    obtain ⟨c', delta, hrun, hclimb, ha'⟩ := ha.incLockRef henabled hn
    refine ⟨c', .locked delta, path, ?_, .locked hclimb, ha'⟩
    rw [step, hrun]
    rfl
  | decLockRef node =>
    obtain ⟨c', delta, hrun, hclimb, ha'⟩ := ha.decLockRef henabled hallowed
    refine ⟨c', .locked delta, path, ?_, .unlocked hclimb, ha'⟩
    rw [step, hrun]
    rfl
  | evict numTokens order =>
    obtain ⟨c', num, removed, hrun, hd, hnum, hle⟩ := ha.evict henabled numTokens order
    refine ⟨c', _, path, ?_, .evicted hd hnum hle, hd.accounts ha⟩
    rw [step, hrun]
    rfl

/-- What a disabled cache answers. -/
def disabledOut : RadixOp → RadixOut
  | .insert _ _ => .inserted 0 none
  | .matchPrefix _ => .matched [] 0
  | .incLockRef _ => .locked 0
  | .decLockRef _ => .locked 0
  | .evict _ _ => .evicted 0 []

/-- A cache that is disabled stays as it is. -/
theorem step_disabled (hdisabled : cfg.disable = true) (c : RadixCache) (op : RadixOp) :
    c.step cfg op = .ok (c, disabledOut op) := by
  cases op with
  | insert key value =>
    rw [step, RadixCache.insert, hdisabled, if_pos rfl]
    rfl
  | matchPrefix key =>
    unfold step RadixCache.matchPrefix
    dsimp only
    rw [if_pos (.inl hdisabled)]
    rfl
  | incLockRef node =>
    rw [step, RadixCache.incLockRef, hdisabled, if_pos rfl]
    rfl
  | decLockRef node =>
    rw [step, RadixCache.decLockRef, hdisabled, if_pos rfl]
    rfl
  | evict numTokens order =>
    rw [step, RadixCache.evict, hdisabled, if_pos rfl]
    rfl

/-- Every state that is reached has its accounts in order. -/
theorem Run.accounts {trace : List (RadixOp × RadixOut)} (henabled : cfg.disable = false)
    (hrun : Run cfg trace c held) : ∃ path, Accounts cfg c path held := by
  induction hrun with
  | reset => exact ⟨_, accounts_reset cfg⟩
  | step _ hallowed hstep ih =>
    obtain ⟨path, ha⟩ := ih
    obtain ⟨c', out, path', hstep', -, ha'⟩ := ha.step_ok henabled hallowed
    obtain ⟨rfl, rfl⟩ := Prod.mk.inj (Except.ok.inj (hstep'.symm.trans hstep))
    exact ⟨path', ha'⟩

theorem Run.eq_reset {trace : List (RadixOp × RadixOut)} (hdisabled : cfg.disable = true)
    (hrun : Run cfg trace c held) : c = RadixCache.reset := by
  induction hrun with
  | reset => rfl
  | step _ _ hstep ih =>
    rw [step_disabled hdisabled] at hstep
    rw [← ih]
    exact (Prod.mk.inj (Except.ok.inj hstep)).1.symm

/-- The sum of what does not depend on the dictionaries. -/
theorem heapSum_bare (c : RadixCache) (p : ℤ → Prop) [DecidablePred p] :
    heapSum c.counter c.bare (lenWhere p) = heapSum c.counter c.nodes (lenWhere p) := by
  refine Finset.sum_congr rfl fun id _ => ?_
  unfold bare
  cases c.nodes id <;> rfl

theorem Accounts.mem_leaves (ha : Accounts cfg c path held) (id : ℕ) : id ∈ c.evictableLeaves ↔
    id ≠ 0 ∧ ∃ n, c.nodes id = some n ∧ n.lockRef = 0 ∧ n.children.items = [] := by
  rw [ha.tally.leaves]
  constructor
  · rintro ⟨hid, ⟨m, hm, hlock⟩, hno⟩
    obtain ⟨n, hn, rfl⟩ := nodes_of_bare hm
    exact ⟨hid, n, hn, hlock, (ha.tree.items_eq_nil_iff hn).mpr fun {ch e} he => hno ch e he⟩
  · rintro ⟨hid, n, hn, hlock, hitems⟩
    refine ⟨hid, ⟨n.bare, bare_eq_some hn, hlock⟩, fun ch e he => ?_⟩
    exact (ha.tree.items_eq_nil_iff hn).mp hitems he

/-- What an eviction leaves alone, and what it may take. -/
structure EvictsUnlocked (c c' : RadixCache) (freed : List (List ℤ)) (removed : List ℕ) : Prop where
  nodup : removed.Nodup
  unlocked : ∀ id ∈ removed, ∃ n, c.nodes id = some n ∧ n.lockRef = 0
  freed_eq : freed = removed.map fun id => (c.node id).value
  kept : ∀ {id n}, id ∉ removed → c.nodes id = some n →
    ∃ n', c'.nodes id = some n' ∧ n'.key = n.key ∧ n'.value = n.value ∧ n'.lockRef = n.lockRef

theorem Deletes.evictsUnlocked {removed : List (ℕ × TreeNode)}
    (hd : Deletes cfg path c removed c') :
    EvictsUnlocked c c' (removed.map fun x => x.2.value) (removed.map Prod.fst) where
  nodup := hd.nodup
  unlocked := by
    intro id hid
    obtain ⟨⟨id, n⟩, hmem, rfl⟩ := List.mem_map.mp hid
    obtain ⟨-, hbare, hlock, -⟩ := hd.removed_spec hmem
    obtain ⟨n', hn', heq⟩ := nodes_of_bare hbare
    refine ⟨n', hn', ?_⟩
    rw [← bare_lockRef, heq]
    exact hlock
  freed_eq := by
    rw [List.map_map]
    refine List.map_congr_left fun x hx => ?_
    obtain ⟨-, hbare, -⟩ := hd.removed_spec hx
    obtain ⟨n', hn', heq⟩ := nodes_of_bare hbare
    show x.2.value = (c.node x.1).value
    rw [node_eq hn', ← bare_value x.2, ← heq]
    rfl
  kept := by
    intro id n hid hn
    have hbare := (hd.kept hid).trans (bare_eq_some hn)
    obtain ⟨n', hn', heq⟩ := nodes_of_bare hbare
    refine ⟨n', hn', ?_, ?_, ?_⟩
    · rw [← bare_key, heq, bare_key]
    · rw [← bare_value, heq, bare_value]
    · rw [← bare_lockRef, heq, bare_lockRef]

/-- **The accounts of a radix cache in every state that is reached.** -/
theorem accounting {trace : List (RadixOp × RadixOut)} (hrun : Run cfg trace c held) :
    c.protectedSize = heapSum c.counter c.nodes (lenWhere (0 < ·)) ∧
    c.evictableSize = heapSum c.counter c.nodes (lenWhere (· = 0)) ∧
    (∀ {id p n m}, c.nodes id = some n → n.parent = some p → p ≠ 0 → c.nodes p = some m →
      n.lockRef ≤ m.lockRef) ∧
    (∀ id, id ∈ c.evictableLeaves ↔
      id ≠ 0 ∧ ∃ n, c.nodes id = some n ∧ n.lockRef = 0 ∧ n.children.items = []) ∧
    ∀ numTokens order, ∃ c' num freed removed, c.evict cfg numTokens order = .ok (c', num, freed) ∧
      num = (freed.map List.length).sum ∧ min (numTokens : ℤ) c.evictableSize ≤ num ∧
      EvictsUnlocked c c' freed removed := by
  have haccounts : ∃ path held', Accounts cfg c path held' := by
    cases hdisable : cfg.disable with
    | false => exact (hrun.accounts hdisable).imp fun path ha => ⟨held, ha⟩
    | true => exact hrun.eq_reset hdisable ▸ ⟨_, _, accounts_reset cfg⟩
  obtain ⟨path, held', ha⟩ := haccounts
  refine ⟨?_, ?_, fun hn hp hp0 hm => ha.lockRef_le_parent hn hp hm hp0, ha.mem_leaves, ?_⟩
  · rw [ha.tally.protect, heapSum_bare]
  · rw [ha.tally.evictable, heapSum_bare]
  · intro numTokens order
    cases hdisable : cfg.disable with
    | false =>
      obtain ⟨c', num, removed, hevict, hd, hnum, hle⟩ := ha.evict hdisable numTokens order
      refine ⟨c', num, _, _, hevict, ?_, hle, hd.evictsUnlocked⟩
      rw [hnum, List.map_map]
      rfl
    | true =>
      -- nothing was ever stored
      obtain rfl := hrun.eq_reset hdisable
      refine ⟨reset, 0, [], [], ?_, rfl, min_le_right _ _, List.nodup_nil, ?_, rfl, ?_⟩
      · rw [RadixCache.evict, hdisable, if_pos rfl]
        rfl
      · exact fun id hid => absurd hid List.not_mem_nil
      · exact fun {id n} _ hn => ⟨n, hn, rfl, rfl, rfl⟩

def plainConfig : RadixConfig := ⟨false, 1, false, one_pos⟩

def shortKey : RadixKey := ⟨[1, 2, 3], none, none, false, none, noSalt_ne⟩

/-- The least node of the heap is popped. -/
def leastNode : EvictionOrder where
  heappop heap := heap.toFinset.min.untopD 0
  mem := by
    intro heap hne
    obtain ⟨id, hid⟩ := Multiset.exists_mem_of_ne_zero hne
    obtain ⟨least, hleast⟩ := Finset.min_of_mem (Multiset.mem_toFinset.mpr hid)
    rw [hleast]
    exact Multiset.mem_toFinset.mp (Finset.mem_of_min hleast)

/-- Of two nodes the first is locked, and an eviction that asks for more than there is takes the
other one. -/
theorem accounting_locked : ∃ c : RadixCache, c.protectedSize = 3 ∧ c.evictableSize = 2 ∧
    c.protectedSize = heapSum c.counter c.nodes (lenWhere (0 < ·)) ∧
    ∃ c' removed, c.evict plainConfig 9 leastNode = .ok (c', 2, [[7, 8]]) ∧
      EvictsUnlocked c c' [[7, 8]] removed := by
  have hinsert : Run plainConfig _ _ _ := .step .reset
    (show Allowed plainConfig reset 0 (.insert shortKey none) from nofun) rfl
  have hlock : Run plainConfig _ _ _ := .step hinsert
    (show Allowed plainConfig _ _ (.incLockRef 1) from ⟨_, rfl⟩) rfl
  have hother : Run plainConfig _ _ _ := .step hlock (show Allowed plainConfig _ _
    (.insert ⟨[7, 8], none, none, false, none, noSalt_ne⟩ none) from nofun) rfl
  obtain ⟨hprotected, -, -, -, hevict⟩ := accounting hother
  obtain ⟨c', num, freed, removed, hok, -, -, hremoved⟩ := hevict 9 leastNode
  have hvalue : Except.ok (num, freed) = (.ok (2, [[7, 8]]) : Except RadixError _) :=
    (congrArg (Except.map Prod.snd) hok).symm.trans rfl
  obtain ⟨rfl, rfl⟩ := Prod.mk.inj (Except.ok.inj hvalue)
  exact ⟨_, rfl, rfl, hprotected, c', removed, hok, hremoved⟩

/-- The root is no exception to the locks of its children: it is not locked with them. -/
theorem parent_locked_less : ¬ ∀ (cfg : RadixConfig) (trace : List (RadixOp × RadixOut))
    (c : RadixCache) (held : Multiset ℕ), Run cfg trace c held →
      ∀ id p n m, c.nodes id = some n → n.parent = some p → c.nodes p = some m →
        n.lockRef ≤ m.lockRef := by
  intro hall
  have hrun : ∃ trace c held, Run plainConfig trace c held ∧
      ∃ n m, c.nodes 1 = some n ∧ n.parent = some 0 ∧ c.nodes 0 = some m ∧
        n.lockRef = 2 ∧ m.lockRef = 1 :=
    ⟨_, _, _, .step (.step (.step .reset
      (show Allowed plainConfig reset 0 (.insert shortKey none) from nofun) rfl)
      (show Allowed plainConfig _ _ (.incLockRef 1) from ⟨_, rfl⟩) rfl)
      (show Allowed plainConfig _ _ (.incLockRef 1) from ⟨_, rfl⟩) rfl,
      _, _, rfl, rfl, rfl, rfl, rfl⟩
  obtain ⟨trace, c, held, hrun, n, m, hn, hp, hm, htwo, hone⟩ := hrun
  have := hall _ _ _ _ hrun 1 0 n m hn hp hm
  omega

end RadixCache

end LatentSpec
