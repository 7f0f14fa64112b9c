import LatentSpec.OrderedDict
import LatentSpec.PageForest
import LatentSpec.RadixKey
import Mathlib.Algebra.Order.BigOperators.Group.Finset
import Mathlib.Data.Finset.Basic
import Mathlib.Data.Multiset.Basic

/-! # The radix cache

A heap of tree nodes.  A node is a name, what Python holds as a reference is the name of a node;
the root is node `0`.  Timestamps, hit counts, priorities and hashes are left out: they are read
by eviction alone, which here takes any order.
-/
namespace LatentSpec
open PageForest

structure RadixConfig where
  disable : Bool
  pageSize : ℕ
  isEagle : Bool
  pageSize_pos : 0 < pageSize

structure TreeNode where
  children : OrderedDict PyValue ℕ
  parent : Option ℕ
  key : RadixKey
  value : List ℤ
  lockRef : ℤ

structure RadixCache where
  nodes : ℕ → Option TreeNode
  /-- the next node to be made -/
  counter : ℕ
  evictableSize : ℤ
  protectedSize : ℤ
  evictableLeaves : Finset ℕ

/-- Which of the nodes in the heap is popped.  An eviction strategy and the timestamps that break
its ties are one such choice. -/
structure EvictionOrder where
  heappop : Multiset ℕ → ℕ
  mem : ∀ {heap}, heap ≠ 0 → heappop heap ∈ heap

namespace RadixCache
variable (cfg : RadixConfig)

/-- A key without a salt satisfies `cache_salt or None`. -/
theorem noSalt_ne : (none : Option String) ≠ some "" := nofun

def emptyKey : RadixKey := ⟨[], none, none, false, none, noSalt_ne⟩

def rootNode : TreeNode := ⟨.empty, none, emptyKey, [], 1⟩

def reset : RadixCache :=
  ⟨Function.update (fun _ => none) 0 (some rootNode), 1, 0, 0, ∅⟩

variable (c : RadixCache)

def node (id : ℕ) : TreeNode := (c.nodes id).getD rootNode

def setNode (id : ℕ) (n : TreeNode) : RadixCache :=
  { c with nodes := Function.update c.nodes id (some n) }

/-- `_update_leaf_status`; the value of a node is never `None`. -/
def updateLeafStatus (id : ℕ) : RadixCache :=
  if 0 < (c.node id).lockRef then { c with evictableLeaves := c.evictableLeaves.erase id }
  else if (c.node id).children.items ≠ [] then
    { c with evictableLeaves := c.evictableLeaves.erase id }
  else { c with evictableLeaves := insert id c.evictableLeaves }

/-- `_split_node` -/
def splitNode (key : RadixKey) (child splitLen : ℕ) : Except RadixError (RadixCache × ℕ) := do
  let n := c.node child
  let lowerKey ← (key.drop splitLen).childKey cfg.pageSize
  let new := c.counter
  let newNode : TreeNode :=
    { children := OrderedDict.empty.set lowerKey child
      parent := n.parent
      key := n.key.take splitLen
      value := n.value.take splitLen
      lockRef := n.lockRef }
  let c := { c.setNode new newNode with counter := new + 1 }
  let c := c.setNode child
    { n with parent := some new, key := n.key.drop splitLen, value := n.value.drop splitLen }
  match newNode.parent with
  | none => throw .noParent
  | some parent =>
    let upperKey ← key.childKey cfg.pageSize
    let p := c.node parent
    return (c.setNode parent { p with children := p.children.set upperKey new }, new)

/-- `child_key` after the key was cut: `if len(key): child_key = key.child_key(...)` -/
def nextChildKey (key : RadixKey) (childKey : PyValue) : Except RadixError PyValue :=
  if 0 < key.len then key.childKey cfg.pageSize else pure childKey

/-! ### Lookup -/

/-- The loop of `_match_prefix_helper`. -/
def matchLoop : ℕ → RadixCache → ℕ → RadixKey → PyValue → List ℤ →
    Except RadixError (RadixCache × List ℤ × ℕ)
  | 0, c, id, _, _, value => return (c, value, id)
  | fuel + 1, c, id, key, childKey, value =>
    if 0 < key.len then
      match (c.node id).children.get? childKey with
      | none => return (c, value, id)
      | some child => do
        let n := c.node child
        let prefixLen ← n.key.matchLen key cfg.pageSize
        if prefixLen < n.key.len then
          let (c, new) ← c.splitNode cfg n.key child prefixLen
          return (c, value ++ (c.node new).value, new)
        else
          let key := key.drop prefixLen
          let childKey ← nextChildKey cfg key childKey
          matchLoop fuel c child key childKey (value ++ n.value)
    else return (c, value, id)

/-- `_match_prefix_helper`, from the root. -/
def matchPrefixHelper (key : RadixKey) : Except RadixError (RadixCache × List ℤ × ℕ) := do
  let childKey ← key.childKey cfg.pageSize
  matchLoop cfg key.len c 0 key childKey []

/-- `match_prefix`: the slots, and the last node. -/
def matchPrefix (key : RadixKey) : Except RadixError (RadixCache × List ℤ × ℕ) :=
  let key := key.toBigramView cfg.isEagle
  if cfg.disable ∨ key.len = 0 then return (c, [], 0)
  else
    let key := key.pageAligned cfg.pageSize
    if key.len = 0 then return (c, [], 0)
    else c.matchPrefixHelper cfg key

/-! ### Insertion -/

/-- Where the loop of `_insert_helper` ends. -/
structure InsertState where
  cache : RadixCache
  id : ℕ
  key : RadixKey
  childKey : PyValue
  value : List ℤ
  totalPrefixLength : ℕ

/-- The loop of `_insert_helper`. -/
def insertLoop : ℕ → InsertState → Except RadixError InsertState
  | 0, s => return s
  | fuel + 1, s =>
    if 0 < s.key.len then
      match (s.cache.node s.id).children.get? s.childKey with
      | none => return s
      | some child => do
        let n := s.cache.node child
        let prefixLen ← n.key.matchLen s.key cfg.pageSize
        let total := s.totalPrefixLength + prefixLen
        let key := s.key.drop prefixLen
        let value := s.value.drop prefixLen
        let (c, id) ←
          if prefixLen < n.key.len then s.cache.splitNode cfg n.key child prefixLen
          else pure (s.cache, child)
        let childKey ← nextChildKey cfg key s.childKey
        insertLoop fuel ⟨c, id, key, childKey, value, total⟩
    else return s

/-- The new leaf at the end of `_insert_helper`. -/
def addLeaf (id : ℕ) (key : RadixKey) (childKey : PyValue) (value : List ℤ) : RadixCache × ℕ :=
  let new := c.counter
  let c := { c.setNode new ⟨.empty, some id, key, value, 0⟩ with counter := new + 1 }
  let p := c.node id
  let c := c.setNode id { p with children := p.children.set childKey new }
  let c := { c with evictableSize := c.evictableSize + key.len }
  ((c.updateLeafStatus id).updateLeafStatus new, new)

/-- `_insert_helper`, from the root: the length that was there, and the last node. -/
def insertHelper (key : RadixKey) (value : List ℤ) : Except RadixError (RadixCache × ℕ × ℕ) :=
  if key.len = 0 then return (c, 0, 0)
  else do
    let childKey ← key.childKey cfg.pageSize
    let s ← insertLoop cfg (key.len + 1) ⟨c, 0, key, childKey, value, 0⟩
    if 0 < s.key.len then
      let (c, new) := s.cache.addLeaf s.id s.key s.childKey s.value
      return (c, s.totalPrefixLength, new)
    else return (s.cache, s.totalPrefixLength, s.id)

/-- The key and the slots that `insert` stores. -/
def insertArgs (key : RadixKey) (value : Option (List ℤ)) : RadixKey × List ℤ :=
  let value := if cfg.isEagle && !key.isBigram then
    value.map (List.take (key.toBigramView cfg.isEagle).len) else value
  let key := (key.toBigramView cfg.isEagle).pageAligned cfg.pageSize
  match value with
  | some value => (key, value.take key.len)
  -- the token ids themselves
  | none => (key, key.tokenIds.take key.len)

/-- `insert`: the length that was there, and the last node if the cache is enabled. -/
def insert (key : RadixKey) (value : Option (List ℤ)) :
    Except RadixError (RadixCache × ℕ × Option ℕ) :=
  if cfg.disable then return (c, 0, none)
  else do
    let args := insertArgs cfg key value
    let (c, prefixLen, last) ← c.insertHelper cfg args.1 args.2
    return (c, prefixLen, some last)

/-! ### Locks -/

/-- What a node brings from one size to the other: where its lock is `threshold` it changes
sides. -/
def movedLen (step threshold : ℤ) (n : TreeNode) : ℤ :=
  if n.lockRef = threshold then step * n.key.len else 0

/-- One node of the loop of `inc_lock_ref` and `dec_lock_ref`. -/
def lockNode (step threshold : ℤ) (id : ℕ) : RadixCache :=
  let n := c.node id
  let c :=
    { c with
      evictableSize := c.evictableSize - movedLen step threshold n
      protectedSize := c.protectedSize + movedLen step threshold n }
  (c.setNode id { n with lockRef := n.lockRef + step }).updateLeafStatus id

/-- The loop of `inc_lock_ref` and `dec_lock_ref`, from a node to the root. -/
def lockLoop (step threshold : ℤ) : ℕ → RadixCache → ℕ → ℤ → Except RadixError (RadixCache × ℤ)
  | 0, c, _, delta => return (c, delta)
  | fuel + 1, c, id, delta =>
    if id = 0 then return (c, delta)
    else
      match (c.node id).parent with
      | none => throw .noParent
      | some parent =>
        lockLoop step threshold fuel (c.lockNode step threshold id) parent
          (delta - movedLen step threshold (c.node id))

/-- `inc_lock_ref` -/
def incLockRef (id : ℕ) : Except RadixError (RadixCache × ℤ) :=
  if cfg.disable then return (c, 0) else lockLoop 1 0 c.counter c id 0

/-- `dec_lock_ref` -/
def decLockRef (id : ℕ) : Except RadixError (RadixCache × ℤ) :=
  if cfg.disable then return (c, 0) else lockLoop (-1) 1 c.counter c id 0

/-! ### Eviction -/

/-- `_delete_leaf` -/
def deleteLeaf (id : ℕ) : Except RadixError RadixCache := do
  let n := c.node id
  let key ← n.key.childKey cfg.pageSize
  match n.parent with
  | none => throw .noParent
  | some parent =>
    let p := c.node parent
    if p.children.get? key ≠ some id then throw .notChild
    else
      let c := c.setNode parent { p with children := p.children.pop key }
      let c :=
        { c with
          evictableSize := c.evictableSize - n.key.len
          evictableLeaves := c.evictableLeaves.erase id }
      let c := c.updateLeafStatus parent
      -- nothing in the tree refers to the node any more
      return { c with nodes := Function.update c.nodes id none }

/-- The loop of `evict`: the tokens evicted, and the values freed. -/
def evictLoop (order : EvictionOrder) (numTokens : ℕ) : ℕ → RadixCache → Multiset ℕ → ℕ →
    List (List ℤ) → Except RadixError (RadixCache × ℕ × List (List ℤ))
  | 0, c, _, numEvicted, freed => return (c, numEvicted, freed)
  | fuel + 1, c, heap, numEvicted, freed =>
    if numEvicted < numTokens ∧ heap ≠ 0 then do
      let x := order.heappop heap
      let n := c.node x
      let c ← c.deleteLeaf cfg x
      match n.parent with
      | none => throw .noParent
      | some parent =>
        let p := c.node parent
        let heap := heap.erase x
        let heap := if p.children.items = [] ∧ p.lockRef = 0 then parent ::ₘ heap else heap
        evictLoop order numTokens fuel c heap (numEvicted + n.value.length) (freed ++ [n.value])
    else return (c, numEvicted, freed)

/-- `evict` -/
def evict (numTokens : ℕ) (order : EvictionOrder) :
    Except RadixError (RadixCache × ℕ × List (List ℤ)) :=
  if cfg.disable then return (c, 0, [])
  else evictLoop cfg order numTokens numTokens c c.evictableLeaves.val 0 []

end RadixCache

end LatentSpec
