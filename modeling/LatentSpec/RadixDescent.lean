import LatentSpec.RadixTree

/-! # Descents

`match_prefix` and `insert` go down the tree along a key.  A node that the key leaves inside its
edge is split there, after which nothing below has the next page of the key (`Tree.visit`,
`Tree.visit_split`).  So a descent ends where what is stored of the key ends (`Tree.matchLoop`,
`Tree.insertLoop`), and the cache it leaves is the one it found, or that with one split
(`Descent`).
-/
namespace LatentSpec
open PageForest PrefixSearch

namespace RadixCache
variable {cfg : RadixConfig} {c : RadixCache} {path : ℕ → List (ℤ × Option ℤ)}
variable {ns : Option String × Option String} {run : List (ℤ × Option ℤ)}

/-- The cache before and after a descent. -/
inductive Descent (cfg : RadixConfig) (c : RadixCache) (path : ℕ → List (ℤ × Option ℤ)) :
    RadixCache → (ℕ → List (ℤ × Option ℤ)) → Prop
  | same : Descent cfg c path c path
  | split {c' : RadixCache} {child len : ℕ} {n : TreeNode} (hs : Splittable cfg c child n len)
    (hc' : IsSplit c c' child n len) :
    Descent cfg c path c' (splitPath path c.counter (edgeOf n) len)

/-- No child of a node has the next page of a run. -/
def NoChild (cfg : RadixConfig) (c : RadixCache) (path : ℕ → List (ℤ × Option ℤ))
    (ns : Option String × Option String) (run : List (ℤ × Option ℤ)) (id : ℕ) : Prop :=
  ∀ ch e, edgesOf c.bare ch = some e → e.parent = id → e.ns = ns →
    ¬ path id ++ e.units.take cfg.pageSize <+: run

/-- What a found child shares with the key: whole pages, and as many as it can. -/
structure Visit (cfg : RadixConfig) (c : RadixCache) (id : ℕ) (key : RadixKey) (ch : ℕ)
    (m : TreeNode) (len : ℕ) : Prop where
  ne_zero : ch ≠ 0
  node : c.nodes ch = some m
  parent : (edgeOf m).parent = id
  ns : m.key.namespaceOf = key.namespaceOf
  matchLen : m.key.matchLen key cfg.pageSize = .ok len
  whole : cfg.pageSize ∣ len
  pos : 0 < len
  le : len ≤ m.key.len
  le' : len ≤ key.len
  units : m.key.units.take len = key.units.take len
  longest : ∀ k, len < k → cfg.pageSize ∣ k → k ≤ m.key.len → k ≤ key.len →
    m.key.units.take k ≠ key.units.take k

namespace Tree
variable (h : Tree cfg c path) {id : ℕ} {n : TreeNode} {key : RadixKey} {childKey : PyValue}
include h

/-- **A child that is found.** -/
theorem visit (hn : c.nodes id = some n) (hpos : 0 < key.len) (hwhole : cfg.pageSize ∣ key.len)
    (hck : key.childKey cfg.pageSize = .ok childKey) {ch : ℕ}
    (hget : n.children.get? childKey = some ch) : ∃ m len, Visit cfg c id key ch m len := by
  have hpage := Nat.le_of_dvd hpos hwhole
  have hpage_pos := cfg.pageSize_pos
  obtain ⟨m, hch, hm, hparent, hns, hunits⟩ := (h.get?_children hn hpage hck ch).mp hget
  have hmpage := h.page_le hch hm
  have hbigram := RadixKey.isBigram_eq hpage_pos hmpage hunits
  have hmatch := RadixKey.matchLen_eq hns hbigram hpage_pos
  have hlen : ∀ k, k ≤ commonLen m.key.units key.units ↔ k ≤ m.key.len ∧ k ≤ key.len ∧
      m.key.units.take k = key.units.take k := fun k => by
    rw [le_commonLen_iff, RadixKey.length_units, RadixKey.length_units]
  generalize commonLen m.key.units key.units = common at hlen hmatch
  have hcommon : cfg.pageSize ≤ common := (hlen _).mpr ⟨hmpage, hpage, hunits⟩
  have hle : common / cfg.pageSize * cfg.pageSize ≤ common := Nat.div_mul_le_self _ _
  obtain ⟨hm_le, hkey_le, htake⟩ := (hlen _).mp hle
  refine ⟨m, _, hch, hm, hparent, hns, hmatch, ⟨_, Nat.mul_comm _ _⟩, ?_, hm_le, hkey_le, htake, ?_⟩
  · exact Nat.mul_pos (Nat.div_pos hcommon hpage_pos) hpage_pos
  · rintro k hk ⟨q, rfl⟩ hkm hkkey heq
    have hle' := (hlen _).mpr ⟨hkm, hkkey, heq⟩
    have hq : q ≤ common / cfg.pageSize := by
      rw [Nat.le_div_iff_mul_le hpage_pos, Nat.mul_comm]
      exact hle'
    have := Nat.mul_le_mul_right cfg.pageSize hq
    rw [Nat.mul_comm q] at this
    omega

/-- A lookup fails where no child has the next page. -/
theorem get?_eq_none_iff (hn : c.nodes id = some n) (hpos : 0 < key.len)
    (hwhole : cfg.pageSize ∣ key.len) (hck : key.childKey cfg.pageSize = .ok childKey) :
    n.children.get? childKey = none ↔
      NoChild cfg c path key.namespaceOf (path id ++ key.units) id := by
  have hpage := Nat.le_of_dvd hpos hwhole
  -- the first page of a child begins the key exactly if it is that of the key
  have hbegins : ∀ {ch : ℕ} {m : TreeNode}, ch ≠ 0 → c.nodes ch = some m →
      (path id ++ m.key.units.take cfg.pageSize <+: path id ++ key.units ↔
        m.key.units.take cfg.pageSize = key.units.take cfg.pageSize) := by
    intro ch m hch hm
    have hmpage := h.page_le hch hm
    rw [List.prefix_append_right_inj, List.prefix_iff_eq_take, List.length_take,
      RadixKey.length_units, Nat.min_eq_left hmpage]
  constructor
  · rintro hnone ch e he hparent hns hrun
    obtain ⟨hch, m, hm, rfl⟩ := node_of_edge he
    have hget := (h.get?_children hn hpage hck ch).mpr
      ⟨m, hch, hm, hparent, hns, (hbegins hch hm).mp hrun⟩
    exact absurd (hget.symm.trans hnone) (Option.some_ne_none ch)
  · intro hno
    refine Option.eq_none_iff_forall_ne_some.mpr fun ch hget => ?_
    obtain ⟨m, hch, hm, hparent, hns, hunits⟩ := (h.get?_children hn hpage hck ch).mp hget
    exact hno ch _ (edge_of_node hch hm) hparent hns ((hbegins hch hm).mpr hunits)

end Tree

namespace Visit
variable {id ch len : ℕ} {m : TreeNode} {key : RadixKey} (hv : Visit cfg c id key ch m len)
include hv

theorem splittable (hlt : len < m.key.len) : Splittable cfg c ch m len :=
  ⟨hv.ne_zero, hv.node, hv.whole, hv.pos, hlt⟩

theorem edge : edgesOf c.bare ch = some (edgeOf m) := Tree.edge_of_node hv.ne_zero hv.node

/-- What is left of the key below the shared pages. -/
theorem units_drop (path : ℕ → List (ℤ × Option ℤ)) :
    (path id ++ m.key.units.take len) ++ (key.drop len).units = path id ++ key.units := by
  rw [hv.units, RadixKey.units_drop, List.append_assoc, List.take_append_drop]

theorem whole_drop (hwhole : cfg.pageSize ∣ key.len) : cfg.pageSize ∣ (key.drop len).len := by
  rw [RadixKey.len_drop]
  exact Nat.dvd_sub hwhole hv.whole

/-- A child that is shared whole. -/
theorem path_eq (h : Tree cfg c path) (hle : m.key.len ≤ len) :
    path ch = path id ++ m.key.units.take len := by
  rw [h.forest.path_eq hv.edge, hv.parent, List.take_of_length_le]
  · rfl
  · rw [RadixKey.length_units]
    exact hle

/-- **A child that is shared in part is split, and then nothing goes on.** -/
theorem split (h : Tree cfg c path) (hlt : len < m.key.len) :
    ∃ c' path', c.splitNode cfg m.key ch len = .ok (c', c.counter) ∧
      Descent cfg c path c' path' ∧ Tree cfg c' path' ∧
      edgesOf c'.bare c.counter =
        some { edgeOf m with units := m.key.units.take len, slots := m.value.take len } ∧
      path' id = path id ∧ path' c.counter = path id ++ m.key.units.take len ∧
      (c'.node c.counter).value = m.value.take len ∧
      NoChild cfg c' path' key.namespaceOf (path id ++ key.units) c.counter := by
  have hs := hv.splittable hlt
  have hsplits := hs.splits h
  obtain ⟨c', hrun, hc', h'⟩ := h.splitNode hs
  have hedges : edgesOf c'.bare = splitEdges (edgesOf c.bare) ch c.counter (edgeOf m) len := by
    rw [hc'.bare, edgesOf_splitHeap hs.ne_zero h.counter_pos.ne']
  have hnew : edgesOf c'.bare c.counter =
      some { edgeOf m with units := m.key.units.take len, slots := m.value.take len } := by
    rw [hedges, splitEdges_new]
    rfl
  have hid : id ≠ c.counter := hv.parent ▸ h.forest.parent_ne_new hsplits hsplits.edge
  have hpath : splitPath path c.counter (edgeOf m) len c.counter =
      path id ++ m.key.units.take len := by
    rw [splitPath_new, hv.parent]
    rfl
  refine ⟨c', _, hrun, .split hs hc', h', hnew, splitPath_of_ne hid, hpath, ?_, ?_⟩
  · obtain ⟨-, n, hn, hedge⟩ := Tree.node_of_edge hnew
    rw [node_eq hn]
    exact congrArg Edge.slots hedge
  · intro d e he hparent _ hbegins
    rw [hedges] at he
    rcases hsplits.cases he with ⟨-, rfl⟩ | ⟨-, rfl⟩ | ⟨-, -, hold⟩
    · exact hid (hv.parent.symm.trans hparent)
    · -- the lower half starts with another page
      rw [hpath, List.append_assoc, List.prefix_append_right_inj] at hbegins
      have hle := hbegins.length_le
      have hpage := add_page_le hs.whole (h.forest.whole hv.edge) hsplits.lt
      have hlen : (edgeOf m).units.length = m.key.len := RadixKey.length_units
      have hcut : m.key.units.take len ++ ((edgeOf m).units.drop len).take cfg.pageSize =
          m.key.units.take (len + cfg.pageSize) := List.take_add.symm
      rw [hcut] at hbegins hle
      rw [List.length_take, RadixKey.length_units, RadixKey.length_units,
        Nat.min_eq_left (by omega)] at hle
      refine hv.longest (len + cfg.pageSize) ?_ (Nat.dvd_add hv.whole (Nat.dvd_refl _))
        (by omega) hle ?_
      · have := cfg.pageSize_pos
        omega
      · have heq := List.prefix_iff_eq_take.mp hbegins
        rwa [List.length_take, RadixKey.length_units, Nat.min_eq_left (by omega)] at heq
    · exact h.forest.parent_ne_new hsplits hold hparent

end Visit

/-- A descent changes nothing that is stored. -/
theorem Descent.stored_iff {c' : RadixCache} {path' : ℕ → List (ℤ × Option ℤ)}
    (hd : Descent cfg c path c' path') (h : Tree cfg c path) {slots : List ℤ} :
    Stored cfg.pageSize (edgesOf c'.bare) path' ns run slots ↔
      Stored cfg.pageSize (edgesOf c.bare) path ns run slots := by
  cases hd with
  | same => exact Iff.rfl
  | split hs hc' =>
    rw [hc'.bare, edgesOf_splitHeap hs.ne_zero h.counter_pos.ne']
    exact h.forest.stored_split_iff (hs.splits h)

theorem Descent.along {c' : RadixCache} {path' : ℕ → List (ℤ × Option ℤ)}
    (hd : Descent cfg c path c' path') (h : Tree cfg c path) {slots : List ℤ}
    (hslots : Along cfg.pageSize (edgesOf c.bare) path ns run slots) :
    Along cfg.pageSize (edgesOf c'.bare) path' ns run slots :=
  ⟨hslots.whole, hslots.le, fun i hi => (hd.stored_iff h).mpr (hslots.stored i hi)⟩

/-- Where a key ends, the run does. -/
theorem ends_of_len_eq_zero {id : ℕ} {key : RadixKey} (hlen : key.len = 0)
    (hrun : path id ++ key.units = run) :
    Ends cfg.pageSize (edgesOf c.bare) path ns run (path id).length := by
  intro m hm hle
  rw [← hrun, List.length_append, RadixKey.length_units] at hle
  omega

/-- Where a descent stands: a node, and the rest of the key. -/
structure Stands (cfg : RadixConfig) (c : RadixCache) (path : ℕ → List (ℤ × Option ℤ))
    (ns : Option String × Option String) (run : List (ℤ × Option ℤ)) (id : ℕ) (key : RadixKey)
    (childKey : PyValue) : Prop where
  hosts : Hosts (edgesOf c.bare) ns id
  ns : key.namespaceOf = ns
  whole : cfg.pageSize ∣ key.len
  childKey : 0 < key.len → key.childKey cfg.pageSize = .ok childKey
  run : path id ++ key.units = run

namespace Stands
variable {id ch len : ℕ} {m : TreeNode} {key : RadixKey} {childKey : PyValue}

theorem path_prefix (hst : Stands cfg c path ns run id key childKey) : path id <+: run :=
  hst.run ▸ List.prefix_append _ _

/-- The dictionary key for the rest of the key. -/
theorem childKey_drop (hst : Stands cfg c path ns run id key childKey)
    (hv : Visit cfg c id key ch m len) :
    ∃ childKey', nextChildKey cfg (key.drop len) childKey = .ok childKey' ∧
      (0 < (key.drop len).len → (key.drop len).childKey cfg.pageSize = .ok childKey') := by
  unfold nextChildKey
  by_cases hpos : 0 < (key.drop len).len
  · have hpage := Nat.le_of_dvd hpos (hv.whole_drop hst.whole)
    have hkey := RadixKey.childKey_eq cfg.pageSize_pos hpage
    exact ⟨_, by rw [if_pos hpos, hkey], fun _ => hkey⟩
  · exact ⟨childKey, by rw [if_neg hpos]; rfl, fun hpos' => absurd hpos' hpos⟩

/-- One edge further down. -/
theorem down (hst : Stands cfg c path ns run id key childKey) (h : Tree cfg c path)
    (hv : Visit cfg c id key ch m len) (hle : m.key.len ≤ len) {childKey' : PyValue}
    (hck : 0 < (key.drop len).len → (key.drop len).childKey cfg.pageSize = .ok childKey') :
    Stands cfg c path ns run ch (key.drop len) childKey' where
  hosts := .inr ⟨_, hv.edge, hv.ns.trans hst.ns⟩
  ns := hst.ns
  whole := hv.whole_drop hst.whole
  childKey := hck
  run := by rw [hv.path_eq h hle, hv.units_drop path, hst.run]

/-- Nothing goes on where the lookup fails. -/
theorem ends_of_get?_eq_none (hst : Stands cfg c path ns run id key childKey) (h : Tree cfg c path)
    (hpos : 0 < key.len) (hget : (c.node id).children.get? childKey = none) :
    Ends cfg.pageSize (edgesOf c.bare) path ns run (path id).length := by
  obtain ⟨n, hn⟩ := h.node_of_hosts hst.hosts
  rw [node_eq hn] at hget
  have hno := (h.get?_eq_none_iff hn hpos hst.whole (hst.childKey hpos)).mp hget
  rw [hst.run, hst.ns] at hno
  exact h.forest.ends_of_no_child hst.hosts hst.path_prefix hno

theorem visit (hst : Stands cfg c path ns run id key childKey) (h : Tree cfg c path)
    (hpos : 0 < key.len) (hget : (c.node id).children.get? childKey = some ch) :
    ∃ m len, Visit cfg c id key ch m len ∧ c.node ch = m := by
  obtain ⟨n, hn⟩ := h.node_of_hosts hst.hosts
  rw [node_eq hn] at hget
  obtain ⟨m, len, hv⟩ := h.visit hn hpos hst.whole (hst.childKey hpos) hget
  exact ⟨m, len, hv, node_eq hv.node⟩

end Stands

/-! ### Lookup -/

/-- Where a lookup ends: at the node that spells all that is stored of the run. -/
structure Found (cfg : RadixConfig) (c : RadixCache) (path : ℕ → List (ℤ × Option ℤ))
    (ns : Option String × Option String) (run : List (ℤ × Option ℤ)) (slots : List ℤ) (id : ℕ) :
    Prop where
  hosts : Hosts (edgesOf c.bare) ns id
  path_prefix : path id <+: run
  length : slots.length = (path id).length
  along : Along cfg.pageSize (edgesOf c.bare) path ns run slots
  ends : Ends cfg.pageSize (edgesOf c.bare) path ns run slots.length

theorem Tree.matchLoop (h : Tree cfg c path) {fuel id : ℕ} {key : RadixKey} {childKey : PyValue}
    {slots : List ℤ} (hst : Stands cfg c path ns run id key childKey) (hfuel : key.len ≤ fuel)
    (hslots : Along cfg.pageSize (edgesOf c.bare) path ns run slots)
    (hlen : slots.length = (path id).length) :
    ∃ c' path' slots' id', matchLoop cfg fuel c id key childKey slots = .ok (c', slots', id') ∧
      Descent cfg c path c' path' ∧ Tree cfg c' path' ∧ Found cfg c' path' ns run slots' id' := by
  induction fuel generalizing id key childKey slots with
  | zero =>
    refine ⟨c, path, slots, id, rfl, .same, h, hst.hosts, hst.path_prefix, hlen, hslots, ?_⟩
    exact hlen ▸ ends_of_len_eq_zero (Nat.le_zero.mp hfuel) hst.run
  | succ fuel ih =>
    rw [RadixCache.matchLoop]
    by_cases hpos : 0 < key.len
    · rw [if_pos hpos]
      cases hget : (c.node id).children.get? childKey with
      | none =>
        refine ⟨c, path, slots, id, rfl, .same, h, hst.hosts, hst.path_prefix, hlen, hslots, ?_⟩
        exact hlen ▸ hst.ends_of_get?_eq_none h hpos hget
      | some ch =>
        obtain ⟨m, len, hv, hnode⟩ := hst.visit h hpos hget
        dsimp only
        rw [hnode, hv.matchLen]
        dsimp only [bind, Except.bind]
        by_cases hlt : len < m.key.len
        · -- the key leaves the tree inside this edge
          rw [if_pos hlt]
          obtain ⟨c', path', hsplit, hd, h', hedge, hid, hnew, hvalue, hno⟩ := hv.split h hlt
          rw [hsplit]
          dsimp only
          rw [hvalue]
          have hbegins : path' c.counter <+: run := by
            rw [hnew, ← hst.run, ← hv.units_drop path]
            exact List.prefix_append _ _
          have hhosts : Hosts (edgesOf c'.bare) ns c.counter :=
            .inr ⟨_, hedge, hv.ns.trans hst.ns⟩
          have halong := h'.forest.along_append (hd.along h hslots)
            (by rw [hv.parent, hid, hlen]) hedge (hv.ns.trans hst.ns) hbegins
          have hlen' : (slots ++ m.value.take len).length = (path' c.counter).length := by
            have hslots' := h.forest.slots hv.edge
            have hvalue' : m.value.length = m.key.units.length := hslots'
            rw [hnew, List.length_append, List.length_append, List.length_take, List.length_take,
              hlen, hvalue']
          refine ⟨c', path', _, _, rfl, hd, h', hhosts, hbegins, hlen', halong, ?_⟩
          rw [hlen']
          rw [hst.run, hst.ns] at hno
          exact h'.forest.ends_of_no_child hhosts hbegins hno
        · rw [if_neg hlt]
          obtain ⟨childKey', hif, hck⟩ := hst.childKey_drop hv
          rw [hif]
          dsimp only
          have hst' := hst.down h hv (not_lt.mp hlt) hck
          have hvalue' : m.value.length = m.key.units.length := h.forest.slots hv.edge
          have hle : len = m.key.len := le_antisymm hv.le (not_lt.mp hlt)
          refine ih hst' ?_ ?_ ?_
          · have := hv.pos
            rw [RadixKey.len_drop]
            omega
          · exact h.forest.along_append hslots (by rw [hv.parent, hlen]) hv.edge
              (hv.ns.trans hst.ns) hst'.path_prefix
          · rw [hv.path_eq h (not_lt.mp hlt), List.length_append, List.length_append, hlen, hvalue',
              List.length_take, RadixKey.length_units, hle, Nat.min_self]
    · rw [if_neg hpos]
      refine ⟨c, path, slots, id, rfl, .same, h, hst.hosts, hst.path_prefix, hlen, hslots, ?_⟩
      exact hlen ▸ ends_of_len_eq_zero (Nat.eq_zero_of_not_pos hpos) hst.run

/-! ### Insertion -/

/-- Where the descent of an insertion stands, with the slots for the rest of the key. -/
structure Inserting (cfg : RadixConfig) (path : ℕ → List (ℤ × Option ℤ))
    (ns : Option String × Option String) (run : List (ℤ × Option ℤ)) (value : List ℤ)
    (s : InsertState) : Prop where
  tree : Tree cfg s.cache path
  stands : Stands cfg s.cache path ns run s.id s.key s.childKey
  value : s.value = value.drop (path s.id).length
  total : s.totalPrefixLength = (path s.id).length

/-- Where it ends: no child of the node goes on. -/
structure Inserted (cfg : RadixConfig) (path : ℕ → List (ℤ × Option ℤ))
    (ns : Option String × Option String) (run : List (ℤ × Option ℤ)) (value : List ℤ)
    (s : InsertState) : Prop extends Inserting cfg path ns run value s where
  no_child : 0 < s.key.len → NoChild cfg s.cache path ns run s.id

theorem Inserted.ends {value : List ℤ} {s : InsertState} (hs : Inserted cfg path ns run value s) :
    Ends cfg.pageSize (edgesOf s.cache.bare) path ns run (path s.id).length := by
  rcases Nat.eq_zero_or_pos s.key.len with hzero | hpos
  · exact ends_of_len_eq_zero hzero hs.stands.run
  · exact hs.tree.forest.ends_of_no_child hs.stands.hosts hs.stands.path_prefix (hs.no_child hpos)

/-- The loop stops where no child goes on. -/
theorem insertLoop_of_no_child {fuel : ℕ} {s : InsertState} (h : Tree cfg s.cache path)
    (hst : Stands cfg s.cache path ns run s.id s.key s.childKey)
    (hno : 0 < s.key.len → NoChild cfg s.cache path ns run s.id) :
    insertLoop cfg fuel s = .ok s := by
  cases fuel with
  | zero => rfl
  | succ fuel =>
    rw [insertLoop]
    by_cases hpos : 0 < s.key.len
    · obtain ⟨n, hn⟩ := h.node_of_hosts hst.hosts
      have hno' := hno hpos
      rw [← hst.run, ← hst.ns] at hno'
      have hget := (h.get?_eq_none_iff hn hpos hst.whole (hst.childKey hpos)).mpr hno'
      rw [if_pos hpos, node_eq hn, hget]
      rfl
    · rw [if_neg hpos]
      rfl

theorem insertLoop_ok {fuel : ℕ} {value : List ℤ} {s : InsertState}
    (hs : Inserting cfg path ns run value s) (hfuel : s.key.len < fuel) :
    ∃ s' path', insertLoop cfg fuel s = .ok s' ∧ Descent cfg s.cache path s'.cache path' ∧
      Inserted cfg path' ns run value s' := by
  induction fuel generalizing s with
  | zero => omega
  | succ fuel ih =>
    have h := hs.tree
    have hst := hs.stands
    rw [insertLoop]
    by_cases hpos : 0 < s.key.len
    · rw [if_pos hpos]
      cases hget : (s.cache.node s.id).children.get? s.childKey with
      | none =>
        refine ⟨s, path, rfl, .same, hs, fun _ => ?_⟩
        obtain ⟨n, hn⟩ := h.node_of_hosts hst.hosts
        rw [node_eq hn] at hget
        have hno := (h.get?_eq_none_iff hn hpos hst.whole (hst.childKey hpos)).mp hget
        rwa [hst.run, hst.ns] at hno
      | some ch =>
        obtain ⟨m, len, hv, hnode⟩ := hst.visit h hpos hget
        obtain ⟨childKey', hnext, hck⟩ := hst.childKey_drop hv
        have hdrop : (s.value.drop len) = value.drop ((path s.id).length + len) := by
          rw [hs.value, List.drop_drop]
        have hlen : (path s.id ++ m.key.units.take len).length = (path s.id).length + len := by
          rw [List.length_append, List.length_take, RadixKey.length_units, Nat.min_eq_left hv.le]
        dsimp only
        rw [hnode, hv.matchLen]
        dsimp only [bind, Except.bind]
        by_cases hlt : len < m.key.len
        · -- the key leaves the tree inside this edge, and the next round finds nothing
          rw [if_pos hlt]
          obtain ⟨c', path', hsplit, hd, h', hedge, hid, hnew, hvalue, hno⟩ := hv.split h hlt
          rw [hsplit]
          dsimp only
          rw [hnext]
          dsimp only
          rw [hst.run, hst.ns] at hno
          have hst' : Stands cfg c' path' ns run s.cache.counter (s.key.drop len) childKey' :=
            ⟨.inr ⟨_, hedge, hv.ns.trans hst.ns⟩, hst.ns, hv.whole_drop hst.whole, hck, by
              rw [hnew, hv.units_drop path, hst.run]⟩
          rw [insertLoop_of_no_child h' hst' fun _ => hno]
          refine ⟨_, path', rfl, hd, ⟨h', hst', ?_, ?_⟩, fun _ => hno⟩
          · rw [hnew, hlen, hdrop]
          · rw [hnew, hlen, hs.total]
        · rw [if_neg hlt]
          dsimp only [pure, Except.pure]
          rw [hnext]
          dsimp only
          have hst' := hst.down h hv (not_lt.mp hlt) hck
          have hpath := hv.path_eq h (not_lt.mp hlt)
          refine ih (s := ⟨s.cache, ch, s.key.drop len, childKey', _, _⟩) ⟨h, hst', ?_, ?_⟩ ?_
          · rw [hpath, hlen, hdrop]
          · rw [hpath, hlen, hs.total]
          · have := hv.pos
            have hle := hv.le'
            show (s.key.drop len).len < fuel
            rw [RadixKey.len_drop]
            omega
    · rw [if_neg hpos]
      exact ⟨s, path, rfl, .same, hs, fun hpos' => absurd hpos' hpos⟩

/-! ### The operations -/

/-- The part of a key that a cache looks at. -/
def alignedKey (cfg : RadixConfig) (key : RadixKey) : RadixKey :=
  (key.toBigramView cfg.isEagle).pageAligned cfg.pageSize

theorem namespaceOf_alignedKey (key : RadixKey) :
    (alignedKey cfg key).namespaceOf = key.namespaceOf := by
  unfold alignedKey RadixKey.toBigramView
  rw [RadixKey.namespaceOf_pageAligned]
  split <;> rfl

theorem units_alignedKey (key : RadixKey) : (alignedKey cfg key).units =
    (key.toBigramView cfg.isEagle).units.take
      ((key.toBigramView cfg.isEagle).len / cfg.pageSize * cfg.pageSize) := by
  rw [alignedKey, RadixKey.units_pageAligned, RadixKey.length_units]

theorem len_alignedKey (key : RadixKey) : (alignedKey cfg key).len =
    (key.toBigramView cfg.isEagle).len / cfg.pageSize * cfg.pageSize := by
  rw [← RadixKey.length_units, units_alignedKey, List.length_take, RadixKey.length_units,
    Nat.min_eq_left (Nat.div_mul_le_self _ _)]

theorem dvd_len_alignedKey (key : RadixKey) : cfg.pageSize ∣ (alignedKey cfg key).len :=
  ⟨_, (len_alignedKey key).trans (Nat.mul_comm _ _)⟩

/-- At the root, with the whole key. -/
theorem Tree.stands_root (h : Tree cfg c path) (key : RadixKey) {childKey : PyValue}
    (hck : 0 < (alignedKey cfg key).len →
      (alignedKey cfg key).childKey cfg.pageSize = .ok childKey) :
    Stands cfg c path key.namespaceOf (alignedKey cfg key).units 0
      (alignedKey cfg key) childKey where
  hosts := .inl rfl
  ns := namespaceOf_alignedKey key
  whole := dvd_len_alignedKey key
  childKey := hck
  run := by rw [h.forest.path_root, List.nil_append]

theorem childKey_alignedKey {key : RadixKey}
    (hpos : 0 < (alignedKey cfg key).len) :
    ∃ childKey, (alignedKey cfg key).childKey cfg.pageSize = .ok childKey :=
  ⟨_, RadixKey.childKey_eq cfg.pageSize_pos (Nat.le_of_dvd hpos (dvd_len_alignedKey key))⟩

/-- **A lookup raises nothing, and finds all that is stored of the key.** -/
theorem Tree.matchPrefix (h : Tree cfg c path) (henabled : cfg.disable = false) (key : RadixKey) :
    ∃ c' path' slots id, c.matchPrefix cfg key = .ok (c', slots, id) ∧ Descent cfg c path c' path' ∧
      Tree cfg c' path' ∧
      Found cfg c' path' key.namespaceOf (alignedKey cfg key).units slots id := by
  have hroot : (alignedKey cfg key).len = 0 →
      Found cfg c path key.namespaceOf (alignedKey cfg key).units [] 0 := by
    intro hzero
    have hpath := h.forest.path_root
    refine ⟨.inl rfl, ?_, ?_, along_nil cfg.pageSize_pos, ?_⟩
    · rw [hpath]
      exact List.nil_prefix
    · rw [hpath]
      rfl
    · have hends : Ends cfg.pageSize (edgesOf c.bare) path key.namespaceOf
          (path 0 ++ (alignedKey cfg key).units) (path 0).length := ends_of_len_eq_zero hzero rfl
      rwa [hpath, List.nil_append, List.length_nil] at hends
  unfold RadixCache.matchPrefix
  dsimp only
  by_cases hlen : (key.toBigramView cfg.isEagle).len = 0
  · rw [if_pos (.inr hlen)]
    refine ⟨c, path, [], 0, rfl, .same, h, hroot ?_⟩
    rw [len_alignedKey, hlen, Nat.zero_div, Nat.zero_mul]
  · rw [if_neg (by simp [henabled, hlen])]
    by_cases hzero : (alignedKey cfg key).len = 0
    · change ((key.toBigramView cfg.isEagle).pageAligned cfg.pageSize).len = 0 at hzero
      rw [if_pos hzero]
      exact ⟨c, path, [], 0, rfl, .same, h, hroot hzero⟩
    · change ¬ ((key.toBigramView cfg.isEagle).pageAligned cfg.pageSize).len = 0 at hzero
      rw [if_neg hzero]
      obtain ⟨childKey, hck⟩ := childKey_alignedKey (Nat.pos_of_ne_zero hzero)
      have hst := h.stands_root key fun _ => hck
      obtain ⟨c', path', slots, id, hloop, hd, h', hfound⟩ := h.matchLoop hst le_rfl
        (along_nil cfg.pageSize_pos) (by rw [h.forest.path_root]; rfl)
      refine ⟨c', path', slots, id, ?_, hd, h', hfound⟩
      show (alignedKey cfg key).childKey cfg.pageSize >>= _ = _
      rw [hck]
      exact hloop

/-- The last step of an insertion: a leaf with what is left of the key, if anything is. -/
inductive Attach (cfg : RadixConfig) (c : RadixCache) (path : ℕ → List (ℤ × Option ℤ))
    (ns : Option String × Option String) (run : List (ℤ × Option ℤ)) (value : List ℤ) (id n : ℕ) :
    RadixCache → (ℕ → List (ℤ × Option ℤ)) → ℕ → Prop
  | none (hall : run.length = n) : Attach cfg c path ns run value id n c path id
  | leaf {c' : RadixCache} {key : RadixKey} (hns : key.namespaceOf = ns)
    (hunits : key.units = run.drop n)
    (hg : Grows cfg.pageSize (edgesOf c.bare) c.counter (edgeOf (newLeaf id key (value.drop n))))
    (hc' : IsAdd c c' id key (value.drop n)) :
    Attach cfg c path ns run value id n c'
      (Function.update path c.counter (path id ++ key.units)) c.counter

/-- Where an insertion attaches. -/
structure AttachPoint (cfg : RadixConfig) (c : RadixCache) (path : ℕ → List (ℤ × Option ℤ))
    (ns : Option String × Option String) (run : List (ℤ × Option ℤ)) (id n : ℕ) : Prop where
  tree : Tree cfg c path
  hosts : Hosts (edgesOf c.bare) ns id
  path_prefix : path id <+: run
  length : (path id).length = n
  ends : Ends cfg.pageSize (edgesOf c.bare) path ns run n

theorem insertHelper_ok {value : List ℤ} (h : Tree cfg c path) (key : RadixKey)
    (hvalue : value.length = (alignedKey cfg key).len) :
    ∃ c₁ path₁ id₁ n c' path' id, c.insertHelper cfg (alignedKey cfg key) value = .ok (c', n, id) ∧
      Descent cfg c path c₁ path₁ ∧
      AttachPoint cfg c₁ path₁ key.namespaceOf (alignedKey cfg key).units id₁ n ∧
      Attach cfg c₁ path₁ key.namespaceOf (alignedKey cfg key).units value id₁ n c' path' id ∧
      Tree cfg c' path' := by
  have hlen := RadixKey.length_units (k := alignedKey cfg key)
  unfold insertHelper
  by_cases hzero : (alignedKey cfg key).len = 0
  · rw [if_pos hzero]
    have hpath := h.forest.path_root
    refine ⟨c, path, 0, 0, c, path, 0, rfl, .same, ⟨h, .inl rfl, ?_, ?_, ?_⟩,
      .none (hlen.trans hzero), h⟩
    · rw [hpath]
      exact List.nil_prefix
    · rw [hpath, List.length_nil]
    · intro m hm hle
      omega
  · rw [if_neg hzero]
    obtain ⟨childKey, hck⟩ := childKey_alignedKey (Nat.pos_of_ne_zero hzero)
    have hst := h.stands_root key fun _ => hck
    have hstart : Inserting cfg path key.namespaceOf (alignedKey cfg key).units value
        ⟨c, 0, alignedKey cfg key, childKey, value, 0⟩ :=
      ⟨h, hst, by rw [h.forest.path_root]; rfl, by rw [h.forest.path_root]; rfl⟩
    obtain ⟨s, path₁, hloop, hd, hs⟩ := insertLoop_ok hstart (Nat.lt_succ_self _)
    have hrun := congrArg List.length hs.stands.run
    rw [List.length_append, RadixKey.length_units, hlen] at hrun
    have hpoint : AttachPoint cfg s.cache path₁ key.namespaceOf (alignedKey cfg key).units s.id
        s.totalPrefixLength :=
      ⟨hs.tree, hs.stands.hosts, hs.stands.path_prefix, hs.total.symm, hs.total ▸ hs.ends⟩
    dsimp only [bind, Except.bind]
    rw [hck]
    dsimp only
    rw [hloop]
    dsimp only
    by_cases hpos : 0 < s.key.len
    · rw [if_pos hpos]
      have hunits : s.key.units = (alignedKey cfg key).units.drop s.totalPrefixLength := by
        rw [← hs.stands.run, hs.total, List.drop_left]
      have hvalue' : s.value = value.drop s.totalPrefixLength := hs.value.trans (hs.total ▸ rfl)
      have hg : Grows cfg.pageSize (edgesOf s.cache.bare) s.cache.counter
          (edgeOf (newLeaf s.id s.key (value.drop s.totalPrefixLength))) := by
        have hpage : (s.key.units.take cfg.pageSize) <+: s.key.units := List.take_prefix _ _
        refine ⟨hs.tree.edge_fresh, hs.tree.counter_pos, ?_, ?_, ?_, ?_, ?_⟩
        · have hhosts := hs.stands.hosts
          rwa [← hs.stands.ns] at hhosts
        · show cfg.pageSize ∣ s.key.units.length
          rw [RadixKey.length_units]
          exact hs.stands.whole
        · show 0 < s.key.units.length
          rw [RadixKey.length_units]
          exact hpos
        · show (value.drop s.totalPrefixLength).length = s.key.units.length
          rw [List.length_drop, RadixKey.length_units, hvalue, hs.total]
          omega
        · intro ch e he hparent hns heq
          refine hs.no_child hpos ch e he hparent (hns.trans hs.stands.ns) ?_
          rw [← hs.stands.run, heq]
          exact (List.prefix_append_right_inj _).mpr hpage
      obtain ⟨hadd, hnew, h'⟩ := hs.tree.addLeaf hg (hs.stands.childKey hpos)
      rw [hvalue']
      refine ⟨s.cache, path₁, s.id, s.totalPrefixLength, _, _, _, rfl, hd, hpoint, ?_, h'⟩
      rw [hnew]
      exact .leaf hs.stands.ns hunits hg hadd
    · rw [if_neg hpos]
      refine ⟨s.cache, path₁, s.id, _, s.cache, path₁, s.id, rfl, hd, hpoint, .none ?_, hs.tree⟩
      rw [hlen, hs.total]
      omega

end RadixCache

end LatentSpec
