import LatentSpec.RadixRun
import LatentSpec.TiledStores

/-! # A longest-prefix map

What a radix cache is for: a flat map from runs of whole pages, in a namespace, to the slots of
their last page.  An insertion adds the pages that are not there, a lookup reads the longest
prefix that is, an eviction takes entries away.  The tree does the same (`Accounts.flatStep`),
whatever was split before (`longest_prefix_map`).
-/
namespace LatentSpec
open PageForest

/-! ### The flat map -/

/-- The slots of the last page of each run that is stored. -/
abbrev FlatMap := Option String × Option String → List (ℤ × Option ℤ) → Option (List ℤ)

/-- A page that is stored. -/
structure FlatEntry where
  ns : Option String × Option String
  run : List (ℤ × Option ℤ)
  slots : List ℤ

namespace FlatMap
variable (page : ℕ)

/-- The slots of the longest stored prefix of a run. -/
structure IsLongest (map : FlatMap) (ns : Option String × Option String)
    (run : List (ℤ × Option ℤ)) (slots : List ℤ) : Prop where
  whole : page ∣ slots.length
  le : slots.length ≤ run.length
  stored : ∀ i, (i + 1) * page ≤ slots.length →
    map ns (run.take ((i + 1) * page)) = some ((slots.drop (i * page)).take page)
  longest : ∀ n, slots.length < n → n ≤ run.length → map ns (run.take n) = none

/-- The map with the pages of a run that were not there. -/
structure Inserts (map : FlatMap) (ns : Option String × Option String)
    (run : List (ℤ × Option ℤ)) (slots : List ℤ) (map' : FlatMap) : Prop where
  pages : ∀ i, (i + 1) * page ≤ run.length →
    map' ns (run.take ((i + 1) * page)) =
      (map ns (run.take ((i + 1) * page))).or (some ((slots.drop (i * page)).take page))
  other : ∀ ns' run', (∀ i, (i + 1) * page ≤ run.length →
    ¬ (ns' = ns ∧ run' = run.take ((i + 1) * page))) → map' ns' run' = map ns' run'

/-- The map without some of its entries. -/
structure Removes (map : FlatMap) (entries : List FlatEntry) (map' : FlatMap) : Prop where
  nodup : (entries.map fun e => (e.ns, e.run)).Nodup
  stored : ∀ e ∈ entries, map e.ns e.run = some e.slots ∧ map' e.ns e.run = none
  other : ∀ ns run, (∀ e ∈ entries, ¬ (e.ns = ns ∧ e.run = run)) → map' ns run = map ns run

/-- One operation on the flat map, with its answer. -/
inductive Step (cfg : RadixConfig) (map : FlatMap) : RadixOp → RadixOut → FlatMap → Prop
  | insert {key : RadixKey} {value : Option (List ℤ)} {slots : List ℤ} {last : Option ℕ}
    {map' : FlatMap} (henabled : cfg.disable = false)
    (hlongest : map.IsLongest cfg.pageSize key.namespaceOf
      (RadixCache.alignedKey cfg key).units slots)
    (hinserts : map.Inserts cfg.pageSize key.namespaceOf (RadixCache.alignedKey cfg key).units
      (RadixCache.insertArgs cfg key value).2 map') :
    Step cfg map (.insert key value) (.inserted slots.length last) map'
  | insertDisabled {key : RadixKey} {value : Option (List ℤ)} (hdisabled : cfg.disable = true) :
    Step cfg map (.insert key value) (.inserted 0 none) map
  | matchPrefix {key : RadixKey} {slots : List ℤ} {last : ℕ}
    (hlongest : map.IsLongest cfg.pageSize key.namespaceOf
      (key.toBigramView cfg.isEagle).units slots) :
    Step cfg map (.matchPrefix key) (.matched slots last) map
  | incLockRef {node : ℕ} {delta : ℤ} : Step cfg map (.incLockRef node) (.locked delta) map
  | decLockRef {node : ℕ} {delta : ℤ} : Step cfg map (.decLockRef node) (.locked delta) map
  | evict {numTokens num : ℕ} {order : EvictionOrder} {freed : List (List ℤ)}
    {entries : List FlatEntry} {map' : FlatMap} (hremoves : map.Removes entries map')
    (hfreed : freed.flatten = entries.flatMap FlatEntry.slots) :
    Step cfg map (.evict numTokens order) (.evicted num freed) map'

/-- The maps that are reached from the empty one. -/
inductive Run (cfg : RadixConfig) : List (RadixOp × RadixOut) → FlatMap → Prop
  | reset : Run cfg [] fun _ _ => none
  | step {trace : List (RadixOp × RadixOut)} {map map' : FlatMap} {op : RadixOp} {out : RadixOut}
    (hrun : Run cfg trace map) (hstep : Step cfg map op out map') :
    Run cfg (trace ++ [(op, out)]) map'

end FlatMap

namespace RadixCache
variable {cfg : RadixConfig} {c c' : RadixCache} {path path' : ℕ → List (ℤ × Option ℤ)}
variable {ns : Option String × Option String} {run : List (ℤ × Option ℤ)} {held : Multiset ℕ}

/-- The flat map of a tree. -/
noncomputable def flat (cfg : RadixConfig) (c : RadixCache) (path : ℕ → List (ℤ × Option ℤ)) :
    FlatMap := fun ns run => by
  classical
  exact if h : ∃ slots, Stored cfg.pageSize (edgesOf c.bare) path ns run slots then some h.choose
    else none

theorem Tree.flat_eq_some (h : Tree cfg c path) {slots : List ℤ} :
    flat cfg c path ns run = some slots ↔
      Stored cfg.pageSize (edgesOf c.bare) path ns run slots := by
  classical
  unfold flat
  by_cases hstored : ∃ slots, Stored cfg.pageSize (edgesOf c.bare) path ns run slots
  · rw [dif_pos hstored]
    constructor
    · intro heq
      exact Option.some.inj heq ▸ hstored.choose_spec
    · intro hslots
      rw [h.forest.stored_unique hstored.choose_spec hslots]
  · rw [dif_neg hstored]
    exact iff_of_false nofun fun hslots => hstored ⟨slots, hslots⟩

theorem Tree.flat_eq_none (h : Tree cfg c path) :
    flat cfg c path ns run = none ↔
      ∀ slots, ¬ Stored cfg.pageSize (edgesOf c.bare) path ns run slots := by
  rw [Option.eq_none_iff_forall_ne_some]
  exact forall_congr' fun slots => not_congr h.flat_eq_some

theorem flat_congr (h : Tree cfg c path) (h' : Tree cfg c' path')
    (hiff : ∀ slots, Stored cfg.pageSize (edgesOf c'.bare) path' ns run slots ↔
      Stored cfg.pageSize (edgesOf c.bare) path ns run slots) :
    flat cfg c' path' ns run = flat cfg c path ns run := by
  refine Option.ext fun slots => ?_
  rw [h.flat_eq_some, h'.flat_eq_some, hiff]

/-- A descent leaves the flat map as it is. -/
theorem Descent.flat_eq (hd : Descent cfg c path c' path') (h : Tree cfg c path)
    (h' : Tree cfg c' path') : flat cfg c' path' = flat cfg c path := by
  funext ns run
  exact flat_congr h h' fun slots => hd.stored_iff h

theorem isLongest_of_along (h : Tree cfg c path) {slots : List ℤ}
    (halong : Along cfg.pageSize (edgesOf c.bare) path ns run slots)
    (hends : Ends cfg.pageSize (edgesOf c.bare) path ns run slots.length) :
    (flat cfg c path).IsLongest cfg.pageSize ns run slots where
  whole := halong.whole
  le := halong.le
  stored := fun i hi => h.flat_eq_some.mpr (halong.stored i hi)
  longest := fun n hn hle => h.flat_eq_none.mpr (hends n hn hle)

/-- Whole pages of the query are all that is compared. -/
theorem isLongest_of_aligned (h : Tree cfg c path) {key : RadixKey} {slots : List ℤ}
    (hlongest : (flat cfg c path).IsLongest cfg.pageSize ns (alignedKey cfg key).units slots) :
    (flat cfg c path).IsLongest cfg.pageSize ns (key.toBigramView cfg.isEagle).units slots := by
  have hunits : (alignedKey cfg key).units = _ := units_alignedKey key
  have hlen := RadixKey.length_units (k := key.toBigramView cfg.isEagle)
  generalize (key.toBigramView cfg.isEagle).units = whole at hunits hlen ⊢
  rw [← hlen] at hunits
  have hle : whole.length / cfg.pageSize * cfg.pageSize ≤ whole.length := Nat.div_mul_le_self _ _
  have haligned : (alignedKey cfg key).units.length =
      whole.length / cfg.pageSize * cfg.pageSize := by
    rw [hunits, List.length_take, Nat.min_eq_left hle]
  have htake : ∀ n, n ≤ whole.length / cfg.pageSize * cfg.pageSize →
      (alignedKey cfg key).units.take n = whole.take n := by
    intro n hn
    rw [hunits, List.take_take, Nat.min_eq_left hn]
  refine ⟨hlongest.whole, hlongest.le.trans (haligned ▸ hle), ?_, ?_⟩
  · intro i hi
    rw [← htake _ (hi.trans (haligned ▸ hlongest.le))]
    exact hlongest.stored i hi
  · intro n hn hnle
    rcases Nat.lt_or_ge (whole.length / cfg.pageSize * cfg.pageSize) n with hlt | hge
    · -- a longer prefix is not whole pages
      refine h.flat_eq_none.mpr fun slots' hstored => ?_
      obtain ⟨q, hq⟩ := (h.forest.dvd_of_stored hstored).1
      rw [List.length_take, Nat.min_eq_left hnle] at hq
      have hqle : q ≤ whole.length / cfg.pageSize := by
        rw [Nat.le_div_iff_mul_le cfg.pageSize_pos, Nat.mul_comm]
        omega
      have := Nat.mul_le_mul_right cfg.pageSize hqle
      rw [Nat.mul_comm q] at this
      omega
    · rw [← htake n hge]
      exact hlongest.longest n hn (haligned ▸ hge)

/-! ### Insertion -/

theorem AttachPoint.isLongest {id n : ℕ} (hp : AttachPoint cfg c path ns run id n) :
    ∃ slots, slots.length = n ∧ (flat cfg c path).IsLongest cfg.pageSize ns run slots := by
  obtain ⟨slots, hlen, halong⟩ := hp.tree.forest.exists_along hp.hosts hp.path_prefix
  have hlen' := hlen.trans hp.length
  exact ⟨slots, hlen', isLongest_of_along hp.tree halong (hlen' ▸ hp.ends)⟩

/-- The pages of the new leaf are those of the run that were not there. -/
theorem endsIn_newLeaf {id n : ℕ} {key : RadixKey} {value slots : List ℤ}
    {ns' : Option String × Option String} {run' : List (ℤ × Option ℤ)}
    (hp : AttachPoint cfg c path ns run id n) (hns : key.namespaceOf = ns)
    (hunits : key.units = run.drop n) :
    EndsIn cfg.pageSize path (edgeOf (newLeaf id key (value.drop n))) ns' run' slots ↔
      ns = ns' ∧ ∃ i, n ≤ i * cfg.pageSize ∧ (i + 1) * cfg.pageSize ≤ run.length ∧
        run' = run.take ((i + 1) * cfg.pageSize) ∧
        slots = (value.drop (i * cfg.pageSize)).take cfg.pageSize := by
  have hle := hp.path_prefix.length_le
  rw [hp.length] at hle
  obtain ⟨q, hq⟩ := hp.length ▸ hp.tree.forest.dvd_path hp.hosts
  rw [Nat.mul_comm] at hq
  have hpath : path id = run.take n := by
    rw [← hp.length]
    exact List.prefix_iff_eq_take.mp hp.path_prefix
  have hrun : ∀ m, path id ++ key.units.take m = run.take (n + m) := fun m => by
    rw [hpath, hunits, List.take_add]
  constructor
  · rintro ⟨rfl, k, hk, rfl, rfl⟩
    have hk' : (k + 1) * cfg.pageSize ≤ key.units.length := hk
    rw [hunits, List.length_drop] at hk'
    have hmul : (q + k + 1) * cfg.pageSize = n + (k + 1) * cfg.pageSize := by rw [hq]; ring
    have hmul' : (q + k) * cfg.pageSize = n + k * cfg.pageSize := by rw [hq]; ring
    have hpos : 0 < (k + 1) * cfg.pageSize := Nat.mul_pos k.succ_pos cfg.pageSize_pos
    refine ⟨hns.symm, q + k, by omega, by omega, ?_, ?_⟩
    · rw [hmul, ← hrun]
      rfl
    · rw [hmul', ← List.drop_drop]
      rfl
  · rintro ⟨rfl, i, hi, hle', rfl, rfl⟩
    have hqi : q ≤ i := by
      rw [hq] at hi
      exact Nat.le_of_mul_le_mul_right hi cfg.pageSize_pos
    obtain ⟨k, rfl⟩ := Nat.exists_eq_add_of_le hqi
    have hmul : (q + k + 1) * cfg.pageSize = n + (k + 1) * cfg.pageSize := by rw [hq]; ring
    have hmul' : (q + k) * cfg.pageSize = n + k * cfg.pageSize := by rw [hq]; ring
    refine ⟨hns, k, ?_, ?_, ?_⟩
    · show (k + 1) * cfg.pageSize ≤ key.units.length
      rw [hunits, List.length_drop]
      omega
    · rw [hmul, ← hrun]
      rfl
    · rw [hmul', ← List.drop_drop]
      rfl

/-- **An insertion adds the pages that were not there.** -/
theorem Attach.inserts {id n id' : ℕ} {value : List ℤ} (hp : AttachPoint cfg c path ns run id n)
    (hattach : Attach cfg c path ns run value id n c' path' id') (h' : Tree cfg c' path') :
    (flat cfg c path).Inserts cfg.pageSize ns run value (flat cfg c' path') := by
  obtain ⟨slots, hlen, hlongest⟩ := hp.isLongest
  cases hattach with
  | none hall =>
    refine ⟨fun i hi => ?_, fun _ _ _ => rfl⟩
    rw [hlongest.stored i (by omega)]
    rfl
  | @leaf c' key hns hunits hg hc' =>
    have hstored : ∀ {ns' run' slots'}, Stored cfg.pageSize (edgesOf c'.bare)
        (Function.update path c.counter (path id ++ key.units)) ns' run' slots' ↔
          Stored cfg.pageSize (edgesOf c.bare) path ns' run' slots' ∨
          (ns = ns' ∧ ∃ i, n ≤ i * cfg.pageSize ∧ (i + 1) * cfg.pageSize ≤ run.length ∧
            run' = run.take ((i + 1) * cfg.pageSize) ∧
            slots' = (value.drop (i * cfg.pageSize)).take cfg.pageSize) := by
      intro ns' run' slots'
      rw [hc'.bare, edgesOf_update c.bare hp.tree.counter_pos.ne']
      exact (hp.tree.forest.stored_addLeaf_iff hg).trans
        (or_congr Iff.rfl (endsIn_newLeaf hp hns hunits))
    refine ⟨fun i hi => ?_, fun ns' run' hother => ?_⟩
    · obtain ⟨q, hq⟩ := hlongest.whole
      rw [hlen, Nat.mul_comm] at hq
      rcases Nat.lt_or_ge i q with hiq | hiq
      · -- the page was there
        have hle : (i + 1) * cfg.pageSize ≤ n := hq ▸ Nat.mul_le_mul_right _ hiq
        have hold := hlongest.stored i (hlen.symm ▸ hle)
        rw [hold, Option.some_or, h'.flat_eq_some]
        exact hstored.mpr (.inl (hp.tree.flat_eq_some.mp hold))
      · have hle : n ≤ i * cfg.pageSize := hq ▸ Nat.mul_le_mul_right _ hiq
        have hpos := cfg.pageSize_pos
        rw [hlongest.longest _ (by rw [hlen, Nat.succ_mul]; omega) hi, Option.none_or,
          h'.flat_eq_some]
        exact hstored.mpr (.inr ⟨rfl, i, hle, hi, rfl, rfl⟩)
    · refine flat_congr hp.tree h' fun slots' => hstored.trans (or_iff_left ?_)
      rintro ⟨rfl, i, -, hi, hrun', -⟩
      exact hother i hi ⟨rfl, hrun'⟩

/-! ### Eviction -/

/-- The pages of a node. -/
def entriesOf (cfg : RadixConfig) (path : ℕ → List (ℤ × Option ℤ)) (n : TreeNode) :
    List FlatEntry :=
  (List.range (n.key.len / cfg.pageSize)).map fun k =>
    ⟨n.key.namespaceOf, path (edgeOf n).parent ++ n.key.units.take ((k + 1) * cfg.pageSize),
      (n.value.drop (k * cfg.pageSize)).take cfg.pageSize⟩

theorem mem_entriesOf {n : TreeNode} {e : FlatEntry} : e ∈ entriesOf cfg path n ↔
    EndsIn cfg.pageSize path (edgeOf n) e.ns e.run e.slots := by
  unfold entriesOf EndsIn
  have hlt : ∀ k, k < n.key.len / cfg.pageSize ↔ (k + 1) * cfg.pageSize ≤ n.key.units.length := by
    intro k
    rw [RadixKey.length_units, ← Nat.le_div_iff_mul_le cfg.pageSize_pos]
    exact Nat.succ_le_iff.symm
  rw [List.mem_map]
  constructor
  · rintro ⟨k, hk, rfl⟩
    exact ⟨rfl, k, (hlt k).mp (List.mem_range.mp hk), rfl, rfl⟩
  · rintro ⟨hns, k, hk, hrun, hslots⟩
    refine ⟨k, List.mem_range.mpr ((hlt k).mpr hk), ?_⟩
    obtain ⟨ns, run, slots⟩ := e
    dsimp only at hns hrun hslots
    rw [hrun, hslots, ← hns]
    rfl

/-- Whole pages put together again. -/
theorem flatMap_pages (xs : List ℤ) (page : ℕ) {m : ℕ} (hlen : xs.length = m * page) :
    (List.range m).flatMap (fun k => (xs.drop (k * page)).take page) = xs := by
  rw [TiledStores.flatMap_slices, ← hlen, List.take_length]

theorem flatMap_entriesOf (h : Tree cfg c path) {id : ℕ} {n : TreeNode} (hid : id ≠ 0)
    (hn : c.nodes id = some n) : (entriesOf cfg path n).flatMap FlatEntry.slots = n.value := by
  have hedge := Tree.edge_of_node hid hn
  have hslots : n.value.length = n.key.units.length := h.forest.slots hedge
  have hwhole : cfg.pageSize ∣ n.key.units.length := h.forest.whole hedge
  rw [RadixKey.length_units] at hslots hwhole
  rw [entriesOf, List.flatMap_map]
  refine flatMap_pages n.value cfg.pageSize ?_
  rw [hslots, Nat.div_mul_cancel hwhole]

theorem nodup_entriesOf (h : Tree cfg c path) {id : ℕ} {n : TreeNode} (hid : id ≠ 0)
    (hn : c.nodes id = some n) :
    ((entriesOf cfg path n).map fun e => (e.ns, e.run)).Nodup := by
  rw [entriesOf, List.map_map]
  refine List.Nodup.map_on (fun k hk k' hk' heq => ?_) List.nodup_range
  have hedge := Tree.edge_of_node hid hn
  have hle : ∀ {k}, k ∈ List.range (n.key.len / cfg.pageSize) →
      (k + 1) * cfg.pageSize ≤ (edgeOf n).units.length := by
    intro k hk
    have hlt := List.mem_range.mp hk
    show _ ≤ n.key.units.length
    rw [RadixKey.length_units, ← Nat.le_div_iff_mul_le cfg.pageSize_pos]
    exact hlt
  exact (h.forest.place_unique hedge hedge rfl (hle hk) (hle hk') (Prod.ext_iff.mp heq).2).2

theorem IsDelete.removes (h : Tree cfg c path) (h' : Tree cfg c' path) {id : ℕ} {n : TreeNode}
    (hid : id ≠ 0) (hn : c.nodes id = some n) (hleaf : n.children.items = [])
    (hc' : IsDelete c c' id n) :
    (flat cfg c path).Removes (entriesOf cfg path n) (flat cfg c' path) := by
  have hisLeaf := h.isLeaf hid hn hleaf
  have hstored : ∀ {ns run slots}, Stored cfg.pageSize (edgesOf c'.bare) path ns run slots ↔
      Stored cfg.pageSize (edgesOf c.bare) path ns run slots ∧
        ¬ EndsIn cfg.pageSize path (edgeOf n) ns run slots := by
    intro ns run slots
    rw [hc'.bare, edgesOf_update c.bare hid]
    exact h.forest.stored_removeLeaf_iff hisLeaf
  have hwas : ∀ {ns run slots}, EndsIn cfg.pageSize path (edgeOf n) ns run slots →
      Stored cfg.pageSize (edgesOf c.bare) path ns run slots := by
    rintro ns run slots ⟨hns, k, hk, hrun, hslots⟩
    exact ⟨id, _, k, hisLeaf.edge, hns, hk, hrun, hslots⟩
  refine ⟨nodup_entriesOf h hid hn, fun e he => ?_, fun ns run hno => ?_⟩
  · have hends := mem_entriesOf.mp he
    refine ⟨h.flat_eq_some.mpr (hwas hends), h'.flat_eq_none.mpr fun slots hslots => ?_⟩
    obtain ⟨hold, hnot⟩ := hstored.mp hslots
    exact hnot (h.forest.stored_unique hold (hwas hends) ▸ hends)
  · refine flat_congr h h' fun slots => hstored.trans (and_iff_left fun hends => ?_)
    exact hno ⟨ns, run, slots⟩ (mem_entriesOf.mpr hends) ⟨rfl, rfl⟩

end RadixCache

namespace FlatMap
variable {map map₁ map₂ : FlatMap} {entries₁ entries₂ : List FlatEntry}

theorem Removes.refl (map : FlatMap) : map.Removes [] map :=
  ⟨List.nodup_nil, fun _ he => absurd he List.not_mem_nil, fun _ _ _ => rfl⟩

theorem Removes.trans (h₁ : map.Removes entries₁ map₁) (h₂ : map₁.Removes entries₂ map₂) :
    map.Removes (entries₁ ++ entries₂) map₂ := by
  -- what the first removal took, the second does not find
  have hdisjoint : ∀ e₁ ∈ entries₁, ∀ e₂ ∈ entries₂, ¬ (e₁.ns = e₂.ns ∧ e₁.run = e₂.run) := by
    rintro e₁ he₁ e₂ he₂ ⟨hns, hrun⟩
    have hnone := (h₁.stored e₁ he₁).2
    rw [hns, hrun, (h₂.stored e₂ he₂).1] at hnone
    exact absurd hnone (Option.some_ne_none _)
  refine ⟨?_, ?_, ?_⟩
  · rw [List.map_append]
    refine List.nodup_append'.mpr ⟨h₁.nodup, h₂.nodup, ?_⟩
    intro key hkey₁ hkey₂
    obtain ⟨e₁, he₁, rfl⟩ := List.mem_map.mp hkey₁
    obtain ⟨e₂, he₂, heq⟩ := List.mem_map.mp hkey₂
    obtain ⟨hns, hrun⟩ := Prod.mk.inj heq
    exact hdisjoint e₁ he₁ e₂ he₂ ⟨hns.symm, hrun.symm⟩
  · intro e he
    rcases List.mem_append.mp he with he₁ | he₂
    · obtain ⟨hsome, hnone⟩ := h₁.stored e he₁
      refine ⟨hsome, ?_⟩
      rw [h₂.other e.ns e.run fun e₂ he₂ hand => hdisjoint e he₁ e₂ he₂ ⟨hand.1.symm, hand.2.symm⟩]
      exact hnone
    · obtain ⟨hsome, hnone⟩ := h₂.stored e he₂
      refine ⟨?_, hnone⟩
      rw [← h₁.other e.ns e.run fun e₁ he₁ => hdisjoint e₁ he₁ e he₂]
      exact hsome
  · intro ns run hno
    rw [h₂.other ns run fun e he => hno e (List.mem_append_right _ he),
      h₁.other ns run fun e he => hno e (List.mem_append_left _ he)]

end FlatMap

namespace RadixCache
variable {cfg : RadixConfig} {c c' : RadixCache} {path path' : ℕ → List (ℤ × Option ℤ)}
variable {held : Multiset ℕ}

/-- **An eviction takes entries away, and frees their slots.** -/
theorem Deletes.removes {removed : List (ℕ × TreeNode)} (hd : Deletes cfg path c removed c')
    (h : Tree cfg c path) : ∃ entries, (flat cfg c path).Removes entries (flat cfg c' path) ∧
      (removed.map fun x => x.2.value).flatten = entries.flatMap FlatEntry.slots := by
  induction hd with
  | nil => exact ⟨[], .refl _, rfl⟩
  | @cons c c₁ c' id n removed hid hn hleaf _ hc₁ h₁ _ ih =>
    obtain ⟨entries, hremoves, hfreed⟩ := ih h₁
    refine ⟨_, (hc₁.removes h h₁ hid hn hleaf).trans hremoves, ?_⟩
    rw [List.map_cons, List.flatten_cons, hfreed, List.flatMap_append, flatMap_entriesOf h hid hn]

/-- A climb changes locks only. -/
theorem IsClimb.flat_eq {step : ℤ} {id : ℕ} (hclimb : IsClimb c c' step id) :
    flat cfg c' path = flat cfg c path := by
  unfold flat
  rw [hclimb.edges]

/-- **The tree does what the flat map does.** -/
theorem Effect.flatStep {op : RadixOp} {out : RadixOut}
    (heffect : Effect cfg c path op out c' path')
    (henabled : cfg.disable = false) (h : Tree cfg c path) (h' : Tree cfg c' path') :
    FlatMap.Step cfg (flat cfg c path) op out (flat cfg c' path') := by
  cases heffect with
  | inserted hd hpoint hattach =>
    obtain ⟨slots, hlen, hlongest⟩ := hpoint.isLongest
    have hinserts := hattach.inserts hpoint h'
    rw [hd.flat_eq h hpoint.tree] at hinserts hlongest
    subst hlen
    exact .insert henabled hlongest hinserts
  | matched hd hfound =>
    have hlongest := isLongest_of_along h' hfound.along hfound.ends
    have hflat := hd.flat_eq h h'
    rw [hflat] at hlongest ⊢
    exact .matchPrefix (isLongest_of_aligned h hlongest)
  | locked hclimb =>
    rw [hclimb.flat_eq]
    exact .incLockRef
  | unlocked hclimb =>
    rw [hclimb.flat_eq]
    exact .decLockRef
  | evicted hd _ _ =>
    obtain ⟨entries, hremoves, hfreed⟩ := hd.removes h
    exact .evict hremoves hfreed

theorem flat_reset : flat cfg reset path = fun _ _ => none := by
  classical
  funext ns run
  unfold flat
  refine dif_neg ?_
  rintro ⟨slots, id, e, k, he, -⟩
  exact Option.some_ne_none e (he.symm.trans (edgesOf_reset id))

/-- Nothing is the longest that an empty map stores. -/
theorem isLongest_empty (ns : Option String × Option String) (run : List (ℤ × Option ℤ)) :
    FlatMap.IsLongest cfg.pageSize (fun _ _ => none) ns run [] where
  whole := ⟨0, rfl⟩
  le := Nat.zero_le _
  stored := fun i hi => by
    have hpos : 0 < (i + 1) * cfg.pageSize := Nat.mul_pos i.succ_pos cfg.pageSize_pos
    rw [List.length_nil] at hi
    omega
  longest := fun _ _ _ => rfl

theorem flatStep_disabled (hdisabled : cfg.disable = true) (op : RadixOp) :
    FlatMap.Step cfg (fun _ _ => none) op (disabledOut op) (fun _ _ => none) := by
  cases op with
  | insert key value => exact .insertDisabled hdisabled
  | matchPrefix key => exact .matchPrefix (isLongest_empty _ _)
  | incLockRef node => exact .incLockRef
  | decLockRef node => exact .decLockRef
  | evict numTokens order => exact .evict (.refl _) rfl

theorem Run.flatRun {trace : List (RadixOp × RadixOut)} (henabled : cfg.disable = false)
    (hrun : Run cfg trace c held) :
    ∃ path, Accounts cfg c path held ∧ FlatMap.Run cfg trace (flat cfg c path) := by
  induction hrun with
  | reset =>
    refine ⟨_, accounts_reset cfg, ?_⟩
    rw [flat_reset]
    exact .reset
  | step _ hallowed hstep ih =>
    obtain ⟨path, ha, hflat⟩ := ih
    obtain ⟨c', out, path', hstep', heffect, ha'⟩ := ha.step_ok henabled hallowed
    obtain ⟨rfl, rfl⟩ := Prod.mk.inj (Except.ok.inj (hstep'.symm.trans hstep))
    exact ⟨path', ha', .step hflat (heffect.flatStep henabled ha.tree ha'.tree)⟩

theorem Run.flatRun_disabled {trace : List (RadixOp × RadixOut)} (hdisabled : cfg.disable = true)
    (hrun : Run cfg trace c held) : FlatMap.Run cfg trace fun _ _ => none := by
  induction hrun with
  | reset => exact .reset
  | step _ _ hstep ih =>
    rw [step_disabled hdisabled] at hstep
    obtain ⟨-, rfl⟩ := Prod.mk.inj (Except.ok.inj hstep)
    exact .step ih (flatStep_disabled hdisabled _)

/-- **A radix cache is a longest-prefix map**: what it answered is what the flat map answers, and
whatever is asked next raises nothing and is answered as the flat map does. -/
theorem longest_prefix_map {trace : List (RadixOp × RadixOut)} (hrun : Run cfg trace c held) :
    ∃ map, FlatMap.Run cfg trace map ∧
      (∀ key, ∃ c' slots last, c.matchPrefix cfg key = .ok (c', slots, last) ∧
        map.IsLongest cfg.pageSize key.namespaceOf (key.toBigramView cfg.isEagle).units slots) ∧
      ∀ op, Allowed cfg c held op → ∃ c' out map', c.step cfg op = .ok (c', out) ∧
        FlatMap.Step cfg map op out map' := by
  cases hdisable : cfg.disable with
  | false =>
    obtain ⟨path, ha, hflat⟩ := hrun.flatRun hdisable
    refine ⟨_, hflat, fun key => ?_, fun op hallowed => ?_⟩
    · obtain ⟨c', path', slots, last, hmatch, hd, h', hfound⟩ := ha.tree.matchPrefix hdisable key
      have hlongest := isLongest_of_along h' hfound.along hfound.ends
      rw [hd.flat_eq ha.tree h'] at hlongest
      exact ⟨c', slots, last, hmatch, isLongest_of_aligned ha.tree hlongest⟩
    · obtain ⟨c', out, path', hstep, heffect, ha'⟩ := ha.step_ok hdisable hallowed
      exact ⟨c', out, _, hstep, heffect.flatStep hdisable ha.tree ha'.tree⟩
  | true =>
    refine ⟨_, hrun.flatRun_disabled hdisable, fun key => ⟨c, [], 0, ?_, isLongest_empty _ _⟩,
      fun op _ => ⟨c, _, _, step_disabled hdisable c op, flatStep_disabled hdisable op⟩⟩
    unfold RadixCache.matchPrefix
    dsimp only
    rw [if_pos (.inl hdisable)]
    rfl

/-- With a lookup that splits what was inserted, and an eviction of the part behind the split. -/
theorem longest_prefix_map_split : ∃ map, FlatMap.Run plainConfig
    [(.insert shortKey none, .inserted 0 (some 1)),
      (.matchPrefix ⟨[1, 2, 4], none, none, false, none, nofun⟩, .matched [1, 2] 2),
      (.evict 1 leastNode, .evicted 1 [[3]])] map := by
  have hinsert : Run plainConfig [(.insert shortKey none, .inserted 0 (some 1))] _ 0 :=
    .step .reset (show Allowed plainConfig reset 0 (.insert shortKey none) from nofun) rfl
  have hmatch := Run.step hinsert
    (show Allowed plainConfig _ 0 (.matchPrefix ⟨[1, 2, 4], none, none, false, none, nofun⟩)
      from trivial) rfl
  have hevict :=
    Run.step hmatch (show Allowed plainConfig _ 0 (.evict 1 leastNode) from trivial) rfl
  obtain ⟨map, hmap, -⟩ := longest_prefix_map hevict
  exact ⟨map, hmap⟩

end RadixCache

end LatentSpec
