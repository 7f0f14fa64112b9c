import Mathlib.Data.List.Nodup
import Mathlib.Data.List.Lookmap

/-! # Dictionaries that keep their insertion order

The entries are a list without repeated keys.  Assigning to a key that is there keeps its place,
a new key goes to the end.  `get?_set` and `get?_pop` say what a lookup sees afterwards.
-/

/-- A dictionary: its entries in order, each key once. -/
structure OrderedDict (K V : Type*) where
  items : List (K × V)
  nodup : (items.map Prod.fst).Nodup

namespace OrderedDict
variable {K V : Type*}

def empty : OrderedDict K V := ⟨[], List.nodup_nil⟩

variable [DecidableEq K]

def get? (d : OrderedDict K V) (k : K) : Option V := d.items.lookup k

/-- The entries with the value of `k` replaced. -/
def replaceItems (items : List (K × V)) (k : K) (v : V) : List (K × V) :=
  items.map fun p => if p.1 = k then (k, v) else p

theorem map_fst_replaceItems (items : List (K × V)) (k : K) (v : V) :
    (replaceItems items k v).map Prod.fst = items.map Prod.fst := by
  unfold replaceItems
  rw [List.map_map]
  refine List.map_congr_left fun p _ => ?_
  simp only [Function.comp]
  split
  · exact (by assumption : p.1 = k).symm
  · rfl

theorem lookup_cons_ite (k k' : K) (v : V) (items : List (K × V)) :
    ((k', v) :: items).lookup k = if k = k' then some v else items.lookup k := by
  rw [List.lookup_cons]
  by_cases h : k = k'
  · rw [if_pos h, beq_iff_eq.mpr h]
  · rw [if_neg h, beq_eq_false_iff_ne.mpr h]

theorem lookup_eq_none {items : List (K × V)} {k : K} :
    items.lookup k = none ↔ k ∉ items.map Prod.fst := by
  induction items with
  | nil => simp
  | cons p items ih =>
    obtain ⟨k', v⟩ := p
    rw [lookup_cons_ite, List.map_cons, List.mem_cons]
    by_cases h : k = k'
    · simp [h]
    · rw [if_neg h, ih, not_or]
      exact ⟨fun hnot => ⟨h, hnot⟩, fun hnot => hnot.2⟩

/-- `d[k] = v` -/
def set (d : OrderedDict K V) (k : K) (v : V) : OrderedDict K V :=
  if h : (d.get? k).isSome then
    ⟨replaceItems d.items k v, by rw [map_fst_replaceItems]; exact d.nodup⟩
  else
    ⟨d.items ++ [(k, v)], by
      rw [List.map_append]
      refine List.nodup_append'.mpr ⟨d.nodup, List.nodup_singleton _, ?_⟩
      have hnone : d.get? k = none := Option.not_isSome_iff_eq_none.mp h
      simpa using lookup_eq_none.mp hnone⟩

/-- `d.pop(k, None)` -/
def pop (d : OrderedDict K V) (k : K) : OrderedDict K V :=
  ⟨d.items.filter fun p => p.1 ≠ k, d.nodup.sublist (List.filter_sublist.map Prod.fst)⟩

/-- `d.update(e)` -/
def update (d e : OrderedDict K V) : OrderedDict K V :=
  e.items.foldl (fun d p => d.set p.1 p.2) d

/-! ### Lookups -/

@[simp] theorem get?_empty (k : K) : (empty : OrderedDict K V).get? k = none := rfl

theorem lookup_eq_some {items : List (K × V)} (hnodup : (items.map Prod.fst).Nodup)
    {k : K} {v : V} :
    items.lookup k = some v ↔ (k, v) ∈ items := by
  induction items with
  | nil => simp
  | cons p items ih =>
    obtain ⟨k', v'⟩ := p
    rw [List.map_cons, List.nodup_cons] at hnodup
    rw [lookup_cons_ite, List.mem_cons]
    by_cases h : k = k'
    · subst h
      have hnot : (k, v) ∉ items := fun hmem => hnodup.1 (List.mem_map.mpr ⟨(k, v), hmem, rfl⟩)
      simp [hnot, eq_comm]
    · rw [if_neg h, ih hnodup.2]
      exact ⟨Or.inr, fun hor => hor.resolve_left fun heq => h (congrArg Prod.fst heq)⟩

theorem get?_eq_some {d : OrderedDict K V} {k : K} {v : V} :
    d.get? k = some v ↔ (k, v) ∈ d.items := lookup_eq_some d.nodup

theorem lookup_replaceItems (items : List (K × V)) (k k' : K) (v : V) :
    (replaceItems items k v).lookup k' =
      if k' = k then (items.lookup k).map fun _ => v else items.lookup k' := by
  induction items with
  | nil => simp [replaceItems]
  | cons p items ih =>
    obtain ⟨k₀, v₀⟩ := p
    unfold replaceItems at ih ⊢
    rw [List.map_cons]
    dsimp only
    by_cases h₀ : k₀ = k
    · subst h₀
      rw [if_pos rfl, lookup_cons_ite, lookup_cons_ite, lookup_cons_ite, if_pos rfl, ih]
      by_cases h : k' = k₀
      · rw [if_pos h, if_pos h]
        rfl
      · rw [if_neg h, if_neg h, if_neg h, if_neg h]
    · rw [if_neg h₀, lookup_cons_ite, lookup_cons_ite, lookup_cons_ite, ih,
        if_neg fun heq => h₀ (Eq.symm heq)]
      by_cases h : k' = k₀
      · rw [if_pos h, if_pos h, if_neg fun heq => h₀ (h.symm.trans heq)]
      · rw [if_neg h, if_neg h]

/-- **What a lookup sees after an assignment.** -/
theorem get?_set (d : OrderedDict K V) (k k' : K) (v : V) :
    (d.set k v).get? k' = if k' = k then some v else d.get? k' := by
  unfold set
  by_cases h : (d.get? k).isSome
  · rw [dif_pos h]
    obtain ⟨w, hw⟩ := Option.isSome_iff_exists.mp h
    unfold get? at hw ⊢
    rw [lookup_replaceItems, hw]
    rfl
  · rw [dif_neg h]
    have hnone : d.items.lookup k = none := Option.not_isSome_iff_eq_none.mp h
    unfold get?
    rw [List.lookup_append, lookup_cons_ite]
    by_cases hk : k' = k
    · rw [if_pos hk, if_pos hk, hk, hnone]
      rfl
    · rw [if_neg hk, if_neg hk, List.lookup_nil, Option.or_none]

/-- A lookup of a key that the second dictionary does not have. -/
theorem get?_update_of_eq_none {d e : OrderedDict K V} {k : K} (h : e.get? k = none) :
    (d.update e).get? k = d.get? k := by
  have hkeys : k ∉ e.items.map Prod.fst := lookup_eq_none.mp h
  unfold update
  -- the entries are assigned one after the other, none of them to `k`
  generalize e.items = items at hkeys
  clear h
  induction items generalizing d with
  | nil => rfl
  | cons p items ih =>
    rw [List.map_cons, List.mem_cons, not_or] at hkeys
    rw [List.foldl_cons, ih hkeys.2, get?_set, if_neg hkeys.1]

/-- **What a lookup sees after a removal.** -/
theorem get?_pop (d : OrderedDict K V) (k k' : K) :
    (d.pop k).get? k' = if k' = k then none else d.get? k' := by
  by_cases hk : k' = k
  · rw [if_pos hk]
    refine lookup_eq_none.mpr fun hmem => ?_
    obtain ⟨p, hp, hpk⟩ := List.mem_map.mp hmem
    have hne := of_decide_eq_true (List.mem_filter.mp hp).2
    exact hne (hpk.trans hk)
  · rw [if_neg hk]
    refine Option.ext fun v => ?_
    rw [get?_eq_some, get?_eq_some]
    show (k', v) ∈ d.items.filter _ ↔ _
    simp [List.mem_filter, hk]

end OrderedDict
