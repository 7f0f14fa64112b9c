import Mathlib.Data.List.Infix
import Mathlib.Data.List.Range
import Mathlib.Logic.Function.Basic
import Mathlib.Logic.Relation

/-! # Trees stored as first children and next siblings

The nodes of a tree are numbers, and the parent of a node is smaller than it.  The children of a
node are a linked list: `next` holds the first of them, `sibling` the one behind a child, and `-1`
ends a list.  `link` puts a node in front of the children of its parent, so linking the nodes from
the last to the first leaves the children of every node in ascending order (`linkDown_chain`).

`climb` collects the nodes from one up to the root and `descend` follows the first child that
passes a test.  When at most one child of a node passes, `descend` is the longest path of children
that pass (`Passing.isPrefix_descend`).
-/
namespace SiblingLists

/-- The two arrays of links. -/
structure Links where
  next : ℕ → ℤ
  sibling : ℕ → ℤ

/-- The list that starts at a link. -/
def Chain (sibling : ℕ → ℤ) : ℤ → List ℕ → Prop
  | start, [] => start = -1
  | start, x :: xs => start = (x : ℤ) ∧ Chain sibling (sibling x) xs

theorem Chain.congr {sibling sibling' : ℕ → ℤ} {start : ℤ} {xs : List ℕ}
    (h : Chain sibling start xs) (hsame : ∀ x ∈ xs, sibling' x = sibling x) :
    Chain sibling' start xs := by
  induction xs generalizing start with
  | nil => exact h
  | cons x xs ih =>
    refine ⟨h.1, ?_⟩
    rw [hsame x List.mem_cons_self]
    exact ih h.2 fun y hy => hsame y (List.mem_cons_of_mem x hy)

/-! ### Linking -/

/-- A node in front of the children of its parent. -/
def link (s : Links) (i p : ℕ) : Links where
  next := Function.update s.next p i
  sibling := if s.next p = -1 then s.sibling else Function.update s.sibling i (s.next p)

theorem link_sibling_self {s : Links} {i : ℕ} (hi : s.sibling i = -1) (p : ℕ) :
    (link s i p).sibling i = s.next p := by
  unfold link
  dsimp only
  split
  · rename_i hnext
    rw [hi, hnext]
  · exact Function.update_self i _ _

theorem link_sibling_of_ne (s : Links) {i j : ℕ} (h : j ≠ i) (p : ℕ) :
    (link s i p).sibling j = s.sibling j := by
  unfold link
  dsimp only
  split
  · rfl
  · exact Function.update_of_ne h _ _

section
variable (parent : ℕ → Option ℕ)

/-- The children of `p` among the nodes from `k` to `n - 1`. -/
def children (k n p : ℕ) : List ℕ :=
  (List.range' k (n - k)).filter fun i => decide (parent i = some p)

/-- One node is linked, when it has a parent. -/
def linkNode (s : Links) (i : ℕ) : Links :=
  match parent i with
  | some p => link s i p
  | none => s

/-- The nodes from `n - 1` down to `k`. -/
def linkDown (k n : ℕ) (s : Links) : Links :=
  (List.range' k (n - k)).reverse.foldl (linkNode parent) s

variable {parent} {k n p : ℕ}

theorem mem_children {i : ℕ} : i ∈ children parent k n p ↔ k ≤ i ∧ i < n ∧ parent i = some p := by
  rw [children, List.mem_filter, List.mem_range'_1, decide_eq_true_eq]
  constructor
  · rintro ⟨⟨hk, hn⟩, hp⟩
    exact ⟨hk, by omega, hp⟩
  · rintro ⟨hk, hn, hp⟩
    exact ⟨⟨hk, by omega⟩, hp⟩

theorem range'_cons (h : k < n) :
    List.range' k (n - k) = k :: List.range' (k + 1) (n - (k + 1)) := by
  rw [show n - k = n - (k + 1) + 1 by omega, List.range'_succ]

theorem children_cons (h : k < n) (p : ℕ) :
    children parent k n p =
      if parent k = some p then k :: children parent (k + 1) n p
      else children parent (k + 1) n p := by
  rw [children, range'_cons h, List.filter_cons]
  split_ifs with hp hp' hp'
  · rfl
  · exact absurd (of_decide_eq_true hp) hp'
  · exact absurd (decide_eq_true hp') hp
  · rfl

theorem children_self (p : ℕ) : children parent n n p = [] := by
  rw [children, Nat.sub_self]
  rfl

theorem children_pairwise : (children parent k n p).Pairwise (· < ·) :=
  List.Pairwise.filter _ List.pairwise_lt_range'

variable (parent)

/-- What is linked so far: the nodes from `k` on, each under its parent. -/
structure Linked (n k : ℕ) (s : Links) : Prop where
  chain : ∀ p < n, Chain s.sibling (s.next p) (children parent k n p)
  fresh : ∀ i < k, s.sibling i = -1

variable {parent}

theorem Linked.node {s : Links} (h : Linked parent n (k + 1) s) (hk : k < n) :
    Linked parent n k (linkNode parent s k) := by
  unfold linkNode
  cases hp : parent k with
  | none =>
    refine ⟨fun q hq => ?_, fun i hi => h.fresh i (by omega)⟩
    have hne : ¬ parent k = some q := by simp [hp]
    rw [children_cons hk, if_neg hne]
    exact h.chain q hq
  | some p =>
    have hk' := h.fresh k (Nat.lt_succ_self k)
    -- the lists so far hold later nodes only
    have hkeep : ∀ q, ∀ x ∈ children parent (k + 1) n q,
        (link s k p).sibling x = s.sibling x := by
      intro q x hx
      have := (mem_children.mp hx).1
      exact link_sibling_of_ne s (by omega) p
    refine ⟨fun q hq => ?_, fun i hi => ?_⟩
    · rw [children_cons hk, hp]
      by_cases hqp : p = q
      · subst hqp
        rw [if_pos rfl]
        refine ⟨Function.update_self p _ _, ?_⟩
        rw [link_sibling_self hk']
        exact (h.chain p hq).congr (hkeep p)
      · rw [if_neg fun heq => hqp (Option.some.inj heq)]
        have hnext : (link s k p).next q = s.next q := Function.update_of_ne (Ne.symm hqp) _ _
        rw [hnext]
        exact (h.chain q hq).congr (hkeep q)
    · rw [link_sibling_of_ne s (by omega)]
      exact h.fresh i (by omega)

/-- **Linking from the last node to the first** leaves the children of every node in its list, in
ascending order. -/
theorem linkDown_chain {s : Links} (hnext : ∀ p < n, s.next p = -1)
    (hsibling : ∀ i < n, s.sibling i = -1) (hk : k ≤ n) :
    Linked parent n k (linkDown parent k n s) := by
  induction hd : n - k generalizing k with
  | zero =>
    obtain rfl : k = n := by omega
    rw [linkDown, Nat.sub_self]
    refine ⟨fun p hp => ?_, hsibling⟩
    rw [children_self]
    exact hnext p hp
  | succ d ih =>
    have hlt : k < n := by omega
    have hstep : linkDown parent k n s = linkNode parent (linkDown parent (k + 1) n s) k := by
      rw [linkDown, range'_cons hlt, List.reverse_cons, List.foldl_append]
      rfl
    rw [hstep]
    exact (ih (by omega) (by omega)).node hlt

end

/-! ### Going up -/

section
variable (parent : ℕ → Option ℕ)

/-- A node above another one, or the node itself. -/
def Above : ℕ → ℕ → Prop := Relation.ReflTransGen fun i p => parent i = some p

/-- The nodes from `i` up to the root, which is left out, at most as many as the first argument
says. -/
def climb : ℕ → ℕ → List ℕ
  | 0, _ => []
  | fuel + 1, i => if i = 0 then [] else i :: ((parent i).map (climb fuel)).getD []

/-- The number of nodes from `i` up to the root. -/
def depth (i : ℕ) : ℕ := (climb parent i i).length

variable {parent}

theorem climb_zero (fuel : ℕ) : climb parent fuel 0 = [] := by
  cases fuel with
  | zero => rfl
  | succ fuel => rfl

theorem climb_succ {fuel i : ℕ} (hi : i ≠ 0) :
    climb parent (fuel + 1) i = i :: ((parent i).map (climb parent fuel)).getD [] := if_neg hi

theorem depth_of_none {i : ℕ} (h : parent i = none) : depth parent i ≤ 1 := by
  cases i with
  | zero => exact Nat.zero_le 1
  | succ j =>
    rw [depth, climb_succ (Nat.succ_ne_zero j), h]
    exact le_rfl

variable (hlt : ∀ i p, parent i = some p → p < i)
include hlt

/-- There are at most `i` nodes from `i` up to the root. -/
theorem climb_of_le {fuel i : ℕ} (h : i ≤ fuel) : climb parent fuel i = climb parent i i := by
  induction i using Nat.strong_induction_on generalizing fuel with
  | _ i ih =>
    rcases Nat.eq_zero_or_pos i with rfl | hi
    · rw [climb_zero, climb_zero]
    · obtain ⟨f, rfl⟩ : ∃ f, fuel = f + 1 := ⟨fuel - 1, by omega⟩
      obtain ⟨j, rfl⟩ : ∃ j, i = j + 1 := ⟨i - 1, by omega⟩
      rw [climb_succ (Nat.succ_ne_zero j), climb_succ (Nat.succ_ne_zero j)]
      cases hp : parent (j + 1) with
      | none => rfl
      | some p =>
        have hpj := hlt _ _ hp
        have hleft := ih p hpj (show p ≤ f by omega)
        have hright := ih p hpj (show p ≤ j by omega)
        rw [Option.map_some, Option.map_some, hleft, hright]

theorem depth_of_parent {i p : ℕ} (hp : parent i = some p) :
    depth parent i = depth parent p + 1 := by
  have hpi := hlt _ _ hp
  obtain ⟨j, rfl⟩ : ∃ j, i = j + 1 := ⟨i - 1, by omega⟩
  rw [depth, climb_succ (Nat.succ_ne_zero j), hp, Option.map_some, Option.getD_some,
    List.length_cons, climb_of_le hlt (by omega : p ≤ j), depth]

/-- Enough fuel is the depth. -/
theorem climb_of_depth_le {fuel i : ℕ} (h : depth parent i ≤ fuel) :
    climb parent fuel i = climb parent i i := by
  induction fuel generalizing i with
  | zero => exact (List.length_eq_zero_iff.mp (Nat.le_zero.mp h)).symm
  | succ fuel ih =>
    rcases Nat.eq_zero_or_pos i with rfl | hi
    · exact climb_zero _
    · obtain ⟨j, rfl⟩ : ∃ j, i = j + 1 := ⟨i - 1, by omega⟩
      rw [climb_succ (Nat.succ_ne_zero j), climb_succ (Nat.succ_ne_zero j)]
      cases hp : parent (j + 1) with
      | none => rfl
      | some p =>
        have hpj := hlt _ _ hp
        have hdepth := depth_of_parent hlt hp
        rw [Option.map_some, Option.map_some, ih (by omega), climb_of_le hlt (by omega : p ≤ j)]

/-- **The nodes of the climb** are those above, but for the root. -/
theorem mem_climb {i c : ℕ} : c ∈ climb parent i i ↔ c ≠ 0 ∧ Above parent i c := by
  induction i using Nat.strong_induction_on with
  | _ i ih =>
    rcases Nat.eq_zero_or_pos i with rfl | hi
    · rw [climb_zero]
      constructor
      · exact fun h => absurd h List.not_mem_nil
      · rintro ⟨hc, habove⟩
        -- nothing is above the root
        rcases habove.cases_head with rfl | ⟨p, hp, -⟩
        · exact absurd rfl hc
        · exact absurd (hlt _ _ hp) (Nat.not_lt_zero p)
    · obtain ⟨j, rfl⟩ : ∃ j, i = j + 1 := ⟨i - 1, by omega⟩
      rw [climb_succ (Nat.succ_ne_zero j), List.mem_cons]
      constructor
      · rintro (rfl | hmem)
        · exact ⟨Nat.succ_ne_zero j, .refl⟩
        · cases hp : parent (j + 1) with
          | none =>
            rw [hp] at hmem
            exact absurd hmem List.not_mem_nil
          | some p =>
            have hpj := hlt _ _ hp
            rw [hp, Option.map_some, Option.getD_some, climb_of_le hlt (by omega : p ≤ j)] at hmem
            obtain ⟨hc, habove⟩ := (ih p hpj).mp hmem
            exact ⟨hc, .head hp habove⟩
      · rintro ⟨hc, habove⟩
        rcases habove.cases_head with rfl | ⟨p, hp, habove⟩
        · exact .inl rfl
        · have hpj := hlt _ _ hp
          refine .inr ?_
          rw [hp, Option.map_some, Option.getD_some, climb_of_le hlt (by omega : p ≤ j)]
          exact (ih p hpj).mpr ⟨hc, habove⟩

theorem above_le {i c : ℕ} (h : Above parent i c) : c ≤ i := by
  induction h with
  | refl => exact le_rfl
  | tail _ hp ih => exact (hlt _ _ hp).le.trans ih

omit hlt in
/-- A path up to the root goes through every node above. -/
theorem Above.root_of_above {v c : ℕ} (hroot : Above parent v 0) (hc : Above parent v c)
    (hzero : parent 0 = none) : Above parent c 0 := by
  induction hc using Relation.ReflTransGen.head_induction_on with
  | refl => exact hroot
  | head hp _ ih =>
    rcases hroot.cases_head with rfl | ⟨p, hp', habove⟩
    · rw [hzero] at hp
      cases hp
    · rw [hp] at hp'
      obtain rfl := Option.some.inj hp'
      exact ih habove

end

/-! ### Going down -/

section
variable (kids : ℕ → List ℕ) (test : ℕ → ℕ → Bool)

/-- From `v`, the first child that passes, and so on. -/
def descend : ℕ → ℕ → List ℕ
  | 0, _ => []
  | fuel + 1, v =>
    match (kids v).find? (test v) with
    | some c => c :: descend fuel c
    | none => []

/-- A path of children that pass. -/
inductive Passing : ℕ → List ℕ → Prop
  | nil (v : ℕ) : Passing v []
  | cons {v c : ℕ} {path : List ℕ} (hmem : c ∈ kids v) (hpass : test v c = true)
      (hrest : Passing c path) : Passing v (c :: path)

variable {kids test}

theorem descend_succ_of_some {fuel v c : ℕ} (h : (kids v).find? (test v) = some c) :
    descend kids test (fuel + 1) v = c :: descend kids test fuel c := by
  rw [descend, h]

theorem descend_succ_of_none {fuel v : ℕ} (h : (kids v).find? (test v) = none) :
    descend kids test (fuel + 1) v = [] := by
  rw [descend, h]

theorem passing_descend (fuel v : ℕ) : Passing kids test v (descend kids test fuel v) := by
  induction fuel generalizing v with
  | zero => exact .nil v
  | succ fuel ih =>
    cases hfind : (kids v).find? (test v) with
    | none =>
      rw [descend_succ_of_none hfind]
      exact .nil v
    | some c =>
      rw [descend_succ_of_some hfind]
      exact .cons (List.mem_of_find?_eq_some hfind) (List.find?_some hfind) (ih c)

theorem length_descend_le (fuel v : ℕ) : (descend kids test fuel v).length ≤ fuel := by
  induction fuel generalizing v with
  | zero => exact le_rfl
  | succ fuel ih =>
    cases hfind : (kids v).find? (test v) with
    | none =>
      rw [descend_succ_of_none hfind]
      exact Nat.zero_le _
    | some c =>
      rw [descend_succ_of_some hfind]
      exact Nat.succ_le_succ (ih c)

theorem Passing.mono {test' : ℕ → ℕ → Bool} {v : ℕ} {path : List ℕ} (h : Passing kids test v path)
    (htest : ∀ k u c : ℕ, (v :: path)[k]? = some u → path[k]? = some c → test' u c = true) :
    Passing kids test' v path := by
  induction h with
  | nil v => exact .nil v
  | cons hmem _ _ ih =>
    refine .cons hmem (htest 0 _ _ rfl rfl) (ih fun k u c hu hc => ?_)
    exact htest (k + 1) u c hu hc

/-- Every node of a path is a child of the one before that passes there. -/
theorem Passing.getElem? {v : ℕ} {path : List ℕ} (h : Passing kids test v path) {k c : ℕ}
    (hk : path[k]? = some c) : ∃ u, (v :: path)[k]? = some u ∧ c ∈ kids u ∧ test u c = true := by
  induction h generalizing k with
  | nil v => cases hk
  | cons hmem hpass _ ih =>
    cases k with
    | zero =>
      obtain rfl := Option.some.inj hk
      exact ⟨_, rfl, hmem, hpass⟩
    | succ k => exact ih hk

/-- **The longest path.**  When at most one child passes, every path of children that pass goes
along `descend`. -/
theorem Passing.isPrefix_descend
    (hone : ∀ v c c', c ∈ kids v → c' ∈ kids v → test v c = true → test v c' = true → c = c')
    {v fuel : ℕ} {path : List ℕ} (h : Passing kids test v path) (hfuel : path.length ≤ fuel) :
    path <+: descend kids test fuel v := by
  induction h generalizing fuel with
  | nil v => exact List.nil_prefix
  | cons hmem hpass hrest ih =>
    rename_i v c path
    obtain ⟨f, rfl⟩ : ∃ f, fuel = f + 1 := ⟨fuel - 1, by rw [List.length_cons] at hfuel; omega⟩
    cases hfind : (kids v).find? (test v) with
    | none => exact absurd hpass (by simpa using List.find?_eq_none.mp hfind c hmem)
    | some d =>
      obtain rfl := hone v c d hmem (List.mem_of_find?_eq_some hfind) hpass (List.find?_some hfind)
      rw [descend_succ_of_some hfind]
      exact (List.prefix_cons_inj c).mpr (ih (Nat.le_of_succ_le_succ hfuel))

/-! ### Where a path goes on, and where it ends -/

theorem exists_find?_of_mem_dropLast {fuel v u : ℕ}
    (hu : u ∈ (v :: descend kids test fuel v).dropLast) :
    ∃ c, (kids u).find? (test u) = some c := by
  induction fuel generalizing v with
  | zero => exact absurd hu List.not_mem_nil
  | succ fuel ih =>
    cases hfind : (kids v).find? (test v) with
    | none =>
      rw [descend_succ_of_none hfind] at hu
      exact absurd hu List.not_mem_nil
    | some c =>
      rw [descend_succ_of_some hfind, List.dropLast_cons_cons] at hu
      rcases List.mem_cons.mp hu with rfl | hu
      · exact ⟨c, hfind⟩
      · exact ih hu

/-- What the nodes of a path say of the ones behind them. -/
theorem map_dropLast_descend {β : Type*} {f g : ℕ → β} {fuel v : ℕ}
    (hfg : ∀ u ∈ (v :: descend kids test fuel v).dropLast, ∀ c,
      (kids u).find? (test u) = some c → f u = g c) :
    (v :: descend kids test fuel v).dropLast.map f = (descend kids test fuel v).map g := by
  induction fuel generalizing v with
  | zero => rfl
  | succ fuel ih =>
    cases hfind : (kids v).find? (test v) with
    | none =>
      rw [descend_succ_of_none hfind]
      rfl
    | some c =>
      rw [descend_succ_of_some hfind, List.dropLast_cons_cons] at hfg ⊢
      rw [List.map_cons, List.map_cons, hfg v List.mem_cons_self c hfind,
        ih fun u hu => hfg u (List.mem_cons_of_mem v hu)]

/-- A path that could have gone on ends where no child passes. -/
theorem find?_getLastD_descend {fuel v : ℕ} (h : (descend kids test fuel v).length < fuel) :
    (kids ((descend kids test fuel v).getLastD v)).find?
      (test ((descend kids test fuel v).getLastD v)) = none := by
  induction fuel generalizing v with
  | zero => exact absurd h (Nat.not_lt_zero _)
  | succ fuel ih =>
    cases hfind : (kids v).find? (test v) with
    | none =>
      rw [descend_succ_of_none hfind]
      exact hfind
    | some c =>
      rw [descend_succ_of_some hfind] at h ⊢
      rw [List.getLastD_cons]
      exact ih (Nat.lt_of_succ_lt_succ h)

/-- Another test that goes the same way. -/
theorem descend_congr {test' : ℕ → ℕ → Bool} {fuel v : ℕ}
    (hon : ∀ u ∈ (v :: descend kids test fuel v).dropLast,
      (kids u).find? (test' u) = (kids u).find? (test u))
    (hend : (descend kids test fuel v).length < fuel →
      (kids ((descend kids test fuel v).getLastD v)).find?
        (test' ((descend kids test fuel v).getLastD v)) = none) :
    descend kids test' fuel v = descend kids test fuel v := by
  induction fuel generalizing v with
  | zero => rfl
  | succ fuel ih =>
    cases hfind : (kids v).find? (test v) with
    | none =>
      rw [descend_succ_of_none hfind] at hend ⊢
      exact descend_succ_of_none (hend (Nat.succ_pos fuel))
    | some c =>
      rw [descend_succ_of_some hfind, List.dropLast_cons_cons] at hon
      rw [descend_succ_of_some hfind, List.getLastD_cons, List.length_cons] at hend
      have hfind' := (hon v List.mem_cons_self).trans hfind
      rw [descend_succ_of_some hfind, descend_succ_of_some hfind',
        ih (fun u hu => hon u (List.mem_cons_of_mem v hu)) fun h => hend (Nat.succ_lt_succ h)]

/-- A path stays among the nodes. -/
theorem Passing.mem_lt {n : ℕ} (hlt : ∀ v, ∀ c ∈ kids v, c < n) {v : ℕ} (hv : v < n)
    {path : List ℕ} (h : Passing kids test v path) : ∀ c ∈ v :: path, c < n := by
  induction h with
  | nil v => exact List.forall_mem_singleton.mpr hv
  | cons hmem _ _ ih => exact List.forall_mem_cons.mpr ⟨hv, ih (hlt _ _ hmem)⟩

theorem Passing.le_getLastD (hlt : ∀ v, ∀ c ∈ kids v, v < c) {v : ℕ} {path : List ℕ}
    (h : Passing kids test v path) : v ≤ path.getLastD v := by
  induction h with
  | nil v => exact le_rfl
  | cons hmem _ _ ih =>
    rw [List.getLastD_cons]
    exact (hlt _ _ hmem).le.trans ih

/-- The end of a path comes behind its other nodes. -/
theorem Passing.lt_getLastD (hlt : ∀ v, ∀ c ∈ kids v, v < c) {v u : ℕ} {path : List ℕ}
    (h : Passing kids test v path) (hu : u ∈ (v :: path).dropLast) : u < path.getLastD v := by
  induction h with
  | nil v => exact absurd hu List.not_mem_nil
  | cons hmem _ hrest ih =>
    rw [List.dropLast_cons_cons] at hu
    rw [List.getLastD_cons]
    rcases List.mem_cons.mp hu with rfl | hu
    · exact (hlt _ _ hmem).trans_le (hrest.le_getLastD hlt)
    · exact ih hu

end

end SiblingLists
