import Mathlib.Algebra.BigOperators.Group.Finset.Piecewise
import Mathlib.Algebra.Order.BigOperators.Group.Finset
import Mathlib.Algebra.Order.Ring.Nat
import Mathlib.Data.Finset.Max

/-! # The first elements of an order

The place of an element is how many elements come before it.  The elements with a place
below `k` are the first `k` of the sorted list (`mem_take`), there are `min k n` of them
(`countP_rank_lt`), and when the order goes by decreasing weight no other `k` elements weigh
more (`sum_le_sum_rank_lt`).  A stable sort by a key keeps the order it starts from among
equal keys (`pairwise_mergeSort_stable`), so a lexicographic order is reached by sorting by
one key after another, the most significant last.
-/
namespace RankSelection
variable {α : Type*} {l l' : List α} {before : α → α → Bool}

/-- The place of `a`: how many elements come before it. -/
def rank (before : α → α → Bool) (l : List α) (a : α) : ℕ := l.countP (before · a)

/-- `before` orders the elements of `l` strictly and totally. -/
structure StrictOrder (before : α → α → Bool) (l : List α) : Prop where
  nodup : l.Nodup
  irrefl : ∀ a, before a a = false
  trans : ∀ a b c, before a b → before b c → before a c
  total : ∀ a ∈ l, ∀ b ∈ l, a ≠ b → before a b ∨ before b a

theorem countP_lt_countP {p q : α → Bool} {a : α} (hle : ∀ x ∈ l, p x → q x) (ha : a ∈ l)
    (hp : p a = false) (hq : q a = true) : l.countP p < l.countP q := by
  obtain ⟨pre, suf, rfl⟩ := List.append_of_mem ha
  have hpre : pre.countP p ≤ pre.countP q :=
    List.countP_mono_left fun x hx => hle x (List.mem_append_left _ hx)
  have hsuf : suf.countP p ≤ suf.countP q :=
    List.countP_mono_left fun x hx => hle x (List.mem_append_right _ (List.mem_cons_of_mem a hx))
  rw [List.countP_append, List.countP_append, List.countP_cons_of_neg (by simp [hp]),
    List.countP_cons_of_pos hq]
  omega

theorem rank_perm (h : l.Perm l') (a : α) : rank before l a = rank before l' a :=
  h.countP_eq _

namespace StrictOrder
variable (h : StrictOrder before l)
include h

theorem sublist (hs : l'.Sublist l) : StrictOrder before l' where
  nodup := h.nodup.sublist hs
  irrefl := h.irrefl
  trans := h.trans
  total := fun a ha b hb => h.total a (hs.subset ha) b (hs.subset hb)

theorem rank_lt_rank {a b : α} (ha : a ∈ l) (hab : before a b) :
    rank before l a < rank before l b :=
  countP_lt_countP (fun c _ hca => h.trans c a b hca hab) ha (h.irrefl a) hab

theorem before_of_rank_lt {a b : α} (ha : a ∈ l) (hb : b ∈ l)
    (hlt : rank before l a < rank before l b) : before a b := by
  have hne : a ≠ b := by
    rintro rfl
    exact Nat.lt_irrefl _ hlt
  rcases h.total a ha b hb hne with hab | hba
  · exact hab
  · exact absurd (h.rank_lt_rank hb hba) (by omega)

theorem rank_injOn {a b : α} (ha : a ∈ l) (hb : b ∈ l)
    (heq : rank before l a = rank before l b) : a = b := by
  by_contra hne
  rcases h.total a ha b hb hne with hab | hba
  · exact Nat.ne_of_lt (h.rank_lt_rank ha hab) heq
  · exact Nat.ne_of_lt (h.rank_lt_rank hb hba) heq.symm

theorem rank_lt_length {a : α} (ha : a ∈ l) : rank before l a < l.length := by
  have hlt := countP_lt_countP (p := (before · a)) (q := fun _ => true) (fun _ _ _ => rfl) ha
    (h.irrefl a) rfl
  rwa [List.countP_true] at hlt

/-- Every place is taken once. -/
theorem map_rank_perm : (l.map (rank before l)).Perm (List.range l.length) := by
  have hnodup : (l.map (rank before l)).Nodup :=
    h.nodup.map_on fun a ha b hb heq => h.rank_injOn ha hb heq
  have hsub : l.map (rank before l) ⊆ List.range l.length := by
    intro n hn
    obtain ⟨a, ha, rfl⟩ := List.mem_map.mp hn
    exact List.mem_range.mpr (h.rank_lt_length ha)
  exact (hnodup.subperm hsub).perm_of_length_le (by simp)

/-- `min k n` elements have a place below `k`. -/
theorem countP_rank_lt (k : ℕ) :
    l.countP (fun a => decide (rank before l a < k)) = min k l.length := by
  calc l.countP (fun a => decide (rank before l a < k))
      = (l.map (rank before l)).countP fun n => decide (n < k) := by
        rw [List.countP_map]; rfl
    _ = (List.range l.length).countP fun n => decide (n < k) := h.map_rank_perm.countP_eq _
    _ = min k l.length := by
        rw [List.countP_eq_length_filter]
        rcases Nat.le_total l.length k with hle | hle
        · rw [List.filter_eq_self.mpr fun n hn => by
            simpa using (List.mem_range.mp hn).trans_le hle]
          simp [hle]
        · obtain ⟨d, hd⟩ := Nat.exists_eq_add_of_le hle
          rw [hd, List.range_add, List.filter_append, List.filter_eq_self.mpr fun n hn => by
            simpa using List.mem_range.mp hn, List.filter_eq_nil_iff.mpr fun n hn => by
            obtain ⟨j, -, rfl⟩ := List.mem_map.mp hn
            simp]
          simp

/-- The place of an element in a sorted list is its index. -/
theorem rank_getElem (hsorted : l.Pairwise fun a b => before a b) {i : ℕ} (hi : i < l.length) :
    rank before l l[i] = i := by
  have hsplit : l = l.take i ++ l[i] :: l.drop (i + 1) := by
    rw [List.getElem_cons_drop, List.take_append_drop]
  have hpairs := hsorted
  rw [hsplit, List.pairwise_append] at hpairs
  obtain ⟨-, hright, hcross⟩ := hpairs
  have hbefore : (l.take i).countP (before · l[i]) = (l.take i).length :=
    List.countP_eq_length.mpr fun a ha => hcross a ha l[i] List.mem_cons_self
  have hafter : (l.drop (i + 1)).countP (before · l[i]) = 0 := by
    refine List.countP_eq_zero.mpr fun b hb hba => ?_
    have hab := (List.pairwise_cons.mp hright).1 b hb
    simpa [h.irrefl] using h.trans _ _ _ hab hba
  calc rank before l l[i]
      = (l.take i ++ l[i] :: l.drop (i + 1)).countP (before · l[i]) := by
        rw [← hsplit]; rfl
    _ = (l.take i).length := by
        rw [List.countP_append, List.countP_cons_of_neg (by simp [h.irrefl]), hbefore, hafter,
          Nat.add_zero]
    _ = i := by rw [List.length_take, Nat.min_eq_left hi.le]

section
variable (hperm : l'.Perm l) (hsorted : l'.Pairwise fun a b => before a b)
include hperm hsorted

theorem rank_getElem_sorted {i : ℕ} (hi : i < l'.length) : rank before l l'[i] = i := by
  have h' : StrictOrder before l' := {
    nodup := hperm.nodup_iff.mpr h.nodup
    irrefl := h.irrefl
    trans := h.trans
    total := fun a ha b hb => h.total a (hperm.mem_iff.mp ha) b (hperm.mem_iff.mp hb) }
  rw [← rank_perm hperm, h'.rank_getElem hsorted]

/-- **Taking `k` elements of the sorted list keeps those with a place below `k`.** -/
theorem mem_take {a : α} {k : ℕ} : a ∈ l'.take k ↔ a ∈ l ∧ rank before l a < k := by
  constructor
  · intro ha
    refine ⟨hperm.mem_iff.mp (List.mem_of_mem_take ha), ?_⟩
    obtain ⟨i, hi, rfl⟩ := List.getElem_of_mem ha
    rw [List.length_take] at hi
    rw [List.getElem_take, h.rank_getElem_sorted hperm hsorted]
    omega
  · rintro ⟨ha, hrank⟩
    obtain ⟨i, hi, rfl⟩ := List.getElem_of_mem (hperm.mem_iff.mpr ha)
    rw [h.rank_getElem_sorted hperm hsorted] at hrank
    exact List.mem_take_iff_getElem.mpr ⟨i, by omega, rfl⟩

theorem countP_take (p : α → Bool) (k : ℕ) :
    (l'.take k).countP p = l.countP fun a => p a && decide (rank before l a < k) := by
  have hfilter : ((l'.take k).filter p).Perm
      (l.filter fun a => p a && decide (rank before l a < k)) := by
    refine (List.perm_ext_iff_of_nodup ?_ (h.nodup.filter _)).mpr fun a => ?_
    · exact ((hperm.nodup_iff.mpr h.nodup).sublist (List.take_sublist _ _)).filter _
    · simp only [List.mem_filter, h.mem_take hperm hsorted, Bool.and_eq_true, decide_eq_true_eq]
      tauto
  rw [List.countP_eq_length_filter, hfilter.length_eq, ← List.countP_eq_length_filter]

end

end StrictOrder

/-! ### Weights -/

section
variable [DecidableEq α] {K : Type*} [AddCommMonoid K] [LinearOrder K] [IsOrderedAddMonoid K]
  {weight : α → K}

/-- The elements with a place below `k`. -/
def top (before : α → α → Bool) (l : List α) (k : ℕ) : Finset α :=
  l.toFinset.filter fun a => rank before l a < k

@[simp] theorem mem_top {k : ℕ} {a : α} : a ∈ top before l k ↔ a ∈ l ∧ rank before l a < k := by
  simp [top]

theorem card_top (h : StrictOrder before l) (k : ℕ) : (top before l k).card = min k l.length := by
  have hcount : (top before l k).card = l.countP fun a => decide (rank before l a < k) := by
    rw [List.countP_eq_length_filter, ← List.toFinset_card_of_nodup (h.nodup.filter _),
      List.toFinset_filter]
    simp [top]
  rw [hcount, h.countP_rank_lt]

/-- **No `k` elements weigh more than the first `k`**, when the order goes by decreasing
weight. -/
theorem sum_le_sum_rank_lt (h : StrictOrder before l) (hweight : ∀ a ∈ l, 0 ≤ weight a)
    (hmono : ∀ a ∈ l, ∀ b ∈ l, before a b → weight b ≤ weight a) {s : Finset α}
    (hs : ∀ a ∈ s, a ∈ l) {k : ℕ} (hcard : s.card ≤ k) :
    ∑ a ∈ s, weight a ≤ ∑ a ∈ top before l k, weight a := by
  by_cases hout : s ⊆ top before l k
  · exact Finset.sum_le_sum_of_subset_of_nonneg hout fun a ha _ => hweight a (mem_top.mp ha).1
  · -- something of `s` is not among the first `k`, so there are `k` of these
    obtain ⟨c, hc, hctop⟩ := Finset.not_subset.mp hout
    have hfull : (top before l k).card = k := by
      rw [card_top h, Nat.min_eq_left]
      refine Nat.le_of_lt (lt_of_le_of_lt ?_ (h.rank_lt_length (hs c hc)))
      exact Nat.le_of_not_lt fun hlt => hctop (mem_top.mpr ⟨hs c hc, hlt⟩)
    have hne : (s \ top before l k).Nonempty := ⟨c, Finset.mem_sdiff.mpr ⟨hc, hctop⟩⟩
    obtain ⟨m, hm, hmax⟩ := Finset.exists_max_image _ weight hne
    obtain ⟨hms, hmtop⟩ := Finset.mem_sdiff.mp hm
    have hless : (s \ top before l k).card ≤ (top before l k \ s).card := by
      have hleft := Finset.card_sdiff_add_card_inter s (top before l k)
      have hright := Finset.card_sdiff_add_card_inter (top before l k) s
      rw [Finset.inter_comm] at hright
      omega
    have hheavy : ∀ a ∈ top before l k \ s, weight m ≤ weight a := by
      intro a ha
      obtain ⟨hal, hrank⟩ := mem_top.mp (Finset.mem_sdiff.mp ha).1
      refine hmono a hal m (hs m hms) (h.before_of_rank_lt hal (hs m hms) ?_)
      exact lt_of_lt_of_le hrank
        (Nat.le_of_not_lt fun hlt => hmtop (mem_top.mpr ⟨hs m hms, hlt⟩))
    have hswap : ∑ a ∈ s \ top before l k, weight a ≤ ∑ a ∈ top before l k \ s, weight a :=
      calc ∑ a ∈ s \ top before l k, weight a
          ≤ (s \ top before l k).card • weight m := Finset.sum_le_card_nsmul _ _ _ hmax
        _ ≤ (top before l k \ s).card • weight m :=
            nsmul_le_nsmul_left (hweight m (hs m hms)) hless
        _ ≤ ∑ a ∈ top before l k \ s, weight a := Finset.card_nsmul_le_sum _ _ _ hheavy
    rw [← Finset.sum_inter_add_sum_sdiff s (top before l k),
      ← Finset.sum_inter_add_sum_sdiff (top before l k) s, Finset.inter_comm]
    exact add_le_add_right hswap _

omit [IsOrderedAddMonoid K] in
/-- The first `k` weights of the sorted weights are the weights of the first `k`. -/
theorem sum_take (h : StrictOrder before l)
    (hmono : ∀ a ∈ l, ∀ b ∈ l, before a b → weight b ≤ weight a) (hperm : l'.Perm l)
    (hsorted : l'.Pairwise fun a b => before a b) {weights : List K}
    (hweights : weights.Perm (l.map weight)) (hdesc : weights.Pairwise (· ≥ ·)) (k : ℕ) :
    (weights.take k).sum = ∑ a ∈ top before l k, weight a := by
  have hdesc' : (l'.map weight).Pairwise (· ≥ ·) := by
    refine List.pairwise_map.mpr (hsorted.imp_of_mem fun {a b} ha hb hab => ?_)
    exact hmono a (hperm.mem_iff.mp ha) b (hperm.mem_iff.mp hb) hab
  have heq : weights = l'.map weight :=
    (hweights.trans (hperm.map weight).symm).eq_of_pairwise
      (fun a b _ _ hab hba => le_antisymm hba hab) hdesc hdesc'
  have hnodup : (l'.take k).Nodup := (hperm.nodup_iff.mpr h.nodup).sublist (List.take_sublist _ _)
  have htop : (l'.take k).toFinset = top before l k := by
    ext a
    rw [List.mem_toFinset, h.mem_take hperm hsorted, mem_top]
  rw [heq, ← List.map_take, ← htop, List.sum_toFinset _ hnodup]

end

/-! ### Stable sorts -/

/-- Two elements stand in one order only. -/
theorem not_sublist_pair {a b : α} (hnodup : l.Nodup) (hab : [a, b].Sublist l) :
    ¬[b, a].Sublist l := by
  induction l with
  | nil => cases hab
  | cons x l ih =>
    intro hba
    obtain ⟨hx, hnodup⟩ := List.nodup_cons.mp hnodup
    rcases List.cons_sublist_cons'.mp hab with htail | ⟨rfl, hb⟩
    · rcases List.cons_sublist_cons'.mp hba with htail' | ⟨rfl, -⟩
      · exact ih hnodup htail htail'
      · exact hx (htail.subset (by simp))
    · rcases List.cons_sublist_cons'.mp hba with htail' | ⟨rfl, -⟩
      · exact hx (htail'.subset (by simp))
      · exact hx (List.singleton_sublist.mp hb)

/-- Two elements stand in one of the two orders. -/
theorem sublist_pair_or {a b : α} (ha : a ∈ l) (hb : b ∈ l) (hne : a ≠ b) :
    [a, b].Sublist l ∨ [b, a].Sublist l := by
  obtain ⟨pre, suf, rfl⟩ := List.append_of_mem ha
  rcases List.mem_append.mp hb with hpre | hsuf
  · exact .inr ((List.singleton_sublist.mpr hpre).append
      (List.singleton_sublist.mpr List.mem_cons_self))
  · have hbsuf : b ∈ suf := (List.mem_cons.mp hsuf).resolve_left (Ne.symm hne)
    exact .inl (((List.singleton_sublist.mpr hbsuf).cons_cons a).trans
      (List.sublist_append_right _ _))

/-- A stable sort by a key keeps the order it starts from among equal keys. -/
theorem pairwise_mergeSort_stable {R : α → α → Prop} (le : α → α → Bool) (hnodup : l.Nodup)
    (hR : l.Pairwise R) (htrans : ∀ a b c, le a b → le b c → le a c)
    (htotal : ∀ a b, le a b || le b a) :
    (l.mergeSort le).Pairwise fun a b => le a b ∧ (le b a → R a b) := by
  have hsorted := List.pairwise_mergeSort htrans htotal l
  have hnodup' : (l.mergeSort le).Nodup := (l.mergeSort_perm le).nodup_iff.mpr hnodup
  refine List.pairwise_iff_forall_sublist.mpr fun {a b} hab => ?_
  refine ⟨List.pairwise_iff_forall_sublist.mp hsorted hab, fun hba => ?_⟩
  have hne : a ≠ b := List.pairwise_iff_forall_sublist.mp hnodup' hab
  have ha : a ∈ l := List.mem_mergeSort.mp (hab.subset List.mem_cons_self)
  have hb : b ∈ l := List.mem_mergeSort.mp (hab.subset (by simp))
  rcases sublist_pair_or ha hb hne with hkeep | hrev
  · exact List.pairwise_iff_forall_sublist.mp hR hkeep
  · -- the sort keeps equal keys in place, so it would keep this pair
    exact absurd (List.pair_sublist_mergeSort htrans htotal hba hrev) (not_sublist_pair hnodup' hab)

/-! ### Initial segments and labels -/

/-- A test that passes on an initial segment passes exactly below its count. -/
theorem lt_countP_range_iff {p : ℕ → Bool} {n i : ℕ}
    (hdown : ∀ i j, i ≤ j → j < n → p j → p i) (hi : i < n) :
    i < (List.range n).countP p ↔ p i = true := by
  induction n with
  | zero => exact absurd hi (Nat.not_lt_zero i)
  | succ n ih =>
    have hdown' : ∀ i j, i ≤ j → j < n → p j → p i :=
      fun i j hij hj => hdown i j hij (Nat.lt_succ_of_lt hj)
    rw [List.range_succ, List.countP_append, List.countP_singleton]
    by_cases hn : p n = true
    · have hall : (List.range n).countP p = n := by
        rw [List.countP_eq_length.mpr fun j hj =>
          hdown j n (List.mem_range.mp hj).le n.lt_succ_self hn, List.length_range]
      rw [hall, if_pos hn]
      exact ⟨fun _ => hdown i n (Nat.le_of_lt_succ hi) n.lt_succ_self hn, fun _ => hi⟩
    · rw [if_neg hn, Nat.add_zero]
      rcases Nat.lt_or_ge i n with hlt | hge
      · exact ih hdown' hlt
      · obtain rfl : i = n := by omega
        have hle := List.countP_le_length (p := p) (l := List.range i)
        rw [List.length_range] at hle
        exact ⟨fun h => absurd h (Nat.not_lt.mpr hle), fun h => absurd h hn⟩

/-- The elements of a list counted label by label: nothing is counted twice. -/
theorem sum_countP_label_le (l : List α) (label : α → ℕ) (p : α → Bool) (n : ℕ) :
    ((List.range n).map fun r => l.countP fun a => decide (label a = r) && p a).sum ≤
      l.countP p := by
  induction l with
  | nil => simp
  | cons a l ih =>
    have hone : ((List.range n).map fun r => if decide (label a = r) && p a then 1 else 0).sum ≤
        if p a then 1 else 0 := by
      by_cases hp : p a
      · simp only [hp, Bool.and_true, decide_eq_true_eq, if_true]
        calc ((List.range n).map fun r => if label a = r then 1 else 0).sum
            = ∑ r ∈ Finset.range n, if label a = r then 1 else 0 := rfl
          _ ≤ 1 := by rw [Finset.sum_ite_eq]; split <;> simp
      · simp [hp]
    simp only [List.countP_cons, List.sum_map_add]
    omega

end RankSelection
