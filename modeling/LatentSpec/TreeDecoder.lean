import Mathlib.Data.Finset.Filter
import Mathlib.Data.List.GetD
import Mathlib.Data.Multiset.Range
import LatentSpec.SiblingLists

/-! # A causal decoder over a tree of tokens

A decoder gives every position a state, layer by layer, from its own state and the states of the
positions it attends to, in no order.  Over a sequence a position attends to itself and to those
before it (`state`).  Over a tree a node attends to a cached prefix and to the nodes it sees
(`nodeState`).

`nodeState_eq`: when what a node sees are the nodes of its path, each once and at its own depth,
its state is that of the sequence along the path.
-/
namespace TreeDecoder

/-- The embedding of a token at a position, the layers, and the token that a last state predicts. -/
structure Decoder (T S : Type*) where
  embed : T → ℕ → S
  layer : ℕ → S → Multiset S → S
  numLayers : ℕ
  predict : S → T

namespace Decoder
variable {T S : Type*} (d : Decoder T S)

/-! ### Sequences -/

/-- The state of a position of a sequence before a layer. -/
def state (seq : ℕ → T) : ℕ → ℕ → S
  | 0, i => d.embed (seq i) i
  | l + 1, i => d.layer l (state seq l i) ((Multiset.range (i + 1)).map (state seq l))

/-- The token that is predicted at a position. -/
def next (seq : ℕ → T) (i : ℕ) : T := d.predict (d.state seq d.numLayers i)

variable {d}

/-- Later tokens do not matter. -/
theorem state_congr {seq seq' : ℕ → T} {i : ℕ} (h : ∀ j ≤ i, seq j = seq' j) (l : ℕ) :
    d.state seq l i = d.state seq' l i := by
  induction l generalizing i with
  | zero => rw [state, state, h i le_rfl]
  | succ l ih =>
    rw [state, state, ih h]
    refine congrArg _ (Multiset.map_congr rfl fun j hj => ?_)
    have hji : j < i + 1 := Multiset.mem_range.mp hj
    exact ih fun k hk => h k (by omega)

theorem next_congr {seq seq' : ℕ → T} {i : ℕ} (h : ∀ j ≤ i, seq j = seq' j) :
    d.next seq i = d.next seq' i := congrArg d.predict (state_congr h d.numLayers)

variable (d)

/-! ### Greedy decoding -/

section Lists
variable [Inhabited T]

/-- A list as a sequence. -/
def seqOf (xs : List T) (i : ℕ) : T := xs.getD i default

/-- The token behind a list. -/
def nextToken (xs : List T) : T := d.next (seqOf xs) (xs.length - 1)

/-- The first `n` tokens that greedy decoding puts behind a list. -/
def greedyDecode : ℕ → List T → List T
  | 0, _ => []
  | n + 1, xs => d.nextToken xs :: greedyDecode n (xs ++ [d.nextToken xs])

variable {d} {xs ys : List T} {t : T}

theorem seqOf_append (ys : List T) {i : ℕ} (hi : i < xs.length) : seqOf (xs ++ ys) i = seqOf xs i :=
  List.getD_append _ _ _ _ hi

theorem seqOf_length (ys : List T) : seqOf (xs ++ t :: ys) xs.length = t := by
  rw [seqOf, List.getD_append_right _ _ _ _ le_rfl, Nat.sub_self]
  rfl

theorem greedyDecode_getElem? {n k : ℕ} (hk : (d.greedyDecode n xs)[k]? = some t) :
    t = d.nextToken (xs ++ (d.greedyDecode n xs).take k) := by
  induction n generalizing xs k with
  | zero => cases hk
  | succ n ih =>
    rw [greedyDecode] at hk ⊢
    cases k with
    | zero =>
      rw [List.take_zero, List.append_nil]
      exact (Option.some.inj hk).symm
    | succ k =>
      rw [List.take_succ_cons, List.append_cons]
      exact ih hk

/-- **Tokens that are predicted one after the other** are those of greedy decoding. -/
theorem eq_greedyDecode
    (h : ∀ k t, ys[k]? = some t → t = d.nextToken (xs ++ ys.take k)) :
    ys = d.greedyDecode ys.length xs := by
  induction ys generalizing xs with
  | nil => rfl
  | cons t ys ih =>
    have hhead : t = d.nextToken xs := by
      have := h 0 t rfl
      rwa [List.take_zero, List.append_nil] at this
    have htail : ys = d.greedyDecode ys.length (xs ++ [t]) := by
      refine ih fun k s hk => ?_
      have := h (k + 1) s hk
      rwa [List.take_succ_cons, List.append_cons] at this
    rw [List.length_cons, greedyDecode, ← hhead, ← htail]

end Lists

/-! ### Trees -/

/-- The rows of one forward pass over a tree behind `len` cached positions. -/
structure Rows (T S : Type*) where
  len : ℕ
  cached : ℕ → ℕ → S
  token : ℕ → T
  position : ℕ → ℕ
  sees : ℕ → Finset ℕ

/-- The state of a node before a layer. -/
def nodeState (x : Rows T S) : ℕ → ℕ → S
  | 0, v => d.embed (x.token v) (x.position v)
  | l + 1, v => d.layer l (nodeState x l v)
      ((Multiset.range x.len).map (x.cached l) + (x.sees v).val.map (nodeState x l))

/-- What a node sees is its path: the positions go up one by one from the end of the prefix, and a
node on the path sees no more than the node does. -/
structure Rows.Path (x : Rows T S) (v : ℕ) : Prop where
  self_mem : v ∈ x.sees v
  subset : ∀ c ∈ x.sees v, x.sees c ⊆ x.sees v
  le_position : ∀ c ∈ x.sees v, x.len ≤ x.position c
  positions : ∀ c ∈ x.sees v, (x.sees c).val.map x.position =
    (Multiset.range (x.position c + 1 - x.len)).map (x.len + ·)

variable {x : Rows T S}

/-- **The state of a node is that of the sequence along its path.** -/
theorem nodeState_eq (seq : ℕ → T) {v : ℕ} (hpath : x.Path v)
    (hcached : ∀ l < d.numLayers, ∀ i < x.len, x.cached l i = d.state seq l i)
    (htoken : ∀ c ∈ x.sees v, x.token c = seq (x.position c)) {l : ℕ} (hl : l ≤ d.numLayers) :
    d.nodeState x l v = d.state seq l (x.position v) := by
  have hall : ∀ l ≤ d.numLayers, ∀ c ∈ x.sees v,
      d.nodeState x l c = d.state seq l (x.position c) := by
    intro l
    induction l with
    | zero =>
      intro _ c hc
      rw [nodeState, state, htoken c hc]
    | succ l ih =>
      intro hl c hc
      have hprefix : (Multiset.range x.len).map (x.cached l) =
          (Multiset.range x.len).map (d.state seq l) :=
        Multiset.map_congr rfl fun i hi => hcached l hl i (Multiset.mem_range.mp hi)
      have hnodes : (x.sees c).val.map (d.nodeState x l) =
          ((x.sees c).val.map x.position).map (d.state seq l) := by
        rw [Multiset.map_map]
        exact Multiset.map_congr rfl fun e he => ih (by omega) e (hpath.subset c hc he)
      have hle := hpath.le_position c hc
      rw [nodeState, state, ih (by omega) c hc, hprefix, hnodes, hpath.positions c hc,
        ← Multiset.map_add, ← Multiset.range_add]
      rw [show x.len + (x.position c + 1 - x.len) = x.position c + 1 by omega]
  exact hall l hl v hpath.self_mem

end Decoder

/-! ### The paths of a tree of parents -/

section
open SiblingLists
variable {parent : ℕ → Option ℕ}

theorem exists_parent {v : ℕ} (hv : Above parent v 0) (hpos : 0 < v) :
    ∃ p, parent v = some p ∧ Above parent p 0 := by
  rcases hv.cases_head with rfl | ⟨p, hp, habove⟩
  · exact absurd hpos (lt_irrefl 0)
  · exact ⟨p, hp, habove⟩

variable (hlt : ∀ i p, parent i = some p → p < i)
include hlt

/-- The depths along the path of a node that hangs from the root. -/
theorem map_depth_climb {v : ℕ} (hv : Above parent v 0) :
    (climb parent v v ++ [0]).map (depth parent) = (List.range (depth parent v + 1)).reverse := by
  induction v using Nat.strong_induction_on with
  | _ v ih =>
    rcases Nat.eq_zero_or_pos v with rfl | hpos
    · rfl
    · obtain ⟨p, hp, habove⟩ := exists_parent hv hpos
      have hpv := hlt v p hp
      obtain ⟨j, rfl⟩ : ∃ j, v = j + 1 := ⟨v - 1, by omega⟩
      rw [climb_succ (Nat.succ_ne_zero j), hp, Option.map_some, Option.getD_some,
        climb_of_le hlt (Nat.lt_succ_iff.mp hpv), List.cons_append, List.map_cons, ih p hpv habove,
        depth_of_parent hlt hp, List.range_succ (n := depth parent p + 1), List.reverse_append]
      rfl

/-- **The nodes above a node that hangs from the root** have the depths up to its own, each once. -/
theorem map_depth_above {v n : ℕ} (hv : Above parent v 0) (hn : v < n) {s : Finset ℕ}
    (hs : ∀ c, c ∈ s ↔ c < n ∧ (c = 0 ∨ Above parent v c)) :
    s.val.map (depth parent) = Multiset.range (depth parent v + 1) := by
  have hmap := map_depth_climb hlt hv
  have hnodup : (climb parent v v ++ [0]).Nodup := by
    refine List.Nodup.of_map (depth parent) ?_
    rw [hmap]
    exact List.nodup_reverse.mpr List.nodup_range
  have hval : s.val = (climb parent v v ++ [0] : List ℕ) := by
    refine (Multiset.Nodup.ext s.nodup (Multiset.coe_nodup.mpr hnodup)).mpr fun c => ?_
    rw [Finset.mem_val, hs, Multiset.mem_coe, List.mem_append, mem_climb hlt, List.mem_singleton]
    constructor
    · rintro ⟨-, rfl | habove⟩
      · exact .inr rfl
      · rcases Nat.eq_zero_or_pos c with rfl | hpos
        · exact .inr rfl
        · exact .inl ⟨hpos.ne', habove⟩
    · rintro (⟨-, habove⟩ | rfl)
      · exact ⟨(above_le hlt habove).trans_lt hn, .inr habove⟩
      · exact ⟨Nat.zero_lt_of_lt hn, .inl rfl⟩
  rw [hval, Multiset.map_coe, hmap, Multiset.coe_reverse]
  rfl

end

end TreeDecoder
