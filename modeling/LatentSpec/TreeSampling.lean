import LatentSpec.RoundLaw

/-! # Sampling down a tree of tokens

A tree of proposed tokens is walked from a node with one draw for each node: the draw of a
node goes on to one of its children or stops there, and where the walk stops, or has no room left,
one more token is drawn.  When the draw goes on to a child with the target's probability of its
token, and stopping leaves the other tokens what is theirs (`Exact`), the tokens of the walk have
the law `law` (`real_run`), which keeps the law of the target (`sum_law_agree`).

A walk goes to larger nodes only, so it reads each draw once and its events are boxes.
-/
namespace TreeSampling
open MeasureTheory Set ChainLaw RoundLaw

variable {T U Ω : Type*}

/-! ### Boxes of draws -/

section Boxes

/-- The draws as a stream; what lies past the last one is never looked at. -/
def stream [Inhabited U] {n : ℕ} (d : Fin n → U) (i : ℕ) : U :=
  if h : i < n then d ⟨i, h⟩ else default

theorem stream_of_lt [Inhabited U] {n i : ℕ} (d : Fin n → U) (h : i < n) : stream d i = d ⟨i, h⟩ :=
  dif_pos h

/-- The law of `n` independent draws. -/
noncomputable def draws [MeasurableSpace U] (μ : Measure U) (n : ℕ) : Measure (Fin n → U) :=
  Measure.pi fun _ => μ

instance [MeasurableSpace U] (μ : Measure U) [IsProbabilityMeasure μ] (n : ℕ) :
    IsProbabilityMeasure (draws μ n) := by
  unfold draws
  infer_instance

theorem draws_real_box [MeasurableSpace U] (μ : Measure U) [IsProbabilityMeasure μ] {n : ℕ}
    (s : Fin n → Set U) : (draws μ n).real (univ.pi s) = ∏ i, μ.real (s i) := by
  simp only [Measure.real, draws, Measure.pi_pi, ENNReal.toReal_prod]

/-- A box of draws: a side for the draw of each node, and one for the draw that closes the run. -/
structure Box (U Ω : Type*) where
  side : ℕ → Set U
  last : Set Ω

/-- The draws in a box. -/
def Box.set (b : Box U Ω) (n : ℕ) : Set ((Fin n → U) × Ω) :=
  (univ.pi fun i : Fin n => b.side i) ×ˢ b.last

/-- The box that looks at the closing draw only. -/
def Box.closing (F : Set Ω) : Box U Ω := ⟨fun _ => univ, F⟩

/-- A box with another side for one draw. -/
def Box.update (b : Box U Ω) (v : ℕ) (A : Set U) : Box U Ω :=
  { b with side := Function.update b.side v A }

@[simp] theorem Box.update_side_self (b : Box U Ω) (v : ℕ) (A : Set U) :
    (b.update v A).side v = A := Function.update_self v _ _

@[simp] theorem Box.update_side_of_ne (b : Box U Ω) {v i : ℕ} (h : i ≠ v) (A : Set U) :
    (b.update v A).side i = b.side i := Function.update_of_ne h _ _

theorem Box.mem_closing {F : Set Ω} {n : ℕ} {d : (Fin n → U) × Ω} :
    d ∈ (Box.closing F).set n ↔ d.2 ∈ F := by
  simp [Box.set, Box.closing]

variable [MeasurableSpace U] [MeasurableSpace Ω]

/-- A box that looks at the draws from a node on only. -/
structure Box.From (b : Box U Ω) (v : ℕ) : Prop where
  before : ∀ i < v, b.side i = univ
  measurable_side : ∀ i, MeasurableSet (b.side i)
  measurable_last : MeasurableSet b.last

theorem Box.from_closing {F : Set Ω} (h : MeasurableSet F) (v : ℕ) :
    (Box.closing F : Box U Ω).From v :=
  ⟨fun _ _ => rfl, fun _ => MeasurableSet.univ, h⟩

theorem Box.From.measurableSet {b : Box U Ω} {v : ℕ} (h : b.From v) (n : ℕ) :
    MeasurableSet (b.set n) := by
  unfold Box.set
  exact (MeasurableSet.univ_pi fun i : Fin n => h.measurable_side i).prod h.measurable_last

theorem Box.From.update {b : Box U Ω} {v w : ℕ} (h : b.From w) (hvw : v < w) {A : Set U}
    (hA : MeasurableSet A) : (b.update v A).From v := by
  refine ⟨fun i hi => ?_, fun i => ?_, h.measurable_last⟩
  · rw [Box.update_side_of_ne b hi.ne]
    exact h.before i (hi.trans hvw)
  · rcases eq_or_ne i v with rfl | hne
    · rw [Box.update_side_self]
      exact hA
    · rw [Box.update_side_of_ne b hne]
      exact h.measurable_side i

theorem Box.From.mem_update [Inhabited U] {b : Box U Ω} {v w n : ℕ} (h : b.From w)
    (hvw : v < w) (hv : v < n)
    {A : Set U} {d : (Fin n → U) × Ω} :
    d ∈ (b.update v A).set n ↔ stream d.1 v ∈ A ∧ d ∈ b.set n := by
  rw [stream_of_lt d.1 hv]
  simp only [Box.set, mem_prod, mem_univ_pi]
  constructor
  · rintro ⟨hsides, hlast⟩
    have hself := hsides ⟨v, hv⟩
    rw [Box.update_side_self] at hself
    refine ⟨hself, fun i => ?_, hlast⟩
    rcases eq_or_ne (i : ℕ) v with hi | hi
    · rw [hi, h.before v hvw]
      exact mem_univ _
    · rw [← Box.update_side_of_ne b hi A]
      exact hsides i
  · rintro ⟨hself, hsides, hlast⟩
    refine ⟨fun i => ?_, hlast⟩
    rcases eq_or_ne (i : ℕ) v with hi | hi
    · obtain rfl : i = ⟨v, hv⟩ := Fin.ext hi
      rw [Box.update_side_self]
      exact hself
    · rw [Box.update_side_of_ne b hi]
      exact hsides i

variable {μ : Measure U} [IsProbabilityMeasure μ] {ν : Measure Ω} [IsProbabilityMeasure ν]

theorem Box.real_set (b : Box U Ω) (n : ℕ) :
    ((draws μ n).prod ν).real (b.set n) =
      (∏ i ∈ Finset.range n, μ.real (b.side i)) * ν.real b.last := by
  rw [Box.set, measureReal_prod_prod, draws_real_box,
    Fin.prod_univ_eq_prod_range (fun i => μ.real (b.side i)) n]

theorem Box.real_closing (F : Set Ω) (n : ℕ) :
    ((draws μ n).prod ν).real ((Box.closing F).set n) = ν.real F := by
  have hside : ∀ i ∈ Finset.range n, μ.real ((Box.closing F).side i) = 1 :=
    fun i _ => probReal_univ
  rw [Box.real_set, Finset.prod_eq_one hside, one_mul]
  rfl

/-- A draw that was not looked at is looked at. -/
theorem Box.From.real_update {b : Box U Ω} {v w n : ℕ} (h : b.From w) (hvw : v < w) (hv : v < n)
    (A : Set U) : ((draws μ n).prod ν).real ((b.update v A).set n) =
      μ.real A * ((draws μ n).prod ν).real (b.set n) := by
  have hmem := Finset.mem_range.mpr hv
  have hrest : ∀ i ∈ (Finset.range n).erase v,
      μ.real ((b.update v A).side i) = μ.real (b.side i) := by
    intro i hi
    rw [Box.update_side_of_ne b (Finset.ne_of_mem_erase hi)]
  have hone : μ.real (b.side v) = 1 := by rw [h.before v hvw, probReal_univ]
  rw [Box.real_set, Box.real_set, ← Finset.mul_prod_erase _ _ hmem, Finset.prod_congr rfl hrest,
    Box.update_side_self, ← Finset.mul_prod_erase _ (fun i => μ.real (b.side i)) hmem, hone,
    one_mul, mul_assoc]
  rfl

/-- The event `s` is a box of the draws from a node on, and `p` is its probability. -/
def Boxed (μ : Measure U) (ν : Measure Ω) (n v : ℕ) (s : Set ((Fin n → U) × Ω)) (p : ℝ) : Prop :=
  ∃ b : Box U Ω, b.From v ∧ s = b.set n ∧ ((draws μ n).prod ν).real s = p

namespace Boxed
variable {n v : ℕ} {s : Set ((Fin n → U) × Ω)} {p : ℝ}

omit [IsProbabilityMeasure μ] [IsProbabilityMeasure ν] in
theorem real_eq (h : Boxed μ ν n v s p) : ((draws μ n).prod ν).real s = p := by
  obtain ⟨_, -, -, hreal⟩ := h
  exact hreal

omit [IsProbabilityMeasure μ] [IsProbabilityMeasure ν] in
theorem measurableSet (h : Boxed μ ν n v s p) : MeasurableSet s := by
  obtain ⟨b, hb, rfl, -⟩ := h
  exact hb.measurableSet n

theorem closing {F : Set Ω} (hF : MeasurableSet F) (v : ℕ) :
    Boxed μ ν n v {d | d.2 ∈ F} (ν.real F) := by
  have hset : {d : (Fin n → U) × Ω | d.2 ∈ F} = (Box.closing F).set n := by
    ext d
    exact Box.mem_closing.symm
  refine ⟨.closing F, Box.from_closing hF v, hset, ?_⟩
  rw [hset, Box.real_closing]

theorem of_forall_notMem (h : ∀ d, d ∉ s) (v : ℕ) : Boxed μ ν n v s 0 := by
  have hempty : s = {d : (Fin n → U) × Ω | d.2 ∈ (∅ : Set Ω)} := by
    ext d
    exact iff_of_false (h d) (notMem_empty _)
  rw [hempty, ← measureReal_empty (μ := ν)]
  exact closing MeasurableSet.empty v

/-- One more draw is looked at. -/
theorem update [Inhabited U] {w : ℕ} (h : Boxed μ ν n w s p) (hvw : v < w) (hv : v < n) {A : Set U}
    (hA : MeasurableSet A) :
    Boxed μ ν n v {d | stream d.1 v ∈ A ∧ d ∈ s} (μ.real A * p) := by
  obtain ⟨b, hb, rfl, rfl⟩ := h
  have hset : {d : (Fin n → U) × Ω | stream d.1 v ∈ A ∧ d ∈ b.set n} = (b.update v A).set n := by
    ext d
    exact (hb.mem_update hvw hv).symm
  refine ⟨b.update v A, hb.update hvw hA, hset, ?_⟩
  rw [hset, hb.real_update hvw hv]

end Boxed

end Boxes

/-! ### Trees -/

/-- A tree of tokens.  `path` are the tokens up to a node, the node included; `choose` is the child
that the draw of a node goes on to, and `close` the last token of a run that ends at a node, with
or without room for one more. -/
structure CoinTree (T U Ω : Type*) where
  kids : ℕ → List ℕ
  token : ℕ → T
  path : ℕ → List T
  choose : ℕ → U → Option ℕ
  close : ℕ → Bool → Ω → T

namespace CoinTree
variable (t : CoinTree T U Ω)

/-- The run from a node down at most `fuel` children, and the token that closes it. -/
def run : ℕ → ℕ → (ℕ → U) → Ω → List T
  | 0, v, _, ω => [t.close v true ω]
  | fuel + 1, v, u, ω =>
    match t.choose v (u v) with
    | some c => t.token c :: run fuel c u ω
    | none => [t.close v false ω]

theorem length_run_le (fuel v : ℕ) (u : ℕ → U) (ω : Ω) :
    (t.run fuel v u ω).length ≤ fuel + 1 := by
  induction fuel generalizing v with
  | zero => exact le_rfl
  | succ fuel ih =>
    rw [run]
    cases t.choose v (u v) with
    | none => exact Nat.le_add_left 1 _
    | some c => exact Nat.succ_le_succ (ih c)

theorem run_ne_nil (fuel v : ℕ) (u : ℕ → U) (ω : Ω) : t.run fuel v u ω ≠ [] := by
  cases fuel with
  | zero => exact List.cons_ne_nil _ _
  | succ fuel =>
    rw [run]
    cases t.choose v (u v) with
    | none => exact List.cons_ne_nil _ _
    | some c => exact List.cons_ne_nil _ _

/-- A run of one token has stopped. -/
theorem run_succ_eq_singleton {fuel v : ℕ} {u : ℕ → U} {ω : Ω} {s : T} :
    t.run (fuel + 1) v u ω = [s] ↔ t.choose v (u v) = none ∧ t.close v false ω = s := by
  rw [run]
  cases t.choose v (u v) with
  | none => simp
  | some k => simp [t.run_ne_nil]

/-- A run of more tokens has gone on to a child. -/
theorem run_succ_eq_cons {fuel v : ℕ} {u : ℕ → U} {ω : Ω} {s s' : T} {c : List T} :
    t.run (fuel + 1) v u ω = s :: s' :: c ↔
      ∃ k, t.choose v (u v) = some k ∧ t.token k = s ∧ t.run fuel k u ω = s' :: c := by
  rw [run]
  cases t.choose v (u v) with
  | none => simp
  | some k => simp

section Law
variable [DecidableEq T]

/-- The child with a token. -/
def child (v : ℕ) (s : T) : Option ℕ := (t.kids v).find? fun c => decide (t.token c = s)

/-- The probability of a run. -/
def law (P : List T → T → ℝ) : ℕ → ℕ → List T → ℝ
  | _, _, [] => 0
  | 0, v, s :: c => if c = [] then P (t.path v) s else 0
  | fuel + 1, v, s :: c =>
    match t.child v s with
    | some k => P (t.path v) s * law P fuel k c
    | none => if c = [] then P (t.path v) s else 0

@[simp] theorem law_nil (P : List T → T → ℝ) (fuel v : ℕ) : t.law P fuel v [] = 0 := by
  cases fuel <;> rfl

theorem law_succ_singleton (P : List T → T → ℝ) (fuel v : ℕ) (s : T) :
    t.law P (fuel + 1) v [s] = if t.child v s = none then P (t.path v) s else 0 := by
  rw [law]
  cases t.child v s with
  | none => simp
  | some k => simp

/-- The children of a node come behind it, with its tokens and one more each, all different. -/
structure Grows (n : ℕ) : Prop where
  kids_mem : ∀ v, ∀ c ∈ t.kids v, v < c ∧ c < n
  path_kid : ∀ v, ∀ c ∈ t.kids v, t.path c = t.path v ++ [t.token c]
  distinct : ∀ v, ∀ c ∈ t.kids v, ∀ c' ∈ t.kids v, t.token c = t.token c' → c = c'

variable {t}

theorem mem_of_child {v c : ℕ} {s : T} (h : t.child v s = some c) :
    c ∈ t.kids v ∧ t.token c = s := by
  rw [child] at h
  have hpass := List.find?_some h
  exact ⟨List.mem_of_find?_eq_some h, of_decide_eq_true hpass⟩

theorem child_eq_none {v : ℕ} {s : T} : t.child v s = none ↔ ∀ c ∈ t.kids v, t.token c ≠ s := by
  rw [child, List.find?_eq_none]
  simp

/-- A run of one token. -/
theorem sum_closed_agree [Fintype T] (P : List T → T → ℝ) (pre y : List T) (s : T) (N : ℕ) :
    ∑ c : BoundedRun N T, (if c.toList = [] then P pre s else 0) * agree P pre y (s :: c.toList) =
      P pre s * agree P pre y [s] := by
  rw [Finset.sum_eq_single (BoundedRun.ofList [] (Nat.zero_le N))]
  · rw [BoundedRun.toList_ofList, if_pos rfl]
  · intro c _ hc
    have hne : c.toList ≠ [] := fun h =>
      hc ((BoundedRun.ofList_eq_iff (Nat.zero_le N) c).mpr h.symm).symm
    rw [if_neg hne, zero_mul]
  · exact fun h => absurd (Finset.mem_univ _) h

/-- What agrees with `y` behind a first token `s`. -/
noncomputable def agreeBehind [Fintype T] (t : CoinTree T U Ω) (P : List T → T → ℝ) (fuel v : ℕ)
    (y : List T) (s : T) : ℝ :=
  match t.child v s with
  | some k => ∑ c : BoundedRun (fuel + 1) T,
      t.law P fuel k c.toList * agree P (t.path v) y (s :: c.toList)
  | none => agree P (t.path v) y [s]

theorem sum_law_cons [Fintype T] (P : List T → T → ℝ) (fuel v : ℕ) (y : List T) (s : T) :
    ∑ c : BoundedRun (fuel + 1) T,
      t.law P (fuel + 1) v (s :: c.toList) * agree P (t.path v) y (s :: c.toList) =
        P (t.path v) s * t.agreeBehind P fuel v y s := by
  cases hchild : t.child v s with
  | none =>
    simp only [law, agreeBehind, hchild]
    exact sum_closed_agree P (t.path v) y s (fuel + 1)
  | some k =>
    simp only [law, agreeBehind, hchild, Finset.mul_sum, mul_assoc]

section Behind
variable [Fintype T] {P : List T → T → ℝ} {fuel : ℕ}

/-- The law of the runs of `fuel` children keeps the law of the target. -/
def Keeps (t : CoinTree T U Ω) (P : List T → T → ℝ) (fuel : ℕ) : Prop :=
  ∀ v y, ∑ c : BoundedRun (fuel + 1) T, t.law P fuel v c.toList * agree P (t.path v) y c.toList =
    seqProb P (t.path v) y

theorem agreeBehind_nil (h : t.Keeps P fuel) (v : ℕ) (s : T) : t.agreeBehind P fuel v [] s = 1 := by
  cases hchild : t.child v s with
  | none => simp only [agreeBehind, hchild, agree_nil_left]
  | some k =>
    have hone := h k []
    simp only [agree_nil_left, seqProb_nil] at hone
    simp only [agreeBehind, hchild, agree_nil_left]
    exact hone

theorem agreeBehind_cons_self {n : ℕ} (hgrows : t.Grows n) (h : t.Keeps P fuel) (v : ℕ) (s : T)
    (y : List T) : t.agreeBehind P fuel v (s :: y) s = seqProb P (t.path v ++ [s]) y := by
  cases hchild : t.child v s with
  | none => simp only [agreeBehind, hchild, agree_cons, if_true, agree_nil_right]
  | some k =>
    obtain ⟨hmem, htoken⟩ := mem_of_child hchild
    have hpath : t.path k = t.path v ++ [s] := by rw [hgrows.path_kid v k hmem, htoken]
    simp only [agreeBehind, hchild, agree_cons, if_true, ← hpath]
    exact h k y

theorem agreeBehind_cons_of_ne (v : ℕ) {s s' : T} (hne : s' ≠ s) (y : List T) :
    t.agreeBehind P fuel v (s' :: y) s = 0 := by
  cases hchild : t.child v s with
  | none => simp only [agreeBehind, hchild, agree_cons, if_neg (Ne.symm hne)]
  | some k =>
    simp only [agreeBehind, hchild, agree_cons, if_neg (Ne.symm hne), mul_zero,
      Finset.sum_const_zero]

end Behind

/-- **The law of the runs keeps the law of the target.** -/
theorem sum_law_agree [Fintype T] {n : ℕ} (h : t.Grows n) {P : List T → T → ℝ}
    (hP : ∀ pre, ∑ s, P pre s = 1) (fuel : ℕ) : t.Keeps P fuel := by
  induction fuel with
  | zero =>
    intro v y
    rw [BoundedRun.sum_succ fun c => t.law P 0 v c * agree P (t.path v) y c, law_nil, zero_mul,
      zero_add]
    refine (Finset.sum_congr rfl fun s _ => sum_closed_agree P (t.path v) y s 0).trans ?_
    exact sum_agree_singleton P (hP _) y
  | succ fuel ih =>
    intro v y
    rw [BoundedRun.sum_succ fun c => t.law P (fuel + 1) v c * agree P (t.path v) y c, law_nil,
      zero_mul, zero_add, Finset.sum_congr rfl fun s _ => sum_law_cons P fuel v y s]
    refine sum_agree_cons P (hP _) (t.agreeBehind P fuel v y) (fun s y' hy => ?_) (fun hy s => ?_)
      fun s s' y' hy hne => ?_
    · rw [hy]
      exact agreeBehind_cons_self h ih v s y'
    · rw [hy]
      exact agreeBehind_nil ih v s
    · rw [hy]
      exact agreeBehind_cons_of_ne v hne y'

end Law

/-! ### The law of a walk -/

section Walk
variable [DecidableEq T] [MeasurableSpace U] [MeasurableSpace Ω]

/-- The draws of a tree are those of the target: the draw of a node goes on to a child with the
probability of its token, stopping leaves each other token what is its own, and a run that has no
room left is closed by the target. -/
structure Exact (t : CoinTree T U Ω) (P : List T → T → ℝ) (n : ℕ) (μ : Measure U)
    (ν : Measure Ω) : Prop where
  grows : t.Grows n
  choose_mem : ∀ v u c, t.choose v u = some c → c ∈ t.kids v
  measurable_choose : ∀ v o, MeasurableSet {u | t.choose v u = o}
  measurable_close : ∀ v full s, MeasurableSet {ω | t.close v full ω = s}
  go_on : ∀ v < n, ∀ c ∈ t.kids v,
    μ.real {u | t.choose v u = some c} = P (t.path v) (t.token c)
  stop : ∀ v < n, ∀ s, μ.real {u | t.choose v u = none} * ν.real {ω | t.close v false ω = s} =
    if t.child v s = none then P (t.path v) s else 0
  full : ∀ v < n, ∀ s, ν.real {ω | t.close v true ω = s} = P (t.path v) s

variable [Inhabited U] {μ : Measure U} [IsProbabilityMeasure μ] {ν : Measure Ω}
variable [IsProbabilityMeasure ν] {t : CoinTree T U Ω} {P : List T → T → ℝ} {n : ℕ}

/-- A walk with no room left. -/
theorem Exact.boxed_zero (h : t.Exact P n μ ν) {v : ℕ} (hv : v < n) (c : List T) :
    Boxed μ ν n v {d | t.run 0 v (stream d.1) d.2 = c} (t.law P 0 v c) := by
  cases c with
  | nil =>
    rw [law_nil]
    exact .of_forall_notMem (fun d => t.run_ne_nil 0 v _ _) v
  | cons s c =>
    cases c with
    | nil =>
      have hset : {d : (Fin n → U) × Ω | t.run 0 v (stream d.1) d.2 = [s]} =
          {d | d.2 ∈ {ω | t.close v true ω = s}} := by
        ext d
        exact List.singleton_inj
      rw [hset, law, if_pos rfl, ← h.full v hv s]
      exact .closing (h.measurable_close v true s) v
    | cons s' c =>
      rw [law, if_neg (List.cons_ne_nil s' c)]
      refine .of_forall_notMem (fun d hd => ?_) v
      have hlen := congrArg List.length hd
      simp [run] at hlen

/-- A walk that stops at once. -/
theorem Exact.boxed_stop (h : t.Exact P n μ ν) (fuel : ℕ) {v : ℕ} (hv : v < n) (s : T) :
    Boxed μ ν n v {d | t.run (fuel + 1) v (stream d.1) d.2 = [s]}
      (if t.child v s = none then P (t.path v) s else 0) := by
  have hset : {d : (Fin n → U) × Ω | t.run (fuel + 1) v (stream d.1) d.2 = [s]} =
      {d | stream d.1 v ∈ {u | t.choose v u = none} ∧
        d ∈ {d : (Fin n → U) × Ω | d.2 ∈ {ω | t.close v false ω = s}}} := by
    ext d
    exact t.run_succ_eq_singleton
  rw [hset, ← h.stop v hv s]
  exact (Boxed.closing (h.measurable_close v false s) (v + 1)).update v.lt_succ_self hv
    (h.measurable_choose v none)

/-- A walk that goes on to the child with the token `s`. -/
theorem Exact.boxed_cons (h : t.Exact P n μ ν) {fuel v k : ℕ} (hv : v < n) {s s' : T} {c : List T}
    {p : ℝ} (hchild : t.child v s = some k)
    (hbox : Boxed μ ν n k {d | t.run fuel k (stream d.1) d.2 = s' :: c} p) :
    Boxed μ ν n v {d | t.run (fuel + 1) v (stream d.1) d.2 = s :: s' :: c}
      (P (t.path v) s * p) := by
  obtain ⟨hmem, htoken⟩ := mem_of_child hchild
  have hset : {d : (Fin n → U) × Ω | t.run (fuel + 1) v (stream d.1) d.2 = s :: s' :: c} =
      {d | stream d.1 v ∈ {u | t.choose v u = some k} ∧
        d ∈ {d : (Fin n → U) × Ω | t.run fuel k (stream d.1) d.2 = s' :: c}} := by
    ext d
    rw [mem_ofPred_eq, run_succ_eq_cons]
    constructor
    · rintro ⟨k', hchoose, hs, hrest⟩
      have hmem' := h.choose_mem v _ k' hchoose
      obtain rfl := h.grows.distinct v k' hmem' k hmem (hs.trans htoken.symm)
      exact ⟨hchoose, hrest⟩
    · rintro ⟨hchoose, hrest⟩
      exact ⟨k, hchoose, htoken, hrest⟩
  rw [hset, ← htoken, ← h.go_on v hv k hmem]
  exact hbox.update (h.grows.kids_mem v k hmem).1 hv (h.measurable_choose v (some k))

/-- **A walk is a box**, and as likely as its law says. -/
theorem boxed_run (h : t.Exact P n μ ν) (fuel : ℕ) {v : ℕ} (hv : v < n) (c : List T) :
    Boxed μ ν n v {d | t.run fuel v (stream d.1) d.2 = c} (t.law P fuel v c) := by
  induction fuel generalizing v c with
  | zero => exact h.boxed_zero hv c
  | succ fuel ih =>
    cases c with
    | nil =>
      rw [law_nil]
      exact .of_forall_notMem (fun d => t.run_ne_nil _ v _ _) v
    | cons s c =>
      cases c with
      | nil =>
        rw [law_succ_singleton]
        exact h.boxed_stop fuel hv s
      | cons s' c =>
        cases hchild : t.child v s with
        | none =>
          rw [law, hchild]
          refine .of_forall_notMem (fun d hd => ?_) v
          obtain ⟨k, hchoose, htoken, -⟩ := t.run_succ_eq_cons.mp hd
          exact child_eq_none.mp hchild k (h.choose_mem v _ k hchoose) htoken
        | some k =>
          rw [law, hchild]
          have hkn := (h.grows.kids_mem v k (mem_of_child hchild).1).2
          exact h.boxed_cons hv hchild (ih hkn (s' :: c))

/-- **The law of a walk.** -/
theorem real_run (h : t.Exact P n μ ν) (fuel : ℕ) {v : ℕ} (hv : v < n) (c : List T) :
    ((draws μ n).prod ν).real {d | t.run fuel v (stream d.1) d.2 = c} = t.law P fuel v c :=
  (boxed_run h fuel hv c).real_eq

theorem measurableSet_run (h : t.Exact P n μ ν) (fuel : ℕ) {v : ℕ} (hv : v < n) (c : List T) :
    MeasurableSet {d : (Fin n → U) × Ω | t.run fuel v (stream d.1) d.2 = c} :=
  (boxed_run h fuel hv c).measurableSet

end Walk

end CoinTree

/-! ### Rounds of walks -/

section Rounds
variable [DecidableEq T] [Inhabited U] {fuel : ℕ}

/-- A round: the tree that is made of the history is walked from its root. -/
def round (tree : List (BoundedRun (fuel + 1) T) → CoinTree T U Ω) {n : ℕ}
    (runs : List (BoundedRun (fuel + 1) T)) (d : (Fin n → U) × Ω) : BoundedRun (fuel + 1) T :=
  .ofList ((tree runs).run fuel 0 (stream d.1) d.2) ((tree runs).length_run_le fuel 0 _ _)

variable [Fintype T] [MeasurableSpace U] [MeasurableSpace Ω] {μ : Measure U}
variable [IsProbabilityMeasure μ] {ν : Measure Ω} [IsProbabilityMeasure ν]
variable {tree : List (BoundedRun (fuel + 1) T) → CoinTree T U Ω} {P : List T → T → ℝ} {n : ℕ}
variable {start : List T}

/-- **Rounds of walks have the law of the target**, whatever trees are made of the history: with
fresh draws in every round, the first tokens of the output are `y` with the probability that the
target continues `start` with `y`. -/
theorem real_output (hP : ∀ pre, ∑ s, P pre s = 1) (hn : 0 < n)
    (hexact : ∀ runs, (tree runs).Exact P n μ ν)
    (hroot : ∀ runs, (tree runs).path 0 = start ++ output runs) {R : ℕ} {y : List T}
    (hy : y.length ≤ R) :
    (Measure.pi fun _ : Fin R => (draws μ n).prod ν).real
        {ω | y <+: output (DrawLaw.seqDraw (round tree) [] (List.ofFn ω))} = seqProb P start y := by
  have hset : ∀ runs (c : BoundedRun (fuel + 1) T),
      {d : (Fin n → U) × Ω | round tree runs d = c} =
        {d | (tree runs).run fuel 0 (stream d.1) d.2 = c.toList} := by
    intro runs c
    ext d
    exact BoundedRun.ofList_eq_iff _ c
  have hfollows : DrawLaw.Follows ((draws μ n).prod ν) (round tree)
      (fun runs (c : BoundedRun (fuel + 1) T) => (tree runs).law P fuel 0 c.toList) := by
    refine ⟨fun runs c => ?_, fun runs c => ?_⟩
    · rw [hset]
      exact CoinTree.measurableSet_run (hexact runs) fuel hn c.toList
    · rw [hset]
      exact CoinTree.real_run (hexact runs) fuel hn c.toList
  refine RoundLaw.real_output hfollows (fun runs y => ?_) (fun runs d => ?_) hy
  · rw [← hroot runs]
    exact CoinTree.sum_law_agree (hexact runs).grows hP fuel 0 y
  · rw [round, BoundedRun.toList_ofList]
    exact (tree runs).run_ne_nil fuel 0 _ _

end Rounds

end TreeSampling
