import LatentSpec.DrawLaw

/-! # Rounds that keep a law

A generator works in rounds.  A round looks at the runs of tokens that the rounds before have
committed and commits another one, drawn with a law of its own.  A round **keeps** the law of a
target when committing its run and letting the target continue is the target's own law
(`KeepsLaw`).  Then so do any number of rounds, whatever each of them makes of the history
(`drawExp_agree`), and when every round commits a token, the first tokens of the output have exactly
the target's law (`real_output`).
-/
namespace RoundLaw
open MeasureTheory Set ChainLaw DrawLaw

variable {T K : Type*}

/-! ### Continuing a run -/

section Agree
variable [CommSemiring K] [DecidableEq T]

/-- The probability that the run `c`, continued by the conditional `P`, starts with `y` or agrees
with it as far as `y` goes. -/
def agree (P : List T → T → K) : List T → List T → List T → K
  | _, [], _ => 1
  | pre, t :: y, [] => seqProb P pre (t :: y)
  | pre, t :: y, s :: c => if s = t then agree P (pre ++ [s]) y c else 0

variable (P : List T → T → K)

@[simp] theorem agree_nil_left (pre c : List T) : agree P pre [] c = 1 := by
  cases c <;> rfl

@[simp] theorem agree_nil_right (pre y : List T) : agree P pre y [] = seqProb P pre y := by
  cases y <;> rfl

theorem agree_cons (pre : List T) (t : T) (y : List T) (s : T) (c : List T) :
    agree P pre (t :: y) (s :: c) = if s = t then agree P (pre ++ [s]) y c else 0 := rfl

/-- A run that is long enough leaves nothing to chance. -/
theorem agree_of_length_le {pre y c : List T} (h : y.length ≤ c.length) :
    agree P pre y c = if y <+: c then 1 else 0 := by
  induction y generalizing pre c with
  | nil => rw [agree_nil_left, if_pos (List.nil_prefix)]
  | cons t y ih =>
    cases c with
    | nil => exact absurd h (by simp)
    | cons s c =>
      rw [agree_cons, ih (Nat.le_of_succ_le_succ h)]
      by_cases hst : s = t
      · subst hst
        rw [if_pos rfl]
        exact if_congr (List.prefix_cons_inj s).symm rfl rfl
      · rw [if_neg hst, if_neg fun hpre => hst (List.cons_prefix_cons.mp hpre).1.symm]

omit [DecidableEq T] in
/-- A step of a tree of tokens: one token is drawn, and what happens behind it agrees as it
should. -/
theorem sum_agree_cons [Fintype T] {pre y : List T} (hsum : ∑ t, P pre t = 1) (f : T → K)
    (hf : ∀ t y', y = t :: y' → f t = seqProb P (pre ++ [t]) y') (hnil : y = [] → ∀ t, f t = 1)
    (hne : ∀ t s y', y = s :: y' → s ≠ t → f t = 0) :
    ∑ t, P pre t * f t = seqProb P pre y := by
  cases y with
  | nil => simp only [hnil rfl, mul_one, hsum, seqProb_nil]
  | cons s y =>
    rw [Finset.sum_eq_single s, seqProb_cons, hf s y rfl]
    · intro t _ hts
      rw [hne t s y rfl (Ne.symm hts), mul_zero]
    · exact fun h => absurd (Finset.mem_univ s) h

/-- One token of the target. -/
theorem sum_agree_singleton [Fintype T] {pre : List T} (hsum : ∑ t, P pre t = 1) (y : List T) :
    ∑ t, P pre t * agree P pre y [t] = seqProb P pre y := by
  refine sum_agree_cons P hsum (fun t => agree P pre y [t]) (fun t y' hy => ?_) (fun hy t => ?_)
    fun t s y' hy hne => ?_
  · rw [hy, agree_cons, if_pos rfl, agree_nil_right]
  · rw [hy, agree_nil_left]
  · rw [hy, agree_cons, if_neg (Ne.symm hne)]

end Agree

/-! ### Runs of bounded length -/

/-- The runs of at most `N` tokens. -/
abbrev BoundedRun (N : ℕ) (T : Type*) : Type _ := Σ k : Fin (N + 1), (Fin k → T)

namespace BoundedRun
variable {N : ℕ}

def toList (c : BoundedRun N T) : List T := List.ofFn c.2

theorem toList_injective : Function.Injective (toList : BoundedRun N T → List T) := by
  rintro ⟨⟨k, hk⟩, x⟩ ⟨⟨l, hl⟩, y⟩ h
  have hlen : k = l := by simpa [toList] using congrArg List.length h
  subst hlen
  have hxy : x = y := List.ofFn_injective h
  rw [hxy]

/-- The run of a list. -/
def ofList (c : List T) (h : c.length ≤ N) : BoundedRun N T :=
  ⟨⟨c.length, Nat.lt_succ_of_le h⟩, c.get⟩

@[simp] theorem toList_ofList (c : List T) (h : c.length ≤ N) : (ofList c h).toList = c :=
  List.ofFn_get c

theorem ofList_eq_iff {c : List T} (h : c.length ≤ N) (r : BoundedRun N T) :
    ofList c h = r ↔ c = r.toList := by
  rw [← toList_injective.eq_iff, toList_ofList]

/-- A sum over runs, by the first token. -/
theorem sum_succ [Fintype T] [AddCommMonoid K] (g : List T → K) :
    ∑ c : BoundedRun (N + 1) T, g c.toList =
      g [] + ∑ t, ∑ c : BoundedRun N T, g (t :: c.toList) := by
  have hzero : ∑ x : Fin 0 → T, g (List.ofFn x) = g [] := Fintype.sum_unique _
  have hsucc : ∀ k : ℕ, ∑ x : Fin (k + 1) → T, g (List.ofFn x) =
      ∑ t, ∑ x : Fin k → T, g (t :: List.ofFn x) := by
    intro k
    rw [← (Fin.consEquiv fun _ => T).sum_comp, Fintype.sum_prod_type]
    refine Finset.sum_congr rfl fun t _ => Finset.sum_congr rfl fun x _ => congrArg g ?_
    simp [List.ofFn_succ]
  rw [Fintype.sum_sigma, Fin.sum_univ_succ]
  refine congrArg₂ (· + ·) hzero ?_
  simp only [Fintype.sum_sigma]
  rw [Finset.sum_comm]
  exact Finset.sum_congr rfl fun k _ => hsucc k

end BoundedRun

/-! ### Rounds -/

section Rounds
variable {N : ℕ}

/-- The tokens that some rounds have committed. -/
def output (runs : List (BoundedRun N T)) : List T := runs.flatMap BoundedRun.toList

theorem output_concat (runs : List (BoundedRun N T)) (c : BoundedRun N T) :
    output (runs ++ [c]) = output runs ++ c.toList := by
  simp [output]

/-- Rounds that commit a token each. -/
theorem length_le_output {runs : List (BoundedRun N T)} (h : ∀ c ∈ runs, c.toList ≠ []) :
    runs.length ≤ (output runs).length := by
  induction runs with
  | nil => exact le_rfl
  | cons c runs ih =>
    have hc := List.length_pos_iff.mpr (h c List.mem_cons_self)
    have hrest := ih fun c' hc' => h c' (List.mem_cons_of_mem c hc')
    show runs.length + 1 ≤ (c.toList ++ output runs).length
    rw [List.length_append]
    omega

variable [CommSemiring K] [DecidableEq T] [Fintype T]

/-- Every round keeps the law of `P`: its run, continued by `P`, has the law of `P` behind what was
committed before. -/
def KeepsLaw (P : List T → T → K) (start : List T)
    (Q : List (BoundedRun N T) → BoundedRun N T → K) : Prop :=
  ∀ runs y, ∑ c, Q runs c * agree P (start ++ output runs) y c.toList =
    seqProb P (start ++ output runs) y

variable {P : List T → T → K} {start : List T} {Q : List (BoundedRun N T) → BoundedRun N T → K}

theorem KeepsLaw.sum_eq_one (h : KeepsLaw P start Q) (runs : List (BoundedRun N T)) :
    ∑ c, Q runs c = 1 := by
  have := h runs []
  simpa using this

/-- What rounds that keep the law make of a run that has been committed before them. -/
theorem KeepsLaw.drawExp_agree_append (h : KeepsLaw P start Q) {R : ℕ}
    (hR : ∀ runs y, drawExp Q R runs (fun x => agree P (start ++ output runs) y (output x)) =
      seqProb P (start ++ output runs) y)
    (c pre y : List T) {runs : List (BoundedRun N T)} (hpre : start ++ output runs = pre ++ c) :
    drawExp Q R runs (fun x => agree P pre y (c ++ output x)) = agree P pre y c := by
  induction c generalizing pre y with
  | nil =>
    rw [List.append_nil] at hpre
    subst hpre
    rw [agree_nil_right]
    exact hR runs y
  | cons s c ih =>
    cases y with
    | nil =>
      simp only [agree_nil_left]
      exact drawExp_const h.sum_eq_one R runs 1
    | cons t y =>
      simp only [List.cons_append, agree_cons]
      by_cases hst : s = t
      · simp only [if_pos hst]
        exact ih (pre ++ [s]) y (by simpa using hpre)
      · simp only [if_neg hst]
        exact drawExp_const h.sum_eq_one R runs 0

/-- **Rounds compose.**  After any number of rounds, the output continued by `P` has the law
of `P`. -/
theorem KeepsLaw.drawExp_agree (h : KeepsLaw P start Q) (R : ℕ) (runs : List (BoundedRun N T))
    (y : List T) :
    drawExp Q R runs (fun x => agree P (start ++ output runs) y (output x)) =
      seqProb P (start ++ output runs) y := by
  induction R generalizing runs y with
  | zero => exact agree_nil_right P _ y
  | succ R ih =>
    have hround : ∀ c, drawExp Q R (runs ++ [c])
        (fun x => agree P (start ++ output runs) y (output (c :: x))) =
          agree P (start ++ output runs) y c.toList := by
      intro c
      refine h.drawExp_agree_append ih c.toList (start ++ output runs) y ?_
      rw [output_concat, List.append_assoc]
    rw [drawExp, Finset.sum_congr rfl fun c _ => congrArg (Q runs c * ·) (hround c)]
    exact h runs y

end Rounds

/-! ### The law of the output -/

section Output
variable [DecidableEq T] [Fintype T] {N : ℕ} {Ω : Type*} [MeasurableSpace Ω] {μ : Measure Ω}
variable [IsProbabilityMeasure μ] {P : List T → T → ℝ} {start : List T}
variable {Q : List (BoundedRun N T) → BoundedRun N T → ℝ}
variable {pick : List (BoundedRun N T) → Ω → BoundedRun N T}

/-- **The first tokens of the output have the law of the target**, when every round draws its run
from fresh draws, keeps the law and commits at least one token. -/
theorem real_output (hfollows : Follows μ pick Q) (hkeeps : KeepsLaw P start Q)
    (hne : ∀ runs ω, (pick runs ω).toList ≠ []) {R : ℕ} {y : List T} (hy : y.length ≤ R) :
    (Measure.pi fun _ : Fin R => μ).real
        {ω | y <+: output (seqDraw pick [] (List.ofFn ω))} = seqProb P start y := by
  have hlong : ∀ ω : Fin R → Ω, y.length ≤ (output (seqDraw pick [] (List.ofFn ω))).length := by
    intro ω
    refine hy.trans (le_trans ?_ (length_le_output (mem_seqDraw hne [] (List.ofFn ω))))
    rw [length_seqDraw, List.length_ofFn]
  have hlaw := hkeeps.drawExp_agree R [] y
  rw [show output ([] : List (BoundedRun N T)) = [] from rfl, List.append_nil] at hlaw
  rw [← hlaw]
  exact pi_real_setOf_seqDraw hfollows R [] (fun x => y <+: output x) fun ω =>
    agree_of_length_le P (hlong ω)

end Output

end RoundLaw
