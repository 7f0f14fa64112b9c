import Mathlib.Algebra.Order.Ring.Nat

/-! # Leading runs and cumulative products

A tensor program counts how many leading tests of a row pass by turning the
tests into zeros and ones, taking cumulative products and adding them up.
`leadingRun` is that count, `sum_cumprod` the equation between the two, and
`leadingRun_eq_iff` the characterisation every user needs: the first `k` tests
pass and the next one, if there is one, fails.
-/
namespace LeadingRun

/-- The number of leading tests that pass. -/
def leadingRun : List Bool → ℕ
  | [] => 0
  | true :: bs => leadingRun bs + 1
  | false :: _ => 0

/-- The running products of a list, started from `c`. -/
def cumprodFrom (c : ℕ) : List ℕ → List ℕ
  | [] => []
  | x :: xs => (c * x) :: cumprodFrom (c * x) xs

/-- Cumulative products, `torch.cumprod`. -/
def cumprod (xs : List ℕ) : List ℕ := cumprodFrom 1 xs

theorem sum_cumprodFrom_zero (xs : List ℕ) : (cumprodFrom 0 xs).sum = 0 := by
  induction xs with
  | nil => rfl
  | cons x xs ih => simp [cumprodFrom, ih]

/-- **Adding up the cumulative products of a row of tests counts its leading
run.** -/
theorem sum_cumprod (bs : List Bool) : (cumprod (bs.map Bool.toNat)).sum = leadingRun bs := by
  unfold cumprod
  induction bs with
  | nil => rfl
  | cons b bs ih =>
    cases b with
    | false => simp [cumprodFrom, leadingRun, sum_cumprodFrom_zero]
    | true =>
      simp only [List.map_cons, Bool.toNat_true, cumprodFrom, mul_one, List.sum_cons, ih,
        leadingRun]
      omega

theorem length_cumprodFrom (c : ℕ) (xs : List ℕ) : (cumprodFrom c xs).length = xs.length := by
  induction xs generalizing c with
  | nil => rfl
  | cons x xs ih => rw [cumprodFrom, List.length_cons, List.length_cons, ih]

@[simp] theorem length_cumprod (xs : List ℕ) : (cumprod xs).length = xs.length :=
  length_cumprodFrom 1 xs

theorem cumprodFrom_ne_zero {c k : ℕ} {bs : List Bool} :
    ((cumprodFrom c (bs.map Bool.toNat)).map (· != 0))[k]? = some true ↔
      c ≠ 0 ∧ k < bs.length ∧ ∀ j ≤ k, bs[j]? = some true := by
  induction bs generalizing c k with
  | nil => simp [cumprodFrom]
  | cons b bs ih =>
    have hstep : c * b.toNat ≠ 0 ↔ c ≠ 0 ∧ b = true := by cases b <;> simp
    rw [List.map_cons, cumprodFrom, List.map_cons]
    cases k with
    | zero =>
      rw [List.getElem?_cons_zero, Option.some.injEq, bne_iff_ne, hstep]
      simp
    | succ k =>
      rw [List.getElem?_cons_succ, ih, hstep, List.length_cons, Nat.succ_lt_succ_iff]
      constructor
      · rintro ⟨⟨hc, hb⟩, hk, h⟩
        refine ⟨hc, hk, fun j hj => ?_⟩
        cases j with
        | zero => rw [List.getElem?_cons_zero, hb]
        | succ j => exact h j (Nat.le_of_succ_le_succ hj)
      · rintro ⟨hc, hk, h⟩
        exact ⟨⟨hc, Option.some.inj (h 0 (Nat.zero_le _))⟩, hk,
          fun j hj => h (j + 1) (Nat.succ_le_succ hj)⟩

/-- A cumulative product of tests is not zero where every test up to there passes. -/
theorem cumprod_ne_zero {k : ℕ} {bs : List Bool} :
    ((cumprod (bs.map Bool.toNat)).map (· != 0))[k]? = some true ↔
      k < bs.length ∧ ∀ j ≤ k, bs[j]? = some true := by
  rw [cumprod, cumprodFrom_ne_zero, and_iff_right Nat.one_ne_zero]

/-! ### The length of a run -/

theorem leadingRun_le_length (bs : List Bool) : leadingRun bs ≤ bs.length := by
  induction bs with
  | nil => exact Nat.le_refl 0
  | cons b bs ih =>
    cases b with
    | false => exact Nat.zero_le _
    | true => simpa [leadingRun] using ih

/-- One more test extends the run when everything before it passed. -/
theorem leadingRun_concat (bs : List Bool) (b : Bool) :
    leadingRun (bs ++ [b]) =
      if leadingRun bs = bs.length ∧ b = true then leadingRun bs + 1 else leadingRun bs := by
  induction bs with
  | nil => cases b <;> rfl
  | cons a bs ih =>
    cases a with
    | false => simp [leadingRun]
    | true =>
      simp only [List.cons_append, leadingRun, ih, List.length_cons, Nat.add_right_cancel_iff]
      split <;> rfl

/-- The first `k` tests pass, and test `k` does not. -/
theorem leadingRun_eq_iff {bs : List Bool} {k : ℕ} :
    leadingRun bs = k ↔ (∀ i, i < k → bs[i]? = some true) ∧ bs[k]? ≠ some true := by
  induction bs generalizing k with
  | nil =>
    constructor
    · rintro rfl
      exact ⟨fun i hi => absurd hi (Nat.not_lt_zero i), by simp⟩
    · rintro ⟨h, -⟩
      cases k with
      | zero => rfl
      | succ k => simpa using h 0 (Nat.succ_pos k)
  | cons b bs ih =>
    cases b with
    | false =>
      constructor
      · rintro rfl
        exact ⟨fun i hi => absurd hi (Nat.not_lt_zero i), by simp [leadingRun]⟩
      · rintro ⟨h, -⟩
        cases k with
        | zero => rfl
        | succ k => simpa using h 0 (Nat.succ_pos k)
    | true =>
      cases k with
      | zero => simp [leadingRun]
      | succ k =>
        rw [leadingRun, Nat.add_right_cancel_iff, ih]
        constructor
        · rintro ⟨hpass, hfail⟩
          refine ⟨fun i hi => ?_, by simpa using hfail⟩
          cases i with
          | zero => rfl
          | succ i => simpa using hpass i (by omega)
        · rintro ⟨hpass, hfail⟩
          exact ⟨fun i hi => by simpa using hpass (i + 1) (by omega), by simpa using hfail⟩

/-- Looking at the first `k` tests only caps the run. -/
theorem leadingRun_take (bs : List Bool) (k : ℕ) :
    leadingRun (bs.take k) = min (leadingRun bs) k := by
  induction bs generalizing k with
  | nil => simp [leadingRun]
  | cons b bs ih =>
    cases k with
    | zero => simp [leadingRun]
    | succ k =>
      cases b with
      | false => simp [leadingRun]
      | true => rw [List.take_succ_cons, leadingRun, leadingRun, ih, Nat.add_min_add_right]

theorem getElem?_of_lt_leadingRun {bs : List Bool} {i : ℕ} (h : i < leadingRun bs) :
    bs[i]? = some true :=
  (leadingRun_eq_iff.mp rfl).1 i h

theorem getElem?_leadingRun_ne (bs : List Bool) : bs[leadingRun bs]? ≠ some true :=
  (leadingRun_eq_iff.mp rfl).2

end LeadingRun
