import Mathlib.Algebra.BigOperators.Ring.Finset
import Mathlib.Algebra.Order.BigOperators.Group.Finset
import Mathlib.Tactic.Linarith
import Mathlib.Tactic.Ring

/-! # The law of a chain of draft-and-verify tests

A chain proposes tokens one after the other from a draft conditional `Q`, tests
each against a target conditional `P`, and stops at the first failure, where it
draws from the residual; when every test passes it draws one more token from `P`.
This module is the exact arithmetic behind such a chain, for any token type and
any ordered field:

* `seqProb P pre y`, the probability that `P` continues `pre` with `y`;
* `drawExp Q n pre f`, the expectation of `f` over `n` tokens drawn one after the
  other from `Q`;
* `runLaw P Q cut n pre c`, the probability that a chain of at most `n` proposals
  emits exactly the run `c`.  The proposal may be cut short by a rule `cut` that
  looks only at the tokens proposed so far.

`sum_runLaw_seqProb` is the exactness of the chain: emitting a run and letting the
target continue it is the target's own law.  `drawExp_runGiven` recovers `runLaw`
from what the chain does once the proposal is fixed, which is the form an
implementation has, and `close_of_test` allows that form to close a run with one
more test.
-/
namespace ChainLaw

variable {T K : Type*}

section Sequences
variable [CommSemiring K]

/-- The probability that the conditional `P` continues `pre` with exactly the
tokens of `y`. -/
def seqProb (P : List T → T → K) : List T → List T → K
  | _, [] => 1
  | pre, t :: y => P pre t * seqProb P (pre ++ [t]) y

@[simp] theorem seqProb_nil (P : List T → T → K) (pre : List T) : seqProb P pre [] = 1 := rfl

theorem seqProb_cons (P : List T → T → K) (pre : List T) (t : T) (y : List T) :
    seqProb P pre (t :: y) = P pre t * seqProb P (pre ++ [t]) y := rfl

variable [Fintype T]

/-- The expectation of `f` over `n` tokens drawn one after the other from `Q`,
each given everything drawn before it. -/
def drawExp (Q : List T → T → K) : ℕ → List T → (List T → K) → K
  | 0, _, f => f []
  | n + 1, pre, f => ∑ t, Q pre t * drawExp Q n (pre ++ [t]) (fun x => f (t :: x))

theorem drawExp_congr {Q : List T → T → K} {n : ℕ} {pre : List T} {f g : List T → K}
    (h : ∀ x, x.length = n → f x = g x) : drawExp Q n pre f = drawExp Q n pre g := by
  induction n generalizing pre f g with
  | zero => exact h [] rfl
  | succ n ih =>
    refine Finset.sum_congr rfl fun t _ => ?_
    rw [ih fun x hx => h (t :: x) (by rw [List.length_cons, hx])]

theorem drawExp_mul_left (Q : List T → T → K) (n : ℕ) (pre : List T) (a : K) (f : List T → K) :
    drawExp Q n pre (fun x => a * f x) = a * drawExp Q n pre f := by
  induction n generalizing pre f with
  | zero => rfl
  | succ n ih =>
    simp only [drawExp, ih, Finset.mul_sum]
    exact Finset.sum_congr rfl fun t _ => by ring

/-- Drawing more tokens than `f` looks at changes nothing. -/
theorem drawExp_const {Q : List T → T → K} (hQ : ∀ pre, ∑ t, Q pre t = 1) (n : ℕ) (pre : List T)
    (a : K) : drawExp Q n pre (fun _ => a) = a := by
  induction n generalizing pre with
  | zero => rfl
  | succ n ih => simp only [drawExp, ih, ← Finset.sum_mul, hQ, one_mul]

end Sequences

/-! ### Overlap and excess of two rows -/

section Rows
variable [Field K] [LinearOrder K]

/-- The part of `p` that lies above `q`: what is left for the residual draw. -/
def excess (p q : T → K) (t : T) : K := max (p t - q t) 0

theorem excess_nonneg (p q : T → K) (t : T) : 0 ≤ excess p q t := le_max_right _ _

variable [IsStrictOrderedRing K]

theorem min_add_excess (p q : T → K) (t : T) : min (p t) (q t) + excess p q t = p t := by
  unfold excess
  rcases le_total (p t) (q t) with h | h
  · rw [min_eq_left h, max_eq_right (by linarith), add_zero]
  · rw [min_eq_right h, max_eq_left (by linarith)]; ring

variable [Fintype T]

/-- Two normalised rows: the mass a test rejects is the mass of the residual. -/
theorem sum_sub_min_eq_sum_excess {p q : T → K} (hp : ∑ t, p t = 1) (hq : ∑ t, q t = 1) :
    ∑ t, (q t - min (p t) (q t)) = ∑ t, excess p q t := by
  have h : ∑ t, min (p t) (q t) + ∑ t, excess p q t = 1 := by
    rw [← Finset.sum_add_distrib, ← hp]
    exact Finset.sum_congr rfl fun t _ => min_add_excess p q t
  rw [Finset.sum_sub_distrib, hq]
  linarith

/-- Normalised rows with no residual are equal. -/
theorem eq_of_sum_excess_eq_zero {p q : T → K} (hp : ∑ t, p t = 1) (hq : ∑ t, q t = 1)
    (h : ∑ t, excess p q t = 0) (t : T) : p t = q t := by
  have hex : ∀ s, excess p q s = 0 := fun s =>
    (Finset.sum_eq_zero_iff_of_nonneg fun s _ => excess_nonneg p q s).mp h s (Finset.mem_univ s)
  have hle : ∀ s, p s ≤ q s := fun s => by
    have := min_add_excess p q s
    rw [hex s, add_zero] at this
    exact min_eq_left_iff.mp this
  have hsum : ∑ s, (q s - p s) = 0 := by rw [Finset.sum_sub_distrib, hp, hq, sub_self]
  have := (Finset.sum_eq_zero_iff_of_nonneg fun s _ => sub_nonneg.mpr (hle s)).mp hsum t
    (Finset.mem_univ t)
  linarith

end Rows

/-! ### The law of the emitted run -/

/-- When the proposal ends at once, only one-token runs are emitted. -/
theorem sum_closed_seqProb [CommSemiring K] (P : List T → T → K) (f : List T → K)
    (pre : List T) (t : T)
    (y : List T) (n : ℕ) (hnil : f [] = 0) (hone : f [t] = P pre t)
    (hmore : ∀ c, c ≠ [] → f (t :: c) = 0) (hy : y.length = n) :
    ∑ m ∈ Finset.range (n + 2), f ((t :: y).take m) *
        seqProb P (pre ++ (t :: y).take m) ((t :: y).drop m) = seqProb P pre (t :: y) := by
  rw [Finset.sum_range_succ', Finset.sum_range_succ']
  have hzero : ∑ m ∈ Finset.range n, f ((t :: y).take (m + 1 + 1)) *
      seqProb P (pre ++ (t :: y).take (m + 1 + 1)) ((t :: y).drop (m + 1 + 1)) = 0 := by
    refine Finset.sum_eq_zero fun m hm => ?_
    have hne : y.take (m + 1) ≠ [] := by
      intro h
      have := congrArg List.length h
      simp only [List.length_take, List.length_nil, hy] at this
      have := Finset.mem_range.mp hm
      omega
    rw [List.take_succ_cons, hmore _ hne, zero_mul]
  rw [hzero]
  simp only [List.take_succ_cons, List.take_zero, List.drop_succ_cons, List.drop_zero, hone, hnil,
    seqProb_cons]
  ring

section Run
variable [Field K] [LinearOrder K]

/-- The probability that a chain emits exactly `c` after `pre`.  At each position
either the proposal ends (no proposal is left, or `cut` fires on the tokens
proposed so far) and the run closes with a target token, or one more token is
tested: it joins the run with the overlap of the two rows, and the run closes
with the excess. -/
def runLaw (P Q : List T → T → K) (cut : List T → Bool) : ℕ → List T → List T → K
  | _, _, [] => 0
  | 0, pre, t :: c => if c = [] then P pre t else 0
  | n + 1, pre, t :: c =>
      if cut pre then if c = [] then P pre t else 0
      else if c = [] then excess (P pre) (Q pre) t
      else min (P pre t) (Q pre t) * runLaw P Q cut n (pre ++ [t]) c

@[simp] theorem runLaw_nil (P Q : List T → T → K) (cut : List T → Bool) (n : ℕ) (pre : List T) :
    runLaw P Q cut n pre [] = 0 := by
  cases n <;> rfl

variable [IsStrictOrderedRing K]

/-- **The chain is exact.**  Emitting a run and letting the target continue is
the target's own law, for every cut rule. -/
theorem sum_runLaw_seqProb (P Q : List T → T → K) (cut : List T → Bool) (n : ℕ) (pre y : List T)
    (hy : y.length = n + 1) :
    ∑ m ∈ Finset.range (n + 2), runLaw P Q cut n pre (y.take m) *
        seqProb P (pre ++ y.take m) (y.drop m) = seqProb P pre y := by
  induction n generalizing pre y with
  | zero =>
    obtain ⟨t, y, rfl⟩ := List.exists_cons_of_length_eq_add_one hy
    refine sum_closed_seqProb P _ pre t y 0 rfl (by simp [runLaw]) (fun c hc => ?_)
      (by simpa using hy)
    simp [runLaw, hc]
  | succ n ih =>
    obtain ⟨t, y, rfl⟩ := List.exists_cons_of_length_eq_add_one hy
    have hyl : y.length = n + 1 := by simpa using hy
    by_cases hcut : cut pre
    · refine sum_closed_seqProb P _ pre t y (n + 1) (by simp) (by simp [runLaw, hcut])
        (fun c hc => ?_) hyl
      simp [runLaw, hcut, hc]
    · have hrec := ih (pre ++ [t]) y hyl
      rw [Finset.sum_range_succ'] at hrec
      simp only [List.take_zero, runLaw_nil, zero_mul, add_zero] at hrec
      rw [Finset.sum_range_succ', Finset.sum_range_succ']
      have htail :
          ∀ m ∈ Finset.range (n + 1), runLaw P Q cut (n + 1) pre ((t :: y).take (m + 1 + 1)) *
          seqProb P (pre ++ (t :: y).take (m + 1 + 1)) ((t :: y).drop (m + 1 + 1)) =
          min (P pre t) (Q pre t) * (runLaw P Q cut n (pre ++ [t]) (y.take (m + 1)) *
            seqProb P (pre ++ [t] ++ y.take (m + 1)) (y.drop (m + 1))) := by
        intro m hm
        have hne : y.take (m + 1) ≠ [] := by
          intro h
          have := congrArg List.length h
          simp only [List.length_take, List.length_nil, hyl] at this
          omega
        simp only [List.take_succ_cons, List.drop_succ_cons, runLaw, hcut, hne, if_false,
          Bool.false_eq_true, List.append_assoc, List.singleton_append]
        ring
      rw [Finset.sum_congr rfl htail, ← Finset.mul_sum, hrec]
      simp only [List.take_succ_cons, List.take_zero, List.drop_succ_cons, List.drop_zero,
        runLaw_nil, zero_mul, add_zero, runLaw, hcut, if_false, if_true, Bool.false_eq_true,
        seqProb_cons]
      rw [← add_mul, min_add_excess]

end Run

/-! ### What a chain does once the proposal is fixed -/

section Given
variable [Field K] [LinearOrder K]
variable (acc res : List T → T → K) (fin : List T → List T → T → K) (cut : List T → Bool)

/-- How many of the proposed tokens `x` are tested: all of them, up to the first
position at which `cut` fires. -/
def kept : List T → List T → ℕ
  | _, [] => 0
  | pre, s :: x => if cut pre then 0 else kept (pre ++ [s]) x + 1

omit [Field K] [LinearOrder K] in
/-- A token already proposed is part of every later cut. -/
theorem kept_cons (t : T) (pre x : List T) :
    kept cut (t :: pre) x = kept (fun xs => cut (t :: xs)) pre x := by
  induction x generalizing pre with
  | nil => rfl
  | cons s x ih => rw [kept, kept, List.cons_append, ih]

omit [Field K] [LinearOrder K] in
theorem kept_le_length (pre x : List T) : kept cut pre x ≤ x.length := by
  induction x generalizing pre with
  | nil => exact Nat.le_refl 0
  | cons s x ih =>
    rw [kept, List.length_cons]
    split
    · exact Nat.zero_le _
    · exact Nat.succ_le_succ (ih _)

omit [Field K] [LinearOrder K] in
/-- A rule that never fires keeps the whole proposal. -/
theorem kept_of_not_cut (h : ∀ pre, cut pre = false) (pre x : List T) :
    kept cut pre x = x.length := by
  induction x generalizing pre with
  | nil => rfl
  | cons s x ih => rw [kept, if_neg (by rw [h]; exact Bool.false_ne_true), ih, List.length_cons]

omit [Field K] [LinearOrder K] in
/-- A rule that fires after `ℓ` tokens keeps at most `ℓ` of them. -/
theorem kept_length (ℓ : ℕ) (pre x : List T) (h : pre.length ≤ ℓ) :
    kept (fun xs => decide (xs.length = ℓ)) pre x = min (ℓ - pre.length) x.length := by
  induction x generalizing pre with
  | nil => simp [kept]
  | cons s x ih =>
    rw [kept, List.length_cons]
    by_cases hcut : pre.length = ℓ
    · rw [if_pos (by simpa using hcut), hcut, Nat.sub_self, Nat.zero_min]
    · rw [if_neg (by simpa using hcut), ih _ (by simp; omega), List.length_append,
        List.length_singleton]
      omega

variable [DecidableEq T]

/-- The probability that the chain emits exactly `c` when the proposal is `x`: the
test at `pre` passes with probability `acc pre s`, a failed one is followed by a
draw from `res pre`, and where the proposal ends the run closes with `fin`, which
may still look at the untested tokens. -/
def runGiven : List T → List T → List T → K
  | _, _, [] => 0
  | pre, [], t :: c => if c = [] then fin pre [] t else 0
  | pre, s :: x, t :: c =>
      if cut pre then if c = [] then fin pre (s :: x) t else 0
      else if c = [] then (1 - acc pre s) * res pre t
      else if s = t then acc pre s * runGiven (pre ++ [s]) x c else 0

/-- The passing probabilities of the successive tests of `x`. -/
def accepts : List T → List T → List K
  | _, [] => []
  | pre, s :: x => acc pre s :: accepts (pre ++ [s]) x

omit [Field K] [LinearOrder K] [DecidableEq T] in
theorem getElem?_accepts (pre x : List T) (i : ℕ) :
    (accepts acc pre x)[i]? = x[i]?.map (acc (pre ++ x.take i)) := by
  induction x generalizing pre i with
  | nil => rfl
  | cons s x ih =>
    cases i with
    | zero => simp [accepts]
    | succ i => simp [accepts, ih]

omit [LinearOrder K] [DecidableEq T] in
theorem getD_accepts (pre : List T) {x : List T} {i : ℕ} (hi : i < x.length) (d : T) :
    (accepts acc pre x).getD i 0 = acc (pre ++ x.take i) (x.getD i d) := by
  have hget : x[i]? = some (x.getD i d) := by
    rw [List.getD_eq_getElem?_getD, List.getElem?_eq_getElem hi]
    rfl
  rw [List.getD_eq_getElem?_getD, getElem?_accepts, hget]
  rfl

omit [LinearOrder K] in
/-- **The emission probability in closed form**: the run is a tested prefix of the
proposal followed by one closing token. -/
theorem runGiven_concat (pre x c : List T) (t : T) :
    runGiven acc res fin cut pre x (c ++ [t]) =
      if c <+: x.take (kept cut pre x) then
        (∏ i ∈ Finset.range c.length, (accepts acc pre x).getD i 0) *
          if c.length < kept cut pre x then
            (1 - (accepts acc pre x).getD c.length 0) * res (pre ++ c) t
          else fin (pre ++ c) (x.drop c.length) t
      else 0 := by
  induction x generalizing pre c with
  | nil =>
    cases c with
    | nil => simp [runGiven, kept]
    | cons a c => simp [runGiven, kept]
  | cons s x ih =>
    by_cases hcut : cut pre
    · cases c with
      | nil => simp [runGiven, kept, hcut]
      | cons a c => simp [runGiven, kept, hcut]
    · cases c with
      | nil => simp [runGiven, kept, hcut, accepts]
      | cons a c =>
        have hne : c ++ [t] ≠ [] := by simp
        simp only [List.cons_append, runGiven, kept, hcut, hne, accepts, if_false,
          Bool.false_eq_true, List.take_succ_cons, List.cons_prefix_cons, List.length_cons,
          Finset.prod_range_succ', List.getD_cons_succ, List.getD_cons_zero, List.drop_succ_cons,
          Nat.add_lt_add_iff_right]
        by_cases hst : s = a
        · subst hst
          rw [if_pos rfl, ih]
          simp only [true_and, List.append_assoc, List.singleton_append]
          split
          · ring
          · rw [mul_zero]
        · rw [if_neg hst, if_neg (fun h => hst h.1.symm)]

variable [Fintype T]

/-- What the tests and the draws of a chain of at most `N` proposals must satisfy
for it to follow `runLaw`: a proposed token passes with the overlap of the two
rows, a rejection draws the excess, and the closing draw has the target's law
however many proposed tokens are left. -/
structure Exact (P Q : List T → T → K) (N : ℕ) : Prop where
  accept : ∀ pre s, pre.length < N → Q pre s * acc pre s = min (P pre s) (Q pre s)
  residual : ∀ pre t, pre.length < N →
    (∑ s, Q pre s * (1 - acc pre s)) * res pre t = excess (P pre) (Q pre) t
  close : ∀ n pre t, pre.length + n ≤ N → drawExp Q n pre (fun x => fin pre x t) = P pre t

variable {acc res fin cut}

/-- **From the fixed proposal to the law of the run**: averaging over proposals
drawn from `Q` gives `runLaw`. -/
theorem drawExp_runGiven {P Q : List T → T → K} {N : ℕ} (hQ : ∀ pre, ∑ t, Q pre t = 1)
    (hx : Exact acc res fin P Q N) (n : ℕ) (pre c : List T) (hn : pre.length + n ≤ N) :
    drawExp Q n pre (fun x => runGiven acc res fin cut pre x c) = runLaw P Q cut n pre c := by
  induction n generalizing pre c with
  | zero =>
    cases c with
    | nil => rfl
    | cons t c =>
      have := hx.close 0 pre t hn
      simp only [drawExp] at this
      simp [drawExp, runGiven, runLaw, this]
  | succ n ih =>
    have hlt : pre.length < N := by omega
    cases c with
    | nil => simpa [runGiven] using drawExp_const hQ (n + 1) pre (0 : K)
    | cons t c =>
      by_cases hcut : cut pre
      · by_cases hc : c = []
        · subst hc
          have := hx.close (n + 1) pre t hn
          simpa [drawExp, runGiven, runLaw, hcut] using this
        · simp only [drawExp, runGiven, runLaw, hcut, hc, if_true, if_false]
          simp [drawExp_const hQ]
      · by_cases hc : c = []
        · subst hc
          simp only [drawExp, runGiven, runLaw, hcut, if_false, if_true, Bool.false_eq_true,
            drawExp_const hQ]
          rw [← hx.residual pre t hlt, Finset.sum_mul]
          exact Finset.sum_congr rfl fun s _ => by ring
        · have hrec :
            drawExp Q n (pre ++ [t]) (fun x => runGiven acc res fin cut (pre ++ [t]) x c) =
              runLaw P Q cut n (pre ++ [t]) c := by
            refine ih (pre ++ [t]) c ?_
            rw [List.length_append, List.length_singleton]
            omega
          simp only [drawExp, runGiven, runLaw, hcut, hc, if_false, Bool.false_eq_true]
          rw [Finset.sum_eq_single t]
          · simp only [if_true, drawExp_mul_left, hrec]
            rw [← hx.accept pre t hlt, mul_assoc]
          · intro s _ hs
            simp [hs, drawExp_const hQ]
          · intro h
            exact absurd (Finset.mem_univ t) h

variable [IsStrictOrderedRing K]

omit [DecidableEq T] in
/-- Testing with the overlap and drawing the normalised excess after a rejection
meets the second requirement of `Exact`. -/
theorem residual_of_accept {p q acc res : T → K} (hp : ∑ t, p t = 1) (hq : ∑ t, q t = 1)
    (hacc : ∀ s, q s * acc s = min (p s) (q s))
    (hres : ∑ t, excess p q t ≠ 0 → ∀ t, res t = excess p q t / ∑ t, excess p q t) (t : T) :
    (∑ s, q s * (1 - acc s)) * res t = excess p q t := by
  have hmass : ∑ s, q s * (1 - acc s) = ∑ s, excess p q s := by
    rw [← sum_sub_min_eq_sum_excess hp hq]
    refine Finset.sum_congr rfl fun s _ => ?_
    rw [mul_sub, mul_one, hacc]
  rw [hmass]
  by_cases h0 : ∑ s, excess p q s = 0
  · rw [h0, zero_mul, excess, eq_of_sum_excess_eq_zero hp hq h0 t, sub_self, max_self]
  · rw [hres h0 t, mul_div_cancel₀ _ h0]

omit [Fintype T] [LinearOrder K] [IsStrictOrderedRing K] in
/-- The closing draw of a chain that tests one more token: the token joins the run if it
passes and is redrawn if not, and with no token left the target is drawn from. -/
def testClose (P acc res : List T → T → K) (pre : List T) : List T → T → K
  | [], t => P pre t
  | s :: _, t => (if s = t then acc pre s else 0) + (1 - acc pre s) * res pre t

/-- Closing with one more test is closing with the target's law. -/
theorem close_of_test {P Q acc res : List T → T → K} (hQ : ∀ pre, ∑ t, Q pre t = 1)
    {pre : List T} {n : ℕ}
    (hacc : 0 < n → ∀ s, Q pre s * acc pre s = min (P pre s) (Q pre s))
    (hres : 0 < n → ∀ t, (∑ s, Q pre s * (1 - acc pre s)) * res pre t = excess (P pre) (Q pre) t)
    (t : T) : drawExp Q n pre (fun x => testClose P acc res pre x t) = P pre t := by
  cases n with
  | zero => rfl
  | succ n =>
    simp only [drawExp, testClose, drawExp_const hQ, mul_add, Finset.sum_add_distrib]
    have hpass : ∑ s, Q pre s * (if s = t then acc pre s else 0) = min (P pre t) (Q pre t) := by
      rw [← hacc n.succ_pos, Finset.sum_eq_single t]
      · rw [if_pos rfl]
      · intro s _ hs
        rw [if_neg hs, mul_zero]
      · intro h
        exact absurd (Finset.mem_univ t) h
    have hfail : ∑ s, Q pre s * ((1 - acc pre s) * res pre t) = excess (P pre) (Q pre) t := by
      rw [← hres n.succ_pos, Finset.sum_mul]
      exact Finset.sum_congr rfl fun s _ => by ring
    rw [hpass, hfail, min_add_excess]

end Given

end ChainLaw
