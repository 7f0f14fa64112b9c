import Mathlib.Order.Lattice
import Mathlib.Order.Defs.LinearOrder

/-! # A ladder walked by two thresholds

A controller stands on a rung of a ladder and moves by a measurement.  It walks down while the
measurement is low for the rung it is on, and, when it did not move down, up while the measurement
is high.  `settle` is that move.  The measurement that sends the rung above down must not be one
that sends this rung up again: then a second move with the same measurement stays where the first
one ended (`settle_settle`), and thresholds that leave a gap have this property (`Apart.of_le`).
-/
namespace ThresholdLadder

/-- `while i > 0 and cond(i): i -= 1` -/
def lowerWhile (cond : ℕ → Bool) : ℕ → ℕ
  | 0 => 0
  | i + 1 => if cond (i + 1) then lowerWhile cond i else i + 1

/-- `while i < last and cond(i): i += 1`, with `room` rungs left up to the last one. -/
def raiseWhile (cond : ℕ → Bool) : (room i : ℕ) → ℕ
  | 0, i => i
  | room + 1, i => if cond i then raiseWhile cond room (i + 1) else i

/-- Down, or else up. -/
def settle (falls rises : ℕ → Bool) (last i : ℕ) : ℕ :=
  let j := lowerWhile falls i
  if j < i then j else raiseWhile rises (last - j) j

variable {cond falls rises : ℕ → Bool} {last : ℕ}

/-! ### The two walks -/

theorem lowerWhile_le (cond : ℕ → Bool) (i : ℕ) : lowerWhile cond i ≤ i := by
  induction i with
  | zero => exact Nat.le_refl 0
  | succ i ih =>
    unfold lowerWhile
    split
    · exact ih.trans (Nat.le_succ i)
    · exact Nat.le_refl _

/-- It stops at the bottom or where the condition fails. -/
theorem lowerWhile_stop (cond : ℕ → Bool) (i : ℕ) :
    lowerWhile cond i = 0 ∨ cond (lowerWhile cond i) = false := by
  induction i with
  | zero => exact Or.inl rfl
  | succ i ih =>
    unfold lowerWhile
    split
    · exact ih
    · exact Or.inr (Bool.eq_false_of_not_eq_true (by assumption))

/-- Every rung it left had the condition. -/
theorem cond_of_lowerWhile_lt {i : ℕ} :
    ∀ {k : ℕ}, lowerWhile cond i < k → k ≤ i → cond k = true := by
  induction i with
  | zero =>
    intro k hk hki
    exact absurd hk (by omega)
  | succ i ih =>
    intro k hk hki
    unfold lowerWhile at hk
    split at hk
    · rename_i hcond
      rcases Nat.lt_or_ge i k with h | h
      · have hk' : k = i + 1 := by omega
        rw [hk']
        exact hcond
      · exact ih hk h
    · omega

theorem lowerWhile_of_stop {i : ℕ} (h : i = 0 ∨ cond i = false) : lowerWhile cond i = i := by
  cases i with
  | zero => rfl
  | succ i =>
    have hcond : cond (i + 1) = false := h.resolve_left (Nat.succ_ne_zero i)
    unfold lowerWhile
    rw [hcond]
    rfl

theorem le_raiseWhile (cond : ℕ → Bool) (room i : ℕ) : i ≤ raiseWhile cond room i := by
  induction room generalizing i with
  | zero => exact Nat.le_refl i
  | succ room ih =>
    unfold raiseWhile
    split
    · exact (Nat.le_succ i).trans (ih (i + 1))
    · exact Nat.le_refl i

theorem raiseWhile_le (cond : ℕ → Bool) (room i : ℕ) : raiseWhile cond room i ≤ i + room := by
  induction room generalizing i with
  | zero => exact Nat.le_refl i
  | succ room ih =>
    unfold raiseWhile
    split
    · have := ih (i + 1)
      omega
    · omega

/-- It stops at the top or where the condition fails. -/
theorem raiseWhile_stop (cond : ℕ → Bool) (room i : ℕ) :
    raiseWhile cond room i = i + room ∨ cond (raiseWhile cond room i) = false := by
  induction room generalizing i with
  | zero => exact Or.inl rfl
  | succ room ih =>
    unfold raiseWhile
    split
    · rcases ih (i + 1) with h | h
      · exact Or.inl (by omega)
      · exact Or.inr h
    · exact Or.inr (Bool.eq_false_of_not_eq_true (by assumption))

/-- Every rung it left had the condition. -/
theorem cond_of_lt_raiseWhile {room i : ℕ} :
    ∀ {k : ℕ}, i ≤ k → k < raiseWhile cond room i → cond k = true := by
  induction room generalizing i with
  | zero =>
    intro k hik hk
    exact absurd hk (Nat.not_lt.mpr hik)
  | succ room ih =>
    intro k hik hk
    unfold raiseWhile at hk
    split at hk
    · rename_i hcond
      rcases Nat.eq_or_lt_of_le hik with rfl | h
      · exact hcond
      · exact ih h hk
    · exact absurd hk (Nat.not_lt.mpr hik)

theorem raiseWhile_of_stop {room i : ℕ} (h : room = 0 ∨ cond i = false) :
    raiseWhile cond room i = i := by
  cases room with
  | zero => rfl
  | succ room =>
    have hcond : cond i = false := h.resolve_left (Nat.succ_ne_zero room)
    unfold raiseWhile
    rw [hcond]
    rfl

/-! ### The move -/

theorem settle_le {i : ℕ} (hi : i ≤ last) : settle falls rises last i ≤ last := by
  have hlower := lowerWhile_le falls i
  have hraise := raiseWhile_le rises (last - lowerWhile falls i) (lowerWhile falls i)
  unfold settle
  dsimp only
  split
  · omega
  · omega

/-- A rung that neither condition makes it leave. -/
structure Rests (falls rises : ℕ → Bool) (last i : ℕ) : Prop where
  down : i = 0 ∨ falls i = false
  up : i = last ∨ rises i = false

theorem Rests.settle {i : ℕ} (h : Rests falls rises last i) : settle falls rises last i = i := by
  unfold ThresholdLadder.settle
  dsimp only
  rw [lowerWhile_of_stop h.down, if_neg (Nat.lt_irrefl i)]
  apply raiseWhile_of_stop
  rcases h.up with rfl | hrises
  · exact Or.inl (Nat.sub_self i)
  · exact Or.inr hrises

/-- What sends a rung down does not send the rung below up. -/
def Apart (falls rises : ℕ → Bool) (last : ℕ) : Prop :=
  ∀ i < last, falls (i + 1) = true → rises i = false

/-- **The move ends on a rung it rests on.** -/
theorem rests_settle (hapart : Apart falls rises last) {i : ℕ} (hi : i ≤ last) :
    Rests falls rises last (settle falls rises last i) := by
  have hle := lowerWhile_le falls i
  unfold settle
  dsimp only
  split
  · rename_i hlt
    -- it came down from the rung above the one it stopped on
    have habove : falls (lowerWhile falls i + 1) = true :=
      cond_of_lowerWhile_lt (Nat.lt_succ_self _) hlt
    exact ⟨lowerWhile_stop falls i, Or.inr (hapart _ (by omega) habove)⟩
  · rename_i hnlt
    have hstay : lowerWhile falls i = i := by omega
    have hstop := lowerWhile_stop falls i
    rw [hstay] at hstop ⊢
    have hge := le_raiseWhile rises (last - i) i
    have htop := raiseWhile_le rises (last - i) i
    constructor
    · rcases Nat.eq_or_lt_of_le hge with heq | hlt
      · rw [← heq]
        exact hstop
      · right
        -- it came up from the rung below, which would not have risen had this one to fall
        obtain ⟨k, hk⟩ := Nat.exists_eq_add_one_of_ne_zero (Nat.ne_zero_of_lt hlt)
        have hbelow : rises k = true :=
          cond_of_lt_raiseWhile (by omega : i ≤ k) (by omega : k < raiseWhile rises (last - i) i)
        rw [hk]
        by_contra hfalls
        have hno := hapart k (by omega) (Bool.eq_true_of_not_eq_false hfalls)
        rw [hbelow] at hno
        cases hno
    · rcases raiseWhile_stop rises (last - i) i with h | h
      · exact Or.inl (by omega)
      · exact Or.inr h

/-- **A second move with the same measurement moves nothing.** -/
theorem settle_settle (hapart : Apart falls rises last) {i : ℕ} (hi : i ≤ last) :
    settle falls rises last (settle falls rises last i) = settle falls rises last i :=
  (rests_settle hapart hi).settle

/-- Thresholds with a gap: the measurement `e` sends rung `i + 1` down only at or below `down i`,
and rung `i` up only above `up i`. -/
theorem Apart.of_le {K : Type*} [LinearOrder K] {e : K} {down up : ℕ → K}
    (hfalls : ∀ i, falls (i + 1) = true → e ≤ down i) (hrises : ∀ i, rises i = true → up i < e)
    (hle : ∀ i < last, down i ≤ up i) : Apart falls rises last := by
  intro i hi hfall
  apply Bool.eq_false_of_not_eq_true
  intro hrise
  have hlt : e < e := (hfalls i hfall).trans (hle i hi) |>.trans_lt (hrises i hrise)
  exact lt_irrefl e hlt

end ThresholdLadder
