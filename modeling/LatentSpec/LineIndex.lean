import Mathlib.Data.List.Forall2

/-! # Lines and their offsets

A text is a list of symbols in which one symbol ends a line; the last line need not be ended.
`offsets` are the positions where the lines start, from which each line can be read again
(`firstLine_drop_offsets`).  `locate_flatten` finds an entry of a concatenation by the cumulative
lengths of its parts.
-/
namespace LineIndex

section Lines
variable {α : Type*} [DecidableEq α] (sep : α)

/-- The symbols up to the first separator, which is the line's last one. -/
def firstLine : List α → List α
  | [] => []
  | a :: xs => if a = sep then [a] else a :: firstLine xs

def splitLines : List α → List (List α)
  | [] => []
  | a :: xs =>
    if a = sep then [a] :: splitLines xs
    else
      match splitLines xs with
      | [] => [[a]]
      | line :: lines => (a :: line) :: lines

/-- The starts of lines that stand one after the other from `pos` on. -/
def offsets : ℕ → List (List α) → List ℕ
  | _, [] => []
  | pos, line :: lines => pos :: offsets (pos + line.length) lines

variable {sep}

theorem firstLine_eq_nil_iff {xs : List α} : firstLine sep xs = [] ↔ xs = [] := by
  cases xs with
  | nil => simp [firstLine]
  | cons a xs =>
    simp only [firstLine]
    split <;> simp

theorem length_firstLine_le (xs : List α) : (firstLine sep xs).length ≤ xs.length := by
  induction xs with
  | nil => simp [firstLine]
  | cons a xs ih =>
    simp only [firstLine]
    split
    · simp
    · simpa using ih

theorem splitLines_eq_nil_iff {xs : List α} : splitLines sep xs = [] ↔ xs = [] := by
  cases xs with
  | nil => simp [splitLines]
  | cons a xs =>
    simp only [splitLines]
    split
    · simp
    · split <;> simp

/-- The lines are the first line and the lines of the rest. -/
theorem splitLines_eq {xs : List α} (h : xs ≠ []) :
    splitLines sep xs =
      firstLine sep xs :: splitLines sep (xs.drop (firstLine sep xs).length) := by
  induction xs with
  | nil => exact absurd rfl h
  | cons a xs ih =>
    by_cases ha : a = sep
    · simp [splitLines, firstLine, ha]
    · rw [splitLines, firstLine, if_neg ha, if_neg ha, List.length_cons, List.drop_succ_cons]
      cases xs with
      | nil => simp [splitLines, firstLine]
      | cons b xs => rw [ih (List.cons_ne_nil b xs)]

/-- **Each line can be read at its offset.** -/
theorem firstLine_drop_offsets (sep : α) (xs : List α) (pos : ℕ) :
    List.Forall₂ (fun start line => start < xs.length ∧ firstLine sep (xs.drop start) = line)
      (offsets pos (splitLines sep (xs.drop pos))) (splitLines sep (xs.drop pos)) := by
  by_cases hrest : xs.drop pos = []
  · rw [splitLines_eq_nil_iff.2 hrest]
    exact .nil
  · have hlt : pos < xs.length := by
      by_contra hge
      exact hrest (List.drop_eq_nil_of_le (by omega))
    have hline : firstLine sep (xs.drop pos) ≠ [] := fun h => hrest (firstLine_eq_nil_iff.1 h)
    have hpos : 0 < (firstLine sep (xs.drop pos)).length := List.length_pos_iff.2 hline
    rw [splitLines_eq hrest, List.drop_drop, offsets]
    exact .cons ⟨hlt, rfl⟩
      (firstLine_drop_offsets sep xs (pos + (firstLine sep (xs.drop pos)).length))
termination_by xs.length - pos

theorem exists_offset {xs line : List α} {i : ℕ} (h : (splitLines sep xs)[i]? = some line) :
    ∃ start, (offsets 0 (splitLines sep xs))[i]? = some start ∧ start < xs.length ∧
      firstLine sep (xs.drop start) = line := by
  have hread := firstLine_drop_offsets sep xs 0
  rw [List.drop_zero] at hread
  obtain ⟨hi, rfl⟩ := List.getElem?_eq_some_iff.1 h
  have hi' : i < (offsets 0 (splitLines sep xs)).length := hread.length_eq ▸ hi
  exact ⟨_, List.getElem?_eq_getElem hi', hread.get hi' hi⟩

end Lines

section Parts
variable {α : Type*}

/-- The lengths of the first parts of a concatenation, from `c` on. -/
def cumulative (c : ℕ) (parts : List (List α)) : List ℕ :=
  (parts.map List.length).scanl (· + ·) c

theorem cumulative_cons (c : ℕ) (part : List α) (parts : List (List α)) :
    cumulative c (part :: parts) = c :: cumulative (c + part.length) parts := by
  simp [cumulative]

/-- **An entry of a concatenation** is in the last part that starts at or before it. -/
theorem locate_flatten {parts : List (List α)} {c idx : ℕ} (hc : c ≤ idx)
    (hidx : idx < c + parts.flatten.length) :
    ∃ f start part, ((cumulative c parts).takeWhile (· ≤ idx)).length = f + 1 ∧
      (cumulative c parts)[f]? = some start ∧ start ≤ idx ∧ parts[f]? = some part ∧
      part[idx - start]? = parts.flatten[idx - c]? := by
  induction parts generalizing c with
  | nil =>
    simp only [List.flatten_nil, List.length_nil] at hidx
    omega
  | cons part parts ih =>
    rw [cumulative_cons, List.takeWhile_cons_of_pos (by simpa using hc), List.flatten_cons]
    rcases Nat.lt_or_ge idx (c + part.length) with hlt | hge
    · -- the next part starts behind the entry
      have hstop : ((cumulative (c + part.length) parts).takeWhile (· ≤ idx)).length = 0 := by
        cases parts with
        | nil => simp [cumulative, hlt]
        | cons next parts => simp [cumulative_cons, hlt]
      refine ⟨0, c, part, by rw [List.length_cons, hstop], rfl, hc, rfl, ?_⟩
      rw [List.getElem?_append_left (by omega)]
    · obtain ⟨f, start, part', hcount, hstart, hle, hpart, hentry⟩ := ih hge (by
        rw [List.flatten_cons, List.length_append] at hidx
        omega)
      refine ⟨f + 1, start, part', by rw [List.length_cons, hcount], by simpa using hstart, hle,
        by simpa using hpart, ?_⟩
      rw [hentry, List.getElem?_append_right (by omega), Nat.sub_sub]

end Parts
end LineIndex
