import Mathlib.Data.List.Infix
import Mathlib.Tactic.Common

/-! # Finding blocks between two markers

`finditer` is the search for `re.escape(opening) + "([\s\S]*?(?:" + re.escape(close) + "|$))"`:
from left to right the places of the opening marker, each with the shortest stretch that ends in
the closing marker or at the end of the text.

A text is a row of blocks: a head, a body and the closing marker; the head of an opened block is
the opening marker.  A marker is a line of its own that starts with a symbol it does not repeat
(`Markers`), so an occurrence of one lies inside a head or a body or is a head or an end
(`NoStart`), and the search finds exactly the opened blocks (`finditer_joined`), also when the last
newline is missing.
-/
namespace DelimitedSearch

variable {α : Type*}

section Search
variable [DecidableEq α]

/-- How far `[\s\S]*?(?:close|$)` goes; `$` is the end, or the place before a newline at the end. -/
def lazyEnd (nl : α) (close : List α) : List α → ℕ
  | [] => 0
  | x :: rest =>
    if close <+: x :: rest then close.length
    else if rest = [] ∧ x = nl then 0
    else lazyEnd nl close rest + 1

/-- The length of the group of a match here.  A match that must advance may not be empty. -/
def matchAt (nl : α) (opening close : List α) (mustAdvance : Bool) (text : List α) : Option ℕ :=
  if opening <+: text then
    let n := lazyEnd nl close (text.drop opening.length)
    if mustAdvance && decide (opening.length + n = 0) then
      match text with
      | [] => none
      | _ :: rest => some (lazyEnd nl close rest + 1)
    else some n
  else none

/-- The group of every match: where it starts and ends. -/
def finditer (nl : α) (opening close : List α) : ℕ → Bool → ℕ → List α → List (ℕ × ℕ)
  | 0, _, _, _ => []
  | fuel + 1, mustAdvance, pos, text =>
    match matchAt nl opening close mustAdvance text with
    | some n =>
      (pos + opening.length, pos + opening.length + n) ::
        finditer nl opening close fuel (decide (opening.length + n = 0)) (pos + opening.length + n)
          (text.drop (opening.length + n))
    | none =>
      if text = [] then [] else finditer nl opening close fuel false (pos + 1) text.tail

end Search

/-! ### Where a marker does not start -/

section Markers
variable {first nl : α} {m xs ys rest : List α}

/-- The marker `m` starts at no place of `xs` when `rest` follows. -/
def NoStart (m : List α) : List α → List α → Prop
  | [], _ => True
  | x :: xs, rest => ¬ m <+: x :: xs ++ rest ∧ NoStart m xs rest

theorem noStart_append (m xs ys rest : List α) :
    NoStart m (xs ++ ys) rest ↔ NoStart m xs (ys ++ rest) ∧ NoStart m ys rest := by
  induction xs with
  | nil => exact ⟨fun h => ⟨trivial, h⟩, fun h => h.2⟩
  | cons x xs ih =>
    rw [List.cons_append, NoStart, NoStart, ih, and_assoc, List.cons_append, List.cons_append,
      List.append_assoc]

theorem noStart_of_forall (h : ∀ c, c <:+ xs → c ≠ [] → ¬ m <+: c ++ rest) : NoStart m xs rest := by
  induction xs with
  | nil => exact trivial
  | cons x xs ih =>
    refine ⟨h _ (List.suffix_refl _) (List.cons_ne_nil x xs), ih fun c hc => ?_⟩
    exact h c (hc.trans (List.suffix_cons x xs))

/-- A prefix of two parts ends in the first or goes on in the second. -/
theorem prefix_append_cases (h : m <+: xs ++ rest) :
    m <+: xs ∨ ∃ t, m = xs ++ t ∧ t <+: rest ∧ t ≠ [] := by
  rcases List.prefix_or_prefix_of_prefix h (List.prefix_append xs rest) with h' | ⟨t, rfl⟩
  · exact Or.inl h'
  · rcases List.eq_nil_or_concat t with rfl | ⟨t', x, rfl⟩
    · rw [List.append_nil]
      exact Or.inl (List.prefix_refl xs)
    · refine Or.inr ⟨_, rfl, (List.prefix_append_right_inj xs).mp h, ?_⟩
      exact List.concat_eq_append ▸ List.concat_ne_nil x t'

theorem infix_of_prefix_suffix {c : List α} (h : m <+: c) (hc : c <:+ xs) : m <:+: xs :=
  h.isInfix.trans hc.isInfix

/-- Before the end of a line: a marker that ran over it would have the newline inside. -/
theorem noStart_of_line (hm : nl ∉ m.dropLast) (hnl : xs.getLast? = some nl) (hno : ¬ m <:+: xs)
    (rest : List α) : NoStart m xs rest := by
  apply noStart_of_forall
  rintro c ⟨d, rfl⟩ hne hpre
  rcases prefix_append_cases hpre with h | ⟨t, rfl, -, ht⟩
  · exact hno (infix_of_prefix_suffix h (List.suffix_append d c))
  · have hmem : nl ∈ c := by
      rw [List.getLast?_append_of_ne_nil d hne] at hnl
      exact List.mem_of_getLast? hnl
    apply hm
    rw [List.dropLast_append_of_ne_nil ht]
    exact List.mem_append_left _ hmem

/-- Before a marker: one that ran into it would repeat its first symbol. -/
theorem noStart_of_head (hm : first ∉ m.tail) (hrest : rest.head? = some first)
    (hno : ¬ m <:+: xs) : NoStart m xs rest := by
  apply noStart_of_forall
  intro c hc hne hpre
  rcases prefix_append_cases hpre with h | ⟨t, rfl, htr, ht⟩
  · exact hno (infix_of_prefix_suffix h hc)
  · have hmem : first ∈ t := by
      obtain ⟨u, rfl⟩ := htr
      rw [List.head?_append_of_ne_nil t ht] at hrest
      exact List.mem_of_head? hrest
    apply hm
    rw [List.tail_append_of_ne_nil hne]
    exact List.mem_append_right _ hmem

/-- Over a marker that starts differently. -/
theorem noStart_of_ne (hm : m.head? = some first) (hxs : first ∉ xs.tail) (h₁ : ¬ m <+: xs)
    (h₂ : ¬ xs <+: m) (rest : List α) : NoStart m xs rest := by
  cases xs with
  | nil => exact trivial
  | cons x xs =>
    constructor
    · intro hpre
      rcases prefix_append_cases hpre with h | ⟨t, rfl, -, -⟩
      · exact h₁ h
      · exact h₂ (List.prefix_append _ t)
    · apply noStart_of_forall
      intro c hc hne hpre
      obtain ⟨y, c, rfl⟩ := List.exists_cons_of_ne_nil hne
      have hhead : m.head? = some y := by
        cases m with
        | nil => cases hm
        | cons z m => rw [(List.cons_prefix_cons.mp hpre).1, List.head?_cons]
      rw [hm] at hhead
      obtain rfl := Option.some.inj hhead
      exact hxs (hc.subset List.mem_cons_self)

end Markers

/-! ### The search -/

section Search
variable [DecidableEq α] {nl : α} {opening close xs rest text : List α}

/-- The group ends with the closing marker. -/
theorem lazyEnd_append (hclose : close ≠ []) (hno : NoStart close xs (close ++ rest)) :
    lazyEnd nl close (xs ++ (close ++ rest)) = xs.length + close.length := by
  induction xs with
  | nil =>
    obtain ⟨x, close, rfl⟩ := List.exists_cons_of_ne_nil hclose
    have hpre : x :: close <+: x :: (close ++ rest) := List.prefix_append (x :: close) rest
    rw [List.nil_append, List.cons_append, lazyEnd, if_pos hpre, List.length_nil, Nat.zero_add]
  | cons x xs ih =>
    have hpre : ¬ close <+: x :: (xs ++ (close ++ rest)) := hno.1
    have hmore : ¬ (xs ++ (close ++ rest) = [] ∧ x = nl) := by
      intro h
      exact hclose (List.append_eq_nil_iff.mp (List.append_eq_nil_iff.mp h.1).2).1
    rw [List.cons_append, lazyEnd, if_neg hpre, if_neg hmore, ih hno.2, List.length_cons]
    omega

/-- Without a closing marker the group runs to the end. -/
theorem lazyEnd_of_noStart (hlast : text.getLast? ≠ some nl) (hno : NoStart close text []) :
    lazyEnd nl close text = text.length := by
  induction text with
  | nil => rfl
  | cons x text ih =>
    have hpre : ¬ close <+: x :: text := by
      have h := hno.1
      rwa [List.append_nil] at h
    have hend : ¬ (text = [] ∧ x = nl) := by
      rintro ⟨rfl, rfl⟩
      exact hlast rfl
    have hlast' : text.getLast? ≠ some nl := by
      cases text with
      | nil => exact fun h => (nomatch h)
      | cons y text => rwa [List.getLast?_cons_cons] at hlast
    rw [lazyEnd, if_neg hpre, if_neg hend, ih hlast' hno.2, List.length_cons]

theorem matchAt_of_prefix (rest : List α) :
    matchAt nl opening close false (opening ++ rest) = some (lazyEnd nl close rest) := by
  unfold matchAt
  rw [if_pos (List.prefix_append opening rest), List.drop_left]
  rfl

theorem finditer_match (hopening : opening ≠ []) (rest : List α) (fuel pos : ℕ) :
    finditer nl opening close (fuel + 1) false pos (opening ++ rest) =
      (pos + opening.length, pos + opening.length + lazyEnd nl close rest) ::
        finditer nl opening close fuel false (pos + opening.length + lazyEnd nl close rest)
          (rest.drop (lazyEnd nl close rest)) := by
  have hlen : 0 < opening.length := List.length_pos_of_ne_nil hopening
  have hadvance : decide (opening.length + lazyEnd nl close rest = 0) = false :=
    decide_eq_false (by omega)
  rw [finditer, matchAt_of_prefix]
  dsimp only
  rw [hadvance, ← List.drop_drop, List.drop_left]

theorem finditer_skip (hno : NoStart opening xs rest) (fuel pos : ℕ) :
    finditer nl opening close (fuel + xs.length) false pos (xs ++ rest) =
      finditer nl opening close fuel false (pos + xs.length) rest := by
  induction xs generalizing pos with
  | nil => rfl
  | cons x xs ih =>
    have hnone : matchAt nl opening close false (x :: xs ++ rest) = none := by
      unfold matchAt
      exact if_neg hno.1
    rw [List.length_cons, ← Nat.add_assoc, finditer, hnone]
    dsimp only
    rw [List.cons_append, if_neg (List.cons_ne_nil x _), List.tail_cons, ih hno.2, Nat.add_assoc,
      Nat.add_comm 1]

theorem finditer_nil (hopening : opening ≠ []) (fuel pos : ℕ) :
    finditer nl opening close (fuel + 1) false pos [] = [] := by
  have hnone : matchAt nl opening close false [] = none := by
    unfold matchAt
    exact if_neg fun h => hopening (List.prefix_nil.mp h)
  rw [finditer, hnone]
  exact if_pos rfl

end Search

/-! ### Blocks -/

/-- A head and a body; a closing marker follows. -/
structure Block (α : Type*) where
  opened : Bool
  head : List α
  body : List α

/-- Both markers start with `first`, which they do not repeat, and end with their only newline;
neither starts like the other, also without that newline. -/
structure Markers (first nl : α) (opening close : List α) : Prop where
  opening_head : opening.head? = some first
  close_head : close.head? = some first
  opening_tail : first ∉ opening.tail
  close_tail : first ∉ close.tail
  opening_line : nl ∉ opening.dropLast
  close_line : nl ∉ close.dropLast
  close_last : close.getLast? = some nl
  ne : first ≠ nl
  apart : ¬ opening <+: close
  apart_cut : ¬ close.dropLast <+: opening

/-- The head of an opened block is the marker, another one is a line without it, and the body has
neither marker. -/
structure Block.Valid (nl : α) (opening close : List α) (b : Block α) : Prop where
  head_opened : b.opened = true → b.head = opening
  head_other : b.opened = false → b.head.getLast? = some nl ∧ ¬ opening <:+: b.head
  body_opening : ¬ opening <:+: b.body
  body_close : ¬ close <:+: b.body

/-- The blocks, one after the other. -/
def joined (close : List α) (bs : List (Block α)) : List α :=
  bs.flatMap fun b => b.head ++ (b.body ++ close)

/-- The groups of the opened blocks from `pos` on, in a text that ends at `total`. -/
def openedSpans (close : List α) (total : ℕ) : ℕ → List (Block α) → List (ℕ × ℕ)
  | _, [] => []
  | pos, b :: bs =>
    let next := pos + (b.head ++ (b.body ++ close)).length
    (if b.opened then [(pos + b.head.length, min next total)] else []) ++
      openedSpans close total next bs

section Blocks
variable {first nl : α} {opening close closing rest text : List α} {b : Block α}
  {bs : List (Block α)}

theorem Markers.opening_ne_nil (h : Markers first nl opening close) : opening ≠ [] := by
  rintro rfl
  cases h.opening_head

theorem Markers.close_eq (h : Markers first nl opening close) :
    ∃ t, close = first :: t ∧ close.dropLast = first :: t.dropLast := by
  obtain ⟨t, rfl⟩ := List.head?_eq_some_iff.mp h.close_head
  have hne : t ≠ [] := by
    rintro rfl
    exact h.ne (Option.some.inj h.close_last)
  exact ⟨t, rfl, List.dropLast_cons_of_ne_nil hne⟩

theorem Markers.close_concat (h : Markers first nl opening close) :
    close = close.dropLast ++ [nl] := (List.dropLast_append_getLast? nl h.close_last).symm

/-- The end of a block in a text: the closing marker, or at the end of the text also the marker
without its newline. -/
def Closes (close closing rest : List α) : Prop :=
  closing = close ∨ closing = close.dropLast ∧ rest = []

/-- Either end starts like the closing marker and does not start like the opening one. -/
theorem Markers.closes (h : Markers first nl opening close) (hc : Closes close closing rest) :
    closing.head? = some first ∧ first ∉ closing.tail ∧ ¬ opening <+: closing ∧
      ¬ closing <+: opening := by
  rcases hc with rfl | ⟨rfl, -⟩
  · refine ⟨h.close_head, h.close_tail, h.apart, fun hpre => ?_⟩
    exact h.apart_cut ((List.dropLast_prefix closing).trans hpre)
  · obtain ⟨t, rfl, hcut⟩ := h.close_eq
    refine ⟨?_, ?_, fun hpre => h.apart (hpre.trans (List.dropLast_prefix _)), h.apart_cut⟩
    · rw [hcut, List.head?_cons]
    · rw [hcut, List.tail_cons]
      exact fun hmem => h.close_tail (List.mem_of_mem_dropLast hmem)

/-- The opening marker starts nowhere in a block that is not opened. -/
theorem Block.Valid.noStart (hb : b.Valid nl opening close) (h : Markers first nl opening close)
    (hother : b.opened = false) (hc : Closes close closing rest) :
    NoStart opening (b.head ++ (b.body ++ closing)) rest := by
  obtain ⟨hhead, htail, hne, hne'⟩ := h.closes hc
  obtain ⟨hline, hno⟩ := hb.head_other hother
  have hrest : (closing ++ rest).head? = some first := by
    rw [List.head?_append, hhead, Option.some_or]
  rw [noStart_append, noStart_append]
  refine ⟨noStart_of_line h.opening_line hline hno _, ?_, ?_⟩
  · exact noStart_of_head h.opening_tail hrest hb.body_opening
  · exact noStart_of_ne h.opening_head htail hne hne' rest

/-- The closing marker starts nowhere in a body. -/
theorem Block.Valid.noStart_body (hb : b.Valid nl opening close)
    (h : Markers first nl opening close) (hc : Closes close closing rest) :
    NoStart close b.body (closing ++ rest) := by
  obtain ⟨hhead, -⟩ := h.closes hc
  apply noStart_of_head h.close_tail _ hb.body_close
  rw [List.head?_append, hhead, Option.some_or]

variable [DecidableEq α]

/-- **The group of an opened block** is its body with the end. -/
theorem Block.Valid.lazyEnd (hb : b.Valid nl opening close) (h : Markers first nl opening close)
    (hc : Closes close closing rest) :
    DelimitedSearch.lazyEnd nl close (b.body ++ (closing ++ rest)) =
      b.body.length + closing.length := by
  have hbody := hb.noStart_body h hc
  obtain ⟨t, heq, hcut⟩ := h.close_eq
  rcases hc with rfl | ⟨rfl, rfl⟩
  · apply lazyEnd_append _ hbody
    rw [heq]
    exact List.cons_ne_nil first t
  · have hne : close.dropLast ≠ [] := by
      rw [hcut]
      exact List.cons_ne_nil first _
    have hlast : (b.body ++ close.dropLast).getLast? ≠ some nl := by
      rw [List.getLast?_append_of_ne_nil b.body hne]
      exact fun hmem => h.close_line (List.mem_of_getLast? hmem)
    -- what is left of the marker is too short for one
    have hshort : NoStart close close.dropLast [] := by
      apply noStart_of_forall
      intro c hsuf _ hpre
      rw [List.append_nil] at hpre
      have hle := hpre.length_le.trans hsuf.length_le
      have hpos : 0 < close.length := by
        rw [heq]
        exact Nat.succ_pos _
      rw [List.length_dropLast] at hle
      omega
    rw [List.append_nil] at hbody ⊢
    rw [lazyEnd_of_noStart hlast, List.length_append]
    rw [noStart_append, List.append_nil]
    exact ⟨hbody, hshort⟩

/-- **One block**: its group if it is opened, and then the search goes on behind it. -/
theorem finditer_block (hb : b.Valid nl opening close) (h : Markers first nl opening close)
    (hc : Closes close closing rest) {fuel : ℕ}
    (hfuel : (b.head ++ (b.body ++ closing)).length + rest.length < fuel) (pos : ℕ) :
    ∃ fuel', rest.length < fuel' ∧
      finditer nl opening close fuel false pos (b.head ++ (b.body ++ closing) ++ rest) =
        (if b.opened then
          [(pos + b.head.length, pos + (b.head ++ (b.body ++ closing)).length)] else []) ++
        finditer nl opening close fuel' false (pos + (b.head ++ (b.body ++ closing)).length)
          rest := by
  cases hopened : b.opened with
  | false =>
    obtain ⟨fuel', rfl⟩ : ∃ fuel', fuel = fuel' + (b.head ++ (b.body ++ closing)).length :=
      ⟨fuel - (b.head ++ (b.body ++ closing)).length, by omega⟩
    refine ⟨fuel', by omega, ?_⟩
    rw [finditer_skip (hb.noStart h hopened hc)]
    rfl
  | true =>
    have hhead := hb.head_opened hopened
    obtain ⟨fuel', rfl⟩ : ∃ fuel', fuel = fuel' + 1 := ⟨fuel - 1, by omega⟩
    have hpos : 0 < b.head.length := by
      rw [hhead]
      exact List.length_pos_of_ne_nil h.opening_ne_nil
    rw [List.length_append] at hfuel
    refine ⟨fuel', by omega, ?_⟩
    have hdrop : (b.body ++ (closing ++ rest)).drop (b.body.length + closing.length) = rest := by
      rw [← List.append_assoc, ← List.length_append, List.drop_left]
    have hend : pos + opening.length + (b.body.length + closing.length) =
        pos + (opening ++ (b.body ++ closing)).length := by
      rw [List.length_append, List.length_append, Nat.add_assoc]
    rw [hhead, List.append_assoc, List.append_assoc, finditer_match h.opening_ne_nil,
      hb.lazyEnd h hc, hdrop, hend]
    rfl

omit [DecidableEq α] in
/-- The first block of a text that is a row of blocks. -/
theorem exists_closing (h : Markers first nl opening close)
    (htext : text = joined close (b :: bs) ∨ text ++ [nl] = joined close (b :: bs)) :
    ∃ closing rest, text = b.head ++ (b.body ++ closing) ++ rest ∧
      (rest = joined close bs ∨ rest ++ [nl] = joined close bs) ∧
      (closing = close ∨ closing = close.dropLast ∧ rest = [] ∧ bs = []) := by
  have hjoined : joined close (b :: bs) = b.head ++ (b.body ++ close) ++ joined close bs := rfl
  rw [hjoined] at htext
  rcases htext with rfl | htext
  · exact ⟨close, joined close bs, rfl, Or.inl rfl, Or.inl rfl⟩
  · rcases List.eq_nil_or_concat (joined close bs) with hnil | ⟨rest, x, hconcat⟩
    · -- the block is the last one and lost its newline
      have hbs : bs = [] := by
        cases bs with
        | nil => rfl
        | cons b' bs =>
          obtain ⟨t, heq, -⟩ := h.close_eq
          have hclose : close = [] := by
            have hempty : b'.head ++ (b'.body ++ close) ++ joined close bs = [] := hnil
            simp only [List.append_eq_nil_iff] at hempty
            exact hempty.1.2.2
          rw [hclose] at heq
          cases heq
      refine ⟨close.dropLast, [], ?_, Or.inl hnil.symm, Or.inr ⟨rfl, rfl, hbs⟩⟩
      rw [hnil, h.close_concat, List.append_nil] at htext
      rw [List.append_nil]
      apply List.append_cancel_right (htext.trans _)
      rw [List.append_assoc, List.append_assoc]
    · rw [List.concat_eq_append] at hconcat
      rw [hconcat, ← List.append_assoc] at htext
      obtain ⟨htext, hx⟩ := List.append_inj' htext rfl
      refine ⟨close, rest, htext, Or.inr ?_, Or.inl rfl⟩
      rw [hconcat, List.singleton_inj.mp hx]

/-- **The search finds the opened blocks.** -/
theorem finditer_joined (h : Markers first nl opening close)
    (hvalid : ∀ b ∈ bs, b.Valid nl opening close)
    (htext : text = joined close bs ∨ text ++ [nl] = joined close bs) {fuel : ℕ}
    (hfuel : text.length < fuel) (pos : ℕ) :
    finditer nl opening close fuel false pos text =
      openedSpans close (pos + text.length) pos bs := by
  induction bs generalizing text fuel pos with
  | nil =>
    have hnil : text = [] := by
      rcases htext with h | h
      · exact h
      · exact absurd h (by simp [joined])
    obtain ⟨fuel', rfl⟩ : ∃ fuel', fuel = fuel' + 1 := ⟨fuel - 1, by omega⟩
    rw [hnil, finditer_nil h.opening_ne_nil]
    rfl
  | cons b bs ih =>
    obtain ⟨closing, rest, rfl, hrest, hclosing⟩ := exists_closing h htext
    have hc : Closes close closing rest :=
      hclosing.imp_right fun hcut => ⟨hcut.1, hcut.2.1⟩
    rw [List.length_append] at hfuel
    obtain ⟨fuel', hfuel', hblock⟩ :=
      finditer_block (hvalid b List.mem_cons_self) h hc hfuel pos
    have hrun := ih (fun b' hb' => hvalid b' (List.mem_cons_of_mem b hb')) hrest hfuel'
      (pos + (b.head ++ (b.body ++ closing)).length)
    have htotal : pos + (b.head ++ (b.body ++ closing) ++ rest).length =
        pos + (b.head ++ (b.body ++ closing)).length + rest.length := by
      rw [List.length_append, Nat.add_assoc]
    rw [hblock, hrun, openedSpans, htotal]
    rcases hclosing with rfl | ⟨rfl, rfl, rfl⟩
    · rw [Nat.min_eq_left (Nat.le_add_right _ _)]
    · have hlen : close.dropLast.length ≤ close.length := (List.dropLast_prefix close).length_le
      have hmin : min (pos + (b.head ++ (b.body ++ close)).length)
          (pos + (b.head ++ (b.body ++ close.dropLast)).length + ([] : List α).length) =
          pos + (b.head ++ (b.body ++ close.dropLast)).length := by
        simp only [List.length_append, List.length_nil]
        omega
      rw [hmin]
      rfl

omit [DecidableEq α] in
/-- Which groups those are. -/
theorem mem_openedSpans {total pos : ℕ} {span : ℕ × ℕ} :
    span ∈ openedSpans close total pos bs ↔
      ∃ before b after, bs = before ++ b :: after ∧ b.opened = true ∧
        span = (pos + (joined close before).length + b.head.length,
          min (pos + (joined close before).length + (b.head ++ (b.body ++ close)).length)
            total) := by
  induction bs generalizing pos with
  | nil =>
    constructor
    · intro h
      cases h
    · rintro ⟨before, b, after, h, -⟩
      exact absurd h.symm (by simp)
  | cons b bs ih =>
    have hcons : ∀ before : List (Block α), pos + (joined close (b :: before)).length =
        pos + (b.head ++ (b.body ++ close)).length + (joined close before).length := by
      intro before
      have hjoined : joined close (b :: before) =
          b.head ++ (b.body ++ close) ++ joined close before := rfl
      rw [hjoined, List.length_append, Nat.add_assoc]
    rw [openedSpans, List.mem_append, ih]
    constructor
    · rintro (h | ⟨before, b', after, rfl, hopened, hspan⟩)
      · split at h
        · rename_i hopened
          exact ⟨[], b, bs, rfl, hopened, List.mem_singleton.mp h⟩
        · cases h
      · refine ⟨b :: before, b', after, rfl, hopened, ?_⟩
        rw [hcons]
        exact hspan
    · rintro ⟨before, b', after, heq, hopened, hspan⟩
      cases before with
      | nil =>
        obtain ⟨rfl, rfl⟩ := List.cons.inj heq
        left
        rw [if_pos hopened]
        exact List.mem_singleton.mpr hspan
      | cons b₀ before =>
        obtain ⟨rfl, rfl⟩ := List.cons.inj heq
        refine Or.inr ⟨before, b', after, rfl, hopened, ?_⟩
        rw [← hcons]
        exact hspan

omit [DecidableEq α] in
/-- What stands in the text from the body of a block on. -/
theorem exists_drop_body (h : Markers first nl opening close) {before after : List (Block α)}
    (htext : text = joined close (before ++ b :: after) ∨
      text ++ [nl] = joined close (before ++ b :: after)) :
    ∃ rest, text.drop ((joined close before).length + b.head.length) = b.body ++ rest := by
  have hjoined : joined close (before ++ b :: after) =
      joined close before ++ b.head ++ (b.body ++ (close ++ joined close after)) := by
    unfold joined
    rw [List.flatMap_append, List.flatMap_cons]
    simp only [List.append_assoc]
  rw [hjoined] at htext
  rw [← List.length_append]
  rcases htext with rfl | htext
  · exact ⟨_, List.drop_left⟩
  · obtain ⟨t, heq, -⟩ := h.close_eq
    rcases List.eq_nil_or_concat (close ++ joined close after) with hnil | ⟨rest, x, hconcat⟩
    · rw [heq] at hnil
      cases hnil
    · rw [List.concat_eq_append] at hconcat
      rw [hconcat, ← List.append_assoc, ← List.append_assoc] at htext
      obtain ⟨rfl, -⟩ := List.append_inj' htext rfl
      exact ⟨rest, by rw [List.append_assoc, List.drop_left]⟩

end Blocks

end DelimitedSearch
