import Mathlib.Data.Nat.Notation
import Mathlib.Tactic.TypeStar

/-! # Loops with a break

`run cond body outOfFuel n s` is a `while cond: body` whose body may raise and may
ask to leave the loop; `n` bounds the number of iterations and `outOfFuel` is what
a run that needs more of them returns.  `AtTop` is the set of states in which the
loop tests its condition.

`bind_ok` and `map_ok` take a computation that raised nothing apart.

`run_ok` is the total-correctness rule: an invariant, a rank the body lowers and a
postcondition of both exits give a run that ends without raising.  `AtTop.inv` is
the invariant rule for every state the loop passes through, and `run_post` the
partial-correctness rule for a run that ended.  `foldlM_ok` is the invariant rule of a
`for` over a list, `foldlM_post` its partial-correctness rule.
-/
namespace WhileLoop

variable {σ ε : Type}

/-! ### Computations that raise nothing -/

theorem bind_ok {α β : Type} {x : Except ε α} {f : α → Except ε β} {b : β}
    (h : x >>= f = .ok b) : ∃ a, x = .ok a ∧ f a = .ok b := by
  cases x with
  | error e => cases h
  | ok a => exact ⟨a, rfl, h⟩

theorem bind_of_ok {α β : Type} {x : Except ε α} {a : α} (h : x = .ok a) (f : α → Except ε β) :
    x >>= f = f a := by
  rw [h]
  rfl

theorem map_ok {α β : Type} {x : Except ε α} {f : α → β} {b : β}
    (h : x.map f = .ok b) : ∃ a, x = .ok a ∧ f a = b := by
  cases x with
  | error e => cases h
  | ok a => exact ⟨a, rfl, Except.ok.inj h⟩

/-! ### Loops -/

/-- `while cond: body`, at most `n` times.  The flag the body returns is its
`break`. -/
def run (cond : σ → Bool) (body : σ → Except ε (σ × Bool)) (outOfFuel : ε) : ℕ → σ → Except ε σ
  | 0, s => if cond s then .error outOfFuel else .ok s
  | n + 1, s =>
    if cond s then
      match body s with
      | .error e => .error e
      | .ok (s', true) => .ok s'
      | .ok (s', false) => run cond body outOfFuel n s'
    else .ok s

/-- The states in which the loop started in `s₀` tests its condition. -/
inductive AtTop (cond : σ → Bool) (body : σ → Except ε (σ × Bool)) (s₀ : σ) : σ → Prop
  | start : AtTop cond body s₀ s₀
  | next {s s' : σ} : AtTop cond body s₀ s → cond s = true → body s = .ok (s', false) →
      AtTop cond body s₀ s'

variable {cond : σ → Bool} {body : σ → Except ε (σ × Bool)} {Inv Post : σ → Prop}

/-- **The invariant rule**: what one iteration keeps holds at the top of every
iteration. -/
theorem AtTop.inv {s₀ s : σ} (h : AtTop cond body s₀ s) (h₀ : Inv s₀)
    (hstep : ∀ s s', Inv s → cond s = true → body s = .ok (s', false) → Inv s') : Inv s := by
  induction h with
  | start => exact h₀
  | next _ hcond hbody ih => exact hstep _ _ ih hcond hbody

/-- **The total-correctness rule**: an iteration from the invariant raises nothing
and either keeps the invariant and lowers the rank, or breaks with the
postcondition. -/
theorem run_ok {rank : σ → ℕ} (outOfFuel : ε)
    (hrank : ∀ s, Inv s → cond s = true → 0 < rank s)
    (hstep : ∀ s, Inv s → cond s = true →
      (∃ s', body s = .ok (s', false) ∧ Inv s' ∧ rank s' < rank s) ∨
        ∃ s', body s = .ok (s', true) ∧ Post s')
    (hexit : ∀ s, Inv s → cond s = false → Post s) {s : σ} {n : ℕ} (hs : Inv s)
    (hn : rank s ≤ n) : ∃ s', run cond body outOfFuel n s = .ok s' ∧ Post s' := by
  induction n generalizing s with
  | zero =>
    by_cases hcond : cond s = true
    · exact absurd (hrank s hs hcond) (by omega)
    · exact ⟨s, by simp [run, hcond], hexit s hs (by simpa using hcond)⟩
  | succ n ih =>
    by_cases hcond : cond s = true
    · rcases hstep s hs hcond with ⟨s', hbody, hinv, hlt⟩ | ⟨s', hbody, hpost⟩
      · obtain ⟨t, ht, hpost⟩ := ih hinv (by omega)
        exact ⟨t, by simp only [run, hcond, hbody, if_true, ht], hpost⟩
      · exact ⟨s', by simp only [run, hcond, hbody, if_true], hpost⟩
    · exact ⟨s, by simp [run, hcond], hexit s hs (by simpa using hcond)⟩

/-- **The partial-correctness rule**: what an iteration that raised nothing keeps or
breaks with. -/
theorem run_post {outOfFuel : ε}
    (hstep : ∀ s s', Inv s → cond s = true → body s = .ok (s', false) → Inv s')
    (hbreak : ∀ s s', Inv s → cond s = true → body s = .ok (s', true) → Post s')
    (hexit : ∀ s, Inv s → cond s = false → Post s) {s s' : σ} {n : ℕ} (hs : Inv s)
    (hrun : run cond body outOfFuel n s = .ok s') : Post s' := by
  induction n generalizing s with
  | zero =>
    unfold run at hrun
    split at hrun
    · cases hrun
    · rename_i hcond
      obtain rfl := Except.ok.inj hrun
      exact hexit s hs (Bool.not_eq_true _ ▸ hcond)
  | succ n ih =>
    unfold run at hrun
    split at hrun
    · rename_i hcond
      split at hrun
      · cases hrun
      · rename_i t hbody
        obtain rfl := Except.ok.inj hrun
        exact hbreak s t hs hcond hbody
      · rename_i t hbody
        exact ih (hstep s t hs hcond hbody) hrun
    · rename_i hcond
      obtain rfl := Except.ok.inj hrun
      exact hexit s hs (Bool.not_eq_true _ ▸ hcond)

/-! ### Loops over a list -/

/-- **The invariant rule of a `for`**: what each turn keeps, from one index to the next. -/
theorem foldlM_ok {α : Type} {Inv : ℕ → σ → Prop} {f : σ → α → Except ε σ} {xs : List α}
    (hstep : ∀ k x, xs[k]? = some x → ∀ s, Inv k s → ∃ s', f s x = .ok s' ∧ Inv (k + 1) s')
    {s : σ} (hs : Inv 0 s) : ∃ s', xs.foldlM f s = .ok s' ∧ Inv xs.length s' := by
  induction xs generalizing s Inv with
  | nil => exact ⟨s, rfl, hs⟩
  | cons x xs ih =>
    obtain ⟨t, ht, hinv⟩ := hstep 0 x rfl s hs
    -- the rest of the list sees the invariant one index further
    have hrest := @ih (fun k => Inv (k + 1)) (fun k y hy => hstep (k + 1) y hy) t hinv
    obtain ⟨s', hs', hpost⟩ := hrest
    refine ⟨s', ?_, hpost⟩
    rw [List.foldlM_cons, ht]
    exact hs'

/-- What every turn that raises nothing keeps, of a `for` that came to its end. -/
theorem foldlM_post {α : Type} {Inv : σ → Prop} {f : σ → α → Except ε σ} {xs : List α}
    (hstep : ∀ s x s', x ∈ xs → Inv s → f s x = .ok s' → Inv s') {s s' : σ} (hs : Inv s)
    (h : xs.foldlM f s = .ok s') : Inv s' := by
  induction xs generalizing s with
  | nil =>
    obtain rfl : s = s' := Except.ok.inj h
    exact hs
  | cons x xs ih =>
    rw [List.foldlM_cons] at h
    obtain ⟨t, ht, hrest⟩ := bind_ok h
    have hinv : Inv t := hstep s x t List.mem_cons_self hs ht
    exact ih (fun s y s' hy => hstep s y s' (List.mem_cons_of_mem x hy)) hinv hrest

/-- `[x for x in xs if f(x)]` whose tests raise nothing. -/
theorem filterM_ok {α : Type} {f : α → Except ε Bool} {p : α → Bool} {xs : List α}
    (h : ∀ x ∈ xs, f x = .ok (p x)) : xs.filterM f = .ok (xs.filter p) := by
  have haux : ∀ (xs acc : List α), (∀ x ∈ xs, f x = .ok (p x)) →
      xs.filterAuxM f acc = .ok ((xs.filter p).reverse ++ acc) := by
    intro xs
    induction xs with
    | nil =>
      intro acc _
      rfl
    | cons x xs ih =>
      intro acc h
      have hxs := fun acc => ih acc fun y hy => h y (List.mem_cons_of_mem x hy)
      unfold List.filterAuxM
      rw [h x List.mem_cons_self]
      show xs.filterAuxM f (cond (p x) (x :: acc) acc) = _
      rw [hxs, List.filter_cons]
      cases hp : p x with
      | true => simp
      | false => simp
  unfold List.filterM
  rw [haux xs [] h]
  simp [bind, Except.bind, pure, Except.pure]

theorem foldlM_range_ok {Inv : ℕ → σ → Prop} {f : σ → ℕ → Except ε σ} {n : ℕ}
    (hstep : ∀ k < n, ∀ s, Inv k s → ∃ s', f s k = .ok s' ∧ Inv (k + 1) s') {s : σ}
    (hs : Inv 0 s) : ∃ s', (List.range n).foldlM f s = .ok s' ∧ Inv n s' := by
  have hturn : ∀ k x, (List.range n)[k]? = some x → ∀ s, Inv k s →
      ∃ s', f s x = .ok s' ∧ Inv (k + 1) s' := by
    intro k x hx s hinv
    obtain ⟨hk, rfl⟩ := List.getElem?_eq_some_iff.mp hx
    rw [List.length_range] at hk
    rw [List.getElem_range]
    exact hstep k hk s hinv
  have h := foldlM_ok hturn hs
  rwa [List.length_range] at h

theorem foldlM_zipIdx_ok {α : Type} {Inv : ℕ → σ → Prop} {f : σ → α × ℕ → Except ε σ}
    {xs : List α}
    (hstep : ∀ k x, xs[k]? = some x → ∀ s, Inv k s → ∃ s', f s (x, k) = .ok s' ∧ Inv (k + 1) s')
    {s : σ} (hs : Inv 0 s) : ∃ s', xs.zipIdx.foldlM f s = .ok s' ∧ Inv xs.length s' := by
  have hturn : ∀ k x, xs.zipIdx[k]? = some x → ∀ s, Inv k s →
      ∃ s', f s x = .ok s' ∧ Inv (k + 1) s' := by
    intro k x hx s hinv
    rw [List.getElem?_zipIdx, Nat.zero_add, Option.map_eq_some_iff] at hx
    obtain ⟨y, hy, rfl⟩ := hx
    exact hstep k y hy s hinv
  have h := foldlM_ok hturn hs
  rwa [List.length_zipIdx] at h

end WhileLoop
