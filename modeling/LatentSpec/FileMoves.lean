import Mathlib.Data.List.Nodup
import Mathlib.Logic.Function.Basic

/-! # Moving files

A file system is a function of the path.  `os.replace` moves a file over another one, so a list of
moves keeps every file only when no two have the same target and no target is a source that is
still to be moved; then the order of the moves does not matter (`moves_spec`).
-/
namespace FileMoves

variable {P V : Type*} [DecidableEq P]

/-- `os.replace`; `none` when the source is missing. -/
def move (fs : P → Option V) (source target : P) : Option (P → Option V) :=
  (fs source).map fun content =>
    Function.update (Function.update fs source none) target (some content)

def moves (fs : P → Option V) (ops : List (P × P)) : Option (P → Option V) :=
  ops.foldlM (fun fs op => move fs op.1 op.2) fs

/-- Moves from different sources to different targets, none of which is a source: every target
has its source's file, and other files stay. -/
theorem moves_spec {fs : P → Option V} {ops : List (P × P)} (hsources : (ops.map Prod.fst).Nodup)
    (htargets : (ops.map Prod.snd).Nodup)
    (hapart : ∀ op ∈ ops, ∀ op' ∈ ops, op.1 ≠ op'.2) (hexists : ∀ op ∈ ops, fs op.1 ≠ none) :
    ∃ fs', moves fs ops = some fs' ∧ (∀ op ∈ ops, fs' op.2 = fs op.1) ∧
      ∀ p, (∀ op ∈ ops, p ≠ op.1 ∧ p ≠ op.2) → fs' p = fs p := by
  induction ops generalizing fs with
  | nil => exact ⟨fs, rfl, fun _ h => absurd h List.not_mem_nil, fun _ _ => rfl⟩
  | cons op ops ih =>
    rw [List.map_cons, List.nodup_cons] at hsources htargets
    obtain ⟨content, hcontent⟩ := Option.ne_none_iff_exists'.mp (hexists op List.mem_cons_self)
    have hmove : move fs op.1 op.2 =
        some (Function.update (Function.update fs op.1 none) op.2 (some content)) := by
      rw [move, hcontent, Option.map_some]
    generalize hfs₁ : Function.update (Function.update fs op.1 none) op.2 (some content) = fs₁
      at hmove
    have htarget : fs₁ op.2 = fs op.1 := by rw [← hfs₁, Function.update_self, hcontent]
    have hother : ∀ p, p ≠ op.1 → p ≠ op.2 → fs₁ p = fs p := by
      intro p h₁ h₂
      rw [← hfs₁, Function.update_of_ne h₂, Function.update_of_ne h₁]
    have hsource : ∀ op' ∈ ops, fs₁ op'.1 = fs op'.1 := by
      intro op' hop'
      refine hother _ (fun heq => hsources.1 ?_)
        (hapart op' (List.mem_cons_of_mem _ hop') op List.mem_cons_self)
      exact heq ▸ List.mem_map_of_mem hop'
    have hexists₁ : ∀ op' ∈ ops, fs₁ op'.1 ≠ none := by
      intro op' hop'
      rw [hsource op' hop']
      exact hexists op' (List.mem_cons_of_mem _ hop')
    obtain ⟨fs', hmoves, hmoved, hstay⟩ := ih hsources.2 htargets.2
      (fun op₁ h₁ op₂ h₂ => hapart op₁ (List.mem_cons_of_mem _ h₁) op₂ (List.mem_cons_of_mem _ h₂))
      hexists₁
    refine ⟨fs', ?_, ?_, ?_⟩
    · rw [moves, List.foldlM_cons, hmove]
      exact hmoves
    · intro op' hop'
      rcases List.mem_cons.mp hop' with rfl | hop'
      · refine (hstay _ fun op₂ h₂ => ⟨?_, fun heq => htargets.1 ?_⟩).trans htarget
        · exact (hapart op₂ (List.mem_cons_of_mem _ h₂) op' List.mem_cons_self).symm
        · exact List.mem_map.mpr ⟨op₂, h₂, heq.symm⟩
      · rw [hmoved op' hop', hsource op' hop']
    · intro p hp
      have hfirst := hp op List.mem_cons_self
      rw [hstay p fun op' hop' => hp op' (List.mem_cons_of_mem _ hop'), hother p hfirst.1 hfirst.2]

end FileMoves
