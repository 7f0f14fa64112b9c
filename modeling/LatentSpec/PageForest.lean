import Mathlib.Data.List.Basic
import Mathlib.Data.List.Infix
import Mathlib.Logic.Function.Basic
import Mathlib.Tactic.Ring

/-! # Forests of labelled edges

A radix tree seen from its nodes: each node but the root has one edge to its parent, labelled with
a run of units, the slots they are stored in, and a namespace.  All runs are whole pages, and the
children of a node differ in namespace or first page.

The path of a node is what the edges down to it spell.  Two nodes of one namespace branch at a
page, so a node whose parent's path and first page begin the path of another is above it
(`Forest.fork`).  Hence every whole page has one place (`Forest.stored_unique`), and what is stored
changes with the edges as it should: not at all when an edge is split (`Forest.split`,
`stored_split_iff`), by the pages of a new leaf (`Forest.addLeaf`, `stored_addLeaf_iff`), and by
those of a leaf that goes (`Forest.removeLeaf`, `stored_removeLeaf_iff`).
-/
namespace PageForest

variable {N U S : Type*}

/-- The edge of a node: its parent, and its label. -/
structure Edge (N U S : Type*) where
  parent : ℕ
  ns : N
  units : List U
  slots : List S

/-- The root is node `0`, the only one without an edge. -/
structure Forest (page : ℕ) (edges : ℕ → Option (Edge N U S)) (path : ℕ → List U) : Prop where
  page_pos : 0 < page
  root : edges 0 = none
  path_root : path 0 = []
  parent : ∀ {id e}, edges id = some e →
    e.parent = 0 ∨ ∃ e', edges e.parent = some e' ∧ e'.ns = e.ns
  path_eq : ∀ {id e}, edges id = some e → path id = path e.parent ++ e.units
  whole : ∀ {id e}, edges id = some e → page ∣ e.units.length
  nonempty : ∀ {id e}, edges id = some e → 0 < e.units.length
  slots : ∀ {id e}, edges id = some e → e.slots.length = e.units.length
  branch : ∀ {id id' e e'}, edges id = some e → edges id' = some e' → e.parent = e'.parent →
    e.ns = e'.ns → e.units.take page = e'.units.take page → id = id'

/-- Node `b` is `a`, or has it above. -/
inductive Below (edges : ℕ → Option (Edge N U S)) (a : ℕ) : ℕ → Prop
  | refl : Below edges a a
  | step {b : ℕ} {e : Edge N U S} (h : edges b = some e) (hparent : Below edges a e.parent) :
    Below edges a b

theorem Below.trans {edges : ℕ → Option (Edge N U S)} {a b d : ℕ} (hab : Below edges a b)
    (hbd : Below edges b d) : Below edges a d := by
  induction hbd with
  | refl => exact hab
  | step h _ ih => exact .step h ih

/-- A node that can have children in a namespace. -/
def Hosts (edges : ℕ → Option (Edge N U S)) (ns : N) (id : ℕ) : Prop :=
  id = 0 ∨ ∃ e, edges id = some e ∧ e.ns = ns

/-- The pages stored: a run of whole pages with the slots of the last one. -/
def Stored (page : ℕ) (edges : ℕ → Option (Edge N U S)) (path : ℕ → List U) (ns : N) (run : List U)
    (slots : List S) : Prop :=
  ∃ id e k, edges id = some e ∧ e.ns = ns ∧ (k + 1) * page ≤ e.units.length ∧
    run = path e.parent ++ e.units.take ((k + 1) * page) ∧
    slots = (e.slots.drop (k * page)).take page

/-- Of two prefixes of one list the shorter is a prefix of the longer. -/
theorem prefix_of_length {xs ys zs : List U} (hx : xs <+: zs) (hy : ys <+: zs)
    (h : xs.length ≤ ys.length) : xs <+: ys := List.prefix_of_prefix_length_le hx hy h

theorem add_page_le {page m n : ℕ} (hm : page ∣ m) (hn : page ∣ n) (h : m < n) : m + page ≤ n := by
  obtain ⟨a, rfl⟩ := hm
  obtain ⟨b, rfl⟩ := hn
  have hab : a + 1 ≤ b := Nat.lt_of_mul_lt_mul_left h
  calc page * a + page = page * (a + 1) := by ring
    _ ≤ page * b := Nat.mul_le_mul_left _ hab

namespace Forest
variable {page : ℕ} {edges : ℕ → Option (Edge N U S)} {path : ℕ → List U}
variable (h : Forest page edges path) {a b id : ℕ} {e ea eb : Edge N U S} {ns : N}
include h

theorem page_le (he : edges id = some e) : page ≤ e.units.length :=
  Nat.le_of_dvd (h.nonempty he) (h.whole he)

theorem length_path (he : edges id = some e) :
    (path id).length = (path e.parent).length + e.units.length := by
  rw [h.path_eq he, List.length_append]

theorem parent_lt (he : edges id = some e) : (path e.parent).length < (path id).length := by
  have := h.length_path he
  have := h.nonempty he
  omega

theorem hosts_parent (he : edges id = some e) : Hosts edges e.ns e.parent := h.parent he

/-- Paths are whole pages. -/
theorem dvd_path (hid : Hosts edges ns id) : page ∣ (path id).length := by
  induction hn : (path id).length using Nat.strong_induction_on generalizing id ns with
  | _ n ih =>
    rcases hid with rfl | ⟨e, he, -⟩
    · rw [h.path_root] at hn
      exact ⟨0, hn.symm⟩
    · have hlt := h.parent_lt he
      rw [← hn, h.length_path he]
      exact Nat.dvd_add (ih _ (hn ▸ hlt) (h.hosts_parent he) rfl) (h.whole he)

theorem path_prefix (he : edges id = some e) : path e.parent <+: path id :=
  h.path_eq he ▸ List.prefix_append _ _

theorem pages_prefix_path (he : edges id = some e) (n : ℕ) :
    path e.parent ++ e.units.take n <+: path id := by
  rw [h.path_eq he]
  exact (List.prefix_append_right_inj _).mpr (List.take_prefix _ _)

theorem firstPage_prefix (he : edges id = some e) :
    path e.parent ++ e.units.take page <+: path id := h.pages_prefix_path he page

theorem length_firstPage (he : edges id = some e) :
    (path e.parent ++ e.units.take page).length = (path e.parent).length + page := by
  rw [List.length_append, List.length_take, Nat.min_eq_left (h.page_le he)]

theorem below_prefix (hb : Below edges a b) : path a <+: path b := by
  induction hb with
  | refl => exact List.prefix_rfl
  | step he _ ih => exact ih.trans (h.path_prefix he)

theorem below_eq (hb : Below edges a b) (hlen : (path b).length ≤ (path a).length) : a = b := by
  cases hb with
  | refl => rfl
  | step he hparent =>
    have hle := (h.below_prefix hparent).length_le
    have hlt := h.parent_lt he
    omega

theorem eq_root_of_path (hid : Hosts edges ns id) (hpath : (path id).length = 0) : id = 0 := by
  rcases hid with rfl | ⟨e, he, -⟩
  · rfl
  · have := h.parent_lt he
    omega

theorem edge_of_path (hid : Hosts edges ns id) (hpath : (path id).length ≠ 0) :
    ∃ e, edges id = some e ∧ e.ns = ns := by
  rcases hid with rfl | hid
  · rw [h.path_root] at hpath
    exact absurd rfl hpath
  · exact hid

/-- **Where paths of one namespace agree, the nodes are on one way up.** -/
theorem fork (ha : edges a = some ea) (hb : edges b = some eb) (hns : ea.ns = eb.ns)
    (hfirst : path ea.parent ++ ea.units.take page <+: path b) : Below edges a b := by
  induction hn : (path b).length using Nat.strong_induction_on generalizing a b ea eb with
  | _ n ih =>
    have hpa : path ea.parent <+: path b := (List.prefix_append _ _).trans hfirst
    have hpb := h.path_prefix hb
    have hlt := h.parent_lt hb
    have hda := h.dvd_path (h.hosts_parent ha)
    have hdb := h.dvd_path (h.hosts_parent hb)
    have hhosts := h.hosts_parent ha
    rw [hns] at hhosts
    rcases lt_trichotomy (path ea.parent).length (path eb.parent).length with hcase | hcase | hcase
    · -- the parent of `b` is further down than that of `a`
      obtain ⟨ep, hep, hepns⟩ := h.edge_of_path (h.hosts_parent hb) (by omega)
      have hbegins : path ea.parent ++ ea.units.take page <+: path eb.parent := by
        refine prefix_of_length hfirst hpb ?_
        rw [h.length_firstPage ha]
        exact add_page_le hda hdb hcase
      exact .step hb (ih _ (hn ▸ hlt) ha hep (hns.trans hepns.symm) hbegins rfl)
    · -- both parents have the same path, and are the same node
      have hpath : path ea.parent = path eb.parent :=
        (prefix_of_length hpa hpb hcase.le).eq_of_length hcase
      have hparent : ea.parent = eb.parent := by
        rcases Nat.eq_zero_or_pos (path ea.parent).length with hzero | hpos
        · rw [h.eq_root_of_path hhosts hzero,
            h.eq_root_of_path (h.hosts_parent hb) (hcase ▸ hzero)]
        · obtain ⟨e₁, he₁, hns₁⟩ := h.edge_of_path hhosts hpos.ne'
          obtain ⟨e₂, he₂, hns₂⟩ := h.edge_of_path (h.hosts_parent hb) (by omega)
          have hbelow := ih _ (hn ▸ hlt) he₁ he₂ (hns₁.trans hns₂.symm)
            (hpath ▸ h.firstPage_prefix he₁) rfl
          exact h.below_eq hbelow hcase.ge
      have hfirst' : ea.units.take page <+: eb.units := by
        rw [h.path_eq hb, hpath] at hfirst
        exact (List.prefix_append_right_inj _).mp hfirst
      have hpages : ea.units.take page = eb.units.take page := by
        have hlen : (ea.units.take page).length = page := by
          rw [List.length_take, Nat.min_eq_left (h.page_le ha)]
        have heq := List.prefix_iff_eq_take.mp hfirst'
        rwa [hlen] at heq
      exact h.branch ha hb hparent hns hpages ▸ .refl
    · -- the edge of `b` would reach past the parent of `a`
      obtain ⟨ep, hep, hepns⟩ := h.edge_of_path hhosts (by omega)
      have hbegins : path eb.parent ++ eb.units.take page <+: path ea.parent := by
        refine prefix_of_length (h.firstPage_prefix hb) hpa ?_
        rw [h.length_firstPage hb]
        exact add_page_le hdb hda hcase
      have hshort : (path ea.parent).length < n := by
        have hle := hfirst.length_le
        rw [h.length_firstPage ha] at hle
        have := h.page_pos
        omega
      have hbelow := ih _ hshort hb hep hepns.symm hbegins rfl
      have hle := (h.below_prefix hbelow).length_le
      omega

/-- A path has one node in a namespace. -/
theorem path_injective (ha : Hosts edges ns a) (hb : Hosts edges ns b) (hpath : path a = path b) :
    a = b := by
  rcases Nat.eq_zero_or_pos (path a).length with hzero | hpos
  · rw [h.eq_root_of_path ha hzero, h.eq_root_of_path hb (hpath ▸ hzero)]
  · obtain ⟨ea, hea, hnsa⟩ := h.edge_of_path ha hpos.ne'
    obtain ⟨eb, heb, hnsb⟩ := h.edge_of_path hb (hpath ▸ hpos.ne')
    have hbelow := h.fork hea heb (hnsa.trans hnsb.symm) (hpath ▸ h.firstPage_prefix hea)
    exact h.below_eq hbelow (congrArg List.length hpath).ge

/-! ### What is stored -/

omit h in
theorem firstPage_prefix_pages (k : ℕ) :
    path e.parent ++ e.units.take page <+: path e.parent ++ e.units.take ((k + 1) * page) := by
  have hle : page ≤ (k + 1) * page := Nat.le_mul_of_pos_left _ k.succ_pos
  refine (List.prefix_append_right_inj _).mpr (List.prefix_take_iff.mpr ⟨List.take_prefix _ _, ?_⟩)
  rw [List.length_take]
  omega

theorem stored_path_prefix {run : List U} {slots : List S}
    (hrun : Stored page edges path ns run slots) :
    ∃ id e, edges id = some e ∧ e.ns = ns ∧ path e.parent ++ e.units.take page <+: run ∧
      run <+: path id := by
  obtain ⟨id, e, k, he, hns, hk, rfl, -⟩ := hrun
  exact ⟨id, e, he, hns, firstPage_prefix_pages k, h.pages_prefix_path he _⟩

theorem dvd_of_stored {run : List U} {slots : List S} (hrun : Stored page edges path ns run slots) :
    page ∣ run.length ∧ 0 < run.length := by
  obtain ⟨id, e, k, he, hns, hk, rfl, -⟩ := hrun
  have hpos : 0 < (k + 1) * page := Nat.mul_pos k.succ_pos h.page_pos
  rw [List.length_append, List.length_take, Nat.min_eq_left hk]
  exact ⟨Nat.dvd_add (h.dvd_path (h.hosts_parent he)) ⟨k + 1, Nat.mul_comm _ _⟩, by omega⟩

/-- A page has one place. -/
theorem place_unique {id id' k k' : ℕ} {e e' : Edge N U S} (he : edges id = some e)
    (he' : edges id' = some e') (hns : e.ns = e'.ns) (hk : (k + 1) * page ≤ e.units.length)
    (hk' : (k' + 1) * page ≤ e'.units.length)
    (hrun : path e.parent ++ e.units.take ((k + 1) * page) =
      path e'.parent ++ e'.units.take ((k' + 1) * page)) : id = id' ∧ k = k' := by
  -- each of the two nodes is above the other
  have hbelow : Below edges id id' := by
    refine h.fork he he' hns ((firstPage_prefix_pages k).trans ?_)
    rw [hrun]
    exact h.pages_prefix_path he' _
  have hbelow' : Below edges id' id := by
    refine h.fork he' he hns.symm ((firstPage_prefix_pages k').trans ?_)
    rw [← hrun]
    exact h.pages_prefix_path he _
  obtain rfl : id = id' := h.below_eq hbelow (h.below_prefix hbelow').length_le
  obtain rfl : e = e' := Option.some.inj (he.symm.trans he')
  have htake := congrArg List.length (List.append_cancel_left hrun)
  rw [List.length_take, List.length_take, Nat.min_eq_left hk, Nat.min_eq_left hk'] at htake
  exact ⟨rfl, Nat.succ.inj (Nat.eq_of_mul_eq_mul_right h.page_pos htake)⟩

/-- **A page is stored once.** -/
theorem stored_unique {run : List U} {slots slots' : List S}
    (hrun : Stored page edges path ns run slots) (hrun' : Stored page edges path ns run slots') :
    slots = slots' := by
  obtain ⟨id, e, k, he, hns, hk, hpath, rfl⟩ := hrun
  obtain ⟨id', e', k', he', hns', hk', hpath', rfl⟩ := hrun'
  obtain ⟨rfl, rfl⟩ :=
    h.place_unique he he' (hns.trans hns'.symm) hk hk' (hpath.symm.trans hpath')
  obtain rfl : e = e' := Option.some.inj (he.symm.trans he')
  rfl

/-- The pages on the way to a node are stored. -/
theorem stored_of_prefix_path (hid : Hosts edges ns id) {run : List U} (hpos : 0 < run.length)
    (hdvd : page ∣ run.length) (hrun : run <+: path id) :
    ∃ slots, Stored page edges path ns run slots := by
  induction hn : (path id).length using Nat.strong_induction_on generalizing id with
  | _ n ih =>
    obtain ⟨e, he, hns⟩ := h.edge_of_path hid (by have := hrun.length_le; omega)
    have hlt := h.parent_lt he
    have hhosts : Hosts edges ns e.parent := hns ▸ h.hosts_parent he
    rcases Nat.lt_or_ge (path e.parent).length run.length with hcase | hcase
    · -- the run ends in the edge of this node
      have hrun' : run = path e.parent ++ e.units.take (run.length - (path e.parent).length) := by
        have htake := List.prefix_iff_eq_take.mp hrun
        rw [h.path_eq he, List.take_append, List.take_of_length_le hcase.le] at htake
        exact htake
      obtain ⟨k, hk⟩ := Nat.dvd_sub hdvd (h.dvd_path hhosts)
      cases k with
      | zero => omega
      | succ k =>
        have hle := hrun.length_le
        rw [h.length_path he] at hle
        rw [Nat.mul_comm] at hk
        refine ⟨_, id, e, k, he, hns, by omega, ?_, rfl⟩
        rw [← hk]
        exact hrun'
    · exact ih _ (hn ▸ hlt) hhosts (prefix_of_length hrun (h.path_prefix he) hcase) rfl

/-- **What is stored is closed under shorter runs.** -/
theorem stored_of_prefix {run run' : List U} {slots : List S}
    (hrun : Stored page edges path ns run slots) (hpos : 0 < run'.length)
    (hdvd : page ∣ run'.length)
    (hle : run' <+: run) : ∃ slots', Stored page edges path ns run' slots' := by
  obtain ⟨id, e, he, hns, -, hpath⟩ := h.stored_path_prefix hrun
  exact h.stored_of_prefix_path (.inr ⟨e, he, hns⟩) hpos hdvd (hle.trans hpath)

/-- **Where a node has no child for a page, nothing longer is stored.** -/
theorem not_stored_of_no_child (hid : Hosts edges ns id) {run : List U} {slots : List S}
    (hpath : path id <+: run) (hlong : (path id).length < run.length)
    (hchild : ∀ c e, edges c = some e → e.parent = id → e.ns = ns →
      ¬ path id ++ e.units.take page <+: run) : ¬ Stored page edges path ns run slots := by
  intro hrun
  have hdvd := h.dvd_path hid
  have hle := add_page_le hdvd (h.dvd_of_stored hrun).1 hlong
  have hpage := h.page_pos
  -- the page right below the node
  have hlen : (run.take ((path id).length + page)).length = (path id).length + page := by
    rw [List.length_take, Nat.min_eq_left hle]
  obtain ⟨slots', c, e, k, he, hns, hk, hrun', -⟩ := h.stored_of_prefix hrun (by omega)
    (hlen ▸ Nat.dvd_add hdvd (Nat.dvd_refl page)) (List.take_prefix _ run)
  have hpath' : path id <+: run.take ((path id).length + page) :=
    prefix_of_length hpath (List.take_prefix _ _) (by omega)
  have hparent : path e.parent <+: run.take ((path id).length + page) :=
    hrun' ▸ List.prefix_append _ _
  have hlen' : (path id).length + page = (path e.parent).length + (k + 1) * page := by
    have := congrArg List.length hrun'
    rw [hlen, List.length_append, List.length_take, Nat.min_eq_left hk] at this
    exact this
  rcases Nat.eq_zero_or_pos k with rfl | hkpos
  · rw [Nat.zero_add, Nat.one_mul] at hlen' hrun'
    have heq : path e.parent = path id :=
      (prefix_of_length hparent hpath' (by omega)).eq_of_length (by omega)
    have hsame := h.path_injective (hns ▸ h.hosts_parent he) hid heq
    refine hchild c e he hsame hns ?_
    rw [← heq, ← hrun']
    exact List.take_prefix _ _
  · -- otherwise the node would lie inside an edge
    have hmul : (k + 1) * page = k * page + page := Nat.succ_mul _ _
    have hfirst : path e.parent ++ e.units.take page <+: path id := by
      refine prefix_of_length ?_ hpath' ?_
      · rw [hrun']
        refine (List.prefix_append_right_inj _).mpr
          (List.prefix_take_iff.mpr ⟨List.take_prefix _ _, ?_⟩)
        rw [List.length_take]
        omega
      · rw [h.length_firstPage he]
        have := Nat.le_mul_of_pos_left page hkpos
        omega
    obtain ⟨ei, hei, hnsi⟩ := h.edge_of_path hid (by
      have := hfirst.length_le
      rw [h.length_firstPage he] at this
      omega)
    have hbelow := h.fork he hei (hns.trans hnsi.symm) hfirst
    have hle' := (h.below_prefix hbelow).length_le
    rw [h.length_path he] at hle'
    omega

end Forest

/-! ### Along a run -/

/-- The slots of the pages that a run starts with. -/
structure Along (page : ℕ) (edges : ℕ → Option (Edge N U S)) (path : ℕ → List U) (ns : N)
    (run : List U) (slots : List S) : Prop where
  whole : page ∣ slots.length
  le : slots.length ≤ run.length
  stored : ∀ i, (i + 1) * page ≤ slots.length →
    Stored page edges path ns (run.take ((i + 1) * page)) ((slots.drop (i * page)).take page)

/-- No more pages of the run are stored. -/
def Ends (page : ℕ) (edges : ℕ → Option (Edge N U S)) (path : ℕ → List U) (ns : N) (run : List U)
    (n : ℕ) : Prop :=
  ∀ m, n < m → m ≤ run.length → ∀ slots, ¬ Stored page edges path ns (run.take m) slots

theorem along_nil {page : ℕ} {edges : ℕ → Option (Edge N U S)} {path : ℕ → List U} {ns : N}
    {run : List U} (hpage : 0 < page) : Along page edges path ns run [] where
  whole := ⟨0, rfl⟩
  le := Nat.zero_le _
  stored := fun i hi => by
    have hpos : 0 < (i + 1) * page := Nat.mul_pos i.succ_pos hpage
    rw [List.length_nil] at hi
    omega

namespace Forest
variable {page : ℕ} {edges : ℕ → Option (Edge N U S)} {path : ℕ → List U}
variable (h : Forest page edges path) {id : ℕ} {e : Edge N U S} {ns : N} {run : List U}
include h

/-- Down an edge. -/
theorem along_append {slots : List S} (hslots : Along page edges path ns run slots)
    (hlen : slots.length = (path e.parent).length) (he : edges id = some e) (hns : e.ns = ns)
    (hpath : path id <+: run) : Along page edges path ns run (slots ++ e.slots) := by
  have hslots' := h.slots he
  have hlen' := h.length_path he
  have hle := hpath.length_le
  obtain ⟨q, hq⟩ := hslots.whole
  rw [Nat.mul_comm] at hq
  refine ⟨?_, ?_, ?_⟩
  · rw [List.length_append]
    exact Nat.dvd_add hslots.whole (hslots' ▸ h.whole he)
  · rw [List.length_append]
    omega
  · intro i hi
    rw [List.length_append] at hi
    rcases Nat.lt_or_ge i q with hiq | hiq
    · have hiq' : (i + 1) * page ≤ slots.length := hq ▸ Nat.mul_le_mul_right page hiq
      have hstored := hslots.stored i hiq'
      rw [Nat.succ_mul] at hiq'
      rwa [List.drop_append_of_le_length (by omega),
        List.take_append_of_le_length (by rw [List.length_drop]; omega)]
    · obtain ⟨k, rfl⟩ := Nat.exists_eq_add_of_le hiq
      have hmul : (q + k + 1) * page = slots.length + (k + 1) * page := by rw [hq]; ring
      have hmul' : (q + k) * page = slots.length + k * page := by rw [hq]; ring
      refine ⟨id, e, k, he, hns, by omega, ?_, ?_⟩
      · obtain ⟨rest, rfl⟩ := hpath
        rw [h.path_eq he, List.append_assoc, hmul, hlen, List.take_length_add_append,
          List.take_append_of_le_length (by omega)]
      · rw [hmul', List.drop_length_add_append]

/-- The slots on the way to a node. -/
theorem exists_along (hid : Hosts edges ns id) (hpath : path id <+: run) :
    ∃ slots : List S, slots.length = (path id).length ∧ Along page edges path ns run slots := by
  induction hn : (path id).length using Nat.strong_induction_on generalizing id with
  | _ n ih =>
    rcases hid with rfl | ⟨e, he, hns⟩
    · refine ⟨[], ?_, along_nil h.page_pos⟩
      rw [← hn, h.path_root]
      rfl
    · have hlt := h.parent_lt he
      obtain ⟨slots, hlen, hslots⟩ := ih _ (hn ▸ hlt) (hns ▸ h.hosts_parent he)
        ((h.path_prefix he).trans hpath) rfl
      refine ⟨slots ++ e.slots, ?_, h.along_append hslots hlen he hns hpath⟩
      rw [← hn, List.length_append, hlen, h.length_path he, h.slots he]

/-- Where a node has no child for the next page, the run ends. -/
theorem ends_of_no_child (hid : Hosts edges ns id) (hpath : path id <+: run)
    (hchild : ∀ c e, edges c = some e → e.parent = id → e.ns = ns →
      ¬ path id ++ e.units.take page <+: run) :
    Ends page edges path ns run (path id).length := by
  intro m hm hle slots
  refine h.not_stored_of_no_child hid ?_ ?_ ?_
  · exact List.prefix_take_iff.mpr ⟨hpath, hm.le⟩
  · rw [List.length_take]
    omega
  · exact fun c e he hparent hns hrun =>
      hchild c e he hparent hns (hrun.trans (List.take_prefix _ _))

end Forest

/-! ### Splitting an edge -/

/-- Node `new` takes over the first `n` units of the edge of `child`. -/
def splitEdges (edges : ℕ → Option (Edge N U S)) (child new : ℕ) (e : Edge N U S) (n : ℕ) :
    ℕ → Option (Edge N U S) :=
  Function.update
    (Function.update edges child
      (some { e with parent := new, units := e.units.drop n, slots := e.slots.drop n }))
    new (some { e with units := e.units.take n, slots := e.slots.take n })

def splitPath (path : ℕ → List U) (new : ℕ) (e : Edge N U S) (n : ℕ) : ℕ → List U :=
  Function.update path new (path e.parent ++ e.units.take n)

section Split
variable {page : ℕ} {edges : ℕ → Option (Edge N U S)} {path : ℕ → List U} {child new : ℕ}
variable {e : Edge N U S} {n : ℕ}

theorem splitEdges_new : splitEdges edges child new e n new =
    some { e with units := e.units.take n, slots := e.slots.take n } := Function.update_self ..

theorem splitEdges_child (hne : child ≠ new) : splitEdges edges child new e n child =
    some { e with parent := new, units := e.units.drop n, slots := e.slots.drop n } := by
  rw [splitEdges, Function.update_of_ne hne, Function.update_self]

theorem splitEdges_of_ne {id : ℕ} (hnew : id ≠ new) (hchild : id ≠ child) :
    splitEdges edges child new e n id = edges id := by
  rw [splitEdges, Function.update_of_ne hnew, Function.update_of_ne hchild]

theorem splitPath_of_ne {id : ℕ} (hnew : id ≠ new) : splitPath path new e n id = path id :=
  Function.update_of_ne hnew ..

theorem splitPath_new : splitPath path new e n new = path e.parent ++ e.units.take n :=
  Function.update_self ..

/-- What can be split where. -/
structure Splits (page : ℕ) (edges : ℕ → Option (Edge N U S)) (child new : ℕ) (e : Edge N U S)
    (n : ℕ) : Prop where
  edge : edges child = some e
  fresh : edges new = none
  new_pos : 0 < new
  whole : page ∣ n
  pos : 0 < n
  lt : n < e.units.length

theorem Splits.ne (hs : Splits page edges child new e n) : child ≠ new := by
  rintro rfl
  exact absurd (hs.edge.symm.trans hs.fresh) (Option.some_ne_none e)

theorem Splits.page_le (hs : Splits page edges child new e n) : page ≤ n :=
  Nat.le_of_dvd hs.pos hs.whole

/-- The edges after a split: the two halves, and the old ones. -/
theorem Splits.cases (hs : Splits page edges child new e n) {id : ℕ} {d : Edge N U S}
    (hd : splitEdges edges child new e n id = some d) :
    (id = new ∧ d = { e with units := e.units.take n, slots := e.slots.take n }) ∨
      (id = child ∧
        d = { e with parent := new, units := e.units.drop n, slots := e.slots.drop n }) ∨
      (id ≠ new ∧ id ≠ child ∧ edges id = some d) := by
  by_cases hnew : id = new
  · rw [hnew, splitEdges_new] at hd
    exact .inl ⟨hnew, (Option.some.inj hd).symm⟩
  · by_cases hchild : id = child
    · rw [hchild, splitEdges_child hs.ne] at hd
      exact .inr (.inl ⟨hchild, (Option.some.inj hd).symm⟩)
    · rw [splitEdges_of_ne hnew hchild] at hd
      exact .inr (.inr ⟨hnew, hchild, hd⟩)

/-- A node that hosts a namespace still does. -/
theorem Splits.hosts (hs : Splits page edges child new e n) {ns : N} {id : ℕ}
    (hid : Hosts edges ns id) : Hosts (splitEdges edges child new e n) ns id := by
  rcases hid with rfl | ⟨d, hd, hns⟩
  · exact .inl rfl
  · have hnew : id ≠ new := by
      rintro rfl
      exact absurd (hd.symm.trans hs.fresh) (Option.some_ne_none d)
    by_cases hchild : id = child
    · obtain rfl : e = d := Option.some.inj (hs.edge.symm.trans (hchild ▸ hd))
      subst hchild
      exact .inr ⟨_, splitEdges_child hs.ne, hns⟩
    · exact .inr ⟨d, (splitEdges_of_ne hnew hchild).trans hd, hns⟩

namespace Forest
variable (h : Forest page edges path) (hs : Splits page edges child new e n)
include h hs

theorem parent_ne_new {id : ℕ} {d : Edge N U S} (hd : edges id = some d) : d.parent ≠ new := by
  rintro rfl
  rcases h.parent hd with hzero | ⟨d', hd', -⟩
  · exact hs.new_pos.ne' hzero
  · exact absurd (hd'.symm.trans hs.fresh) (Option.some_ne_none d')

theorem child_ne_zero : child ≠ 0 := by
  rintro rfl
  exact absurd (hs.edge.symm.trans h.root) (Option.some_ne_none e)

/-- **A split keeps the forest.** -/
theorem split : Forest page (splitEdges edges child new e n) (splitPath path new e n) where
  page_pos := h.page_pos
  root := by rw [splitEdges_of_ne hs.new_pos.ne (h.child_ne_zero hs).symm, h.root]
  path_root := by rw [splitPath_of_ne hs.new_pos.ne, h.path_root]
  parent := by
    intro id d hd
    rcases hs.cases hd with ⟨-, rfl⟩ | ⟨-, rfl⟩ | ⟨-, -, hold⟩
    · have hhosts := hs.hosts (h.hosts_parent hs.edge)
      exact hhosts
    · exact .inr ⟨_, splitEdges_new, rfl⟩
    · exact hs.hosts (h.hosts_parent hold)
  path_eq := by
    intro id d hd
    have hparent := h.parent_ne_new hs hs.edge
    rcases hs.cases hd with ⟨rfl, rfl⟩ | ⟨rfl, rfl⟩ | ⟨hnew, -, hold⟩
    · rw [splitPath_new, splitPath_of_ne hparent]
    · rw [splitPath_of_ne hs.ne, splitPath_new, List.append_assoc, List.take_append_drop,
        h.path_eq hs.edge]
    · rw [splitPath_of_ne hnew, splitPath_of_ne (h.parent_ne_new hs hold), h.path_eq hold]
  whole := by
    intro id d hd
    have hlt := hs.lt
    rcases hs.cases hd with ⟨-, rfl⟩ | ⟨-, rfl⟩ | ⟨-, -, hold⟩
    · simpa only [List.length_take, Nat.min_eq_left hlt.le] using hs.whole
    · simpa only [List.length_drop] using Nat.dvd_sub (h.whole hs.edge) hs.whole
    · exact h.whole hold
  nonempty := by
    intro id d hd
    have hlt := hs.lt
    have hpos := hs.pos
    rcases hs.cases hd with ⟨-, rfl⟩ | ⟨-, rfl⟩ | ⟨-, -, hold⟩
    · simp only [List.length_take]
      omega
    · simp only [List.length_drop]
      omega
    · exact h.nonempty hold
  slots := by
    intro id d hd
    have hslots := h.slots hs.edge
    rcases hs.cases hd with ⟨-, rfl⟩ | ⟨-, rfl⟩ | ⟨-, -, hold⟩
    · simp only [List.length_take, hslots]
    · simp only [List.length_drop, hslots]
    · exact h.slots hold
  branch := by
    intro a b ea eb ha hb hparent hns hpages
    have hnot := h.parent_ne_new hs hs.edge
    have htake : (e.units.take n).take page = e.units.take page := by
      rw [List.take_take, Nat.min_eq_left (hs.page_le)]
    rcases hs.cases ha with ⟨rfl, rfl⟩ | ⟨rfl, rfl⟩ | ⟨hnew, hchild, hold⟩ <;>
      rcases hs.cases hb with ⟨rfl, rfl⟩ | ⟨rfl, rfl⟩ | ⟨hnew', hchild', hold'⟩
    · rfl
    · exact absurd hparent hnot
    · exact absurd (h.branch hs.edge hold' hparent hns (htake ▸ hpages)) hchild'.symm
    · exact absurd hparent.symm hnot
    · rfl
    · exact absurd hparent.symm (h.parent_ne_new hs hold')
    · exact absurd (h.branch hold hs.edge hparent hns (htake ▸ hpages)) hchild
    · exact absurd hparent (h.parent_ne_new hs hold)
    · exact h.branch hold hold' hparent hns hpages

/-- **A split changes nothing that is stored.** -/
theorem stored_split_iff {ns : N} {run : List U} {slots : List S} :
    Stored page (splitEdges edges child new e n) (splitPath path new e n) ns run slots ↔
      Stored page edges path ns run slots := by
  have hparent := h.parent_ne_new hs hs.edge
  have hlt := hs.lt
  obtain ⟨q, hq⟩ := hs.whole
  rw [Nat.mul_comm] at hq
  constructor
  · rintro ⟨id, d, k, hd, hns, hk, hrun, hslots⟩
    rcases hs.cases hd with ⟨rfl, rfl⟩ | ⟨rfl, rfl⟩ | ⟨hnew, hchild, hold⟩
    · -- a page of the upper half
      simp only [List.length_take] at hk
      have hkn : k * page + page ≤ n := Nat.succ_mul k page ▸ (by omega : (k + 1) * page ≤ n)
      refine ⟨child, e, k, hs.edge, hns, by omega, ?_, ?_⟩
      · rw [hrun, splitPath_of_ne hparent, List.take_take, Nat.min_eq_left (by omega)]
      · rw [hslots, List.drop_take, List.take_take, Nat.min_eq_left (by omega)]
    · -- a page of the lower half
      simp only [List.length_drop] at hk
      have hmul : (q + k + 1) * page = n + (k + 1) * page := by rw [hq]; ring
      have hmul' : (q + k) * page = n + k * page := by rw [hq]; ring
      refine ⟨id, e, q + k, hs.edge, hns, by omega, ?_, ?_⟩
      · rw [hrun, splitPath_new, List.append_assoc, hmul, List.take_add]
      · rw [hslots, List.drop_drop, hmul']
    · refine ⟨id, d, k, hold, hns, hk, ?_, hslots⟩
      rw [hrun, splitPath_of_ne (h.parent_ne_new hs hold)]
  · rintro ⟨id, d, k, hd, hns, hk, hrun, hslots⟩
    by_cases hchild : id = child
    · subst hchild
      obtain rfl : e = d := Option.some.inj (hs.edge.symm.trans hd)
      rcases Nat.lt_or_ge k q with hkq | hkq
      · have hkn : (k + 1) * page ≤ n := hq ▸ Nat.mul_le_mul_right page hkq
        have hkn' : k * page + page ≤ n := Nat.succ_mul k page ▸ hkn
        refine ⟨new, _, k, splitEdges_new, hns, ?_, ?_, ?_⟩
        · simp only [List.length_take]
          omega
        · rw [hrun, splitPath_of_ne hparent, List.take_take, Nat.min_eq_left hkn]
        · rw [hslots, List.drop_take, List.take_take, Nat.min_eq_left (by omega)]
      · obtain ⟨j, rfl⟩ := Nat.exists_eq_add_of_le hkq
        have hmul : (q + j + 1) * page = n + (j + 1) * page := by rw [hq]; ring
        have hmul' : (q + j) * page = n + j * page := by rw [hq]; ring
        refine ⟨id, _, j, splitEdges_child hs.ne, hns, ?_, ?_, ?_⟩
        · simp only [List.length_drop]
          omega
        · rw [hrun, splitPath_new, List.append_assoc, hmul, List.take_add]
        · rw [hslots, List.drop_drop, hmul']
    · have hnew : id ≠ new := by
        rintro rfl
        exact absurd (hd.symm.trans hs.fresh) (Option.some_ne_none d)
      refine ⟨id, d, k, (splitEdges_of_ne hnew hchild).trans hd, hns, hk, ?_, hslots⟩
      rw [hrun, splitPath_of_ne (h.parent_ne_new hs hd)]

/-- Old nodes are above each other as before. -/
theorem below_split {a b : ℕ} (ha : a ≠ new) (hb : b ≠ new) :
    Below (splitEdges edges child new e n) a b ↔ Below edges a b := by
  have hparent := h.parent_ne_new hs hs.edge
  constructor
  · intro hbelow
    have hboth : (b ≠ new → Below edges a b) ∧ (b = new → Below edges a e.parent) := by
      clear hb
      induction hbelow with
      | refl => exact ⟨fun _ => .refl, fun heq => absurd heq ha⟩
      | step hd _ ih =>
        rcases hs.cases hd with ⟨rfl, rfl⟩ | ⟨rfl, rfl⟩ | ⟨hnew, -, hold⟩
        · exact ⟨fun hne => absurd rfl hne, fun _ => ih.1 hparent⟩
        · exact ⟨fun _ => .step hs.edge (ih.2 rfl), fun heq => absurd heq hs.ne⟩
        · exact ⟨fun _ => .step hold (ih.1 (h.parent_ne_new hs hold)), fun heq => absurd heq hnew⟩
    exact hboth.1 hb
  · intro hbelow
    induction hbelow with
    | refl => exact .refl
    | @step b d hd _ ih =>
      have ih' := ih (h.parent_ne_new hs hd)
      by_cases hchild : b = child
      · subst hchild
        obtain rfl : e = d := Option.some.inj (hs.edge.symm.trans hd)
        exact .step (splitEdges_child hs.ne) (.step splitEdges_new ih')
      · exact .step ((splitEdges_of_ne hb hchild).trans hd) ih'

/-- The new node is above what its child is above. -/
theorem below_split_new {b : ℕ} (hb : b ≠ new) :
    Below (splitEdges edges child new e n) new b ↔ Below edges child b := by
  constructor
  · intro hbelow
    induction hbelow with
    | refl => exact absurd rfl hb
    | @step b d hd hup ih =>
      rcases hs.cases hd with ⟨rfl, rfl⟩ | ⟨rfl, rfl⟩ | ⟨hnew, -, hold⟩
      · exact absurd rfl hb
      · exact .refl
      · exact .step hold (ih (h.parent_ne_new hs hold))
  · intro hbelow
    induction hbelow with
    | refl => exact .step (splitEdges_child hs.ne) .refl
    | @step b d hd _ ih =>
      have ih' := ih (h.parent_ne_new hs hd)
      by_cases hchild : b = child
      · subst hchild
        exact .step (splitEdges_child hs.ne) .refl
      · exact .step ((splitEdges_of_ne hb hchild).trans hd) ih'

end Forest

end Split

/-! ### Leaves -/

section Leaf
variable {page : ℕ} {edges : ℕ → Option (Edge N U S)} {path : ℕ → List U} {leaf : ℕ}
variable {e : Edge N U S}

/-- What can become a leaf where. -/
structure Grows (page : ℕ) (edges : ℕ → Option (Edge N U S)) (leaf : ℕ) (e : Edge N U S) :
    Prop where
  fresh : edges leaf = none
  leaf_pos : 0 < leaf
  hosts : Hosts edges e.ns e.parent
  whole : page ∣ e.units.length
  nonempty : 0 < e.units.length
  slots : e.slots.length = e.units.length
  branch : ∀ {c d}, edges c = some d → d.parent = e.parent → d.ns = e.ns →
    d.units.take page ≠ e.units.take page

/-- A leaf: a node that is nobody's parent. -/
structure IsLeaf (edges : ℕ → Option (Edge N U S)) (leaf : ℕ) (e : Edge N U S) : Prop where
  edge : edges leaf = some e
  childless : ∀ {c d}, edges c = some d → d.parent ≠ leaf

/-- Whether a run ends in an edge. -/
def EndsIn (page : ℕ) (path : ℕ → List U) (e : Edge N U S) (ns : N) (run : List U)
    (slots : List S) : Prop :=
  e.ns = ns ∧ ∃ k, (k + 1) * page ≤ e.units.length ∧
    run = path e.parent ++ e.units.take ((k + 1) * page) ∧
    slots = (e.slots.drop (k * page)).take page

/-- A node that is nobody's parent can change without changing what is above what. -/
theorem below_update {x : Option (Edge N U S)} (hleaf : ∀ {c d}, edges c = some d → d.parent ≠ leaf)
    {a b : ℕ} (hb : b ≠ leaf) : Below (Function.update edges leaf x) a b ↔ Below edges a b := by
  constructor
  · intro hbelow
    induction hbelow with
    | refl => exact .refl
    | step hd _ ih =>
      rw [Function.update_of_ne hb] at hd
      exact .step hd (ih (hleaf hd))
  · intro hbelow
    induction hbelow with
    | refl => exact .refl
    | step hd _ ih => exact .step ((Function.update_of_ne hb ..).trans hd) (ih (hleaf hd))

theorem Grows.parent_ne (hg : Grows page edges leaf e) : e.parent ≠ leaf := by
  intro heq
  rcases hg.hosts with hzero | ⟨d', hd', -⟩
  · exact hg.leaf_pos.ne' (heq.symm.trans hzero)
  · exact absurd ((heq ▸ hd').symm.trans hg.fresh) (Option.some_ne_none d')

namespace Forest
variable (h : Forest page edges path)
include h

theorem childless_fresh (hg : Grows page edges leaf e) {c : ℕ} {d : Edge N U S}
    (hd : edges c = some d) : d.parent ≠ leaf := by
  rintro rfl
  rcases h.parent hd with hzero | ⟨d', hd', -⟩
  · exact hg.leaf_pos.ne' hzero
  · exact absurd (hd'.symm.trans hg.fresh) (Option.some_ne_none d')

/-- **A new leaf keeps the forest.** -/
theorem addLeaf (hg : Grows page edges leaf e) :
    Forest page (Function.update edges leaf (some e))
      (Function.update path leaf (path e.parent ++ e.units)) := by
  have hne := hg.parent_ne
  have hold : ∀ {c d}, c ≠ leaf → Function.update edges leaf (some e) c = some d →
      edges c = some d := fun hc hd => (Function.update_of_ne hc ..).symm.trans hd
  have hnew : ∀ {d}, Function.update edges leaf (some e) leaf = some d → e = d := by
    intro d hd
    rw [Function.update_self] at hd
    exact Option.some.inj hd
  have hhosts : ∀ {ns c}, Hosts edges ns c → Hosts (Function.update edges leaf (some e)) ns c := by
    rintro ns c (rfl | ⟨d, hd, hns⟩)
    · exact .inl rfl
    · refine .inr ⟨d, (Function.update_of_ne ?_ ..).trans hd, hns⟩
      rintro rfl
      exact absurd (hd.symm.trans hg.fresh) (Option.some_ne_none d)
  refine ⟨h.page_pos, ?_, ?_, ?_, ?_, ?_, ?_, ?_, ?_⟩
  · rw [Function.update_of_ne hg.leaf_pos.ne, h.root]
  · rw [Function.update_of_ne hg.leaf_pos.ne, h.path_root]
  · intro c d hd
    by_cases hc : c = leaf
    · obtain rfl := hnew (hc ▸ hd)
      exact hhosts hg.hosts
    · exact hhosts (h.parent (hold hc hd))
  · intro c d hd
    by_cases hc : c = leaf
    · subst hc
      obtain rfl := hnew hd
      rw [Function.update_self, Function.update_of_ne hne]
    · rw [Function.update_of_ne hc, Function.update_of_ne (h.childless_fresh hg (hold hc hd)),
        h.path_eq (hold hc hd)]
  · intro c d hd
    by_cases hc : c = leaf
    · exact hnew (hc ▸ hd) ▸ hg.whole
    · exact h.whole (hold hc hd)
  · intro c d hd
    by_cases hc : c = leaf
    · exact hnew (hc ▸ hd) ▸ hg.nonempty
    · exact h.nonempty (hold hc hd)
  · intro c d hd
    by_cases hc : c = leaf
    · exact hnew (hc ▸ hd) ▸ hg.slots
    · exact h.slots (hold hc hd)
  · intro c c' d d' hd hd' hparent hns hpages
    by_cases hc : c = leaf <;> by_cases hc' : c' = leaf
    · rw [hc, hc']
    · obtain rfl := hnew (hc ▸ hd)
      exact absurd hpages.symm (hg.branch (hold hc' hd') hparent.symm hns.symm)
    · obtain rfl := hnew (hc' ▸ hd')
      exact absurd hpages (hg.branch (hold hc hd) hparent hns)
    · exact h.branch (hold hc hd) (hold hc' hd') hparent hns hpages

/-- **A new leaf stores its own pages besides.** -/
theorem stored_addLeaf_iff (hg : Grows page edges leaf e) {ns : N} {run : List U} {slots : List S} :
    Stored page (Function.update edges leaf (some e))
        (Function.update path leaf (path e.parent ++ e.units)) ns run slots ↔
      Stored page edges path ns run slots ∨ EndsIn page path e ns run slots := by
  have hne := hg.parent_ne
  constructor
  · rintro ⟨id, d, k, hd, hns, hk, hrun, hslots⟩
    by_cases hid : id = leaf
    · subst hid
      rw [Function.update_self] at hd
      obtain rfl : e = d := Option.some.inj hd
      rw [Function.update_of_ne hne] at hrun
      exact .inr ⟨hns, k, hk, hrun, hslots⟩
    · rw [Function.update_of_ne hid] at hd
      rw [Function.update_of_ne (h.childless_fresh hg hd)] at hrun
      exact .inl ⟨id, d, k, hd, hns, hk, hrun, hslots⟩
  · rintro (⟨id, d, k, hd, hns, hk, hrun, hslots⟩ | ⟨hns, k, hk, hrun, hslots⟩)
    · have hid : id ≠ leaf := by
        rintro rfl
        exact absurd (hd.symm.trans hg.fresh) (Option.some_ne_none d)
      refine ⟨id, d, k, (Function.update_of_ne hid ..).trans hd, hns, hk, ?_, hslots⟩
      rw [Function.update_of_ne (h.childless_fresh hg hd), hrun]
    · refine ⟨leaf, e, k, Function.update_self .., hns, hk, ?_, hslots⟩
      rw [Function.update_of_ne hne, hrun]

/-- **A forest without one of its leaves.** -/
theorem removeLeaf (hl : IsLeaf edges leaf e) :
    Forest page (Function.update edges leaf none) path := by
  have hold : ∀ {c d}, Function.update edges leaf none c = some d → c ≠ leaf ∧
    edges c = some d := by
    intro c d hd
    by_cases hc : c = leaf
    · rw [hc, Function.update_self] at hd
      exact absurd hd.symm (Option.some_ne_none d)
    · exact ⟨hc, (Function.update_of_ne hc ..).symm.trans hd⟩
  have hleaf : leaf ≠ 0 := by
    rintro rfl
    exact absurd (hl.edge.symm.trans h.root) (Option.some_ne_none e)
  refine ⟨h.page_pos, ?_, h.path_root, ?_, ?_, ?_, ?_, ?_, ?_⟩
  · rw [Function.update_of_ne hleaf.symm, h.root]
  · intro c d hd
    rcases h.parent (hold hd).2 with hzero | ⟨d', hd', hns⟩
    · exact .inl hzero
    · exact .inr ⟨d', (Function.update_of_ne (hl.childless (hold hd).2) ..).trans hd', hns⟩
  · exact fun hd => h.path_eq (hold hd).2
  · exact fun hd => h.whole (hold hd).2
  · exact fun hd => h.nonempty (hold hd).2
  · exact fun hd => h.slots (hold hd).2
  · exact fun hd hd' hparent hns hpages => h.branch (hold hd).2 (hold hd').2 hparent hns hpages

/-- **With a leaf go its pages.** -/
theorem stored_removeLeaf_iff (hl : IsLeaf edges leaf e) {ns : N} {run : List U} {slots : List S} :
    Stored page (Function.update edges leaf none) path ns run slots ↔
      Stored page edges path ns run slots ∧ ¬ EndsIn page path e ns run slots := by
  constructor
  · rintro ⟨id, d, k, hd, hns, hk, hrun, hslots⟩
    have hid : id ≠ leaf := by
      rintro rfl
      rw [Function.update_self] at hd
      exact absurd hd.symm (Option.some_ne_none d)
    rw [Function.update_of_ne hid] at hd
    refine ⟨⟨id, d, k, hd, hns, hk, hrun, hslots⟩, ?_⟩
    rintro ⟨hns', k', hk', hrun', -⟩
    exact hid (h.place_unique hd hl.edge (hns.trans hns'.symm) hk hk' (hrun.symm.trans hrun')).1
  · rintro ⟨⟨id, d, k, hd, hns, hk, hrun, hslots⟩, hnot⟩
    have hid : id ≠ leaf := by
      rintro rfl
      obtain rfl : e = d := Option.some.inj (hl.edge.symm.trans hd)
      exact hnot ⟨hns, k, hk, hrun, hslots⟩
    exact ⟨id, d, k, (Function.update_of_ne hid ..).trans hd, hns, hk, hrun, hslots⟩

end Forest

end Leaf

end PageForest
