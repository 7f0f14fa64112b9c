import Mathlib.Data.List.Forall2
import Mathlib.Algebra.Order.Group.Nat
import Mathlib.Tactic.Ring

/-! # Bytes of fixed layout

Numbers in little-endian bytes, records of such numbers (Python's `struct` without padding), arrays
of elements of one width (`tobytes` and `frombuffer`), and where in a buffer something is stored.
Each encoding has its round trip, and what is stored stays stored when the buffer grows.
-/
namespace ByteLayout

/-! ### Numbers -/

/-- The `w` little-endian bytes of a number. -/
def leBytes : ℕ → ℕ → List UInt8
  | 0, _ => []
  | w + 1, n => UInt8.ofNat n :: leBytes w (n / 256)

def leNat : List UInt8 → ℕ
  | [] => 0
  | b :: bytes => b.toNat + 256 * leNat bytes

@[simp] theorem length_leBytes (w n : ℕ) : (leBytes w n).length = w := by
  induction w generalizing n with
  | zero => rfl
  | succ w ih => rw [leBytes, List.length_cons, ih]

theorem leNat_leBytes {w n : ℕ} (h : n < 256 ^ w) : leNat (leBytes w n) = n := by
  induction w generalizing n with
  | zero =>
    rw [pow_zero] at h
    exact (Nat.lt_one_iff.mp h).symm
  | succ w ih =>
    have hdiv : n / 256 < 256 ^ w := by
      rw [Nat.div_lt_iff_lt_mul (by decide), ← pow_succ]
      exact h
    rw [leBytes, leNat, ih hdiv, UInt8.toNat_ofNat']
    exact Nat.mod_add_div n (2 ^ 8)

/-! ### Records -/

/-- `struct.pack` of fields with these widths; `none` when a value does not fit. -/
def pack : List ℕ → List ℕ → Option (List UInt8)
  | [], [] => some []
  | w :: widths, v :: values =>
    if v < 256 ^ w then (pack widths values).map (leBytes w v ++ ·) else none
  | _, _ => none

def unpack : List ℕ → List UInt8 → List ℕ
  | [], _ => []
  | w :: widths, bytes => leNat (bytes.take w) :: unpack widths (bytes.drop w)

/-- `struct.unpack_from`; `none` when the buffer is too short. -/
def unpackFrom (widths : List ℕ) (buffer : List UInt8) (offset : ℕ) : Option (List ℕ) :=
  if offset + widths.sum ≤ buffer.length then some (unpack widths (buffer.drop offset)) else none

theorem length_pack {widths values : List ℕ} {bytes : List UInt8}
    (h : pack widths values = some bytes) : bytes.length = widths.sum := by
  induction widths generalizing values bytes with
  | nil =>
    cases values with
    | nil =>
      cases h
      rfl
    | cons => cases h
  | cons w widths ih =>
    cases values with
    | nil => cases h
    | cons v values =>
      rw [pack] at h
      split_ifs at h
      obtain ⟨rest, hrest, rfl⟩ := Option.map_eq_some_iff.mp h
      rw [List.length_append, length_leBytes, ih hrest, List.sum_cons]

/-- A packed record reads back, whatever stands behind it. -/
theorem unpack_pack {widths values : List ℕ} {bytes : List UInt8}
    (h : pack widths values = some bytes) (after : List UInt8) :
    unpack widths (bytes ++ after) = values := by
  induction widths generalizing values bytes with
  | nil =>
    cases values with
    | nil => rfl
    | cons => cases h
  | cons w widths ih =>
    cases values with
    | nil => cases h
    | cons v values =>
      rw [pack] at h
      split_ifs at h with hv
      obtain ⟨rest, hrest, rfl⟩ := Option.map_eq_some_iff.mp h
      have hlen : (leBytes w v).length = w := length_leBytes w v
      rw [unpack, List.append_assoc, List.take_left' hlen, List.drop_left' hlen, leNat_leBytes hv,
        ih hrest]

/-- A record can be packed exactly if every value fits its field. -/
theorem exists_pack_iff {widths values : List ℕ} :
    (∃ bytes, pack widths values = some bytes) ↔
      List.Forall₂ (fun w v => v < 256 ^ w) widths values := by
  induction widths generalizing values with
  | nil => cases values <;> simp [pack]
  | cons w widths ih =>
    cases values with
    | nil => simp [pack]
    | cons v values =>
      rw [List.forall₂_cons, ← ih, pack]
      split_ifs with hv
      · simp only [Option.map_eq_some_iff]
        exact ⟨fun ⟨_, rest, hrest, _⟩ => ⟨hv, rest, hrest⟩, fun ⟨_, rest, hrest⟩ =>
          ⟨_, rest, hrest, rfl⟩⟩
      · constructor
        · rintro ⟨bytes, h⟩
          exact nomatch h
        · exact fun h => absurd h.1 hv

/-- What is computed for each element of a list, element by element. -/
theorem mapM_eq_some_iff {α β : Type*} {f : α → Option β} {xs : List α} {ys : List β} :
    xs.mapM f = some ys ↔ List.Forall₂ (fun x y => f x = some y) xs ys := by
  induction xs generalizing ys with
  | nil =>
    rw [List.mapM_nil, List.forall₂_nil_left_iff]
    exact ⟨fun h => (Option.some.inj h).symm, fun h => congrArg some h.symm⟩
  | cons x xs ih =>
    rw [List.mapM_cons, List.forall₂_cons_left_iff]
    constructor
    · intro h
      obtain ⟨y, hy, hrest⟩ := Option.bind_eq_some_iff.mp h
      obtain ⟨ys', hys', heq⟩ := Option.bind_eq_some_iff.mp hrest
      exact ⟨y, ys', hy, ih.mp hys', (Option.some.inj heq).symm⟩
    · rintro ⟨y, ys', hy, hys', rfl⟩
      rw [hy, ih.mpr hys']
      rfl

theorem exists_mapM_forall₂ {α β : Type*} {f : α → Option β} {P : α → β → Prop} {xs : List α}
    (h : ∀ x ∈ xs, ∃ y, f x = some y ∧ P x y) :
    ∃ ys, xs.mapM f = some ys ∧ List.Forall₂ P xs ys := by
  induction xs with
  | nil => exact ⟨[], rfl, .nil⟩
  | cons x xs ih =>
    obtain ⟨y, hy, hP⟩ := h x List.mem_cons_self
    obtain ⟨ys, hys, hPs⟩ := ih fun x' hx' => h x' (List.mem_cons_of_mem _ hx')
    exact ⟨y :: ys, by rw [List.mapM_cons, hy, hys]; rfl, .cons hP hPs⟩

theorem exists_mapM {α β : Type*} {f : α → Option β} {xs : List α}
    (h : ∀ x ∈ xs, ∃ y, f x = some y) : ∃ ys, xs.mapM f = some ys := by
  obtain ⟨ys, hys, -⟩ := exists_mapM_forall₂ (P := fun _ _ => True) fun x hx =>
    (h x hx).imp fun _ hy => ⟨hy, trivial⟩
  exact ⟨ys, hys⟩

/-! ### What a buffer stores -/

/-- The buffer holds `piece` at `offset`. -/
def StoredAt (buffer : List UInt8) (offset : ℕ) (piece : List UInt8) : Prop :=
  ∃ before after, buffer = before ++ piece ++ after ∧ before.length = offset

theorem StoredAt.le_length {buffer piece : List UInt8} {offset : ℕ}
    (h : StoredAt buffer offset piece) : offset + piece.length ≤ buffer.length := by
  obtain ⟨before, after, rfl, rfl⟩ := h
  rw [List.length_append, List.length_append]
  exact Nat.le_add_right _ _

theorem StoredAt.append {buffer piece : List UInt8} {offset : ℕ} (h : StoredAt buffer offset piece)
    (more : List UInt8) : StoredAt (buffer ++ more) offset piece := by
  obtain ⟨before, after, rfl, hlen⟩ := h
  exact ⟨before, after ++ more, (List.append_assoc ..), hlen⟩

theorem StoredAt.drop {buffer piece : List UInt8} {offset : ℕ}
    (h : StoredAt buffer offset piece) : ∃ after, buffer.drop offset = piece ++ after := by
  obtain ⟨before, after, rfl, rfl⟩ := h
  exact ⟨after, by rw [List.append_assoc, List.drop_left]⟩

/-- A record stored in a buffer is read at its offset. -/
theorem StoredAt.unpackFrom {widths values : List ℕ} {buffer bytes : List UInt8} {offset : ℕ}
    (h : StoredAt buffer offset bytes) (hpack : pack widths values = some bytes) :
    unpackFrom widths buffer offset = some values := by
  have hle := h.le_length
  rw [length_pack hpack] at hle
  obtain ⟨after, hdrop⟩ := h.drop
  rw [ByteLayout.unpackFrom, if_pos hle, hdrop, unpack_pack hpack]

/-- Of equally long chunks, each is stored at a multiple of the length. -/
theorem storedAt_flatMap {α : Type*} (chunk : α → List UInt8) {size : ℕ} {xs : List α}
    (hsize : ∀ x ∈ xs, (chunk x).length = size) {i : ℕ} {x : α} (hx : xs[i]? = some x) :
    StoredAt (xs.flatMap chunk) (i * size) (chunk x) := by
  obtain ⟨hi, rfl⟩ := List.getElem?_eq_some_iff.mp hx
  refine ⟨(xs.take i).flatMap chunk, (xs.drop (i + 1)).flatMap chunk, ?_, ?_⟩
  · conv_lhs => rw [← List.take_append_drop i xs, List.drop_eq_getElem_cons hi]
    rw [List.flatMap_append, List.flatMap_cons, List.append_assoc]
  · have hlen : ∀ ys : List α, (∀ y ∈ ys, (chunk y).length = size) →
        (ys.flatMap chunk).length = ys.length * size := by
      intro ys hys
      induction ys with
      | nil => simp
      | cons y ys ih =>
        rw [List.flatMap_cons, List.length_append, hys y List.mem_cons_self,
          ih fun z hz => hys z (List.mem_cons_of_mem _ hz), List.length_cons]
        ring
    rw [hlen _ fun y hy => hsize y (List.mem_of_mem_take hy), List.length_take,
      Nat.min_eq_left hi.le]

/-! ### Arrays -/

variable {w : ℕ}

/-- `tobytes` of an array of elements of `w` bytes. -/
def toBytes (xs : List (BitVec (8 * w))) : List UInt8 :=
  xs.flatMap fun x => leBytes w x.toNat

def readElems (w : ℕ) : ℕ → List UInt8 → List (BitVec (8 * w))
  | 0, _ => []
  | count + 1, bytes =>
    BitVec.ofNat (8 * w) (leNat (bytes.take w)) :: readElems w count (bytes.drop w)

/-- `np.frombuffer`; `none` when the buffer is too short. -/
def fromBuffer (w count offset : ℕ) (buffer : List UInt8) : Option (List (BitVec (8 * w))) :=
  if offset + count * w ≤ buffer.length then some (readElems w count (buffer.drop offset))
  else none

theorem length_toBytes (xs : List (BitVec (8 * w))) : (toBytes xs).length = xs.length * w := by
  induction xs with
  | nil => simp [toBytes]
  | cons x xs ih =>
    rw [toBytes, List.flatMap_cons, List.length_append, length_leBytes, ← toBytes, ih,
      List.length_cons]
    ring

theorem readElems_toBytes (xs : List (BitVec (8 * w))) (after : List UInt8) :
    readElems w xs.length (toBytes xs ++ after) = xs := by
  induction xs with
  | nil => rfl
  | cons x xs ih =>
    have hlen : (leBytes w x.toNat).length = w := length_leBytes w x.toNat
    have hx : x.toNat < 256 ^ w := by
      have := x.isLt
      rwa [pow_mul] at this
    rw [toBytes, List.flatMap_cons, ← toBytes, List.append_assoc, List.length_cons, readElems,
      List.take_left' hlen, List.drop_left' hlen, ih, leNat_leBytes hx, BitVec.ofNat_toNat,
      BitVec.setWidth_eq]

/-- An array stored in a buffer is read at its offset. -/
theorem StoredAt.fromBuffer {xs : List (BitVec (8 * w))} {buffer : List UInt8} {offset : ℕ}
    (h : StoredAt buffer offset (toBytes xs)) :
    fromBuffer w xs.length offset buffer = some xs := by
  have hle := h.le_length
  rw [length_toBytes] at hle
  obtain ⟨after, hdrop⟩ := h.drop
  rw [ByteLayout.fromBuffer, if_pos hle, hdrop, readElems_toBytes]

end ByteLayout
