import LatentSpec.PrefixSearch

/-! # Keys of the radix cache

A key is a run of tokens in a namespace, which is an extra key and a salt.  In bigram mode its
units are the pairs of neighbouring tokens, held as the raw tokens; slices of it share the token
between them.  `units` is what a key stands for: slices are slices of it (`units_slice`), `match`
is the common prefix of two of it in whole pages (`match_eq`), and the key of a child in its
parent's dictionary says the namespace and the first page, and nothing else (`childKey_inj`).
-/
namespace LatentSpec
open PrefixSearch

/-- The values that make up a dictionary key: Python's `None`, integers, strings and tuples. -/
inductive PyValue
  | none
  | int (n : ℤ)
  | str (s : String)
  | emptyTuple
  | tupleCons (head tail : PyValue)
  deriving DecidableEq

def PyValue.tuple : List PyValue → PyValue
  | [] => emptyTuple
  | v :: vs => tupleCons v (tuple vs)

def PyValue.ofOption : Option String → PyValue
  | .none => .none
  | .some s => .str s

/-- What a radix cache raises. -/
inductive RadixError
  | indexError
  | extraKeyMismatch (self other : Option String)
  | cacheSaltMismatch (self other : Option String)
  /-- an attribute of `None` where a parent was expected -/
  | noParent
  /-- `assert v == node, "parent does not have child key"` -/
  | notChild

structure RadixKey where
  tokenIds : List ℤ
  extraKey : Option String
  cacheSalt : Option String
  isBigram : Bool
  limit : Option ℕ
  /-- `cache_salt or None` -/
  cacheSalt_ne : cacheSalt ≠ some ""

namespace RadixKey
variable (k : RadixKey)

/-- `_raw_len` -/
def rawLen : ℕ :=
  match k.limit with
  | some limit => if limit < k.tokenIds.length then limit else k.tokenIds.length
  | none => k.tokenIds.length

/-- `__len__` -/
def len : ℕ := if k.isBigram then (if 0 < k.rawLen then k.rawLen - 1 else 0) else k.rawLen

/-- `__iter__`: a token, or a token and the next one. -/
def units : List (ℤ × Option ℤ) :=
  let raw := k.tokenIds.take k.rawLen
  if k.isBigram then (pairs raw).map fun p => (p.1, some p.2) else raw.map fun t => (t, none)

/-- `self[start:stop]` for non-negative bounds. -/
def getSlice (start stop : ℕ) : RadixKey :=
  let start := min start k.len
  let stop := min stop k.len
  let tokenIds :=
    if k.isBigram then
      if start < stop then (k.tokenIds.take (stop + 1)).drop start else []
    else (k.tokenIds.take stop).drop start
  { k with tokenIds := tokenIds, limit := none }

/-- `self[:n]` -/
def take (n : ℕ) : RadixKey := k.getSlice 0 n

/-- `self[n:]` -/
def drop (n : ℕ) : RadixKey := k.getSlice n k.len

def pageAligned (pageSize : ℕ) : RadixKey :=
  if pageSize = 1 then k else k.take (k.len / pageSize * pageSize)

/-- `maybe_to_bigram_view`, for the key. -/
def toBigramView (isEagle : Bool) : RadixKey :=
  if isEagle && !k.isBigram then { k with isBigram := true } else k

/-- `_check_compatible` -/
def checkCompatible (other : RadixKey) : Except RadixError Unit :=
  if k.extraKey ≠ other.extraKey then throw (.extraKeyMismatch k.extraKey other.extraKey)
  else if k.cacheSalt ≠ other.cacheSalt then throw (.cacheSaltMismatch k.cacheSalt other.cacheSalt)
  else pure ()

/-- `match` -/
def matchLen (other : RadixKey) (pageSize : ℕ) : Except RadixError ℕ := do
  k.checkCompatible other
  let n := min k.tokenIds.length other.tokenIds.length
  let matchedTokens := gallop k.tokenIds other.tokenIds n n 0 1
  if k.isBigram then
    let matched := max 0 (min (min (matchedTokens - 1) k.len) other.len)
    return if 1 < pageSize then matched / pageSize * pageSize else matched
  let matchedTokens := min (min matchedTokens k.len) other.len
  if pageSize = 1 then return matchedTokens
  return matchedTokens / pageSize * pageSize

/-- `t[i]` -/
def tokenAt (i : ℕ) : Except RadixError PyValue :=
  match k.tokenIds[i]? with
  | some t => pure (.int t)
  | none => throw .indexError

/-- The `plain` part of `child_key`. -/
def plainChildKey (pageSize : ℕ) : Except RadixError PyValue :=
  if k.isBigram then
    if pageSize = 1 then do return .tuple [← k.tokenAt 0, ← k.tokenAt 1]
    else do
      let tuples ← (List.range pageSize).mapM fun j => do
        return PyValue.tuple [← k.tokenAt j, ← k.tokenAt (j + 1)]
      return .tuple tuples
  else if pageSize = 1 then k.tokenAt 0
  else pure (.tuple ((k.tokenIds.take pageSize).map .int))

/-- `child_key` -/
def childKey (pageSize : ℕ) : Except RadixError PyValue := do
  let plain ← k.plainChildKey pageSize
  match k.cacheSalt, k.extraKey with
  | some salt, _ => return .tuple [.tuple [.ofOption k.extraKey, .str salt], plain]
  | none, none => return plain
  | none, some extraKey => return .tuple [.str extraKey, plain]

/-! ### Units -/

/-- The namespace of a key. -/
def namespaceOf : Option String × Option String := (k.extraKey, k.cacheSalt)

variable {k}

theorem rawLen_le : k.rawLen ≤ k.tokenIds.length := by
  unfold rawLen
  split
  · split <;> omega
  · exact le_rfl

theorem len_le : k.len ≤ k.tokenIds.length := by
  have hraw := k.rawLen_le
  unfold len
  split
  · split <;> omega
  · exact hraw

theorem length_units : k.units.length = k.len := by
  have hle := k.rawLen_le
  unfold units len
  dsimp only
  cases k.isBigram with
  | true =>
    rw [if_pos rfl, if_pos rfl, List.length_map, length_pairs, List.length_take]
    split <;> omega
  | false =>
    simp only [Bool.false_eq_true, if_false, List.length_map, List.length_take]
    omega

theorem units_getSlice (start stop : ℕ) :
    (k.getSlice start stop).units = (k.units.take stop).drop start := by
  have hraw := k.rawLen_le
  have hlen := k.length_units
  -- the clamped bounds cut the same units
  have hclamp : (k.units.take stop).drop start =
      (k.units.take (min stop k.len)).drop (min start k.len) := by
    rw [← hlen, ← List.take_take, List.take_length]
    rcases Nat.le_total start k.units.length with h | h
    · rw [Nat.min_eq_left h]
    · rw [Nat.min_eq_right h, List.drop_eq_nil_of_le, List.drop_eq_nil_of_le]
      · exact List.length_take_le' ..
      · exact (List.length_take_le' ..).trans h
  rw [hclamp]
  generalize hstart : min start k.len = a
  generalize hstop : min stop k.len = b
  have hb : b ≤ k.len := by omega
  have hnew : (k.getSlice start stop).units =
      if k.isBigram then (pairs (if a < b then (k.tokenIds.take (b + 1)).drop a else [])).map
        fun p => (p.1, some p.2)
      else ((k.tokenIds.take b).drop a).map fun t => (t, none) := by
    have htake : ∀ ts : List ℤ, ts.take ts.length = ts := fun ts => List.take_length
    unfold getSlice units rawLen
    dsimp only
    rw [hstart, hstop]
    cases k.isBigram with
    | true => simp only [if_true, htake]
    | false => simp only [Bool.false_eq_true, if_false, htake]
  rw [hnew]
  unfold units
  unfold len at hb
  dsimp only
  cases hbigram : k.isBigram with
  | true =>
    rw [hbigram, if_pos rfl] at hb
    rw [if_pos rfl, if_pos rfl, ← List.map_take, ← List.map_drop]
    refine congrArg (List.map _) ?_
    by_cases hab : a < b
    · rw [if_pos hab, pairs_drop, pairs_take, ← pairs_take (k.tokenIds.take k.rawLen),
        List.take_take,
        Nat.min_eq_left (by split at hb <;> omega), pairs_take]
    · rw [if_neg hab, List.drop_eq_nil_of_le]
      · rfl
      · exact (List.length_take_le ..).trans (not_lt.mp hab)
  | false =>
    rw [hbigram, if_neg Bool.false_ne_true] at hb
    rw [if_neg Bool.false_ne_true, if_neg Bool.false_ne_true, ← List.map_take, ← List.map_drop,
      List.take_take, Nat.min_eq_left hb]

@[simp] theorem units_take (n : ℕ) : (k.take n).units = k.units.take n :=
  (units_getSlice 0 n).trans (List.drop_zero ..)

@[simp] theorem units_drop (n : ℕ) : (k.drop n).units = k.units.drop n := by
  rw [drop, units_getSlice, ← length_units, List.take_length]

@[simp] theorem namespaceOf_take (n : ℕ) : (k.take n).namespaceOf = k.namespaceOf := rfl

@[simp] theorem namespaceOf_drop (n : ℕ) : (k.drop n).namespaceOf = k.namespaceOf := rfl

theorem len_take (n : ℕ) : (k.take n).len = min n k.len := by
  rw [← length_units, units_take, List.length_take, length_units]

theorem len_drop (n : ℕ) : (k.drop n).len = k.len - n := by
  rw [← length_units, units_drop, List.length_drop, length_units]

/-- **`page_aligned` keeps the whole pages.** -/
theorem units_pageAligned (pageSize : ℕ) :
    (k.pageAligned pageSize).units = k.units.take (k.units.length / pageSize * pageSize) := by
  unfold pageAligned
  by_cases h : pageSize = 1
  · rw [if_pos h, h, Nat.div_one, Nat.mul_one, List.take_length]
  · rw [if_neg h, units_take, length_units]

@[simp] theorem namespaceOf_pageAligned (pageSize : ℕ) :
    (k.pageAligned pageSize).namespaceOf = k.namespaceOf := by
  unfold pageAligned
  split <;> rfl

/-! ### Matching -/

theorem checkCompatible_ok {other : RadixKey} (hns : k.namespaceOf = other.namespaceOf) :
    k.checkCompatible other = .ok () := by
  have hextra : k.extraKey = other.extraKey := congrArg Prod.fst hns
  have hsalt : k.cacheSalt = other.cacheSalt := congrArg Prod.snd hns
  rw [checkCompatible, if_neg (not_not.mpr hextra), if_neg (not_not.mpr hsalt)]
  rfl

/-- **`match` is the longest common prefix, in whole pages.** -/
theorem matchLen_eq {other : RadixKey} (hns : k.namespaceOf = other.namespaceOf)
    (hbigram : k.isBigram = other.isBigram) {pageSize : ℕ} (hpage : 0 < pageSize) :
    k.matchLen other pageSize =
      .ok (commonLen k.units other.units / pageSize * pageSize) := by
  have hgallop : gallop k.tokenIds other.tokenIds (min k.tokenIds.length other.tokenIds.length)
      (min k.tokenIds.length other.tokenIds.length) 0 1 = commonLen k.tokenIds other.tokenIds :=
    gallop_eq one_pos (Nat.zero_le _) (Nat.sub_le _ _)
  have hraw : commonLen (k.tokenIds.take k.rawLen) (other.tokenIds.take other.rawLen) =
      min (commonLen k.tokenIds other.tokenIds) (min k.rawLen other.rawLen) := commonLen_take ..
  simp only [matchLen, checkCompatible_ok hns, hgallop]
  show (if k.isBigram = true then _ else _) = _
  cases hk : k.isBigram with
  | true =>
    have hunits : commonLen k.units other.units =
        min (min (commonLen k.tokenIds other.tokenIds - 1) k.len) other.len := by
      unfold units len
      rw [← hbigram, hk]
      simp only [if_true]
      rw [commonLen_map (fun p q h => by
        obtain ⟨h1, h2⟩ := Prod.ext_iff.mp h
        exact Prod.ext h1 (Option.some.inj h2)), commonLen_pairs, hraw]
      split <;> split <;> omega
    rw [hunits]
    simp only [if_true, Nat.zero_max]
    by_cases h : 1 < pageSize
    · rw [if_pos h]
      rfl
    · obtain rfl : pageSize = 1 := by omega
      rw [if_neg h, Nat.div_one, Nat.mul_one]
      rfl
  | false =>
    have hunits : commonLen k.units other.units =
        min (min (commonLen k.tokenIds other.tokenIds) k.len) other.len := by
      unfold units len
      rw [← hbigram, hk]
      simp only [Bool.false_eq_true, if_false]
      rw [commonLen_map (fun t t' h => (Prod.ext_iff.mp h).1), hraw, ← min_assoc]
    rw [hunits]
    simp only [Bool.false_eq_true, if_false]
    by_cases h : pageSize = 1
    · subst h
      simp only [if_true, Nat.div_one, Nat.mul_one]
      rfl
    · rw [if_neg h]
      rfl

/-- The units tell the mode. -/
theorem isSome_of_mem_units {u : ℤ × Option ℤ} (hu : u ∈ k.units) : u.2.isSome = k.isBigram := by
  unfold units at hu
  dsimp only at hu
  cases hk : k.isBigram with
  | true =>
    rw [hk, if_pos rfl] at hu
    obtain ⟨p, -, rfl⟩ := List.mem_map.mp hu
    rfl
  | false =>
    rw [hk, if_neg Bool.false_ne_true] at hu
    obtain ⟨t, -, rfl⟩ := List.mem_map.mp hu
    rfl

theorem isBigram_eq {k' : RadixKey} {n : ℕ} (hn : 0 < n) (hlen : n ≤ k.len)
    (h : k.units.take n = k'.units.take n) : k.isBigram = k'.isBigram := by
  have hne : k.units.take n ≠ [] := by
    rw [← List.length_pos_iff, List.length_take, length_units]
    omega
  obtain ⟨u, hu⟩ := List.exists_mem_of_ne_nil _ hne
  rw [← isSome_of_mem_units (List.mem_of_mem_take hu),
    isSome_of_mem_units (List.mem_of_mem_take (h ▸ hu))]

/-! ### Dictionary keys -/

/-- The value of a unit. -/
def unitValue : ℤ × Option ℤ → PyValue
  | (t, none) => .int t
  | (t, some t') => .tuple [.int t, .int t']

/-- The value of the first page. -/
def pageValue (pageSize : ℕ) (page : List (ℤ × Option ℤ)) : PyValue :=
  if pageSize = 1 then (page.head?.map unitValue).getD .none else .tuple (page.map unitValue)

/-- A value in a namespace. -/
def namespaced (ns : Option String × Option String) (plain : PyValue) : PyValue :=
  match ns.2, ns.1 with
  | some salt, extra => .tuple [.tuple [.ofOption extra, .str salt], plain]
  | none, none => plain
  | none, some extra => .tuple [.str extra, plain]

theorem tokenAt_ok {i : ℕ} (h : i < k.tokenIds.length) :
    k.tokenAt i = .ok (.int (k.tokenIds.get ⟨i, h⟩)) := by
  unfold tokenAt
  rw [List.getElem?_eq_getElem h]
  rfl

theorem mapM_ok {α β : Type} {f : α → Except RadixError β} {g : α → β} {xs : List α}
    (h : ∀ x ∈ xs, f x = .ok (g x)) : xs.mapM f = .ok (xs.map g) := by
  induction xs with
  | nil => rfl
  | cons x xs ih =>
    rw [List.mapM_cons, h x List.mem_cons_self, ih fun y hy => h y (List.mem_cons_of_mem _ hy)]
    rfl

/-- A unit of a bigram key is a token and the next. -/
theorem tokens_of_bigram (hk : k.isBigram = true) {i : ℕ} (hi : i < k.units.length) :
    ∃ t t', k.tokenAt i = .ok (.int t) ∧ k.tokenAt (i + 1) = .ok (.int t') ∧
      k.units[i] = (t, some t') := by
  have hraw := k.rawLen_le
  have hlen := k.length_units
  have hi' : i + 1 < k.rawLen := by
    rw [hlen, len, if_pos hk] at hi
    split at hi <;> omega
  refine ⟨_, _, tokenAt_ok (by omega), tokenAt_ok (by omega), ?_⟩
  unfold units
  simp only [hk, if_true, List.getElem_map, pairs, List.getElem_zip, List.getElem_tail,
    List.getElem_take, List.get_eq_getElem]

theorem token_of_plain (hk : k.isBigram = false) {i : ℕ} (hi : i < k.units.length) :
    ∃ t, k.tokenAt i = .ok (.int t) ∧ k.units[i] = (t, none) := by
  have hraw := k.rawLen_le
  have hlen := k.length_units
  have hi' : i < k.rawLen := by
    rw [hlen, len, hk, if_neg Bool.false_ne_true] at hi
    exact hi
  refine ⟨_, tokenAt_ok (by omega), ?_⟩
  unfold units
  simp only [hk, Bool.false_eq_true, if_false, List.getElem_map, List.getElem_take,
    List.get_eq_getElem]

/-- **The key of a child** says its namespace and its first page. -/
theorem childKey_eq {pageSize : ℕ} (hpage : 0 < pageSize) (hlen : pageSize ≤ k.len) :
    k.childKey pageSize =
      .ok (namespaced k.namespaceOf (pageValue pageSize (k.units.take pageSize))) := by
  have hunits := k.length_units
  have hfirst : 0 < k.units.length := by omega
  have hhead : (k.units.take pageSize).head? = some k.units[0] := by
    rw [List.head?_take, if_neg hpage.ne', List.head?_eq_getElem?, List.getElem?_eq_getElem hfirst]
  have hplain : k.plainChildKey pageSize =
      .ok (pageValue pageSize (k.units.take pageSize)) := by
    unfold plainChildKey
    unfold pageValue
    rw [hhead]
    cases hk : k.isBigram with
    | true =>
      rw [if_pos rfl]
      by_cases h : pageSize = 1
      · obtain ⟨t, t', ht, ht', hunit⟩ := tokens_of_bigram hk hfirst
        rw [if_pos h, if_pos h, ht, ht', hunit]
        rfl
      · rw [if_neg h, if_neg h]
        have hmap : ((List.range pageSize).mapM fun j => do
            return PyValue.tuple [← k.tokenAt j, ← k.tokenAt (j + 1)]) =
              .ok ((List.range pageSize).map fun j =>
                ((k.units.take pageSize)[j]?.map unitValue).getD .none) := by
          refine mapM_ok fun j hj => ?_
          have hj' := List.mem_range.mp hj
          have hjlen : j < k.units.length := by omega
          obtain ⟨t, t', ht, ht', hunit⟩ := tokens_of_bigram hk hjlen
          rw [ht, ht', List.getElem?_take_of_lt hj', List.getElem?_eq_getElem hjlen, hunit]
          rfl
        have hpage' : (List.range pageSize).map (fun j =>
            ((k.units.take pageSize)[j]?.map unitValue).getD .none) =
              (k.units.take pageSize).map unitValue := by
          refine List.ext_getElem (by simp; omega) fun j hj hj' => ?_
          rw [List.length_map] at hj'
          rw [List.getElem_map, List.getElem_map, List.getElem_range, List.getElem?_eq_getElem hj']
          rfl
        rw [hmap, hpage']
        rfl
    | false =>
      rw [if_neg Bool.false_ne_true]
      by_cases h : pageSize = 1
      · obtain ⟨t, ht, hunit⟩ := token_of_plain hk hfirst
        rw [if_pos h, if_pos h, ht, hunit]
        rfl
      · have hraw : pageSize ≤ k.rawLen := by
          rw [len, hk, if_neg Bool.false_ne_true] at hlen
          exact hlen
        have hpage' : (k.units.take pageSize).map unitValue =
            (k.tokenIds.take pageSize).map .int := by
          unfold units
          simp only [hk, Bool.false_eq_true, if_false, ← List.map_take, List.map_map,
            List.take_take, Nat.min_eq_left hraw]
          rfl
        rw [if_neg h, if_neg h, hpage']
        rfl
  rw [childKey, hplain]
  unfold namespaced namespaceOf
  dsimp only
  cases k.cacheSalt with
  | some salt => rfl
  | none => cases k.extraKey <;> rfl

/-! Nothing else has the shape of a namespaced value. -/

theorem unitValue_injective : Function.Injective unitValue := by
  rintro ⟨t, _ | t'⟩ ⟨s, _ | s'⟩ h
  · simp only [unitValue, PyValue.int.injEq] at h
    rw [h]
  · simp [unitValue, PyValue.tuple] at h
  · simp [unitValue, PyValue.tuple] at h
  · simp only [unitValue, PyValue.tuple, PyValue.tupleCons.injEq, PyValue.int.injEq, and_true] at h
    rw [h.1, h.2]

theorem tuple_injective : Function.Injective PyValue.tuple := by
  intro vs
  induction vs with
  | nil =>
    intro ws h
    cases ws with
    | nil => rfl
    | cons w ws => cases h
  | cons v vs ih =>
    intro ws h
    cases ws with
    | nil => cases h
    | cons w ws =>
      obtain ⟨hhead, htail⟩ := PyValue.tupleCons.inj h
      rw [hhead, ih htail]

theorem pageValue_injective {pageSize : ℕ} (hpage : 0 < pageSize) {u v : List (ℤ × Option ℤ)}
    (hu : u.length = pageSize) (hv : v.length = pageSize)
    (h : pageValue pageSize u = pageValue pageSize v) : u = v := by
  unfold pageValue at h
  by_cases hone : pageSize = 1
  · rw [if_pos hone, if_pos hone] at h
    subst hone
    obtain ⟨x, rfl⟩ := List.length_eq_one_iff.mp hu
    obtain ⟨y, rfl⟩ := List.length_eq_one_iff.mp hv
    have hxy : unitValue x = unitValue y := h
    rw [unitValue_injective hxy]
  · rw [if_neg hone, if_neg hone] at h
    exact List.map_injective_iff.mpr unitValue_injective (tuple_injective h)

/-- The first component of a page is a number, or a tuple that starts with one. -/
def StartsWithInt : PyValue → Prop
  | .int _ => True
  | .tupleCons (.int _) _ => True
  | .tupleCons (.tupleCons (.int _) _) _ => True
  | _ => False

theorem startsWithInt_pageValue {pageSize : ℕ} (hpage : 0 < pageSize) {u : List (ℤ × Option ℤ)}
    (hu : u.length = pageSize) : StartsWithInt (pageValue pageSize u) := by
  cases u with
  | nil => exact absurd hu hpage.ne
  | cons x u =>
    obtain ⟨t, t'⟩ := x
    unfold pageValue
    split <;> cases t' <;> trivial

/-- **Namespaces do not collide**: neither with each other nor with a page that has none. -/
theorem namespaced_injective {ns ns' : Option String × Option String} {v v' : PyValue}
    (hv : StartsWithInt v) (hv' : StartsWithInt v') (h : namespaced ns v = namespaced ns' v') :
    ns = ns' ∧ v = v' := by
  obtain ⟨extra, salt⟩ := ns
  obtain ⟨extra', salt'⟩ := ns'
  cases salt <;> cases salt' <;> cases extra <;> cases extra' <;>
    simp only [namespaced, PyValue.tuple, PyValue.ofOption] at h <;>
    first
    | exact ⟨rfl, h⟩
    -- a page is not a pair with a string or a namespace in front
    | exact absurd hv (h ▸ id)
    | exact absurd hv' (h ▸ id)
    | simp_all

/-- **Two keys of one mode have the same child key exactly if they agree in namespace and first
page.** -/
theorem childKey_inj {k' : RadixKey} {pageSize : ℕ} (hpage : 0 < pageSize) (hlen : pageSize ≤ k.len)
    (hlen' : pageSize ≤ k'.len) : k.childKey pageSize = k'.childKey pageSize ↔
      k.namespaceOf = k'.namespaceOf ∧ k.units.take pageSize = k'.units.take pageSize := by
  rw [childKey_eq hpage hlen, childKey_eq hpage hlen', Except.ok.injEq]
  have hu : (k.units.take pageSize).length = pageSize := by
    rw [List.length_take, length_units, Nat.min_eq_left hlen]
  have hu' : (k'.units.take pageSize).length = pageSize := by
    rw [List.length_take, length_units, Nat.min_eq_left hlen']
  constructor
  · intro h
    obtain ⟨hns, hvalue⟩ := namespaced_injective (startsWithInt_pageValue hpage hu)
      (startsWithInt_pageValue hpage hu') h
    exact ⟨hns, pageValue_injective hpage hu hu' hvalue⟩
  · rintro ⟨hns, hunits⟩
    rw [hns, hunits]

end RadixKey

end LatentSpec
