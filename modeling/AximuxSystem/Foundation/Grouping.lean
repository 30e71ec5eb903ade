import AximuxSystem.Foundation.Dict

/-!
# Grouping by key

An ordered multimap built by find-or-append: every key is listed once, in order
of first insertion, with its values in order of insertion. The contents are
described by the insertion history alone. The last value of a key in a history
is what a store that overwrites would hold.
-/

namespace Grouping

open Collections

variable {κ ν : Type} [DecidableEq κ]

/-- Append `v` to the values of `k`, opening a new entry at the end for a new key. -/
def add : List (κ × List ν) → κ → ν → List (κ × List ν)
  | [], k, v => [(k, [v])]
  | (k', vs) :: rest, k, v =>
    if k' = k then (k', vs ++ [v]) :: rest else (k', vs) :: add rest k v

/-- Insert a list of pairs one after the other. -/
def addAll (g : List (κ × List ν)) (xs : List (κ × ν)) : List (κ × List ν) :=
  xs.foldl (fun g x => add g x.1 x.2) g

/-- The values a history inserts under a key, in order. -/
def valuesOf (k : κ) (xs : List (κ × ν)) : List ν :=
  (xs.filter fun x => x.1 = k).map Prod.snd

@[simp] theorem addAll_nil (g : List (κ × List ν)) : addAll g [] = g := rfl

theorem addAll_append (g : List (κ × List ν)) (xs ys : List (κ × ν)) :
    addAll g (xs ++ ys) = addAll (addAll g xs) ys := by
  simp [addAll]

theorem addAll_concat (g : List (κ × List ν)) (xs : List (κ × ν)) (x : κ × ν) :
    addAll g (xs ++ [x]) = add (addAll g xs) x.1 x.2 := by
  simp [addAll]

theorem valuesOf_append (k : κ) (xs ys : List (κ × ν)) :
    valuesOf k (xs ++ ys) = valuesOf k xs ++ valuesOf k ys := by
  simp [valuesOf]

theorem valuesOf_cons (k : κ) (x : κ × ν) (xs : List (κ × ν)) :
    valuesOf k (x :: xs) = if x.1 = k then x.2 :: valuesOf k xs else valuesOf k xs := by
  by_cases h : x.1 = k <;> simp [valuesOf, h]

theorem mem_valuesOf {k : κ} {v : ν} {xs : List (κ × ν)} : v ∈ valuesOf k xs ↔ (k, v) ∈ xs := by
  constructor
  · intro h
    obtain ⟨x, hx, rfl⟩ := List.mem_map.mp h
    obtain ⟨hx, hk⟩ := List.mem_filter.mp hx
    rw [← of_decide_eq_true hk]
    exact hx
  · intro h
    exact List.mem_map.mpr ⟨(k, v), List.mem_filter.mpr ⟨h, decide_eq_true rfl⟩, rfl⟩

theorem valuesOf_map {μ : Type} (f : ν → μ) (k : κ) (xs : List (κ × ν)) :
    valuesOf k (xs.map fun x => (x.1, f x.2)) = (valuesOf k xs).map f := by
  rw [valuesOf, valuesOf, List.filter_map, List.map_map, List.map_map]
  rfl

/-- The last value a history gives to a key. -/
def lastOf (k : κ) (xs : List (κ × ν)) : Option ν := (valuesOf k xs).getLast?

@[simp] theorem lastOf_nil (k : κ) : lastOf k ([] : List (κ × ν)) = none := rfl

theorem lastOf_append (k : κ) (xs ys : List (κ × ν)) :
    lastOf k (xs ++ ys) = (lastOf k ys).or (lastOf k xs) := by
  simp [lastOf, valuesOf_append, List.getLast?_append]

theorem lastOf_singleton (k : κ) (x : κ × ν) :
    lastOf k [x] = if x.1 = k then some x.2 else none := by
  by_cases h : x.1 = k <;> simp [lastOf, valuesOf, h]

theorem lastOf_eq_none {k : κ} {xs : List (κ × ν)} : lastOf k xs = none ↔ ∀ x ∈ xs, x.1 ≠ k := by
  simp [lastOf, valuesOf]

theorem mem_of_lastOf {k : κ} {v : ν} {xs : List (κ × ν)} (h : lastOf k xs = some v) :
    (k, v) ∈ xs :=
  mem_valuesOf.mp (List.mem_of_getLast? h)

/-- The value of a key that occurs once. -/
theorem lastOf_of_nodup {k : κ} {v : ν} {xs : List (κ × ν)} (h : (xs.map Prod.fst).Nodup)
    (hx : (k, v) ∈ xs) : lastOf k xs = some v := by
  cases hlast : lastOf k xs with
  | none => exact absurd rfl (lastOf_eq_none.mp hlast _ hx)
  | some v' =>
    have heq := List.inj_on_of_nodup_map h (mem_of_lastOf hlast) hx rfl
    rw [(Prod.mk.inj heq).2]

/-- The last value is the only one where there is no other. -/
theorem lastOf_of_unique {k : κ} {v : ν} {xs : List (κ × ν)} (hx : (k, v) ∈ xs)
    (h : ∀ v', (k, v') ∈ xs → v' = v) : lastOf k xs = some v := by
  cases hlast : lastOf k xs with
  | none => exact absurd rfl (lastOf_eq_none.mp hlast _ hx)
  | some v' => rw [h v' (mem_of_lastOf hlast)]

/-- A store that overwrites holds the last value of each key. -/
theorem get?_foldl_set {α : Type} (key : α → κ) (value : α → ν) (xs : List α) (k : κ) :
    (xs.foldl (fun d x => d.set (key x) (value x)) Dict.empty).get? k =
      lastOf k (xs.map fun x => (key x, value x)) := by
  induction xs using List.reverseRecOn with
  | nil => rfl
  | append_singleton xs x ih =>
    rw [List.foldl_concat, Dict.get?_set, List.map_append, lastOf_append, List.map_singleton,
      lastOf_singleton, ih]
    by_cases hk : key x = k
    · rw [if_pos hk.symm, if_pos hk]
      rfl
    · rw [if_neg (Ne.symm hk), if_neg hk]
      rfl

/-! ### Entries -/

theorem add_eq_setItem (g : List (κ × List ν)) (k : κ) (v : ν) :
    add g k v = setItem k ((g.lookup k).getD [] ++ [v]) g := by
  induction g with
  | nil => rfl
  | cons e g ih =>
    obtain ⟨k', vs⟩ := e
    rw [add, setItem, lookup_cons_eq]
    by_cases hk : k' = k
    · subst k'
      rw [if_pos rfl, if_pos rfl, if_pos rfl]
      rfl
    · rw [if_neg hk, if_neg hk, if_neg (Ne.symm hk), ih]

/-- Inserting appends to the values of a key those the history has for it. -/
theorem lookup_addAll (g : List (κ × List ν)) (k : κ) (xs : List (κ × ν)) :
    ((addAll g xs).lookup k).getD [] = (g.lookup k).getD [] ++ valuesOf k xs := by
  induction xs generalizing g with
  | nil => simp [valuesOf]
  | cons x xs ih =>
    change ((addAll (add g x.1 x.2) xs).lookup k).getD [] = _
    rw [ih, add_eq_setItem, lookup_setItem, valuesOf_cons]
    by_cases hk : x.1 = k
    · subst k
      simp
    · simp [hk, Ne.symm hk]

/-- A history as a dictionary of the values of each key. -/
def grouped (xs : List (κ × ν)) : Dict κ (List ν) :=
  xs.foldl (fun d x => d.modify x.1 [] (· ++ [x.2])) Dict.empty

theorem get?_grouped {xs : List (κ × ν)} {k : κ} {vs : List ν} :
    (grouped xs).get? k = some vs ↔ vs = valuesOf k xs ∧ vs ≠ [] := get?_foldl_append

theorem getD_grouped (xs : List (κ × ν)) (k : κ) :
    ((grouped xs).get? k).getD [] = valuesOf k xs := by
  cases h : (grouped xs).get? k with
  | some vs => exact (get?_grouped.mp h).1
  | none =>
    by_contra hne
    rw [get?_grouped.mpr ⟨rfl, Ne.symm hne⟩] at h
    cases h

theorem addAll_eq_items (xs : List (κ × ν)) : addAll [] xs = (grouped xs).items := by
  induction xs using List.reverseRecOn with
  | nil => rfl
  | append_singleton xs x ih =>
    have hconcat : grouped (xs ++ [x]) = (grouped xs).modify x.1 [] (· ++ [x.2]) :=
      List.foldl_append
    rw [addAll_concat, ih, add_eq_setItem, hconcat]
    rfl

/-- No key is listed twice. -/
theorem nodup_addAll (xs : List (κ × ν)) : ((addAll [] xs).map Prod.fst).Nodup := by
  rw [addAll_eq_items]
  exact (grouped xs).nodup

/-- The entries are exactly the keys of the history, each with all values inserted under it. -/
theorem mem_addAll {xs : List (κ × ν)} {k : κ} {vs : List ν} :
    (k, vs) ∈ addAll [] xs ↔ vs = valuesOf k xs ∧ vs ≠ [] := by
  rw [addAll_eq_items, Dict.mem_items, get?_grouped]

/-- The keys are those of the history in the order of their first insertion. -/
theorem map_fst_addAll (xs : List (κ × ν)) :
    (addAll [] xs).map Prod.fst = (xs.map Prod.fst).eraseDups := by
  induction xs using List.reverseRecOn with
  | nil => rfl
  | append_singleton xs x ih =>
    rw [addAll_concat, add_eq_setItem, map_fst_setItem, List.map_append, List.map_singleton,
      List.eraseDups_append, ih]
    generalize xs.map Prod.fst = keys
    by_cases hx : x.1 ∈ keys
    · simp [hx, List.removeAll]
    · simp [hx, List.removeAll, List.eraseDups_cons]

theorem sum_length_add (g : List (κ × List ν)) (k : κ) (v : ν) :
    ((add g k v).map fun e => e.2.length).sum = (g.map fun e => e.2.length).sum + 1 := by
  induction g with
  | nil => rfl
  | cons e g ih =>
    obtain ⟨k', vs⟩ := e
    rw [add]
    split_ifs
    · simp only [List.map_cons, List.sum_cons, List.length_append, List.length_singleton]
      omega
    · simp only [List.map_cons, List.sum_cons, ih]
      omega

/-- Every insertion adds one value. -/
theorem sum_length_addAll (g : List (κ × List ν)) (xs : List (κ × ν)) :
    ((addAll g xs).map fun e => e.2.length).sum =
      (g.map fun e => e.2.length).sum + xs.length := by
  induction xs generalizing g with
  | nil => rfl
  | cons x xs ih =>
    change ((addAll (add g x.1 x.2) xs).map fun e => e.2.length).sum = _
    rw [ih, sum_length_add, List.length_cons]
    omega

end Grouping
