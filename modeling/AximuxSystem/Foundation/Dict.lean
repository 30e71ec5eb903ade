import Mathlib.Data.List.Nodup
import Mathlib.Data.List.Sort
import Mathlib.Data.String.Basic
import Mathlib.Tactic

/-!
# Insertion-ordered dictionaries

A dictionary is a list of items with distinct keys, in the order in which the
keys were first set. Setting a present key replaces its value in place.
-/

namespace Collections

structure Dict (κ ν : Type) where
  items : List (κ × ν)
  nodup : (items.map Prod.fst).Nodup
  deriving DecidableEq

/-- Replace the value of a key, or add the item at the end. -/
def setItem {κ ν : Type} [DecidableEq κ] (k : κ) (v : ν) : List (κ × ν) → List (κ × ν)
  | [] => [(k, v)]
  | item :: items => if item.1 = k then (k, v) :: items else item :: setItem k v items

variable {κ ν : Type} [DecidableEq κ]

theorem map_fst_setItem (k : κ) (v : ν) (items : List (κ × ν)) :
    (setItem k v items).map Prod.fst =
      if k ∈ items.map Prod.fst then items.map Prod.fst else items.map Prod.fst ++ [k] := by
  induction items with
  | nil => rfl
  | cons item items ih =>
    rw [setItem]
    by_cases hk : item.1 = k
    · simp [hk]
    · have hne : ¬ k = item.1 := fun h => hk h.symm
      simp only [if_neg hk, List.map_cons, ih, List.mem_cons, hne, false_or]
      split_ifs <;> rfl

theorem lookup_cons_eq (k : κ) (item : κ × ν) (items : List (κ × ν)) :
    (item :: items).lookup k = if k = item.1 then some item.2 else items.lookup k := by
  rw [List.lookup_cons]
  by_cases hk : k = item.1
  · rw [if_pos hk, beq_iff_eq.mpr hk]
  · rw [if_neg hk, beq_eq_false_iff_ne.mpr hk]

theorem lookup_setItem (k k' : κ) (v : ν) (items : List (κ × ν)) :
    (setItem k v items).lookup k' = if k' = k then some v else items.lookup k' := by
  induction items with
  | nil => exact lookup_cons_eq k' (k, v) []
  | cons item items ih =>
    rw [setItem]
    by_cases hk : item.1 = k
    · rw [if_pos hk, lookup_cons_eq, lookup_cons_eq, hk]
      by_cases hk' : k' = k
      · rw [if_pos hk', if_pos hk']
      · rw [if_neg hk', if_neg hk', if_neg hk']
    · rw [if_neg hk, lookup_cons_eq, lookup_cons_eq, ih]
      by_cases hk' : k' = item.1
      · rw [if_pos hk', if_neg fun h => hk (hk'.symm.trans h), if_pos hk']
      · rw [if_neg hk', if_neg hk']

/-- With distinct keys the items are what lookup finds. -/
theorem mem_iff_lookup {items : List (κ × ν)} (h : (items.map Prod.fst).Nodup) {k : κ} {v : ν} :
    (k, v) ∈ items ↔ items.lookup k = some v := by
  induction items with
  | nil => simp
  | cons item items ih =>
    rw [List.map_cons, List.nodup_cons] at h
    rw [List.mem_cons, lookup_cons_eq, ih h.2]
    by_cases hk : k = item.1
    · subst k
      have hnone : ¬ List.lookup item.1 items = some v := fun hv =>
        h.1 (List.mem_map.mpr ⟨(item.1, v), (ih h.2).mpr hv, rfl⟩)
      simp [hnone, Prod.ext_iff, eq_comm]
    · have hne : (k, v) ≠ item := fun heq => hk (congrArg Prod.fst heq)
      simp [hk, hne]

/-- With distinct keys the element of a key is the one a search finds. -/
theorem find?_key_eq_some {α : Type} {key : α → κ} {xs : List α} (h : (xs.map key).Nodup) {k : κ}
    {x : α} : xs.find? (key · == k) = some x ↔ x ∈ xs ∧ key x = k := by
  constructor
  · intro hfind
    have hkey := List.find?_some hfind
    exact ⟨List.mem_of_find?_eq_some hfind, by simpa using hkey⟩
  · rintro ⟨hx, rfl⟩
    have hsome : (xs.find? (key · == key x)).isSome = true :=
      List.find?_isSome.mpr ⟨x, hx, beq_self_eq_true _⟩
    obtain ⟨y, hy⟩ := Option.isSome_iff_exists.mp hsome
    have hkey : key y = key x := by simpa using List.find?_some hy
    rw [hy, List.inj_on_of_nodup_map h (List.mem_of_find?_eq_some hy) hx hkey]

namespace Dict

variable (d : Dict κ ν)

def empty : Dict κ ν := ⟨[], List.nodup_nil⟩

def keys {κ ν : Type} (d : Dict κ ν) : List κ := d.items.map Prod.fst

/-- `d.get(k)` -/
def get? (k : κ) : Option ν := d.items.lookup k

/-- `d[k] = v` -/
def set (k : κ) (v : ν) : Dict κ ν where
  items := setItem k v d.items
  nodup := by
    rw [map_fst_setItem]
    split_ifs with hk
    · exact d.nodup
    · rw [List.nodup_append']
      exact ⟨d.nodup, List.nodup_singleton k, List.disjoint_singleton.mpr hk⟩

/-- Set the value of a key computed from its old value, `default` if it is absent. -/
def modify (k : κ) (default : ν) (f : ν → ν) : Dict κ ν :=
  d.set k (f ((d.get? k).getD default))

theorem mem_items {k : κ} {v : ν} : (k, v) ∈ d.items ↔ d.get? k = some v := mem_iff_lookup d.nodup

theorem mem_keys {k : κ} : k ∈ d.keys ↔ ∃ v, d.get? k = some v := by
  simp only [keys, List.mem_map, Prod.exists, ← mem_items, exists_and_right, exists_eq_right]

@[simp] theorem get?_empty (k : κ) : (empty : Dict κ ν).get? k = none := rfl

@[simp] theorem get?_set (k k' : κ) (v : ν) :
    (d.set k v).get? k' = if k' = k then some v else d.get? k' :=
  lookup_setItem k k' v d.items

@[simp] theorem get?_modify (k k' : κ) (default : ν) (f : ν → ν) :
    (d.modify k default f).get? k' =
      if k' = k then some (f ((d.get? k).getD default)) else d.get? k' :=
  d.get?_set k k' _

/-- The items in the order of their keys. -/
def sortedItems {κ ν : Type} [LinearOrder κ] (d : Dict κ ν) : List (κ × ν) :=
  d.items.insertionSort fun a b => a.1 ≤ b.1

theorem perm_sortedItems {κ ν : Type} [LinearOrder κ] (d : Dict κ ν) : d.sortedItems.Perm d.items :=
  List.perm_insertionSort _ d.items

theorem mem_sortedItems {κ ν : Type} [LinearOrder κ] (d : Dict κ ν) {k : κ} {v : ν} :
    (k, v) ∈ d.sortedItems ↔ d.get? k = some v := by
  rw [d.perm_sortedItems.mem_iff, mem_items]

theorem nodup_sortedItems {κ ν : Type} [LinearOrder κ] (d : Dict κ ν) :
    (d.sortedItems.map Prod.fst).Nodup :=
  (d.perm_sortedItems.map Prod.fst).nodup_iff.mpr d.nodup

/-- Sorted items have strictly increasing keys. -/
theorem sortedItems_increasing {κ ν : Type} [LinearOrder κ] (d : Dict κ ν) :
    (d.sortedItems.map Prod.fst).Pairwise (· < ·) := by
  have hle : (d.sortedItems.map Prod.fst).Pairwise (· ≤ ·) := by
    rw [List.pairwise_map]
    exact List.pairwise_insertionSort (fun a b : κ × ν => a.1 ≤ b.1) d.items
  exact (hle.and d.nodup_sortedItems).imp fun h => lt_of_le_of_ne h.1 h.2

end Dict

/-- The values of one key in a fold of modifications: the folded values of the steps for the key. -/
theorem get?_foldl_modify {α : Type} (key : α → κ) (default : ν) (f : α → ν → ν) (xs : List α)
    (d : Dict κ ν) (k : κ) :
    (xs.foldl (fun d x => d.modify (key x) default (f x)) d).get? k =
      if (∃ x ∈ xs, key x = k) then
        some ((xs.filter (key · = k)).foldl (fun v x => f x v) ((d.get? k).getD default))
      else d.get? k := by
  induction xs generalizing d with
  | nil => simp
  | cons x xs ih =>
    rw [List.foldl_cons, ih, Dict.get?_modify]
    by_cases hx : key x = k
    · subst k
      by_cases hrest : ∃ y ∈ xs, key y = key x
      · simp [hrest]
      · have hfilter : xs.filter (key · = key x) = [] :=
          List.filter_eq_nil_iff.mpr fun y hy => by
            simpa using fun h => hrest ⟨y, hy, h⟩
        simp [hrest, hfilter]
    · have hx' : ¬ k = key x := fun h => hx h.symm
      simp [hx, hx']

/-- The keys of a fold of modifications are those that were modified. -/
theorem mem_keys_foldl_modify {α : Type} {key : α → κ} {default : ν} {f : α → ν → ν} {xs : List α}
    {k : κ} : k ∈ (xs.foldl (fun d x => d.modify (key x) default (f x)) Dict.empty).keys ↔
      ∃ x ∈ xs, key x = k := by
  rw [Dict.mem_keys]
  simp only [get?_foldl_modify]
  split_ifs with h
  · exact ⟨fun _ => h, fun _ => ⟨_, rfl⟩⟩
  · exact ⟨nofun, fun h' => absurd h' h⟩

theorem foldl_append_singleton {α : Type} (f : α → ν) (xs : List α) (vs : List ν) :
    xs.foldl (fun vs x => vs ++ [f x]) vs = vs ++ xs.map f := by
  induction xs generalizing vs with
  | nil => simp
  | cons x xs ih => rw [List.foldl_cons, ih, List.append_assoc, List.map_cons]; rfl

/-- Grouping into lists: a key holds the values of the steps for it, and at least one. -/
theorem get?_foldl_append {α : Type} {key : α → κ} {value : α → ν} {xs : List α} {k : κ}
    {vs : List ν} :
    (xs.foldl (fun d x => d.modify (key x) [] (· ++ [value x])) Dict.empty).get? k = some vs ↔
      vs = (xs.filter (key · = k)).map value ∧ vs ≠ [] := by
  rw [get?_foldl_modify key [] fun x vs => vs ++ [value x], foldl_append_singleton]
  have hne : (xs.filter (key · = k)).map value ≠ [] ↔ ∃ x ∈ xs, key x = k := by
    simp [List.filter_eq_nil_iff]
  split_ifs with h
  · rw [Dict.get?_empty, Option.getD_none, List.nil_append, Option.some.injEq]
    constructor
    · rintro rfl
      exact ⟨rfl, hne.mpr h⟩
    · exact fun heq => heq.1.symm
  · constructor
    · nofun
    · rintro ⟨rfl, hvs⟩
      exact absurd (hne.mp hvs) h

section Groups

variable {α μ : Type} [DecidableEq μ] {key : α → κ} {key' : α → μ} {value : α → ν} {xs : List α}
  {k : κ} {k' : μ}

/-- Grouping twice: a pair of keys holds the values of the steps for both, and at least one. -/
theorem get?_foldl_groups {vs : List ν} :
    (∃ groups, (xs.foldl (fun d x => d.modify (key x) Dict.empty fun groups =>
        groups.modify (key' x) [] (· ++ [value x])) Dict.empty).get? k = some groups ∧
      groups.get? k' = some vs) ↔
    vs = ((xs.filter (key · = k)).filter (key' · = k')).map value ∧ vs ≠ [] := by
  rw [get?_foldl_modify key Dict.empty fun x (groups : Dict μ (List ν)) =>
    groups.modify (key' x) [] (· ++ [value x])]
  split_ifs with h
  · simp only [Option.some.injEq, exists_eq_left', Dict.get?_empty, Option.getD_none,
      get?_foldl_append]
  · have hnone : xs.filter (key · = k) = [] :=
      List.filter_eq_nil_iff.mpr fun x hx => by simpa using fun hk => h ⟨x, hx, hk⟩
    rw [hnone]
    simp

theorem mem_keys_foldl_groups :
    (∃ groups, (xs.foldl (fun d x => d.modify (key x) Dict.empty fun groups =>
        groups.modify (key' x) [] (· ++ [value x])) Dict.empty).get? k = some groups ∧
      k' ∈ groups.keys) ↔ ∃ x ∈ xs, key x = k ∧ key' x = k' := by
  constructor
  · rintro ⟨groups, hgroups, hkey⟩
    obtain ⟨vs, hvs⟩ := groups.mem_keys.mp hkey
    obtain ⟨rfl, hne⟩ := get?_foldl_groups.mp ⟨groups, hgroups, hvs⟩
    obtain ⟨v, hv⟩ := List.exists_mem_of_ne_nil _ hne
    obtain ⟨x, hx, -⟩ := List.mem_map.mp hv
    simp only [List.mem_filter, decide_eq_true_eq, and_assoc] at hx
    exact ⟨x, hx⟩
  · rintro ⟨x, hx, rfl, rfl⟩
    have hmem : value x ∈ ((xs.filter (key · = key x)).filter (key' · = key' x)).map value :=
      List.mem_map_of_mem (by simpa using hx)
    obtain ⟨groups, hgroups, hvs⟩ := get?_foldl_groups.mpr ⟨rfl, List.ne_nil_of_mem hmem⟩
    exact ⟨groups, hgroups, groups.mem_keys.mpr ⟨_, hvs⟩⟩

end Groups

/-! ### Tagged elements -/

section Tagged

variable {α β γ ι : Type} {xs : List α} {tag : α → β} {parts : α → List ι}

theorem nodup_tagged (htag : (xs.map tag).Nodup) (hparts : ∀ x ∈ xs, (parts x).Nodup) :
    (xs.flatMap fun x => (parts x).map (Prod.mk (tag x))).Nodup := by
  rw [List.nodup_flatMap]
  refine ⟨fun x hx => (hparts x hx).map (Prod.mk_right_injective _), ?_⟩
  refine (List.pairwise_map.mp htag).imp fun hne => ?_
  rw [Function.onFun, List.disjoint_left]
  intro p hp hp'
  obtain ⟨i, -, rfl⟩ := List.mem_map.mp hp
  obtain ⟨j, -, heq⟩ := List.mem_map.mp hp'
  exact hne (Prod.mk.inj heq).1.symm

/-- What is made of tagged parts is distinct exactly if no two of them make the same. -/
theorem nodup_tagged_map_iff (htag : (xs.map tag).Nodup) (hparts : ∀ x ∈ xs, (parts x).Nodup)
    (f : β → ι → γ) : (xs.flatMap fun x => (parts x).map (f (tag x))).Nodup ↔
      ∀ x ∈ xs, ∀ i ∈ parts x, ∀ y ∈ xs, ∀ j ∈ parts y, f (tag x) i = f (tag y) j →
        tag x = tag y ∧ i = j := by
  have hmap : (xs.flatMap fun x => (parts x).map (f (tag x))) =
      (xs.flatMap fun x => (parts x).map (Prod.mk (tag x))).map fun p => f p.1 p.2 := by
    simp only [List.map_flatMap, List.map_map]
    rfl
  rw [hmap, List.nodup_map_iff_inj_on (nodup_tagged htag hparts)]
  have hmem {x : α} (hx : x ∈ xs) {i : ι} (hi : i ∈ parts x) :
      (tag x, i) ∈ xs.flatMap fun x => (parts x).map (Prod.mk (tag x)) :=
    List.mem_flatMap.mpr ⟨x, hx, List.mem_map_of_mem hi⟩
  constructor
  · intro h x hx i hi y hy j hj heq
    exact Prod.mk.inj (h _ (hmem hx hi) _ (hmem hy hj) heq)
  · intro h p hp q hq heq
    obtain ⟨x, hx, hp⟩ := List.mem_flatMap.mp hp
    obtain ⟨y, hy, hq⟩ := List.mem_flatMap.mp hq
    obtain ⟨i, hi, rfl⟩ := List.mem_map.mp hp
    obtain ⟨j, hj, rfl⟩ := List.mem_map.mp hq
    obtain ⟨htag, rfl⟩ := h x hx i hi y hy j hj heq
    rw [htag]

end Tagged

end Collections
