import AximuxSystem.Tool.Netlist

/-!
# Positions in a document

The traversal of an element lists every element at or below it once, and the
climb over the parents of a position ends at its nearest enclosing module.
-/

namespace AximuxSystem.Tool.Element

variable {e root : Element} {p q m : Path} {x : Element} {t : String}

/-! ### Traversal -/

/-- Going down to a position and on from there. -/
theorem find_append (root : Element) (rel base : Path) :
    root.find (rel ++ base) = (root.find base).bind fun e => e.find rel := by
  induction rel with
  | nil => rw [List.nil_append]; exact (Option.bind_fun_some _).symm
  | cons i rel ih =>
    rw [List.cons_append, find, ih, Option.bind_assoc]
    rfl

/-- The first step down goes to a child. -/
theorem find_concat (e : Element) (rel : Path) (i : ℕ) :
    e.find (rel ++ [i]) = (e.children[i]?).bind fun c => c.find rel := by
  rw [find_append]
  rfl

mutual

theorem mem_iterAll : (e : Element) → (base p : Path) → (x : Element) →
    ((p, x) ∈ e.iterAll base ↔ ∃ rel, p = rel ++ base ∧ e.find rel = some x)
  | mk tag attrs children, base, p, x => by
    rw [iterAll, List.mem_cons, mem_iterChildren]
    constructor
    · rintro (h | ⟨i, c, rel, hc, rfl, hx⟩)
      · obtain ⟨rfl, rfl⟩ := Prod.mk.inj h
        exact ⟨[], rfl, rfl⟩
      · refine ⟨rel ++ [i], by rw [Nat.zero_add, List.append_assoc]; rfl, ?_⟩
        rw [find_concat]
        exact Option.bind_eq_some_iff.mpr ⟨c, hc, hx⟩
    · rintro ⟨rel, rfl, hx⟩
      rcases List.eq_nil_or_concat' rel with rfl | ⟨rel, i, rfl⟩
      · exact .inl (by rw [List.nil_append, ← Option.some.inj hx])
      · rw [find_concat] at hx
        obtain ⟨c, hc, hx⟩ := Option.bind_eq_some_iff.mp hx
        exact .inr ⟨i, c, rel, hc, by rw [Nat.zero_add, List.append_assoc]; rfl, hx⟩

theorem mem_iterChildren : (es : List Element) → (base : Path) → (k : ℕ) → (p : Path) →
    (x : Element) → ((p, x) ∈ iterChildren base k es ↔
      ∃ i c rel, es[i]? = some c ∧ p = rel ++ (k + i) :: base ∧ c.find rel = some x)
  | [], base, k, p, x => by simp [iterChildren]
  | e :: es, base, k, p, x => by
    rw [iterChildren, List.mem_append, mem_iterAll, mem_iterChildren]
    constructor
    · rintro (⟨rel, rfl, hx⟩ | ⟨i, c, rel, hc, rfl, hx⟩)
      · exact ⟨0, e, rel, rfl, rfl, hx⟩
      · exact ⟨i + 1, c, rel, hc, by rw [show k + (i + 1) = k + 1 + i by omega], hx⟩
    · rintro ⟨i, c, rel, hc, rfl, hx⟩
      cases i with
      | zero =>
        obtain rfl := Option.some.inj hc
        exact .inl ⟨rel, rfl, hx⟩
      | succ i => exact .inr ⟨i, c, rel, hc, by rw [show k + (i + 1) = k + 1 + i by omega], hx⟩

end

theorem append_cons_inj {rel rel' base : Path} {i j : ℕ}
    (h : rel ++ i :: base = rel' ++ j :: base) : i = j := by
  have hcons : ∀ rel : Path, ∀ i, rel ++ i :: base = rel ++ [i] ++ base := fun rel i => by simp
  rw [hcons, hcons] at h
  exact (List.append_singleton_inj.mp (List.append_cancel_right h)).2

mutual

/-- No position is visited twice. -/
theorem nodup_iterAll : (e : Element) → (base : Path) →
    ((e.iterAll base).map Prod.fst).Nodup
  | mk tag attrs children, base => by
    rw [iterAll, List.map_cons, List.nodup_cons]
    refine ⟨fun h => ?_, nodup_iterChildren children base 0⟩
    obtain ⟨⟨p, x⟩, hmem, hbase⟩ := List.mem_map.mp h
    obtain ⟨i, c, rel, -, hp, -⟩ := (mem_iterChildren children base 0 p x).mp hmem
    have hlen : base.length = _ := congrArg List.length (hbase.symm.trans hp)
    rw [List.length_append, List.length_cons] at hlen
    omega

theorem nodup_iterChildren : (es : List Element) → (base : Path) → (k : ℕ) →
    ((iterChildren base k es).map Prod.fst).Nodup
  | [], _, _ => List.nodup_nil
  | e :: es, base, k => by
    rw [iterChildren, List.map_append, List.nodup_append']
    refine ⟨nodup_iterAll e _, nodup_iterChildren es base (k + 1), ?_⟩
    rw [List.disjoint_left]
    intro p hp hp'
    obtain ⟨⟨p, x⟩, hmem, rfl⟩ := List.mem_map.mp hp
    obtain ⟨⟨p', x'⟩, hmem', heq⟩ := List.mem_map.mp hp'
    obtain ⟨rel, rfl, -⟩ := (mem_iterAll e _ p x).mp hmem
    obtain ⟨i, c, rel', -, rfl, -⟩ := (mem_iterChildren es base (k + 1) p' x').mp hmem'
    have hk := append_cons_inj heq
    omega

end

/-- `root.iter(tag)` lists the elements of the document with that tag. -/
theorem mem_iter : (p, x) ∈ root.iter [] t ↔ root.find p = some x ∧ x.tag = t := by
  rw [iter, List.mem_filter, mem_iterAll]
  simp

/-- From an element of the document, those below it are listed. -/
theorem mem_iter_at (hm : root.find m = some e) :
    (p, x) ∈ e.iter m t ↔ m <:+ p ∧ root.find p = some x ∧ x.tag = t := by
  rw [iter, List.mem_filter, mem_iterAll, beq_iff_eq, ← and_assoc]
  refine and_congr_left fun _ => ⟨?_, ?_⟩
  · rintro ⟨rel, rfl, hx⟩
    exact ⟨List.suffix_append rel m, by rw [find_append, hm]; exact hx⟩
  · rintro ⟨⟨rel, rfl⟩, hx⟩
    rw [find_append, hm] at hx
    exact ⟨rel, rfl, hx⟩

theorem nodup_iter (e : Element) (base : Path) (t : String) :
    ((e.iter base t).map Prod.fst).Nodup :=
  (nodup_iterAll e base).sublist (List.filter_sublist.map Prod.fst)

/-! ### Enclosing modules -/

def IsModule (root : Element) (p : Path) : Prop := (root.find p).map Element.tag = some "MODULE"

/-- The position `q` is that of a proper ancestor of `p`. -/
def Above (q : Path) : Path → Prop
  | [] => False
  | _ :: parent => q <:+ parent

/-- `m` is the nearest module above `p`: every other one is above `m`. -/
structure NearestModule (root : Element) (p m : Path) : Prop where
  above : Above m p
  isModule : IsModule root m
  nearest : ∀ q, Above q p → IsModule root q → q <:+ m

theorem Above.suffix (h : Above q p) : q <:+ p := by
  cases p with
  | nil => exact h.elim
  | cons i parent => exact List.IsSuffix.trans h (List.suffix_cons i parent)

/-- The climb over the parents meets the nearest module first. -/
theorem owner_eq_some : root.owner p = some m ↔ NearestModule root p m := by
  induction p with
  | nil => exact ⟨nofun, fun h => h.above.elim⟩
  | cons i parent ih =>
    rw [owner]
    by_cases hmod : (root.find parent).map Element.tag = some "MODULE"
    · rw [if_pos hmod, Option.some.injEq]
      constructor
      · rintro rfl
        exact ⟨List.suffix_refl parent, hmod, fun q hq _ => hq⟩
      · intro h
        have hle := h.nearest parent (List.suffix_refl parent) hmod
        exact hle.eq_of_length_le h.above.length_le
    · rw [if_neg hmod, ih]
      have habove : ∀ q, IsModule root q → (Above q parent ↔ Above q (i :: parent)) := by
        intro q hq
        refine ⟨Above.suffix, fun h => ?_⟩
        cases parent with
        | nil =>
          obtain rfl := List.suffix_nil.mp h
          exact absurd hq hmod
        | cons j parent =>
          rcases List.suffix_cons_iff.mp h with rfl | h
          · exact absurd hq hmod
          · exact h
      exact
        ⟨fun h => ⟨(habove m h.isModule).mp h.above, h.isModule, fun q hq hmod' =>
            h.nearest q ((habove q hmod').mpr hq) hmod'⟩,
          fun h => ⟨(habove m h.isModule).mpr h.above, h.isModule, fun q hq hmod' =>
            h.nearest q ((habove q hmod').mp hq) hmod'⟩⟩

/-- Where there is a module above, there is a nearest one. -/
theorem exists_nearest (habove : Above q p) (hmod : IsModule root q) :
    ∃ m, NearestModule root p m := by
  induction p with
  | nil => exact habove.elim
  | cons i parent ih =>
    by_cases hparent : (root.find parent).map Element.tag = some "MODULE"
    · exact ⟨parent, owner_eq_some.mp (by rw [owner, if_pos hparent])⟩
    · have hne : q ≠ parent := by
        rintro rfl
        exact hparent hmod
      have hup : Above q parent := by
        cases parent with
        | nil => exact absurd (List.suffix_nil.mp habove) hne
        | cons j parent => exact (List.suffix_cons_iff.mp habove).resolve_left hne
      obtain ⟨m, hm⟩ := ih hup
      exact ⟨m, owner_eq_some.mp (by rw [owner, if_neg hparent, owner_eq_some.mpr hm])⟩

theorem NearestModule.unique {m' : Path} (h : NearestModule root p m)
    (h' : NearestModule root p m') : m = m' :=
  Option.some.inj ((owner_eq_some.mpr h).symm.trans (owner_eq_some.mpr h'))

end AximuxSystem.Tool.Element
