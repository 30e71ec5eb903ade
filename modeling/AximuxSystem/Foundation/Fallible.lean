import Mathlib.Tactic

/-!
# Counted loops and computations that stop early but keep their state

A loop over the indices of an array is a loop over its elements. A store to one
element is seen through a function of the elements.

`Comp σ ε α` runs over a state `σ`, may stop with an error, and in either case
leaves the state it reached. `Frame` says that a part of the state stays as it
is, `EndsWell` under which condition no error stops the computation, and
`Simulates` that one computation does what another does, each with a rule for
every way to build one. `Tracks` describes what such a computation does
from a given coarse state: a returned value and the new coarse state are the
expected ones, and an error is the expected error unless it is excused. What
excuses an error is a part of the state no step changes, such as the answers
an allocator is going to give.
-/

namespace Fallible

theorem forM_range'_eq {m : Type → Type} [Monad m] {α : Type} (xs : List α) (k : ℕ)
    {f : ℕ → m PUnit} {g : α → ℕ → m PUnit}
    (h : ∀ i x, xs[i]? = some x → f (k + i) = g x (k + i)) :
    (List.range' k xs.length).forM f = (xs.zipIdx k).forM fun p => g p.1 p.2 := by
  induction xs generalizing k with
  | nil => rfl
  | cons x xs ih =>
    have hrest := ih (k + 1) fun i y hi => by
      have hnext := h (i + 1) y (by simpa using hi)
      rwa [show k + (i + 1) = k + 1 + i by omega] at hnext
    rw [List.length_cons, List.range'_succ, List.zipIdx_cons]
    change (f k >>= fun _ => (List.range' (k + 1) xs.length).forM f) = g x k >>= fun _ => _
    rw [hrest, show f k = g x k from h 0 x rfl]

/-- A loop over the indices of an array, each iteration fetching its element, is a loop over the
elements with their positions. -/
theorem forM_range_eq {m : Type → Type} [Monad m] {α : Type} (xs : List α)
    {f : ℕ → m PUnit} {g : α → ℕ → m PUnit} (h : ∀ i x, xs[i]? = some x → f i = g x i) :
    (List.range xs.length).forM f = xs.zipIdx.forM fun p => g p.1 p.2 := by
  rw [List.range_eq_range']
  exact forM_range'_eq xs 0 fun i x hi => by rw [Nat.zero_add]; exact h i x hi

theorem forM_zipIdx_fst {m : Type → Type} [Monad m] {α : Type} (xs : List α) (k : ℕ)
    (g : α → m PUnit) : ((xs.zipIdx k).forM fun p => g p.1) = xs.forM g := by
  induction xs generalizing k with
  | nil => rfl
  | cons x xs ih =>
    rw [List.zipIdx_cons]
    change (g x >>= fun _ => (xs.zipIdx (k + 1)).forM fun p => g p.1) = g x >>= fun _ => xs.forM g
    rw [ih]

theorem map_modify {α β : Type} {f : α → β} {g : α → α} {h : β → β}
    (hstore : ∀ x, f (g x) = h (f x)) (xs : List α) (i : ℕ) :
    (xs.modify i g).map f = (xs.map f).modify i h := by
  induction xs generalizing i with
  | nil => simp
  | cons x xs ih =>
    cases i with
    | zero => simp [hstore]
    | succ i => simp [ih]

theorem forall_mem_modify {α : Type} {P : α → Prop} {f : α → α} {xs : List α}
    (hxs : ∀ x ∈ xs, P x) (hf : ∀ x, P x → P (f x)) (i : ℕ) : ∀ x ∈ xs.modify i f, P x := by
  induction xs generalizing i with
  | nil => simp
  | cons x xs ih =>
    rw [List.forall_mem_cons] at hxs
    cases i with
    | zero =>
      rw [List.modify_zero_cons, List.forall_mem_cons]
      exact ⟨hf x hxs.1, hxs.2⟩
    | succ i =>
      rw [List.modify_succ_cons, List.forall_mem_cons]
      exact ⟨hxs.1, ih hxs.2 i⟩

section Except

variable {ε α β : Type}

@[simp] theorem ok_bind (a : α) (f : α → Except ε β) : (.ok a >>= f) = f a := rfl

@[simp] theorem error_bind (e : ε) (f : α → Except ε β) : (.error e >>= f) = .error e := rfl

@[simp] theorem pure_eq_ok (a : α) : (pure a : Except ε α) = .ok a := rfl

theorem bind_eq_ok {m : Except ε α} {f : α → Except ε β} {b : β} :
    (m >>= f) = .ok b ↔ ∃ a, m = .ok a ∧ f a = .ok b := by
  cases m with
  | ok a => simp
  | error e => simp

theorem bind_eq_error {m : Except ε α} {f : α → Except ε β} {e : ε} :
    (m >>= f) = .error e ↔ m = .error e ∨ ∃ a, m = .ok a ∧ f a = .error e := by
  cases m with
  | ok a => simp
  | error e => simp

/-- A sequence of fallible steps succeeds with the list of their results. -/
theorem mapM_eq_ok {f : α → Except ε β} {xs : List α} {ys : List β} :
    xs.mapM f = .ok ys ↔ List.Forall₂ (fun x y => f x = .ok y) xs ys := by
  induction xs generalizing ys with
  | nil =>
    rw [List.mapM_nil, List.forall₂_nil_left_iff, pure_eq_ok, Except.ok.injEq, eq_comm]
  | cons x xs ih =>
    rw [List.mapM_cons, bind_eq_ok]
    constructor
    · rintro ⟨y, hy, h⟩
      obtain ⟨ys', hys, h⟩ := bind_eq_ok.mp h
      cases h
      exact .cons hy (ih.mp hys)
    · rintro (_ | ⟨hy, hys⟩)
      exact ⟨_, hy, bind_eq_ok.mpr ⟨_, ih.mpr hys, rfl⟩⟩

theorem exists_of_mem_forall₂ {R : α → β → Prop} {xs : List α} {ys : List β}
    (h : List.Forall₂ R xs ys) {y : β} (hy : y ∈ ys) : ∃ x ∈ xs, R x y := by
  obtain ⟨i, hi, rfl⟩ := List.mem_iff_getElem.mp hy
  have hi' : i < xs.length := h.length_eq ▸ hi
  exact ⟨xs[i], List.getElem_mem hi', h.get hi' hi⟩

theorem exists_of_mem_mapM {f : α → Except ε β} {xs : List α} {ys : List β}
    (h : xs.mapM f = .ok ys) {y : β} (hy : y ∈ ys) : ∃ x ∈ xs, f x = .ok y :=
  exists_of_mem_forall₂ (mapM_eq_ok.mp h) hy

theorem exists_of_mem_of_mapM {f : α → Except ε β} {xs : List α} {ys : List β}
    (h : xs.mapM f = .ok ys) {x : α} (hx : x ∈ xs) : ∃ y ∈ ys, f x = .ok y :=
  exists_of_mem_forall₂ (R := fun y x => f x = .ok y) (mapM_eq_ok.mp h).flip hx

/-- What the results show of their inputs is read off the inputs. -/
theorem map_eq_of_mapM {γ : Type} {f : α → Except ε β} {g : α → γ} {g' : β → γ} {xs : List α}
    {ys : List β} (h : xs.mapM f = .ok ys) (hstep : ∀ x y, f x = .ok y → g' y = g x) :
    ys.map g' = xs.map g := by
  have hall := mapM_eq_ok.mp h
  clear h
  induction hall with
  | nil => rfl
  | cons hxy _ ih => rw [List.map_cons, List.map_cons, hstep _ _ hxy, ih]

theorem mapM_ok_of_forall {f : α → Except ε β} {xs : List α}
    (h : ∀ x ∈ xs, ∃ y, f x = .ok y) : ∃ ys, xs.mapM f = .ok ys := by
  induction xs with
  | nil => exact ⟨[], rfl⟩
  | cons x xs ih =>
    rw [List.forall_mem_cons] at h
    obtain ⟨y, hy⟩ := h.1
    obtain ⟨ys, hys⟩ := ih h.2
    exact ⟨y :: ys, mapM_eq_ok.mpr (.cons hy (mapM_eq_ok.mp hys))⟩

end Except

variable {σ τ μ ε α β : Type}

def Comp (σ ε α : Type) := σ → Except ε α × σ

namespace Comp

def bind (m : Comp σ ε α) (k : α → Comp σ ε β) : Comp σ ε β := fun s =>
  match m s with
  | (.ok a, s') => k a s'
  | (.error e, s') => (.error e, s')

instance : Monad (Comp σ ε) where
  pure a := fun s => (.ok a, s)
  bind := bind

instance : LawfulMonad (Comp σ ε) := LawfulMonad.mk' (Comp σ ε)
  (fun m => by
    funext s
    change Comp.bind m _ s = m s
    unfold Comp.bind
    cases m s with
    | mk q s' => cases q <;> rfl)
  (fun _ _ => rfl)
  (fun m f g => by
    funext s
    change Comp.bind (Comp.bind m f) g s = Comp.bind m (fun a => Comp.bind (f a) g) s
    unfold Comp.bind
    cases m s with
    | mk q s' => cases q <;> rfl)

def throw (e : ε) : Comp σ ε α := fun s => (.error e, s)

def get : Comp σ ε σ := fun s => (.ok s, s)

def modify (f : σ → σ) : Comp σ ε Unit := fun s => (.ok (), f s)

@[simp] theorem pure_apply (a : α) (s : σ) : (pure a : Comp σ ε α) s = (.ok a, s) := rfl

@[simp] theorem throw_apply (e : ε) (s : σ) : (throw e : Comp σ ε α) s = (.error e, s) := rfl

@[simp] theorem get_apply (s : σ) : (get : Comp σ ε σ) s = (.ok s, s) := rfl

@[simp] theorem modify_apply (f : σ → σ) (s : σ) :
    (modify f : Comp σ ε Unit) s = (.ok (), f s) := rfl

theorem bind_of_ok {m : Comp σ ε α} {k : α → Comp σ ε β} {s s' : σ} {a : α}
    (h : m s = (.ok a, s')) : (m >>= k) s = k a s' := by
  change Comp.bind m k s = _
  rw [Comp.bind, h]

theorem bind_of_error {m : Comp σ ε α} {k : α → Comp σ ε β} {s s' : σ} {e : ε}
    (h : m s = (.error e, s')) : (m >>= k) s = (.error e, s') := by
  change Comp.bind m k s = _
  rw [Comp.bind, h]

/-- A sequence ends well if both parts do. -/
theorem bind_eq_ok {m : Comp σ ε α} {k : α → Comp σ ε β} {s s' : σ} {b : β} :
    (m >>= k) s = (.ok b, s') ↔ ∃ a s₁, m s = (.ok a, s₁) ∧ k a s₁ = (.ok b, s') := by
  cases h : m s with
  | mk q s₁ =>
    cases q with
    | ok a =>
      rw [bind_of_ok h]
      simp
    | error e =>
      rw [bind_of_error h]
      simp

/-- What `f` shows of the state stays as it is, however the computation ends. -/
def Frame (f : σ → τ) (m : Comp σ ε α) : Prop := ∀ s, f (m s).2 = f s

namespace Frame

variable {f : σ → τ}

theorem pure (a : α) : Frame f (Pure.pure a : Comp σ ε α) := fun _ => rfl

theorem throw (e : ε) : Frame f (Comp.throw e : Comp σ ε α) := fun _ => rfl

theorem modify {g : σ → σ} (h : ∀ s, f (g s) = f s) : Frame f (Comp.modify g : Comp σ ε Unit) := h

theorem bind {m : Comp σ ε α} {k : α → Comp σ ε β} (hm : Frame f m) (hk : ∀ a, Frame f (k a)) :
    Frame f (m >>= k) := by
  intro s
  have hs := hm s
  cases h : m s with
  | mk q s' =>
    rw [h] at hs
    cases q with
    | ok a =>
      rw [bind_of_ok h, hk a s']
      exact hs
    | error e =>
      rw [bind_of_error h]
      exact hs

theorem forM {γ : Type} {xs : List γ} {m : γ → Comp σ ε PUnit} (h : ∀ x ∈ xs, Frame f (m x)) :
    Frame f (xs.forM m) := by
  induction xs with
  | nil => exact pure _
  | cons x xs ih =>
    rw [List.forall_mem_cons] at h
    exact h.1.bind fun _ => ih h.2

end Frame

/-- The computation ends well from `s` exactly if `c` holds, with a value and a state as `Q`
says. -/
def EndsWell (m : Comp σ ε α) (s : σ) (c : Prop) (Q : α → σ → Prop) : Prop :=
  (c → ∃ a s', m s = (.ok a, s') ∧ Q a s') ∧ (¬ c → ∃ e s', m s = (.error e, s'))

namespace EndsWell

variable {m : Comp σ ε α} {s : σ} {c d : Prop} {Q Q' : α → σ → Prop}

theorem of_ok {a : α} {s' : σ} (h : m s = (.ok a, s')) (hQ : Q a s') : EndsWell m s True Q :=
  ⟨fun _ => ⟨a, s', h, hQ⟩, fun hc => absurd trivial hc⟩

theorem pure {a : α} (hQ : Q a s) : EndsWell (Pure.pure a : Comp σ ε α) s True Q := of_ok rfl hQ

theorem throw (e : ε) : EndsWell (Comp.throw e : Comp σ ε α) s False Q :=
  ⟨False.elim, fun _ => ⟨e, s, rfl⟩⟩

theorem congr (h : EndsWell m s c Q) (hc : c ↔ d) : EndsWell m s d Q :=
  ⟨fun h' => h.1 (hc.mpr h'), fun h' => h.2 fun hc' => h' (hc.mp hc')⟩

theorem mono (h : EndsWell m s c Q) (hQ : ∀ a s', Q a s' → Q' a s') : EndsWell m s c Q' := by
  refine ⟨fun hc => ?_, h.2⟩
  obtain ⟨a, s', hrun, hres⟩ := h.1 hc
  exact ⟨a, s', hrun, hQ a s' hres⟩

theorem bind {k : α → Comp σ ε β} {R : β → σ → Prop} (hm : EndsWell m s c Q)
    (hk : ∀ a s', Q a s' → EndsWell (k a) s' d R) : EndsWell (m >>= k) s (c ∧ d) R := by
  by_cases hc : c
  · obtain ⟨a, s', hrun, hQ⟩ := hm.1 hc
    rw [EndsWell, bind_of_ok hrun, and_iff_right hc]
    exact hk a s' hQ
  · obtain ⟨e, s', hrun⟩ := hm.2 hc
    rw [EndsWell, bind_of_error hrun]
    exact ⟨fun h => absurd h.1 hc, fun _ => ⟨e, s', rfl⟩⟩

theorem after_ok {k : α → Comp σ ε β} {R : β → σ → Prop} {a : α} {s' : σ}
    (h : m s = (.ok a, s')) (hk : EndsWell (k a) s' c R) : EndsWell (m >>= k) s c R := by
  rw [EndsWell, bind_of_ok h]
  exact hk

end EndsWell

/-- From states related by `R` the two computations stop with the same error, or return values
which, with the states reached, are related by `Q`. -/
def Simulates (R : σ → τ → Prop) (m : Comp σ ε α) (m' : Comp τ ε β)
    (Q : α → β → σ → τ → Prop) : Prop :=
  ∀ s t, R s t →
    (∃ a b s' t', m s = (.ok a, s') ∧ m' t = (.ok b, t') ∧ Q a b s' t') ∨
      ∃ e s' t', m s = (.error e, s') ∧ m' t = (.error e, t')

namespace Simulates

variable {R R' : σ → τ → Prop} {m : Comp σ ε α} {m' : Comp τ ε β} {Q : α → β → σ → τ → Prop}

theorem pure {a : α} {b : β} (h : ∀ s t, R s t → Q a b s t) :
    Simulates R (Pure.pure a : Comp σ ε α) (Pure.pure b) Q :=
  fun s t hst => .inl ⟨a, b, s, t, rfl, rfl, h s t hst⟩

theorem throw (e : ε) : Simulates R (Comp.throw e : Comp σ ε α) (Comp.throw e) Q :=
  fun s t _ => .inr ⟨e, s, t, rfl, rfl⟩

theorem modify {f : σ → σ} {g : τ → τ} (h : ∀ s t, R s t → R' (f s) (g t)) :
    Simulates R (Comp.modify f : Comp σ ε Unit) (Comp.modify g) fun _ _ => R' :=
  fun s t hst => .inl ⟨(), (), f s, g t, rfl, rfl, h s t hst⟩

theorem bind {γ δ : Type} {k : α → Comp σ ε γ} {k' : β → Comp τ ε δ}
    {S : γ → δ → σ → τ → Prop} (hm : Simulates R m m' Q)
    (hk : ∀ a b, Simulates (Q a b) (k a) (k' b) S) : Simulates R (m >>= k) (m' >>= k') S := by
  intro s t hst
  rcases hm s t hst with ⟨a, b, s', t', hs, ht, hQ⟩ | ⟨e, s', t', hs, ht⟩
  · rw [bind_of_ok hs, bind_of_ok ht]
    exact hk a b s' t' hQ
  · exact .inr ⟨e, s', t', bind_of_error hs, bind_of_error ht⟩

/-- Both computations read their state before they go on. -/
theorem get_bind {γ δ : Type} {f : σ → γ} {g : τ → δ} {k : γ → Comp σ ε α}
    {k' : δ → Comp τ ε β} (h : ∀ s t, R s t → Simulates R (k (f s)) (k' (g t)) Q) :
    Simulates R (f <$> Comp.get >>= k) (g <$> Comp.get >>= k') Q :=
  fun s t hst => h s t hst s t hst

/-- The first computation alone reads its state. -/
theorem read_bind {γ : Type} {f : σ → γ} {k : γ → Comp σ ε α}
    (h : ∀ s t, R s t → Simulates R (k (f s)) m' Q) :
    Simulates R (f <$> Comp.get >>= k) m' Q :=
  fun s t hst => h s t hst s t hst

/-- A step of the first computation alone. -/
theorem modify_bind {f : σ → σ} {k : Unit → Comp σ ε α} (h : ∀ s t, R s t → R' (f s) t)
    (hk : Simulates R' (k ()) m' Q) : Simulates R (Comp.modify f >>= k) m' Q :=
  fun s t hst => hk (f s) t (h s t hst)

end Simulates

end Comp

section Tracks

variable (abs : σ → τ) (mem : σ → μ) (excused : μ → ε → Prop)

/-- From every state whose coarse part is `t`, the computation `m` ends as `r` says, up to
excused errors. -/
def Tracks (m : Comp σ ε α) (t : τ) (r : Except ε (α × τ)) : Prop :=
  ∀ s, abs s = t → mem (m s).2 = mem s ∧
    match (m s).1 with
    | .ok a => r = .ok (a, abs (m s).2)
    | .error e => r = .error e ∨ excused (mem s) e

variable {abs mem excused}

namespace Tracks

variable {t t' : τ}

theorem pure (a : α) : Tracks abs mem excused (Pure.pure a) t (.ok (a, t)) := by
  rintro s rfl
  exact ⟨rfl, rfl⟩

theorem throw (e : ε) : Tracks abs mem excused (Comp.throw e : Comp σ ε α) t (.error e) :=
  fun _ _ => ⟨rfl, .inl rfl⟩

theorem get {f : σ → α} {a : α} (hf : ∀ s, abs s = t → f s = a) :
    Tracks abs mem excused (f <$> Comp.get) t (.ok (a, t)) := by
  rintro s hs
  refine ⟨rfl, ?_⟩
  change Except.ok (a, t) = Except.ok (f s, abs s)
  rw [hf s hs, hs]

theorem modify {f : σ → σ} (hmem : ∀ s, mem (f s) = mem s)
    (habs : ∀ s, abs s = t → abs (f s) = t') :
    Tracks abs mem excused (Comp.modify f) t (.ok ((), t')) := by
  intro s hs
  refine ⟨hmem s, ?_⟩
  change Except.ok ((), t') = Except.ok ((), abs (f s))
  rw [habs s hs]

theorem bind {m : Comp σ ε α} {k : α → Comp σ ε β} {a : α} {r : Except ε (β × τ)}
    (hm : Tracks abs mem excused m t (.ok (a, t'))) (hk : Tracks abs mem excused (k a) t' r) :
    Tracks abs mem excused (m >>= k) t r := by
  intro s hs
  obtain ⟨hmem, hrun⟩ := hm s hs
  cases h : m s with
  | mk q s' =>
    rw [h] at hmem hrun
    cases q with
    | ok b =>
      have hrun : Except.ok (a, t') = Except.ok (b, abs s') := hrun
      cases hrun
      rw [Comp.bind_of_ok h, ← hmem]
      exact hk s' rfl
    | error e =>
      have hrun : Except.ok (a, t') = Except.error e ∨ excused (mem s) e := hrun
      rw [Comp.bind_of_error h]
      exact ⟨hmem, .inr (hrun.resolve_left nofun)⟩

theorem bind_error {m : Comp σ ε α} {k : α → Comp σ ε β} {e : ε}
    (hm : Tracks abs mem excused m t (.error e)) :
    Tracks abs mem excused (m >>= k) t (.error e) := by
  intro s hs
  obtain ⟨hmem, hrun⟩ := hm s hs
  cases h : m s with
  | mk q s' =>
    rw [h] at hmem hrun
    cases q with
    | ok b => cases hrun
    | error e' =>
      rw [Comp.bind_of_error h]
      exact ⟨hmem, hrun.imp_left fun he => by cases he; rfl⟩

/-- A returned value is the expected one. -/
theorem of_ok {m : Comp σ ε α} {r : Except ε (α × τ)} {s s' : σ} {a : α}
    (h : Tracks abs mem excused m (abs s) r) (hm : m s = (.ok a, s')) : r = .ok (a, abs s') := by
  have hs := (h s rfl).2
  rw [hm] at hs
  exact hs

/-- With no excuse at hand, the expected value is returned. -/
theorem ok_of_eq {m : Comp σ ε α} {s : σ} {a : α}
    (h : Tracks abs mem excused m (abs s) (.ok (a, t'))) (he : ∀ e, ¬ excused (mem s) e) :
    ∃ s', m s = (.ok a, s') ∧ abs s' = t' := by
  obtain ⟨-, hs⟩ := h s rfl
  cases hm : m s with
  | mk q s' =>
    rw [hm] at hs
    cases q with
    | ok b =>
      have hs : Except.ok (a, t') = Except.ok (b, abs s') := hs
      cases hs
      exact ⟨s', rfl, rfl⟩
    | error e => exact absurd (hs.resolve_left nofun) (he e)

end Tracks
end Tracks
end Fallible
