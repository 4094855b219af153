import Mathlib.Data.List.Forall2

/-!
# Readings in turn

A list is read item after item, up to the first that cannot be read. When all of it is read, when
it is not, and what the failure is then.

* `mapM_eq_ok_iff`, `exists_of_mem_mapM`: each item is read, and there are no other results;
* `mapM_eq_error_iff`, `exists_mapM_error_iff`: there is an item that is not, and the first one
  counts;
* `inTurn_mapM`: of two lists, one after the other, both are read, and the first failure counts.
-/

namespace DocQuery

variable {α β γ ε : Type} {f : α → Except ε β} {x : α} {xs : List α} {e : ε}

theorem map_eq_ok_iff {g : α → β} {result : Except ε α} {y : β} :
    result.map g = .ok y ↔ ∃ x, result = .ok x ∧ g x = y := by
  cases result <;> simp [Except.map]

theorem bind_eq_ok_iff {result : Except ε α} {y : β} :
    result >>= f = .ok y ↔ ∃ x, result = .ok x ∧ f x = .ok y := by
  cases result <;> simp [bind, Except.bind]

/-- Reading all of a list succeeds when each item is read, and gives what each of them gives. -/
theorem mapM_eq_ok_iff {ys : List β} :
    xs.mapM f = .ok ys ↔ List.Forall₂ (fun x y => f x = .ok y) xs ys := by
  induction xs generalizing ys with
  | nil =>
    rw [List.mapM_nil, List.forall₂_nil_left_iff]
    exact ⟨fun h => (Except.ok.inj h).symm, fun h => h ▸ rfl⟩
  | cons x xs ih =>
    rw [List.mapM_cons, List.forall₂_cons_left_iff]
    constructor
    · intro h
      obtain ⟨y, hx, h⟩ := bind_eq_ok_iff.1 h
      obtain ⟨rest, hxs, h⟩ := bind_eq_ok_iff.1 h
      exact ⟨y, rest, hx, ih.1 hxs, (Except.ok.inj h).symm⟩
    · rintro ⟨y, rest, hx, hxs, rfl⟩
      rw [hx, ih.2 hxs]
      rfl

/-- Whatever is among the results was read from an item. -/
theorem exists_of_mem_mapM {ys : List β} {y : β} (read : xs.mapM f = .ok ys) (mem : y ∈ ys) :
    ∃ x ∈ xs, f x = .ok y := by
  have each := mapM_eq_ok_iff.1 read
  obtain ⟨i, inside, rfl⟩ := List.mem_iff_getElem.1 mem
  have inside' : i < xs.length := each.length_eq ▸ inside
  exact ⟨xs[i], List.getElem_mem inside', each.get inside' inside⟩

theorem mapM_eq_map_mapM {g : α → Except ε γ} {k : γ → β} (same : ∀ x ∈ xs, f x = (g x).map k) :
    xs.mapM f = (xs.mapM g).map (List.map k) := by
  induction xs with
  | nil => rfl
  | cons x xs ih =>
    have later := ih fun y hy => same y (.tail _ hy)
    rw [List.mapM_cons, List.mapM_cons, same x (.head _), later]
    cases g x with
    | error e => rfl
    | ok y => cases xs.mapM g <;> rfl

/-! ## Failures -/

theorem exists_ok_iff {result : Except ε α} :
    (∃ x, result = .ok x) ↔ ∀ e, result ≠ .error e := by
  cases result <;> simp

theorem map_eq_error_iff {g : α → β} {result : Except ε α} :
    result.map g = .error e ↔ result = .error e := by
  cases result <;> simp [Except.map]

theorem mapM_cons_eq_error_iff : (x :: xs).mapM f = .error e ↔
    f x = .error e ∨ (∃ y, f x = .ok y) ∧ xs.mapM f = .error e := by
  rw [List.mapM_cons]
  cases f x with
  | error => simp [bind, Except.bind]
  | ok y => cases xs.mapM f <;> simp [bind, Except.bind, pure, Except.pure]

theorem mapM_singleton_eq_error_iff : [x].mapM f = .error e ↔ f x = .error e := by
  rw [mapM_cons_eq_error_iff]
  simp [pure, Except.pure]

/-- Reading all of a list fails as the first item does that cannot be read. -/
theorem mapM_eq_error_iff : xs.mapM f = .error e ↔
    ∃ before x after, xs = before ++ x :: after ∧ (∀ y ∈ before, ∀ e, f y ≠ .error e) ∧
      f x = .error e := by
  induction xs with
  | nil => simp [pure, Except.pure]
  | cons x xs ih =>
    rw [mapM_cons_eq_error_iff, ih, exists_ok_iff]
    constructor
    · rintro (here | ⟨fine, before, y, after, rfl, earlier, there⟩)
      · exact ⟨[], x, xs, rfl, by simp, here⟩
      · exact ⟨x :: before, y, after, rfl, by simpa [fine] using earlier, there⟩
    · rintro ⟨before, y, after, split, earlier, there⟩
      -- The failure is that of the first item when no item stands before it.
      cases before with
      | nil =>
        obtain ⟨rfl, rfl⟩ := List.cons.inj split
        exact .inl there
      | cons z before =>
        obtain ⟨rfl, rfl⟩ := List.cons.inj split
        rw [List.forall_mem_cons] at earlier
        exact .inr ⟨earlier.1, before, y, after, rfl, earlier.2, there⟩

theorem exists_mapM_error_iff :
    (∃ e, xs.mapM f = .error e) ↔ ∃ x ∈ xs, ∃ e, f x = .error e := by
  induction xs with
  | nil => simp [pure, Except.pure]
  | cons x xs ih =>
    simp only [mapM_cons_eq_error_iff, List.exists_mem_cons_iff, ← ih]
    cases f x <;> simp

theorem mapM_error_congr {ys : List α}
    (alike : List.Forall₂ (fun x y => ∀ e, f x = .error e ↔ f y = .error e) xs ys) :
    xs.mapM f = .error e ↔ ys.mapM f = .error e := by
  induction alike with
  | nil => rfl
  | cons same _ ih =>
    simp only [mapM_cons_eq_error_iff, exists_ok_iff, ne_eq, same, ih]

/-! ## One list after the other -/

/-- What comes of two readings, one after the other. The results stand in this order, and the first
failure counts. -/
structure InTurn (first second whole : Except ε (List α)) : Prop where
  ok_iff : ∀ zs, whole = .ok zs ↔ ∃ xs ys, first = .ok xs ∧ second = .ok ys ∧ zs = xs ++ ys
  error_iff : ∀ e, whole = .error e ↔
    first = .error e ∨ (∃ xs, first = .ok xs) ∧ second = .error e

theorem inTurn_mapM (f : β → Except ε α) (xs ys : List β) :
    InTurn (xs.mapM f) (ys.mapM f) ((xs ++ ys).mapM f) := by
  rw [List.mapM_append]
  cases xs.mapM f with
  | error e => constructor <;> simp [bind, Except.bind]
  | ok as =>
    cases ys.mapM f with
    | error e => constructor <;> simp [bind, Except.bind]
    | ok bs => constructor <;> simp [bind, Except.bind, pure, Except.pure, eq_comm]

end DocQuery
