import Mathlib.Data.List.Forall2

/-! Computations that may fail, told from their results: when there is one, and which. -/

namespace LiveQuery

variable {ε α β γ : Type}

section

variable {f : α → Except ε β} {xs : List α} {ys : List β}

theorem bind_eq_ok_iff {x : Except ε α} {g : α → Except ε β} {b : β} :
    x >>= g = .ok b ↔ ∃ a, x = .ok a ∧ g a = .ok b := by
  cases x with
  | error e => simp [bind, Except.bind]
  | ok a => simp [bind, Except.bind]

theorem bind_eq_ok {x : Except ε α} {g : α → Except ε β} {b : β} (h : x >>= g = .ok b) :
    ∃ a, x = .ok a ∧ g a = .ok b :=
  bind_eq_ok_iff.mp h

theorem map_eq_ok {x : Except ε α} {g : α → β} {b : β} (h : g <$> x = .ok b) :
    ∃ a, x = .ok a ∧ g a = b := by
  cases x with
  | error e => cases h
  | ok a => exact ⟨a, rfl, Except.ok.inj h⟩

theorem mapM_eq_ok_iff : xs.mapM f = .ok ys ↔ List.Forall₂ (fun x y => f x = .ok y) xs ys := by
  induction xs generalizing ys with
  | nil => simp [pure, Except.pure, eq_comm]
  | cons x xs ih =>
    rw [List.mapM_cons, List.forall₂_cons_left_iff]
    simp only [bind_eq_ok_iff, ih, pure, Except.pure, Except.ok.injEq]
    constructor
    · rintro ⟨y, hy, ys, hys, rfl⟩
      exact ⟨y, ys, hy, hys, rfl⟩
    · rintro ⟨y, ys, hy, hys, rfl⟩
      exact ⟨y, hy, ys, hys, rfl⟩

theorem forall₂_of_mapM (h : xs.mapM f = .ok ys) :
    List.Forall₂ (fun x y => f x = .ok y) xs ys :=
  mapM_eq_ok_iff.mp h

theorem mem_of_mapM (h : xs.mapM f = .ok ys) (y : β) : y ∈ ys ↔ ∃ x ∈ xs, f x = .ok y := by
  have hys := forall₂_of_mapM h
  clear h
  induction hys with
  | nil => simp
  | cons hx _ ih => simp [hx, ← ih, eq_comm]

theorem mem_flatten_of_mapM {f : α → Except ε (List β)} {ys : List (List β)}
    (h : xs.mapM f = .ok ys) (c : β) : c ∈ ys.flatten ↔ ∃ x ∈ xs, ∃ y, f x = .ok y ∧ c ∈ y := by
  simp only [List.mem_flatten, mem_of_mapM h]
  constructor
  · rintro ⟨y, ⟨x, hx, hy⟩, hc⟩
    exact ⟨x, hx, y, hy, hc⟩
  · rintro ⟨x, hx, y, hy, hc⟩
    exact ⟨y, ⟨x, hx, hy⟩, hc⟩

theorem ok_of_mapM (h : xs.mapM f = .ok ys) : ∀ x ∈ xs, ∃ y, f x = .ok y := by
  have hys := forall₂_of_mapM h
  clear h
  induction hys with
  | nil => simp
  | cons hx _ ih => exact List.forall_mem_cons.mpr ⟨⟨_, hx⟩, ih⟩

/-- Two passes over a list have the results of one that does both at each entry. -/
theorem mapM_mapM_eq_ok_iff {g : β → Except ε γ} {zs : List γ} :
    xs.mapM f >>= List.mapM g = .ok zs ↔ xs.mapM (fun x => f x >>= g) = .ok zs := by
  simp only [bind_eq_ok_iff, mapM_eq_ok_iff]
  constructor
  · rintro ⟨ys, hf, hg⟩
    induction hf generalizing zs with
    | nil =>
      cases hg
      exact .nil
    | cons hx _ ih =>
      cases hg with
      | cons hy hg => exact .cons ⟨_, hx, hy⟩ (ih hg)
  · intro h
    induction h with
    | nil => exact ⟨[], .nil, .nil⟩
    | cons h _ ih =>
      obtain ⟨y, hx, hy⟩ := h
      obtain ⟨ys, hf, hg⟩ := ih
      exact ⟨y :: ys, .cons hx hf, .cons hy hg⟩

end

/-- There is a result exactly under the condition `P`, and then it is `a`. -/
def Yields (x : Except ε α) (P : Prop) (a : α) : Prop := ∀ b, x = .ok b ↔ P ∧ b = a

namespace Yields

variable {x y : Except ε α} {P Q : Prop} {a : α} {b : β}

theorem ok (a : α) : Yields (.ok a : Except ε α) True a := by
  intro b
  simp [eq_comm]

theorem of_error (h : ∃ e, x = .error e) : Yields x False a := by
  obtain ⟨e, rfl⟩ := h
  intro b
  simp

theorem of_eq (h : Yields x P a) (hx : y = x) : Yields y P a := hx ▸ h

theorem of_iff (h : Yields x P a) (hP : Q ↔ P) : Yields x Q a := by
  intro b
  rw [hP]
  exact h b

theorem isOk_iff (h : Yields x P a) : (∃ b, x = .ok b) ↔ P := by
  simp [h _]

theorem bind {f : α → Except ε β} (h : Yields x P a) (hf : P → Yields (f a) Q b) :
    Yields (x >>= f) (P ∧ Q) b := by
  intro c
  rw [bind_eq_ok_iff]
  constructor
  · rintro ⟨a', hx, hfa⟩
    obtain ⟨hP, rfl⟩ := (h a').mp hx
    obtain ⟨hQ, hc⟩ := (hf hP c).mp hfa
    exact ⟨⟨hP, hQ⟩, hc⟩
  · rintro ⟨⟨hP, hQ⟩, hc⟩
    exact ⟨a, (h a).mpr ⟨hP, rfl⟩, (hf hP c).mpr ⟨hQ, hc⟩⟩

theorem map (h : Yields x P a) (f : α → β) : Yields (f <$> x) P (f a) := by
  intro c
  constructor
  · intro hc
    obtain ⟨a', hx, rfl⟩ := map_eq_ok hc
    obtain ⟨hP, rfl⟩ := (h a').mp hx
    exact ⟨hP, rfl⟩
  · rintro ⟨hP, rfl⟩
    rw [(h a).mpr ⟨hP, rfl⟩]
    rfl

theorem mapM {f : α → Except ε β} {P : α → Prop} {g : α → β} {xs : List α}
    (h : ∀ x ∈ xs, Yields (f x) (P x) (g x)) :
    Yields (xs.mapM f) (∀ x ∈ xs, P x) (xs.map g) := by
  induction xs with
  | nil => exact of_iff (ok []) (by simp)
  | cons x xs ih =>
    have hx := h x List.mem_cons_self
    have hxs := ih fun y hy => h y (List.mem_cons_of_mem x hy)
    exact ((hx.bind fun _ => hxs.bind fun _ => ok (g x :: xs.map g)).of_eq List.mapM_cons).of_iff
      (by simp)

theorem mapM_mapM {f : α → Except ε β} {g : β → Except ε γ} {P : α → Prop} {k : α → γ}
    {xs : List α} (h : ∀ x ∈ xs, Yields (f x >>= g) (P x) (k x)) :
    Yields (xs.mapM f >>= List.mapM g) (∀ x ∈ xs, P x) (xs.map k) :=
  fun zs => mapM_mapM_eq_ok_iff.trans (mapM h zs)

end Yields

end LiveQuery
