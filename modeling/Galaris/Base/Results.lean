import Mathlib.Data.List.Forall2

/-! Computations that may fail with an error: what it takes for one to succeed. -/
namespace Results

universe u v
variable {ε : Type u} {α β : Type v}

theorem bind_eq_ok {x : Except ε α} {f : α → Except ε β} {b : β} :
    (x >>= f) = .ok b ↔ ∃ a, x = .ok a ∧ f a = .ok b := by
  cases x with
  | error e => exact ⟨nofun, fun ⟨_, h, _⟩ => nomatch h⟩
  | ok a => exact ⟨fun h => ⟨a, rfl, h⟩, fun ⟨a', ha, h⟩ => by cases ha; exact h⟩

theorem map_eq_ok {x : Except ε α} {f : α → β} {b : β} : x.map f = .ok b ↔ ∃ a, x = .ok a ∧ f a = b := by
  cases x with
  | error e => exact ⟨nofun, fun ⟨_, h, _⟩ => nomatch h⟩
  | ok a => exact ⟨fun h => ⟨a, rfl, Except.ok.inj h⟩, fun ⟨_, ha, h⟩ => congrArg Except.ok (Except.ok.inj ha ▸ h)⟩

theorem pure_eq_ok {a b : α} : (pure a : Except ε α) = .ok b ↔ a = b :=
  ⟨fun h => by cases h; rfl, fun h => h ▸ rfl⟩

theorem forM_eq_ok {γ : Type v} {xs : List γ} {f : γ → Except ε PUnit} {u : PUnit} :
    xs.forM f = .ok u ↔ ∀ x ∈ xs, f x = .ok ⟨⟩ := by
  induction xs with
  | nil => exact ⟨fun _ _ h => absurd h List.not_mem_nil, fun _ => rfl⟩
  | cons x rest ih =>
    change (f x >>= fun _ => rest.forM f) = .ok u ↔ _
    rw [bind_eq_ok, List.forall_mem_cons, ← ih]
    exact ⟨fun ⟨_, hx, hrest⟩ => ⟨hx, hrest⟩, fun ⟨hx, hrest⟩ => ⟨⟨⟩, hx, hrest⟩⟩

/-- Every step of a fold that succeeds has succeeded. -/
theorem foldlM_eq_ok {γ : Type v} {step : α → γ → Except ε α} {xs : List γ} {a b : α}
    (h : xs.foldlM step a = .ok b) : ∀ x ∈ xs, ∃ c d, step c x = .ok d := by
  induction xs generalizing a with
  | nil => exact fun _ hx => absurd hx List.not_mem_nil
  | cons x rest ih =>
    rw [List.foldlM_cons, bind_eq_ok] at h
    obtain ⟨c, hfirst, hrest⟩ := h
    exact List.forall_mem_cons.mpr ⟨⟨a, c, hfirst⟩, ih hrest⟩

/-- A fold that succeeds does so too with steps that keep a relation between what they carry. -/
theorem foldlM_simulates {γ : Type v} {δ : Type v} {f : α → γ → Except ε α} {g : δ → γ → Except ε δ}
    {R : α → δ → Prop}
    (hstep : ∀ x a b d, R a d → f a x = .ok b → ∃ e, g d x = .ok e ∧ R b e) {xs : List γ} {a b : α} {d : δ} (hR : R a d)
    (h : xs.foldlM f a = .ok b) : ∃ e, xs.foldlM g d = .ok e ∧ R b e := by
  induction xs generalizing a d with
  | nil =>
    cases h
    exact ⟨d, rfl, hR⟩
  | cons x rest ih =>
    rw [List.foldlM_cons, bind_eq_ok] at h
    obtain ⟨c, hfirst, hrest⟩ := h
    obtain ⟨e, he, hR⟩ := hstep x a c d hR hfirst
    obtain ⟨e', he', hR⟩ := ih hR hrest
    exact ⟨e', by rw [List.foldlM_cons, he]; exact he', hR⟩

/-- A list of computations succeeds where each does. -/
theorem mapM_eq_ok {γ : Type v} {f : γ → Except ε β} {xs : List γ} {ys : List β} :
    xs.mapM f = .ok ys ↔ List.Forall₂ (fun x y => f x = .ok y) xs ys := by
  induction xs generalizing ys with
  | nil =>
    rw [List.forall₂_nil_left_iff]
    exact ⟨fun h => by cases h; rfl, fun h => by subst h; rfl⟩
  | cons x rest ih =>
    rw [List.mapM_cons, bind_eq_ok, List.forall₂_cons_left_iff]
    constructor
    · rintro ⟨y, hy, h⟩
      rw [bind_eq_ok] at h
      obtain ⟨others, hothers, hpure⟩ := h
      exact ⟨y, others, hy, ih.mp hothers, (pure_eq_ok.mp hpure).symm⟩
    · rintro ⟨y, others, hy, hothers, rfl⟩
      refine ⟨y, hy, ?_⟩
      rw [ih.mpr hothers]
      rfl

theorem mapM_each {γ : Type v} {f : γ → Except ε β} {xs : List γ} {ys : List β}
    (h : xs.mapM f = .ok ys) : ∀ x ∈ xs, ∃ y, f x = .ok y := by
  induction mapM_eq_ok.mp h with
  | nil => exact fun _ hx => absurd hx List.not_mem_nil
  | cons hone hrest ih => exact List.forall_mem_cons.mpr ⟨⟨_, hone⟩, ih (mapM_eq_ok.mpr hrest)⟩

theorem mapM_eq_map {γ : Type v} {f : γ → Except ε β} {g : γ → β}
    (hg : ∀ x y, f x = .ok y → y = g x) {xs : List γ} {ys : List β}
    (h : xs.mapM f = .ok ys) : ys = xs.map g := by
  induction mapM_eq_ok.mp h with
  | nil => rfl
  | cons hone hrest ih => rw [List.map_cons, hg _ _ hone, ← ih (mapM_eq_ok.mpr hrest)]

/-- A list of computations fails with the error of one of them. -/
theorem mapM_error {f : α → Except ε β} {xs : List α} {e : ε} (h : xs.mapM f = .error e) :
    ∃ x ∈ xs, f x = .error e := by
  induction xs with
  | nil => cases h
  | cons x rest ih =>
    rw [List.mapM_cons] at h
    cases hx : f x with
    | error e' =>
      rw [hx] at h
      cases h
      exact ⟨x, List.mem_cons_self, hx⟩
    | ok y =>
      rw [hx] at h
      cases hrest : rest.mapM f with
      | error e' =>
        rw [hrest] at h
        cases h
        obtain ⟨z, hz, hfz⟩ := ih hrest
        exact ⟨z, List.mem_cons_of_mem _ hz, hfz⟩
      | ok ys => rw [hrest] at h; cases h

/-- What every element yields, the list yields. -/
theorem mapM_eq_some {γ δ : Type u} {f : γ → Option δ} {g : γ → δ} {xs : List γ}
    (h : ∀ x ∈ xs, f x = some (g x)) : xs.mapM f = some (xs.map g) := by
  induction xs with
  | nil => rfl
  | cons x rest ih =>
    rw [List.mapM_cons, h x List.mem_cons_self, ih fun y hy => h y (List.mem_cons_of_mem _ hy)]
    rfl

end Results
