namespace EdgeAudit

variable {α β ε δ : Type} {x : Except ε α} {k : α → Except ε β} {xs : List α}

theorem pure_eq_ok {a b : α} : (pure a : Except ε α) = .ok b ↔ a = b :=
  Except.ok.injEq a b ▸ Iff.rfl

theorem bind_eq_ok {b : β} : (x >>= k) = .ok b ↔ ∃ a, x = .ok a ∧ k a = .ok b := by
  cases x with
  | error e => simp [bind, Except.bind]
  | ok a => simp [bind, Except.bind]

theorem bind_returns : (∃ b, (x >>= k) = .ok b) ↔ ∃ a, x = .ok a ∧ ∃ b, k a = .ok b := by
  simp only [bind_eq_ok]
  constructor
  · rintro ⟨b, a, ha, hb⟩
    exact ⟨a, ha, b, hb⟩
  · rintro ⟨a, ha, b, hb⟩
    exact ⟨b, a, ha, hb⟩

theorem bind_returns_and {p : Prop} (hk : ∀ a, (∃ b, k a = .ok b) ↔ p) :
    (∃ b, (x >>= k) = .ok b) ↔ (∃ a, x = .ok a) ∧ p := by
  rw [bind_returns]
  constructor
  · rintro ⟨a, ha, hb⟩
    exact ⟨⟨a, ha⟩, (hk a).mp hb⟩
  · rintro ⟨⟨a, ha⟩, hp⟩
    exact ⟨a, ha, (hk a).mpr hp⟩

theorem bind_returns_of_total (hk : ∀ a, ∃ b, k a = .ok b) :
    (∃ b, (x >>= k) = .ok b) ↔ ∃ a, x = .ok a := by
  rw [bind_returns]
  constructor
  · rintro ⟨a, ha, -⟩
    exact ⟨a, ha⟩
  · rintro ⟨a, ha⟩
    exact ⟨a, ha, hk a⟩

theorem bind_pure_returns {g : α → β} :
    (∃ b, (x >>= fun a => pure (g a)) = .ok b) ↔ ∃ a, x = .ok a :=
  bind_returns_of_total fun _ => ⟨_, rfl⟩

theorem map_eq_ok {g : α → β} {b : β} : g <$> x = .ok b ↔ ∃ a, x = .ok a ∧ g a = b := by
  cases x with
  | error e => simp [Functor.map, Except.map]
  | ok a => simp [Functor.map, Except.map]

theorem map_eq_error {g : α → β} {e : ε} : g <$> x = .error e ↔ x = .error e := by
  cases x with
  | error e' => simp [Functor.map, Except.map]
  | ok a => simp [Functor.map, Except.map]

theorem map_returns {g : α → β} : (∃ b, x.map g = .ok b) ↔ ∃ a, x = .ok a := by
  cases x with
  | error e => simp [Except.map]
  | ok a => simp [Except.map]

@[simp] theorem mapError_ok (g : ε → δ) (a : α) : (Except.ok a).mapError g = .ok a := rfl

@[simp] theorem mapError_error (g : ε → δ) (e : ε) :
    (Except.error e : Except ε α).mapError g = .error (g e) := rfl

theorem mapError_eq_ok {g : ε → δ} {a : α} : x.mapError g = .ok a ↔ x = .ok a := by
  cases x with
  | error e => simp
  | ok b => simp

theorem mapM_cons_eq_ok {a : α} {ys : List β} :
    (a :: xs).mapM k = .ok ys ↔ ∃ y zs, k a = .ok y ∧ xs.mapM k = .ok zs ∧ ys = y :: zs := by
  simp only [List.mapM_cons, bind_eq_ok, pure, Except.pure, Except.ok.injEq]
  constructor
  · rintro ⟨y, hy, zs, hzs, rfl⟩
    exact ⟨y, zs, hy, hzs, rfl⟩
  · rintro ⟨y, zs, hy, hzs, rfl⟩
    exact ⟨y, hy, zs, hzs, rfl⟩

theorem mapM_ok [Inhabited β] {ys : List β} (h : xs.mapM k = .ok ys) :
    ∃ g : α → β, (∀ x ∈ xs, k x = .ok (g x)) ∧ ys = xs.map g := by
  refine ⟨fun x => (k x).toOption.getD default, ?_⟩
  induction xs generalizing ys with
  | nil =>
    cases h
    simp
  | cons x xs ih =>
    obtain ⟨y, zs, hx, hxs, rfl⟩ := mapM_cons_eq_ok.mp h
    obtain ⟨hall, hzs⟩ := ih hxs
    refine ⟨?_, ?_⟩
    · intro z hz
      rcases List.mem_cons.mp hz with rfl | hz
      · simp [hx, Except.toOption]
      · exact hall z hz
    · rw [List.map_cons, hx, hzs]
      rfl

theorem mapM_eq_ok {g : α → β} (h : ∀ x ∈ xs, k x = .ok (g x)) : xs.mapM k = .ok (xs.map g) := by
  induction xs with
  | nil => rfl
  | cons x xs ih =>
    rw [List.mapM_cons, h x (by simp), ih fun y hy => h y (by simp [hy])]
    rfl

theorem mapM_eq_ok_iff {p : α → Prop} {g : α → β} (h : ∀ x y, k x = .ok y ↔ p x ∧ y = g x) {ys : List β} :
    xs.mapM k = .ok ys ↔ (∀ x ∈ xs, p x) ∧ ys = xs.map g := by
  induction xs generalizing ys with
  | nil => simp [pure, Except.pure, eq_comm]
  | cons x xs ih =>
    rw [mapM_cons_eq_ok, List.forall_mem_cons, List.map_cons]
    constructor
    · rintro ⟨y, zs, hy, hzs, rfl⟩
      obtain ⟨hx, rfl⟩ := (h x y).mp hy
      obtain ⟨hxs, rfl⟩ := ih.mp hzs
      exact ⟨⟨hx, hxs⟩, rfl⟩
    · rintro ⟨⟨hx, hxs⟩, rfl⟩
      exact ⟨_, _, (h x _).mpr ⟨hx, rfl⟩, ih.mpr ⟨hxs, rfl⟩, rfl⟩

theorem mapM_returns : (∃ ys, xs.mapM k = .ok ys) ↔ ∀ x ∈ xs, ∃ y, k x = .ok y := by
  induction xs with
  | nil => simp [pure, Except.pure]
  | cons x xs ih =>
    rw [List.forall_mem_cons, ← ih]
    constructor
    · rintro ⟨ys, h⟩
      obtain ⟨y, zs, hx, hxs, -⟩ := mapM_cons_eq_ok.mp h
      exact ⟨⟨y, hx⟩, zs, hxs⟩
    · rintro ⟨⟨y, hx⟩, zs, hxs⟩
      exact ⟨y :: zs, mapM_cons_eq_ok.mpr ⟨y, zs, hx, hxs, rfl⟩⟩

theorem mapM_error {e : ε} (h : xs.mapM k = .error e) : ∃ x ∈ xs, k x = .error e := by
  induction xs with
  | nil => cases h
  | cons x xs ih =>
    rw [List.mapM_cons] at h
    cases hx : k x with
    | error e' =>
      rw [hx] at h
      cases h
      exact ⟨x, by simp, hx⟩
    | ok y =>
      cases hxs : xs.mapM k with
      | error e' =>
        rw [hx, hxs] at h
        cases h
        obtain ⟨z, hz, hfail⟩ := ih hxs
        exact ⟨z, List.mem_cons_of_mem x hz, hfail⟩
      | ok ys =>
        rw [hx, hxs] at h
        cases h

end EdgeAudit
