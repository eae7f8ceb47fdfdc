import EdgeAudit.Script.Tree

namespace EdgeAudit.Script.Tree

def InRow : Nat → Nat → List Tree → Prop
  | a, b, [] => a ≤ b
  | a, b, t :: ts => a ≤ t.start ∧ t.start ≤ t.stop ∧ InRow t.stop b ts

/-- How a node begins: a call with what is called, a member with its object, a construction and
an import with a keyword. Names and the word `import` are tokens. -/
def Headed (t : Tree) : Prop :=
  match t.kind with
  | .call => ∀ c ∈ t.child? .callee, c.start = t.start
  | .member => ∀ c ∈ t.child? .object, c.start = t.start
  | .construction => t.start < t.stop ∧ ∀ c ∈ t.children, t.start < c.start
  | .importStatement => t.start < t.stop ∧ ∀ c ∈ t.children, t.start < c.start
  | .identifier => t.children = []
  | .importWord => t.start < t.stop ∧ t.children = []
  | _ => True

def Nested (t : Tree) : Prop :=
  ∀ u ∈ t.preorder, InRow u.start u.stop u.children

/-- The children of each node are ordered, disjoint and inside it, and each node begins as it
should. -/
def WellFormed (t : Tree) : Prop :=
  ∀ u ∈ t.preorder, InRow u.start u.stop u.children ∧ Headed u

instance decidableInRow : (a b : Nat) → (ts : List Tree) → Decidable (InRow a b ts)
  | a, b, [] => inferInstanceAs (Decidable (a ≤ b))
  | a, b, t :: ts =>
    have := decidableInRow t.stop b ts
    inferInstanceAs (Decidable (a ≤ t.start ∧ t.start ≤ t.stop ∧ InRow t.stop b ts))

instance : (t : Tree) → Decidable t.Headed
  | node .call r s e cs =>
    inferInstanceAs (Decidable (∀ c ∈ child? (node .call r s e cs) .callee, c.start = s))
  | node .member r s e cs =>
    inferInstanceAs (Decidable (∀ c ∈ child? (node .member r s e cs) .object, c.start = s))
  | node .construction _ s e cs => inferInstanceAs (Decidable (s < e ∧ ∀ c ∈ cs, s < c.start))
  | node .importStatement _ s e cs => inferInstanceAs (Decidable (s < e ∧ ∀ c ∈ cs, s < c.start))
  | node .identifier _ _ _ cs => decidable_of_iff (cs.isEmpty = true) List.isEmpty_iff
  | node .importWord _ s e cs =>
    decidable_of_iff (s < e ∧ cs.isEmpty = true) (and_congr_right fun _ => List.isEmpty_iff)
  | node .requireClause _ _ _ _ => .isTrue trivial
  | node .string _ _ _ _ => .isTrue trivial
  | node .number _ _ _ _ => .isTrue trivial
  | node .other _ _ _ _ => .isTrue trivial

instance (t : Tree) : Decidable t.Nested :=
  inferInstanceAs (Decidable (∀ u ∈ t.preorder, InRow u.start u.stop u.children))

instance (t : Tree) : Decidable t.WellFormed :=
  inferInstanceAs (Decidable (∀ u ∈ t.preorder, InRow u.start u.stop u.children ∧ Headed u))

variable {t u h : Tree} {ts xs ys : List Tree} {a b : Nat}

theorem mem_preorderAll : u ∈ preorderAll ts ↔ ∃ t ∈ ts, u ∈ t.preorder := by
  induction ts with
  | nil => simp [preorderAll]
  | cons t ts ih => simp [preorderAll, ih]

theorem mem_preorder : u ∈ t.preorder ↔ u = t ∨ u ∈ preorderAll t.children := by
  cases t with
  | node k r s e cs => simp [preorder, children]

theorem self_mem (t : Tree) : t ∈ t.preorder :=
  mem_preorder.mpr (.inl rfl)

theorem child_mem (hu : u ∈ t.children) : u ∈ t.preorder :=
  mem_preorder.mpr (.inr (mem_preorderAll.mpr ⟨u, hu, self_mem u⟩))

theorem Nested.row (ht : t.Nested) : InRow t.start t.stop t.children :=
  ht t (self_mem t)

theorem WellFormed.nested (ht : t.WellFormed) : t.Nested :=
  fun u hu => (ht u hu).1

theorem WellFormed.row (ht : t.WellFormed) : InRow t.start t.stop t.children :=
  ht.nested.row

theorem WellFormed.headed (ht : t.WellFormed) : t.Headed :=
  (ht t (self_mem t)).2

theorem InRow.le (hts : InRow a b ts) : a ≤ b := by
  induction ts generalizing a with
  | nil => exact hts
  | cons t ts ih =>
    obtain ⟨hstart, hspan, hrest⟩ := hts
    have hle := ih hrest
    omega

theorem InRow.split (hts : InRow a b (xs ++ h :: ys)) :
    InRow a h.start xs ∧ h.start ≤ h.stop ∧ InRow h.stop b ys := by
  induction xs generalizing a with
  | nil => exact ⟨hts.1, hts.2.1, hts.2.2⟩
  | cons x xs ih =>
    obtain ⟨hstart, hspan, hrest⟩ := hts
    obtain ⟨hxs, hh⟩ := ih hrest
    exact ⟨⟨hstart, hspan, hxs⟩, hh⟩

theorem InRow.within (hts : InRow a b ts) (hu : u ∈ ts) :
    a ≤ u.start ∧ u.start ≤ u.stop ∧ u.stop ≤ b := by
  obtain ⟨xs, ys, rfl⟩ := List.append_of_mem hu
  obtain ⟨hxs, hspan, hys⟩ := hts.split
  exact ⟨hxs.le, hspan, hys.le⟩

theorem of_children {Q : Tree → Prop} (h : ∀ t, (∀ c ∈ t.children, Q c) → Q t) (t : Tree) : Q t := by
  refine preorder.induct Q (fun ts => ∀ t ∈ ts, Q t) ?_ ?_ ?_ t
  · intro k r s e cs ih
    exact h _ ih
  · intro t ht
    cases ht
  · intro t ts iht ihts x hx
    rcases List.mem_cons.mp hx with rfl | hx
    · exact iht
    · exact ihts x hx

theorem preorder_trans (hu : u ∈ t.preorder) {v : Tree} (hv : v ∈ u.preorder) : v ∈ t.preorder := by
  induction t using of_children with
  | h t ih =>
    rcases mem_preorder.mp hu with rfl | hin
    · exact hv
    · obtain ⟨c, hc, hin⟩ := mem_preorderAll.mp hin
      exact mem_preorder.mpr (.inr (mem_preorderAll.mpr ⟨c, hc, ih c hc hin⟩))

theorem WellFormed.node (ht : t.WellFormed) (hu : u ∈ t.preorder) : u.WellFormed :=
  fun _ hv => ht _ (preorder_trans hu hv)

theorem WellFormed.child (ht : t.WellFormed) (hu : u ∈ t.children) : u.WellFormed :=
  ht.node (child_mem hu)

theorem Nested.child (ht : t.Nested) (hu : u ∈ t.children) : u.Nested :=
  fun _ hv => ht _ (preorder_trans (child_mem hu) hv)

theorem Nested.within (ht : t.Nested) (hu : u ∈ t.preorder) :
    t.start ≤ u.start ∧ u.start ≤ u.stop ∧ u.stop ≤ t.stop := by
  induction t using of_children with
  | h t ih =>
    rcases mem_preorder.mp hu with rfl | hin
    · exact ⟨Nat.le_refl _, ht.row.le, Nat.le_refl _⟩
    · obtain ⟨c, hc, hin⟩ := mem_preorderAll.mp hin
      have hchild := ht.row.within hc
      have hbelow := ih c hc (ht.child hc) hin
      omega

theorem InRow.below (hts : InRow a b ts) (hall : ∀ t ∈ ts, t.Nested) (hu : u ∈ preorderAll ts) :
    a ≤ u.start ∧ u.stop ≤ b := by
  obtain ⟨t, ht, hin⟩ := mem_preorderAll.mp hu
  have hrow := hts.within ht
  have hbelow := (hall t ht).within hin
  omega

theorem InRow.apart (hts : InRow a b ts) (hall : ∀ t ∈ ts, t.WellFormed) (hh : h ∈ ts)
    (hu : u ∈ preorderAll ts) : u.stop ≤ h.start ∨ u ∈ h.preorder ∨ h.stop ≤ u.start := by
  obtain ⟨xs, ys, rfl⟩ := List.append_of_mem hh
  obtain ⟨hxs, -, hys⟩ := hts.split
  obtain ⟨t, ht, hin⟩ := mem_preorderAll.mp hu
  rcases List.mem_append.mp ht with ht | ht
  · have hbelow := hxs.below (fun t ht => (hall t (by simp [ht])).nested) (mem_preorderAll.mpr ⟨t, ht, hin⟩)
    exact .inl hbelow.2
  · rcases List.mem_cons.mp ht with rfl | ht
    · exact .inr (.inl hin)
    · have hbelow := hys.below (fun t ht => (hall t (by simp [ht])).nested) (mem_preorderAll.mpr ⟨t, ht, hin⟩)
      exact .inr (.inr hbelow.1)

theorem WellFormed.behind_head (ht : t.WellFormed) (hh : h ∈ t.children) (hstart : h.start = t.start)
    (hspan : h.start < h.stop) (hu : u ∈ preorderAll t.children) (hne : u.start < u.stop) :
    u ∈ h.preorder ∨ t.start < u.start := by
  have hbelow := ht.row.below (fun c hc => (ht.child hc).nested) hu
  rcases ht.row.apart (fun c hc => ht.child hc) hh hu with hbefore | hin | hafter
  · omega
  · exact .inl hin
  · right
    omega

theorem mem_of_child? {r : Role} (hc : t.child? r = some u) : u ∈ t.children :=
  List.mem_of_find?_eq_some hc

theorem eq_of_token (ht : t.children = []) (hu : u ∈ t.preorder) : u = t := by
  rcases mem_preorder.mp hu with rfl | hu
  · rfl
  · rw [ht, preorderAll] at hu
    cases hu

theorem InRow.pairwise {R : Tree → Tree → Prop} (hrow : InRow a b ts) (hall : ∀ t ∈ ts, t.Nested)
    (hR : ∀ t ∈ ts, ∀ u ∈ t.preorder, ∀ v : Tree, u.stop ≤ v.start → R u v)
    (hts : ∀ t ∈ ts, t.preorder.Pairwise R) : (preorderAll ts).Pairwise R := by
  induction ts generalizing a with
  | nil => exact .nil
  | cons t ts ih =>
    obtain ⟨-, -, hrest⟩ := hrow
    simp only [List.forall_mem_cons] at hall hR hts
    rw [preorderAll, List.pairwise_append]
    refine ⟨hts.1, ih hrest hall.2 hR.2 hts.2, ?_⟩
    intro u hu v hv
    apply hR.1 u hu
    have hin := hall.1.within hu
    have hafter := hrest.below hall.2 hv
    omega

theorem Nested.starts_le (ht : t.Nested) : t.preorder.Pairwise fun u v => u.start ≤ v.start := by
  induction t using of_children with
  | h t ih =>
    have hrest : (preorderAll t.children).Pairwise fun u v => u.start ≤ v.start := by
      apply ht.row.pairwise (fun c hc => ht.child hc)
      · intro c hc u hu v hle
        have hin := (ht.child hc).within hu
        omega
      · exact fun c hc => ih c hc (ht.child hc)
    cases t with
    | node k r s e cs =>
      rw [preorder]
      refine .cons (fun v hv => ?_) hrest
      exact (ht.within (mem_preorder.mpr (.inr hv))).1

theorem WellFormed.starts_lt {P : Tree → Prop} (ht : t.WellFormed)
    (hspan : ∀ t, t.WellFormed → P t → t.start < t.stop)
    (hbelow : ∀ t, t.WellFormed → P t → ∀ u ∈ preorderAll t.children, P u → t.start < u.start) :
    t.preorder.Pairwise fun u v => P u → P v → u.start < v.start := by
  induction t using of_children with
  | h t ih =>
    have hrest : (preorderAll t.children).Pairwise fun u v => P u → P v → u.start < v.start := by
      apply ht.row.pairwise (fun c hc => (ht.child hc).nested)
      · intro c hc u hu v hle hPu _
        have hne := hspan u ((ht.child hc).node hu) hPu
        omega
      · exact fun c hc => ih c hc (ht.child hc)
    cases t with
    | node k r s e cs =>
      rw [preorder]
      exact .cons (fun v hv hu => hbelow _ ht hu v hv) hrest

end EdgeAudit.Script.Tree
