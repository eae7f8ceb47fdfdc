import EdgeAudit.Proofs.ConstructsInTree
import EdgeAudit.Proofs.TreeOrder

/-!
The walk over a tree as a loop over a stack: how long it runs, which nodes it gives and in which order.
A node is told from an equal one by the way that leads to it from the root.
-/

namespace EdgeAudit.Script

/-- A walk on its way: the nodes that wait on a stack, its top last, and the nodes that were given. -/
structure Walk where
  stack : List Tree
  given : List Tree

namespace Walk

def start (t : Tree) : Walk :=
  ⟨[t], []⟩

def round (w : Walk) : Walk :=
  match w.stack.getLast? with
  | none => w
  | some t => ⟨w.stack.dropLast ++ t.children.reverse, w.given ++ [t]⟩

def ahead (w : Walk) : List Tree :=
  Tree.preorderAll w.stack.reverse

theorem stack_cases (w : Walk) : w.stack = [] ∨ ∃ rest t, w.stack = rest ++ [t] := by
  simpa only [List.concat_eq_append] using List.eq_nil_or_concat w.stack

theorem round_of_nil {w : Walk} (h : w.stack = []) : w.round = w := by
  simp [round, h]

theorem round_of_concat {w : Walk} {rest : List Tree} {t : Tree} (h : w.stack = rest ++ [t]) :
    w.round = ⟨rest ++ t.children.reverse, w.given ++ [t]⟩ := by
  simp [round, h]

theorem ahead_of_concat {w : Walk} {rest : List Tree} {t : Tree} (h : w.stack = rest ++ [t]) :
    w.ahead = t :: w.round.ahead := by
  rw [round_of_concat h, ahead, ahead, h]
  cases t with
  | node k r s e cs =>
    simp [Tree.children, Tree.preorderAll, Tree.preorder, Tree.preorderAll_append]

theorem ahead_eq_nil {w : Walk} : w.ahead = [] ↔ w.stack = [] := by
  rcases w.stack_cases with h | ⟨rest, t, h⟩
  · simp [ahead, h, Tree.preorderAll]
  · rw [ahead_of_concat h, h]
    simp

theorem round_keeps (w : Walk) : w.round.given ++ w.round.ahead = w.given ++ w.ahead := by
  rcases w.stack_cases with h | ⟨rest, t, h⟩
  · rw [round_of_nil h]
  · rw [ahead_of_concat h, round_of_concat h]
    simp

theorem length_round_ahead (w : Walk) : w.round.ahead.length = w.ahead.length - 1 := by
  rcases w.stack_cases with h | ⟨rest, t, h⟩
  · rw [round_of_nil h, ahead_eq_nil.mpr h]
    rfl
  · rw [ahead_of_concat h, List.length_cons, Nat.add_sub_cancel]

theorem rounds_keep (w : Walk) (n : Nat) :
    (round^[n] w).given ++ (round^[n] w).ahead = w.given ++ w.ahead := by
  induction n with
  | zero => rfl
  | succ n ih => rw [Function.iterate_succ_apply', round_keeps, ih]

theorem length_rounds_ahead (w : Walk) (n : Nat) :
    (round^[n] w).ahead.length = w.ahead.length - n := by
  induction n with
  | zero => rfl
  | succ n ih => rw [Function.iterate_succ_apply', length_round_ahead, ih, Nat.sub_sub]

theorem rounds_stack (w : Walk) (n : Nat) : (round^[n] w).stack = [] ↔ w.ahead.length ≤ n := by
  rw [← ahead_eq_nil, ← List.length_eq_zero_iff, length_rounds_ahead]
  omega

theorem rounds_given (w : Walk) (n : Nat) : (round^[n] w).given = w.given ++ w.ahead.take n := by
  have hkeep := rounds_keep w n
  have hleft := length_rounds_ahead w n
  have hlength : (round^[n] w).given.length = (w.given ++ w.ahead.take n).length := by
    have htotal := congrArg List.length hkeep
    simp only [List.length_append, List.length_take] at htotal ⊢
    omega
  have hsplit : (round^[n] w).given ++ (round^[n] w).ahead =
      (w.given ++ w.ahead.take n) ++ w.ahead.drop n := by
    rw [hkeep, List.append_assoc, List.take_append_drop]
  exact (List.append_inj hsplit hlength).1

theorem ahead_start (t : Tree) : (start t).ahead = t.preorder := by
  simp [ahead, start, Tree.preorderAll]

end Walk

namespace Tree

variable {t : Tree} {ts : List Tree}

theorem length_preorderAll (ts : List Tree) : (preorderAll ts).length = sizeAll ts := by
  refine preorderAll.induct (fun t => t.preorder.length = t.size)
    (fun ts => (preorderAll ts).length = sizeAll ts) ?_ rfl ?_ ts
  · intro k r s e cs ih
    rw [preorder, size, List.length_cons, ih]
  · intro t ts iht ihts
    rw [preorderAll, sizeAll, List.length_append, iht, ihts]

theorem length_preorder (t : Tree) : t.preorder.length = t.size := by
  cases t with
  | node k r s e cs => rw [preorder, size, List.length_cons, length_preorderAll]

section Ways

def at? (t : Tree) : List Nat → Option Tree
  | [] => some t
  | i :: way => t.children[i]?.bind fun c => c.at? way

mutual

def ways : Tree → List (List Nat)
  | node _ _ _ _ cs => [] :: waysAll 0 cs

def waysAll (i : Nat) : List Tree → List (List Nat)
  | [] => []
  | t :: ts => (ways t).map (i :: ·) ++ waysAll (i + 1) ts

end

theorem mem_waysAll {i : Nat} {way : List Nat} :
    way ∈ waysAll i ts ↔ ∃ j t rest, ts[j]? = some t ∧ rest ∈ t.ways ∧ way = (i + j) :: rest := by
  induction ts generalizing i with
  | nil => simp [waysAll]
  | cons t ts ih =>
    rw [waysAll, List.mem_append, List.mem_map, ih]
    constructor
    · rintro (⟨rest, hrest, rfl⟩ | ⟨j, u, rest, hu, hrest, rfl⟩)
      · exact ⟨0, t, rest, rfl, hrest, rfl⟩
      · exact ⟨j + 1, u, rest, hu, hrest, by rw [Nat.add_assoc, Nat.add_comm 1 j]⟩
    · rintro ⟨j, u, rest, hu, hrest, rfl⟩
      cases j with
      | zero =>
        cases hu
        exact .inl ⟨rest, hrest, rfl⟩
      | succ j => exact .inr ⟨j, u, rest, hu, hrest, by rw [Nat.add_assoc, Nat.add_comm 1 j]⟩

theorem mem_ways {way : List Nat} : way ∈ t.ways ↔ (t.at? way).isSome = true := by
  induction t using of_children generalizing way with
  | h t ih =>
    cases t with
    | node k r s e cs =>
      cases way with
      | nil => simp [ways, at?]
      | cons i way =>
        have hways : i :: way ∈ (node k r s e cs).ways ↔ ∃ c, cs[i]? = some c ∧ way ∈ c.ways := by
          simp [ways, mem_waysAll]
        rw [hways, at?, children]
        cases hc : cs[i]? with
        | none => simp
        | some c =>
          have hmem : c ∈ children (node k r s e cs) := List.mem_of_getElem? hc
          simp [ih c hmem]

theorem ways_nodup_of_children {i : Nat} (h : ∀ t ∈ ts, t.ways.Nodup) : (waysAll i ts).Nodup := by
  induction ts generalizing i with
  | nil => exact .nil
  | cons t ts ih =>
    rw [waysAll, List.nodup_append]
    refine ⟨(h t (by simp)).map List.cons_injective, ih fun u hu => h u (by simp [hu]), ?_⟩
    intro x hx y hy heq
    obtain ⟨rest, -, rfl⟩ := List.mem_map.mp hx
    obtain ⟨j, u, rest', -, -, rfl⟩ := mem_waysAll.mp hy
    have hhead := (List.cons.inj heq).1
    omega

theorem ways_nodup (t : Tree) : t.ways.Nodup := by
  induction t using of_children with
  | h t ih =>
    cases t with
    | node k r s e cs =>
      rw [ways, List.nodup_cons]
      refine ⟨?_, ways_nodup_of_children ih⟩
      rw [mem_waysAll]
      rintro ⟨j, u, rest, -, -, heq⟩
      cases heq

theorem waysAll_at? {i : Nat} {u : Tree} (h : ∀ t ∈ ts, t.ways.map t.at? = t.preorder.map some)
    (hu : ∀ j, u.children[i + j]? = ts[j]?) : (waysAll i ts).map u.at? = (preorderAll ts).map some := by
  induction ts generalizing i with
  | nil => rfl
  | cons t ts ih =>
    have hhead : u.children[i]? = some t := hu 0
    have hfirst : ((ways t).map (i :: ·)).map u.at? = t.preorder.map some := by
      rw [List.map_map, ← h t (by simp)]
      refine List.map_congr_left fun way _ => ?_
      rw [Function.comp_apply, at?, hhead, Option.bind_some]
    have hrest : (waysAll (i + 1) ts).map u.at? = (preorderAll ts).map some := by
      apply ih fun x hx => h x (by simp [hx])
      intro j
      rw [Nat.add_assoc, Nat.add_comm 1 j]
      exact hu (j + 1)
    rw [waysAll, preorderAll, List.map_append, List.map_append, hfirst, hrest]

theorem ways_at? (t : Tree) : t.ways.map t.at? = t.preorder.map some := by
  induction t using of_children with
  | h t ih =>
    cases t with
    | node k r s e cs =>
      have hrest : (waysAll 0 cs).map (node k r s e cs).at? = (preorderAll cs).map some :=
        waysAll_at? ih fun j => by rw [Nat.zero_add, children]
      rw [ways, preorder, List.map_cons, List.map_cons, hrest, at?]

end Ways

/-- The loop over the stack ends after as many rounds as there are nodes. By then each node was given
once, in the order of the recursion; and where children are ordered, disjoint and inside their parents,
no node starts before one that was given earlier. -/
theorem walk_visits (t : Tree) :
    (∀ n, (Walk.round^[n] (.start t)).stack = [] ↔ t.size ≤ n) ∧
    Walk.round^[t.size] (.start t) = ⟨[], t.walk⟩ ∧
    t.walk = t.preorder ∧
    (∃ ways : List (List Nat), ways.Nodup ∧ (∀ way, way ∈ ways ↔ (t.at? way).isSome = true) ∧
      ways.map t.at? = t.walk.map some) ∧
    (t.Nested → t.walk.Pairwise fun u v => u.start ≤ v.start) := by
  have hsize : (Walk.start t).ahead.length = t.size := by rw [Walk.ahead_start, length_preorder]
  have hstop : ∀ n, (Walk.round^[n] (.start t)).stack = [] ↔ t.size ≤ n := by
    intro n
    rw [Walk.rounds_stack, hsize]
  have hgiven : (Walk.round^[t.size] (.start t)).given = t.preorder := by
    rw [Walk.rounds_given, ← hsize, List.take_length, Walk.ahead_start]
    rfl
  rw [walk_eq]
  refine ⟨hstop, ?_, rfl, ⟨t.ways, ways_nodup t, fun way => mem_ways, ways_at? t⟩, Nested.starts_le⟩
  rw [← hgiven, ← (hstop t.size).mpr (Nat.le_refl _)]

def twins : Tree :=
  .node .call .plain 0 3 [.node .identifier .callee 0 1 [],
    .node .other .arguments 1 3 [.node .other .plain 2 2 [], .node .other .plain 2 2 []]]

theorem walk_visits_twins :
    twins.Nested ∧ Walk.round^[5] (.start twins) = ⟨[], twins.walk⟩ ∧
    twins.walk.map Tree.start = [0, 0, 1, 2, 2] ∧
    twins.walk.Pairwise fun u v => u.start ≤ v.start := by
  obtain ⟨-, hend, heq, -, horder⟩ := walk_visits twins
  have hnested : twins.Nested := by decide
  refine ⟨hnested, hend, ?_, horder hnested⟩
  rw [heq]
  decide

end Tree

end EdgeAudit.Script
