import EdgeAudit.Proofs.DocumentScan

namespace EdgeAudit.Yaml

def Reading.At (J : List Token → Nat → Prop) (s : Reading) : Prop :=
  J s.tokens s.room

/-- There is room for all collections that may still begin, unless this need not hold. -/
def Roomy (deep : Prop) (ts : List Token) (room : Nat) : Prop :=
  deep ∨ opened ts ≤ room

def Spare (deep : Prop) (ts : List Token) (room : Nat) : Prop :=
  deep ∨ opened ts < room

def Facing (t : Token) (J : List Token → Nat → Prop) (ts : List Token) (room : Nat) : Prop :=
  ts.headD .streamEnd = t ∧ J ts room

namespace Composer

def Fails (deep : Prop) (e : YamlError) : Prop :=
  e = .malformed ∨ deep ∧ e = .tooDeep

/-- A reader of nodes fails only at what is malformed or too deep, and not at the latter if there is room
for everything. -/
def Composes {α : Type} (deep : Prop) (m : Composer α) : Prop :=
  Keeps (Reading.At (Roomy deep)) (Fails deep) m

section Composes

variable {α β : Type} {deep : Prop} {m : Composer α} {k : α → Composer β} {J : List Token → Nat → Prop}
  {E : YamlError → Prop}

theorem Composes.bind (hm : Composes deep m) (hk : ∀ a, Composes deep (k a)) : Composes deep (m >>= k) :=
  Keeps.bind hm hk

theorem composes_pure {a : α} : Composes deep (pure a) :=
  keeps_pure

theorem composes_ite {c : Prop} [Decidable c] {m' : Composer α} (h : Composes deep m) (h' : Composes deep m') :
    Composes deep (if c then m else m') :=
  keeps_ite h h'

theorem composes_fail : Composes deep (fail : Composer α) :=
  keeps_throw (.inl rfl)

theorem composes_get : Composes deep get :=
  keeps_get

theorem runs_peek : Runs (Reading.At J) peek (fun t => Reading.At (Facing t J)) E := by
  refine runs_get_bind fun a => runs_pure ?_
  rintro s ⟨rfl, hs⟩
  exact ⟨rfl, hs⟩

theorem composes_peek : Composes deep peek :=
  composes_get.bind fun _ => composes_pure

theorem opened_drop_le (ts : List Token) : opened (ts.drop 1) ≤ opened ts :=
  (List.drop_sublist 1 ts).countP_le

theorem composes_pass : Composes deep pass :=
  keeps_modify fun s hs => hs.imp_right fun h => (opened_drop_le s.tokens).trans h

theorem opened_of_head {ts : List Token} (h : (ts.headD .streamEnd).opens = true) :
    opened ts = opened (ts.drop 1) + 1 := by
  cases ts with
  | nil => cases h
  | cons t ts =>
    have ht : t.opens = true := h
    simp [opened, ht]

theorem runs_passOpening {t : Token} (ht : t.opens = true) :
    Runs (Reading.At (Facing t (Roomy deep))) pass (fun _ => Reading.At (Spare deep)) E := by
  refine runs_modify ?_
  rintro s ⟨rfl, hroom⟩
  refine hroom.imp_right fun h => ?_
  have hcount := opened_of_head ht
  dsimp only
  omega

theorem runs_at? (ts : List Token) : Runs (Reading.At J) (at? ts)
    (fun b => Reading.At fun left room => b = ts.contains (left.headD .streamEnd) ∧ J left room) E := by
  refine runs_peek.bind fun t => runs_pure ?_
  rintro s ⟨rfl, hs⟩
  exact ⟨rfl, hs⟩

theorem composes_at? (ts : List Token) : Composes deep (at? ts) :=
  composes_peek.bind fun _ => composes_pure

theorem composes_expect (t : Token) : Composes deep (expect t) :=
  composes_peek.bind fun _ => composes_ite composes_pass composes_fail

theorem composes_fullTag (handle : Option String) (suffix : String) :
    Composes deep (fullTag handle suffix) := by
  cases handle with
  | none => exact composes_pure
  | some h =>
    refine composes_get.bind fun s => ?_
    split
    · exact composes_pure
    · exact composes_fail

theorem composes_tag? : Composes deep tag? := by
  refine composes_peek.bind fun t => ?_
  split
  · exact composes_pass.bind fun _ => (composes_fullTag _ _).bind fun _ => composes_pure
  · exact composes_pure

theorem composes_anchor? : Composes deep anchor? := by
  refine composes_peek.bind fun t => ?_
  split
  · exact composes_pass.bind fun _ => composes_pure
  · exact composes_pure

theorem composes_properties : Composes deep properties := by
  refine composes_anchor?.bind fun anchor => ?_
  cases anchor with
  | some name => exact composes_tag?.bind fun _ => composes_pure
  | none => exact composes_tag?.bind fun _ => composes_anchor?.bind fun _ => composes_pure

theorem keeps_name (anchor : Option String) (what : Anchored) : Keeps (Reading.At J) E (name anchor what) := by
  cases anchor with
  | none => exact keeps_pure
  | some a => exact keeps_modify fun _ hs => hs

theorem composes_aliased (a : String) : Composes deep (aliased a) := by
  refine composes_get.bind fun s => ?_
  split
  · exact composes_fail
  · exact composes_pure
  · exact composes_pure

theorem composes_finish (anchor : Option String) (n : Node) : Composes deep (finish anchor n) :=
  Composes.bind (keeps_name _ _) fun _ => composes_pure

theorem composes_emptyContent (anchor tag : Option String) : Composes deep (emptyContent anchor tag) :=
  keeps_stop composes_fail fun _ => composes_finish _ _

theorem runs_inside {J' : List Token → Nat → Prop} (hempty : ∀ ts, J ts 0 → deep)
    (hless : ∀ ts room, J ts (room + 1) → J' ts room)
    (hm : Runs (Reading.At J') m (fun _ => Reading.At (Roomy deep)) (Fails deep)) :
    Runs (Reading.At J) (inside m) (fun _ => Reading.At (Roomy deep)) (Fails deep) := by
  refine runs_get_bind fun a => ?_
  rintro s ⟨rfl, hs⟩
  cases hroom : a.room with
  | zero =>
    have hdeep : deep := hempty a.tokens (by rwa [Reading.At, hroom] at hs)
    exact runs_throw (P := fun _ => True) (.inr ⟨hdeep, rfl⟩) a trivial
  | succ room =>
    have hstart : Runs (fun s => s = a) (modify fun s => { s with room }) (fun _ => Reading.At J') (Fails deep) := by
      refine runs_modify ?_
      rintro s rfl
      exact hless _ _ (by rwa [Reading.At, hroom] at hs)
    have hend : Keeps (Reading.At (Roomy deep)) (Fails deep) (modify fun s => { s with room := s.room + 1 }) :=
      keeps_modify fun s hs => hs.imp_right fun h => h.trans (Nat.le_succ _)
    exact hstart.bind (fun _ => hm.bind fun _ => Runs.bind hend fun _ => keeps_pure) a rfl

theorem Composes.inside (hm : Composes deep m) :
    Runs (Reading.At (Spare deep)) (Composer.inside m) (fun _ => Reading.At (Roomy deep)) (Fails deep) := by
  refine runs_inside ?_ ?_ hm
  · rintro ts (hdeep | h)
    · exact hdeep
    · omega
  · rintro ts room (hdeep | h)
    · exact .inl hdeep
    · exact .inr (by omega)

theorem composes_collection {t : Token} (ht : t.opens = true) (hm : Composes deep m)
    (anchor : Option String) (isMapping : Bool) (made : α → Node) :
    Runs (Reading.At (Facing t (Roomy deep))) (do
      pass
      name anchor (.reading isMapping)
      let held ← inside m
      finish anchor (made held)) (fun _ => Reading.At (Roomy deep)) (Fails deep) :=
  (runs_passOpening ht).bind fun _ => Runs.bind (keeps_name _ _) fun _ => hm.inside.bind fun _ =>
    composes_finish _ _

end Composes

def Lacking (deep : Prop) (ts : List Token) (room : Nat) : Prop :=
  deep ∨ opened ts ≤ room + 1

structure ComposesAt (deep : Prop) (n : Nat) : Prop where
  node : ∀ place, Composes deep (node n place)
  content : ∀ place anchor tag, Composes deep (content n place anchor tag)
  blockItems : ∀ items, Composes deep (blockItems n items)
  indentlessItems : ∀ items, Composes deep (indentlessItems n items)
  listItems : ∀ items, Runs (Reading.At (Facing .blockEntry (Lacking deep))) (Yaml.indentlessItems n items)
    (fun _ => Reading.At (Roomy deep)) (Fails deep)
  blockEntries : ∀ entries, Composes deep (blockEntries n entries)
  flowItems : ∀ first items, Composes deep (flowItems n first items)
  flowEntries : ∀ first entries, Composes deep (flowEntries n first entries)

section Deeper

variable {deep : Prop} {n : Nat} (ih : ComposesAt deep n)

include ih

theorem ComposesAt.orEmpty {β : Type} {k : Node → Composer β} (ts : List Token) (place : Place)
    (hk : ∀ x, Composes deep (k x)) : Composes deep (at? ts >>= fun b =>
      if b = true then pure Node.empty >>= k else Yaml.node n place >>= k) :=
  (composes_at? ts).bind fun _ => composes_ite (composes_pure.bind hk) ((ih.node place).bind hk)

theorem ComposesAt.valueOrEmpty {β : Type} {k : Node → Composer β} (ts : List Token) (place : Place)
    (hk : ∀ x, Composes deep (k x)) : Composes deep (at? [.value] >>= fun b =>
      if b = true then pass >>= fun _ => at? ts >>= fun b =>
        if b = true then pure Node.empty >>= k else Yaml.node n place >>= k
      else pure Node.empty >>= k) :=
  (composes_at? _).bind fun _ => composes_ite (composes_pass.bind fun _ => ih.orEmpty ts place hk)
    (composes_pure.bind hk)

theorem ComposesAt.node_succ (place : Place) : Composes deep (Yaml.node (n + 1) place) := by
  unfold Yaml.node
  refine composes_peek.bind fun t => ?_
  split
  · exact composes_pass.bind fun _ => composes_aliased _
  · refine composes_properties.bind fun properties => ?_
    obtain ⟨anchor, tag⟩ := properties
    cases anchor with
    | none => exact ih.content _ _ _
    | some a => exact composes_get.bind fun _ => keeps_stop composes_fail fun _ => ih.content _ _ _

theorem ComposesAt.indentless (anchor tag : Option String) :
    Runs (Reading.At (Facing .blockEntry (Roomy deep))) (do
      name anchor (.reading false)
      let items ← inside (Yaml.indentlessItems n [])
      finish anchor (.sequence tag items)) (fun _ => Reading.At (Roomy deep)) (Fails deep) := by
  refine Runs.bind (keeps_name _ _) fun _ => (runs_inside ?_ ?_ (ih.listItems [])).bind fun _ => composes_finish _ _
  · rintro ts ⟨hhead, hdeep | h⟩
    · exact hdeep
    · have hcount := @opened_of_head ts (by rw [hhead]; rfl)
      omega
  · rintro ts room ⟨hhead, h⟩
    exact ⟨hhead, h⟩

theorem ComposesAt.content_succ (place : Place) (anchor tag : Option String) :
    Composes deep (Yaml.content (n + 1) place anchor tag) := by
  unfold Yaml.content
  have hfacing {t : Token} {m : Composer Node} (hm : Composes deep m) :
      Runs (Reading.At (Facing t (Roomy deep))) m (fun _ => Reading.At (Roomy deep)) (Fails deep) :=
    hm.weaken (fun _ hs => hs.2) fun _ _ hs => hs
  refine runs_peek.bind fun t => runs_ite (fun hlist => ?_) fun _ => ?_
  · simp only [Bool.and_eq_true, beq_iff_eq] at hlist
    rw [hlist.2]
    exact ih.indentless anchor tag
  · split
    · exact hfacing (composes_pass.bind fun _ => composes_finish _ _)
    · exact composes_collection rfl (ih.flowItems _ _) _ _ _
    · exact composes_collection rfl (ih.flowEntries _ _) _ _ _
    · exact runs_ite (fun _ => hfacing (composes_emptyContent _ _)) fun _ =>
        composes_collection rfl (ih.blockItems _) _ _ _
    · exact runs_ite (fun _ => hfacing (composes_emptyContent _ _)) fun _ =>
        composes_collection rfl (ih.blockEntries _) _ _ _
    · exact hfacing (composes_emptyContent _ _)

theorem ComposesAt.blockItems_succ (items : List Node) : Composes deep (Yaml.blockItems (n + 1) items) := by
  unfold Yaml.blockItems
  exact (composes_at? _).bind fun _ => composes_ite (composes_pass.bind fun _ =>
    ih.orEmpty _ _ fun _ => ih.blockItems _) ((composes_expect _).bind fun _ => composes_pure)

theorem ComposesAt.indentlessItems_succ (items : List Node) :
    Composes deep (Yaml.indentlessItems (n + 1) items) := by
  unfold Yaml.indentlessItems
  exact (composes_at? _).bind fun _ => composes_ite (composes_pass.bind fun _ =>
    ih.orEmpty _ _ fun _ => ih.indentlessItems _) composes_pure

theorem ComposesAt.listItems_succ (items : List Node) :
    Runs (Reading.At (Facing .blockEntry (Lacking deep))) (Yaml.indentlessItems (n + 1) items)
      (fun _ => Reading.At (Roomy deep)) (Fails deep) := by
  unfold Yaml.indentlessItems
  refine (runs_at? _).bind fun b => runs_ite (fun _ => ?_) fun hb => ?_
  · refine Runs.bind (Q := fun _ => Reading.At (Roomy deep)) (runs_modify ?_) fun _ =>
      ih.orEmpty _ _ fun _ => ih.indentlessItems _
    rintro s ⟨-, hhead, hroom⟩
    refine hroom.imp_right fun h => ?_
    have hcount := @opened_of_head s.tokens (by rw [hhead]; rfl)
    dsimp only
    omega
  · rintro s ⟨hat, hhead, -⟩
    rw [hhead] at hat
    exact absurd hat hb

theorem ComposesAt.blockEntries_succ (entries : List (Node × Node)) :
    Composes deep (Yaml.blockEntries (n + 1) entries) := by
  unfold Yaml.blockEntries
  exact (composes_at? _).bind fun _ => composes_ite (composes_pass.bind fun _ =>
    ih.orEmpty _ _ fun _ => ih.valueOrEmpty _ _ fun _ => ih.blockEntries _)
    ((composes_expect _).bind fun _ => composes_pure)

theorem ComposesAt.flowItems_succ (first : Bool) (items : List Node) :
    Composes deep (Yaml.flowItems (n + 1) first items) := by
  unfold Yaml.flowItems
  refine (composes_at? _).bind fun _ => composes_ite (composes_pass.bind fun _ => composes_pure)
    (keeps_stop (composes_expect _) fun _ => (runs_at? _).bind fun b => runs_ite (fun hb => ?_) fun _ => ?_)
  · have hpair := ih.orEmpty [.value, .flowEntry, .flowSequenceEnd] .flow fun key =>
      ih.valueOrEmpty [.flowEntry, .flowSequenceEnd] .flow fun value => composes_pure (a := (key, value))
    refine (runs_passOpening (t := .key) rfl).bind (fun _ => hpair.inside.bind fun _ =>
      ih.flowItems _ _) |>.weaken ?_ fun _ _ hs => hs
    rintro s ⟨hat, hroom⟩
    rw [hb, eq_comm, List.contains_iff_mem, List.mem_singleton] at hat
    exact ⟨hat, hroom⟩
  · have hitem : Composes deep (do
        if ← at? [.flowSequenceEnd] then
          pass
          return items
        else
          let item ← Yaml.node n .flow
          Yaml.flowItems n false (items ++ [item])) :=
      (composes_at? _).bind fun _ => composes_ite (composes_pass.bind fun _ => composes_pure)
        ((ih.node _).bind fun _ => ih.flowItems _ _)
    exact hitem.weaken (fun _ hs => hs.2) fun _ _ hs => hs

theorem ComposesAt.flowEntries_succ (first : Bool) (entries : List (Node × Node)) :
    Composes deep (Yaml.flowEntries (n + 1) first entries) := by
  unfold Yaml.flowEntries
  refine (composes_at? _).bind fun _ => composes_ite (composes_pass.bind fun _ => composes_pure)
    (keeps_stop (composes_expect _) fun _ => (composes_at? _).bind fun _ => composes_ite ?_ ?_)
  · exact composes_pass.bind fun _ => ih.orEmpty _ _ fun _ => ih.valueOrEmpty _ _ fun _ =>
      ih.flowEntries _ _
  · exact (composes_at? _).bind fun _ => composes_ite (composes_pass.bind fun _ => composes_pure)
      ((ih.node _).bind fun _ => ih.flowEntries _ _)

end Deeper

variable {deep : Prop}

theorem composesAt (n : Nat) : ComposesAt deep n := by
  induction n with
  | zero =>
    exact ⟨fun _ => composes_fail, fun _ _ _ => composes_fail, fun _ => composes_fail,
      fun _ => composes_fail, fun _ => runs_throw (.inl rfl), fun _ => composes_fail,
      fun _ _ => composes_fail, fun _ _ => composes_fail⟩
  | succ n ih =>
    exact ⟨ih.node_succ, ih.content_succ, ih.blockItems_succ, ih.indentlessItems_succ, ih.listItems_succ,
      ih.blockEntries_succ, ih.flowItems_succ, ih.flowEntries_succ⟩

theorem composes_directives (n : Nat) (version : Bool) (handles : List (String × String)) :
    Composes deep (directives n version handles) := by
  induction n generalizing version handles with
  | zero => exact composes_fail
  | succ n ih =>
    refine composes_peek.bind fun t => ?_
    split
    · exact composes_pass.bind fun _ => keeps_stop composes_fail fun _ => ih _ _
    · exact composes_pass.bind fun _ => keeps_stop composes_fail fun _ => ih _ _
    · exact composes_pass.bind fun _ => ih _ _
    · exact composes_pure

theorem composes_passEnds (n : Nat) : Composes deep (passEnds n) := by
  induction n with
  | zero => exact composes_pure
  | succ n ih =>
    exact (composes_at? _).bind fun _ => composes_ite (composes_pass.bind fun _ => ih) composes_pure

theorem composes_documentRoot (n : Nat) : Composes deep (documentRoot n) := by
  refine composes_peek.bind fun t => ?_
  split
  · exact composes_pure
  · exact composes_pure
  · exact composes_pure
  · exact composes_pure
  · exact (composesAt n).node _

theorem composes_markedDocument (n : Nat) : Composes deep (markedDocument n) := by
  refine (composes_directives n _ _).bind fun _ => Composes.bind (keeps_modify ?_) fun _ =>
    (composes_expect _).bind fun _ => composes_documentRoot n
  exact fun _ hs => hs

theorem composes_document (n : Nat) : Composes deep (document n) := by
  have hend (root : Node) : Composes deep (do
      passEnds n
      expect .streamEnd
      return some root) :=
    (composes_passEnds n).bind fun _ => (composes_expect _).bind fun _ => composes_pure
  refine (composes_at? _).bind fun _ => composes_ite composes_pure (composes_peek.bind fun t => ?_)
  split
  · exact (composes_markedDocument n).bind hend
  · exact (composes_markedDocument n).bind hend
  · exact ((composesAt n).node _).bind hend

end Composer

theorem ofText_error {room : Nat} {text : List Char} {e : YamlError} (h : Node.ofText room text = .error e) :
    Excused text e ∨ e = .tooDeep ∧ room < 2 * openers text := by
  unfold Node.ofText at h
  rcases tokens_cases text with ⟨ts, htokens, hopened⟩ | ⟨e', htokens, hexcused⟩
  · rw [htokens] at h
    have hstart : Reading.At (Roomy (room < 2 * openers text)) ⟨ts, defaultHandles, [], room⟩ := by
      simp only [Reading.At, Roomy]
      omega
    have hdocument := Composer.composes_document (8 * ts.length + 16) _ hstart
    have hbind : (StateT.run (document (8 * ts.length + 16)) ⟨ts, defaultHandles, [], room⟩ >>= fun r =>
        pure r.1) = .error e := h
    cases hrun : StateT.run (document (8 * ts.length + 16)) ⟨ts, defaultHandles, [], room⟩ with
    | error e' =>
      rw [hrun] at hbind
      cases hbind
      rcases hdocument.2 e hrun with rfl | ⟨hdeep, rfl⟩
      · exact .inl excused_malformed
      · exact .inr ⟨rfl, hdeep⟩
    | ok result =>
      rw [hrun] at hbind
      cases hbind
  · rw [htokens] at h
    cases h
    exact .inl hexcused

end EdgeAudit.Yaml
