import EdgeAudit.Proofs.DocumentNodes
import EdgeAudit.Proofs.Failure
import EdgeAudit.Yaml.Load

namespace EdgeAudit.Yaml

namespace Node

@[elab_as_elim]
theorem induction {motive : Node → Prop}
    (scalar : ∀ tag text plain, motive (.scalar tag text plain))
    (sequence : ∀ tag items, (∀ m ∈ items, motive m) → motive (.sequence tag items))
    (mapping : ∀ tag entries, (∀ e ∈ entries, motive e.1 ∧ motive e.2) → motive (.mapping tag entries))
    (enclosing : ∀ isMapping, motive (.enclosing isMapping)) (n : Node) : motive n := by
  refine @Node.rec motive (fun items => ∀ m ∈ items, motive m)
    (fun entries => ∀ e ∈ entries, motive e.1 ∧ motive e.2) (fun e => motive e.1 ∧ motive e.2)
    scalar sequence mapping enclosing ?_ ?_ ?_ ?_ ?_ n
  · simp
  · intro m items hm hitems
    exact List.forall_mem_cons.mpr ⟨hm, hitems⟩
  · simp
  · intro e entries he hentries
    exact List.forall_mem_cons.mpr ⟨he, hentries⟩
  · intro k v hk hv
    exact ⟨hk, hv⟩

inductive Inside (m : Node) : Node → Prop
  | self : Inside m m
  | item {tag : Option String} {items : List Node} {n : Node} (hn : n ∈ items) (h : Inside m n) :
      Inside m (.sequence tag items)
  | key {tag : Option String} {entries : List (Node × Node)} {e : Node × Node} (he : e ∈ entries)
      (h : Inside m e.1) : Inside m (.mapping tag entries)
  | value {tag : Option String} {entries : List (Node × Node)} {e : Node × Node} (he : e ∈ entries)
      (h : Inside m e.2) : Inside m (.mapping tag entries)

/-- The text of a node is no value of its type, or is looked for without end. -/
inductive LacksValue (m : Node) : YamlError → Prop
  | unfit {kind : Kind} {text : String} {e : YamlError} (hkind : m.kind? = some kind)
      (hatom : kind ∈ [.bool, .int, .float, .timestamp]) (htext : scalarText m = .ok text)
      (herror : atomOf kind m.isScalar text = .error e) : LacksValue m e
  | endless (htext : scalarText m = .error .endless) : LacksValue m .endless

end Node

theorem Faults.mem_join {first later : Faults} {e : YamlError} :
    e ∈ (Faults.join first later).flatten ↔ e ∈ first.flatten ∨ e ∈ later.flatten := by
  fun_induction Faults.join first later with
  | case1 later => simp
  | case2 first h => simp
  | case3 f first l later ih =>
    simp only [List.flatten_cons, List.mem_append, ih]
    tauto

theorem Faults.join_eq_nil {first later : Faults} :
    (Faults.join first later).flatten = [] ↔ first.flatten = [] ∧ later.flatten = [] := by
  simp only [List.eq_nil_iff_forall_not_mem, Faults.mem_join, not_or, forall_and]

section Atoms

variable {kind : Kind} {own : Bool} {text : String} {e : YamlError} {v : Value}

theorem timeOf_isKey (h : timeOf text = .ok v) : v.isKey = true := by
  unfold timeOf at h
  split at h
  · cases h
  · dsimp only at h
    split at h <;> split at h <;> cases h <;> rfl

theorem atomOf_isKey (h : atomOf kind own text = .ok v) : v.isKey = true := by
  cases kind with
  | timestamp =>
    cases own with
    | true => exact timeOf_isKey h
    | false => cases h
  | bool =>
    obtain ⟨b, -, rfl⟩ := map_eq_ok.mp h
    rfl
  | int =>
    obtain ⟨n, -, rfl⟩ := map_eq_ok.mp h
    rfl
  | float =>
    obtain ⟨x, -, rfl⟩ := map_eq_ok.mp h
    rfl
  | binary =>
    obtain ⟨bytes, -, rfl⟩ := map_eq_ok.mp h
    rfl
  | null =>
    cases h
    rfl
  | text =>
    cases h
    rfl
  | _ => cases h

theorem isAtom_of_isCollection (h : kind.isCollection = true) : kind.isAtom = false := by
  cases kind <;> first | rfl | cases h

theorem atomOf_other (h : kind.isAtom = false) : atomOf kind own text = .error .badNode := by
  cases kind <;> first | rfl | cases h

theorem bytesOf_error (h : bytesOf text = .error e) : e = .badNode := by
  unfold bytesOf at h
  split at h
  · cases h
    rfl
  · split at h <;> cases h
    rfl

theorem atomOf_error (h : atomOf kind own text = .error e) (he : e ≠ .badNode) :
    kind ∈ [.bool, .int, .float, .timestamp] := by
  cases kind with
  | binary => exact absurd (bytesOf_error (map_eq_error.mp h)) he
  | bool => decide
  | int => decide
  | float => decide
  | timestamp => decide
  | _ =>
    cases h <;> exact absurd rfl he

end Atoms

section Kinds

variable {tag : Option String}

theorem kind?_sequence (items : List Node) : (Node.sequence tag items).kind? = (Node.sequence tag []).kind? := by
  unfold Node.kind?
  split <;> simp_all

theorem kind?_mapping (entries : List (Node × Node)) :
    (Node.mapping tag entries).kind? = (Node.mapping tag []).kind? := by
  unfold Node.kind?
  split <;> simp_all

end Kinds

structure Judges (n : Node) : Prop where
  value : (∃ v, valueOf n = .ok v) ↔ n.fault? = none ∧ (heldFaults n).flatten = []
  merged : (∃ es, mergedOf n = .ok es) ↔ isMergeable n = true ∧ (mergedFaults n).flatten = []
  entries : ∀ tag es, n = .mapping tag es → ((∃ r, entriesOf es = .ok r) ↔ mergesWell es = true ∧
    (entryFaults es).1.flatten = [] ∧ (entryFaults es).2.flatten = [])
  inner : ∀ tag es, n = .mapping tag es → ∀ e ∈ es,
    ((∃ v, valueOf e.1 = .ok v) ↔ e.1.fault? = none ∧ (heldFaults e.1).flatten = []) ∧
    ((∃ v, valueOf e.2 = .ok v) ↔ e.2.fault? = none ∧ (heldFaults e.2).flatten = [])

theorem flatten_fault? {fault : Option YamlError} {held : Faults} :
    (fault.toList :: held).flatten = [] ↔ fault = none ∧ held.flatten = [] := by
  cases fault <;> simp

theorem entryOf_returns {k v : Value} : (∃ e, entryOf k v = .ok e) ↔ k.isKey = true := by
  unfold entryOf
  cases k.isKey <;> simp

section Keys

variable {n : Node} {kind : Kind} {v : Value}

theorem fault?_atom (hkind : n.kind? = some kind) (h : kind.isCollection = false) :
    n.fault? = none ↔ ∃ text v, scalarText n = .ok text ∧ atomOf kind n.isScalar text = .ok v := by
  unfold Node.fault?
  rw [hkind]
  cases htext : scalarText n with
  | error e => simp [h]
  | ok text => cases hatom : atomOf kind n.isScalar text <;> simp [h, hatom]

theorem isKey_of_collection (hkind : n.kind? = some kind) (h : kind.isCollection = true)
    (hv : valueOf n = .ok v) : v.isKey = false := by
  cases n with
  | scalar tag text plain =>
    simp only [valueOf, hkind, atomOf_other (isAtom_of_isCollection h)] at hv
    cases hv
  | sequence tag items =>
    rw [kind?_sequence] at hkind
    simp only [valueOf, hkind] at hv
    split at hv
    · obtain ⟨vs, -, rfl⟩ := map_eq_ok.mp hv
      rfl
    · obtain ⟨vs, -, rfl⟩ := map_eq_ok.mp hv
      rfl
    · obtain ⟨vs, -, rfl⟩ := map_eq_ok.mp hv
      rfl
    · cases hv
  | mapping tag entries =>
    rw [kind?_mapping] at hkind
    simp only [valueOf, hkind] at hv
    split at hv
    · obtain ⟨r, -, hr⟩ := bind_eq_ok.mp hv
      cases hr
      rfl
    · obtain ⟨r, -, hr⟩ := bind_eq_ok.mp hv
      cases hr
      rfl
    · rename_i heq
      cases heq
      rw [isAtom_of_isCollection h, if_neg Bool.false_ne_true] at hv
      cases hv
    · cases hv
  | enclosing isMapping =>
    cases hv
    rfl

theorem valueOf_atom (hkind : n.kind? = some kind) (h : kind.isCollection = false) :
    valueOf n = .ok v ↔ ∃ text, scalarText n = .ok text ∧ atomOf kind n.isScalar text = .ok v := by
  cases n with
  | scalar tag text plain => simp [valueOf, hkind, scalarText, Node.isScalar]
  | sequence tag items =>
    rw [kind?_sequence] at hkind
    have hvalue : valueOf (.sequence tag items) = .error .badNode := by
      simp only [valueOf, hkind]
      cases kind <;> first | rfl | cases h
    simp [hvalue, scalarText]
  | mapping tag entries =>
    rw [kind?_mapping] at hkind
    have hvalue : valueOf (.mapping tag entries) = if kind.isAtom = true then
        (defaultText entries >>= fun text => atomOf kind false text) else .error .badNode := by
      simp only [valueOf, hkind]
      cases kind <;> first | rfl | cases h
    have hscalar : (Node.mapping tag entries).isScalar = false := rfl
    rw [hvalue, scalarText, hscalar]
    cases hatom : kind.isAtom with
    | true => exact bind_eq_ok
    | false => simp [atomOf_other hatom]
  | enclosing isMapping => cases isMapping <;> cases hkind <;> cases h

theorem heldFaults_of_atom (hkind : n.kind? = some kind) (h : kind.isCollection = false) :
    heldFaults n = [] := by
  cases n with
  | scalar tag text plain => simp [heldFaults, hkind, h]
  | sequence tag items =>
    rw [kind?_sequence] at hkind
    simp only [heldFaults, hkind]
    cases kind <;> first | rfl | cases h
  | mapping tag entries =>
    rw [kind?_mapping] at hkind
    simp only [heldFaults, hkind]
    cases kind <;> first | rfl | cases h
  | enclosing isMapping => rw [heldFaults]

theorem judges_atom (hkind : n.kind? = some kind) (h : kind.isCollection = false) :
    (∃ v, valueOf n = .ok v) ↔ n.fault? = none ∧ (heldFaults n).flatten = [] := by
  simp only [valueOf_atom hkind h, fault?_atom hkind h, heldFaults_of_atom hkind h, List.flatten_nil,
    and_true]
  exact exists_comm

theorem key_returns (hn : (∃ v, valueOf n = .ok v) ↔ n.fault? = none ∧ (heldFaults n).flatten = []) :
    (∃ k, (if n.isKind .default = true then Value.text <$> scalarText n else valueOf n) = .ok k ∧
      k.isKey = true) ↔ n.keyFault? = none := by
  unfold Node.keyFault?
  by_cases hdefault : n.isKind .default = true
  · rw [if_pos hdefault, if_pos hdefault]
    cases scalarText n with
    | error e => simp
    | ok text => simp [Value.isKey]
  rw [if_neg hdefault, if_neg hdefault]
  cases hkind : n.kind? with
  | none =>
    have hfault : n.fault? = some .badNode := by rw [Node.fault?, hkind]
    have hvalue : ¬ ∃ v, valueOf n = .ok v := by simp [hn, hfault]
    simp only [Option.any_none, Bool.false_eq_true, if_false, hfault, reduceCtorEq, iff_false]
    rintro ⟨k, hk, -⟩
    exact hvalue ⟨k, hk⟩
  | some kind =>
    cases hcollection : kind.isCollection with
    | true =>
      simp only [Option.any_some, hcollection, if_true, reduceCtorEq, iff_false]
      rintro ⟨k, hk, hkey⟩
      rw [isKey_of_collection hkind hcollection hk] at hkey
      cases hkey
    | false =>
      simp only [Option.any_some, hcollection, Bool.false_eq_true, if_false]
      rw [fault?_atom hkind hcollection]
      constructor
      · rintro ⟨k, hk, -⟩
        obtain ⟨text, htext, hatom⟩ := (valueOf_atom hkind hcollection).mp hk
        exact ⟨text, k, htext, hatom⟩
      · rintro ⟨text, k, htext, hatom⟩
        exact ⟨k, (valueOf_atom hkind hcollection).mpr ⟨text, htext, hatom⟩, atomOf_isKey hatom⟩

end Keys

section Lists

variable {items : List Node} {entries : List (Node × Node)}

theorem valuesOf_returns (h : ∀ m ∈ items, Judges m) :
    (∃ vs, valuesOf items = .ok vs) ↔ (itemFaults items).flatten = [] := by
  induction items with
  | nil => simp [valuesOf, itemFaults]
  | cons n ns ih =>
    rw [List.forall_mem_cons] at h
    rw [valuesOf, bind_returns_and fun v => bind_pure_returns, h.1.value, ih h.2, itemFaults,
      Faults.join_eq_nil, flatten_fault?]

theorem pairsOf_returns (h : ∀ m ∈ items, Judges m) :
    (∃ vs, pairsOf items = .ok vs) ↔ (pairFaults items).flatten = [] := by
  induction items with
  | nil => simp [pairsOf, pairFaults]
  | cons n ns ih =>
    rw [List.forall_mem_cons] at h
    cases n with
    | mapping tag es =>
      cases es with
      | nil => simp [pairsOf, pairFaults]
      | cons e es =>
        cases es with
        | cons e' es => simp [pairsOf, pairFaults]
        | nil =>
          obtain ⟨key, value⟩ := e
          obtain ⟨hkey, hvalue⟩ := h.1.inner tag _ rfl (key, value) (by simp)
          rw [pairsOf, bind_returns_and fun k => bind_returns_and fun v => bind_pure_returns, hkey, hvalue,
            ih h.2, pairFaults, Faults.join_eq_nil, Faults.join_eq_nil, flatten_fault?, flatten_fault?]
    | scalar tag text plain => simp [pairsOf, pairFaults]
    | sequence tag items => simp [pairsOf, pairFaults]
    | enclosing isMapping => simp [pairsOf, pairFaults]

theorem entriesOf_own {key value : Node} (hmerge : ¬ key.isKind .merge = true) :
    entriesOf ((key, value) :: entries) =
      ((if key.isKind .default = true then Value.text <$> scalarText key else valueOf key) >>= fun k =>
        valueOf value >>= fun v => entryOf k v >>= fun entry => entriesOf entries >>= fun r =>
          pure (r.1, entry :: r.2)) := by
  rw [entriesOf, if_neg hmerge]
  split <;> rfl

theorem entriesOf_returns (h : ∀ e ∈ entries, Judges e.1 ∧ Judges e.2) :
    (∃ r, entriesOf entries = .ok r) ↔ mergesWell entries = true ∧
      (entryFaults entries).1.flatten = [] ∧ (entryFaults entries).2.flatten = [] := by
  induction entries with
  | nil => simp [entriesOf, mergesWell, entryFaults]
  | cons e es ih =>
    obtain ⟨key, value⟩ := e
    rw [List.forall_mem_cons] at h
    obtain ⟨⟨hkey, hvalue⟩, hes⟩ := h
    -- a merge key is never read as a value, only the node behind it
    by_cases hmerge : key.isKind .merge = true
    · rw [entriesOf, if_pos hmerge, bind_returns_and fun here => bind_pure_returns, hvalue.merged, ih hes]
      simp only [mergesWell, entryFaults, hmerge, if_true, Faults.join_eq_nil, Bool.not_true,
        Bool.false_or, Bool.and_eq_true]
      tauto
    · have hrest (k : Value) : (∃ r, (valueOf value >>= fun v => entryOf k v >>= fun entry =>
          entriesOf es >>= fun r => pure (r.1, entry :: r.2)) = .ok r) ↔
          (∃ v, valueOf value = .ok v) ∧ k.isKey = true ∧ ∃ r, entriesOf es = .ok r :=
        bind_returns_and fun v => (bind_returns_and fun entry => bind_pure_returns).trans
          (and_congr_left' entryOf_returns)
      have hown : (∃ r, entriesOf ((key, value) :: es) = .ok r) ↔ key.keyFault? = none ∧
          (∃ v, valueOf value = .ok v) ∧ ∃ r, entriesOf es = .ok r := by
        rw [entriesOf_own hmerge, bind_returns, ← key_returns hkey.value]
        simp only [hrest]
        constructor
        · rintro ⟨k, hk, hv, hkey, hr⟩
          exact ⟨⟨k, hk, hkey⟩, hv, hr⟩
        · rintro ⟨⟨k, hk, hkey⟩, hv, hr⟩
          exact ⟨k, hk, hv, hkey, hr⟩
      have hfault : ([key.keyFault?.toList] : Faults).flatten = [] ↔ key.keyFault? = none := by
        cases key.keyFault? <;> simp
      rw [hown, hvalue.value, ih hes]
      simp only [mergesWell, entryFaults, hmerge, if_false, Faults.join_eq_nil, hfault, flatten_fault?,
        Bool.not_false, Bool.true_or, Bool.true_and, Bool.false_eq_true]
      tauto

theorem mergedAll_returns (h : ∀ m ∈ items, Judges m) : (∃ es, mergedAll items = .ok es) ↔
    allMergeable items = true ∧ (mergedAllFaults items).flatten = [] := by
  induction items with
  | nil => simp [mergedAll, allMergeable, mergedAllFaults]
  | cons n ns ih =>
    rw [List.forall_mem_cons] at h
    cases n with
    | mapping tag es =>
      rw [mergedAll, bind_returns_and fun r => bind_pure_returns, h.1.entries tag es rfl, ih h.2]
      simp only [allMergeable, mergedAllFaults, Faults.join_eq_nil, Bool.and_eq_true]
      tauto
    | enclosing isMapping =>
      cases isMapping with
      | true =>
        rw [mergedAll, ih h.2]
        simp only [allMergeable, mergedAllFaults]
      | false => simp [mergedAll, allMergeable]
    | scalar tag text plain => simp [mergedAll, allMergeable]
    | sequence tag items => simp [mergedAll, allMergeable]

end Lists

section Constructors

variable {tag : Option String}

theorem fault?_unknown {n : Node} (h : n.kind? = none) : n.fault? = some .badNode := by
  rw [Node.fault?, h]

theorem fault?_collection {n : Node} {kind : Kind} (hkind : n.kind? = some kind)
    (h : kind.isCollection = true) : n.fault? = none := by
  rw [Node.fault?, hkind]
  simp [h]

theorem judges_scalar (text : String) (plain : Bool) : Judges (.scalar tag text plain) where
  value := by
    cases hkind : (Node.scalar tag text plain).kind? with
    | none => simp [valueOf, hkind, fault?_unknown hkind]
    | some kind =>
      cases hcollection : kind.isCollection with
      | false => exact judges_atom hkind hcollection
      | true =>
        simp [valueOf, heldFaults, hkind, hcollection, atomOf_other (isAtom_of_isCollection hcollection)]
  merged := by simp [mergedOf, isMergeable]
  entries := by simp
  inner := by simp

theorem judges_enclosing (isMapping : Bool) : Judges (.enclosing isMapping) where
  value := by
    have hfault : (Node.enclosing isMapping).fault? = none := by cases isMapping <;> rfl
    simp [valueOf, heldFaults, hfault]
  merged := by cases isMapping <;> simp [mergedOf, isMergeable, mergedFaults]
  entries := by simp
  inner := by simp

theorem judges_sequence {items : List Node} (h : ∀ m ∈ items, Judges m) :
    Judges (.sequence tag items) where
  value := by
    cases hkind : (Node.sequence tag items).kind? with
    | none =>
      rw [fault?_unknown hkind]
      rw [kind?_sequence] at hkind
      simp [valueOf, hkind]
    | some kind =>
      cases hcollection : kind.isCollection with
      | false => exact judges_atom hkind hcollection
      | true =>
        rw [fault?_collection hkind hcollection]
        rw [kind?_sequence] at hkind
        simp only [valueOf, heldFaults, hkind]
        cases kind with
        | sequence => exact (map_returns.trans (valuesOf_returns h)).trans (by simp)
        | orderedMap => exact (map_returns.trans (pairsOf_returns h)).trans (by simp)
        | pairs => exact (map_returns.trans (pairsOf_returns h)).trans (by simp)
        | mapping => simp [hcollection]
        | set => simp [hcollection]
        | _ => cases hcollection
  merged := by
    rw [mergedOf, isMergeable, mergedFaults]
    exact mergedAll_returns h
  entries := by simp
  inner := by simp

theorem mappingFaults_eq_nil {entries : List (Node × Node)} : (mappingFaults entries).flatten = [] ↔
    mergesWell entries = true ∧ (entryFaults entries).1.flatten = [] ∧
      (entryFaults entries).2.flatten = [] := by
  rw [mappingFaults, Faults.join_eq_nil, Faults.join_eq_nil]
  cases mergesWell entries <;> simp

theorem judges_mapping {entries : List (Node × Node)} (h : ∀ e ∈ entries, Judges e.1 ∧ Judges e.2) :
    Judges (.mapping tag entries) where
  value := by
    cases hkind : (Node.mapping tag entries).kind? with
    | none =>
      rw [fault?_unknown hkind]
      rw [kind?_mapping] at hkind
      simp [valueOf, hkind]
    | some kind =>
      cases hcollection : kind.isCollection with
      | false => exact judges_atom hkind hcollection
      | true =>
        rw [fault?_collection hkind hcollection]
        rw [kind?_mapping] at hkind
        simp only [valueOf, heldFaults, hkind]
        have hentries := (entriesOf_returns h).trans mappingFaults_eq_nil.symm
        cases kind with
        | mapping => exact (bind_pure_returns.trans hentries).trans (by simp)
        | set => exact (bind_pure_returns.trans hentries).trans (by simp)
        | sequence => simp [hcollection, Kind.isAtom]
        | orderedMap => simp [hcollection, Kind.isAtom]
        | pairs => simp [hcollection, Kind.isAtom]
        | _ => cases hcollection
  merged := by
    rw [mergedOf, isMergeable, mergedFaults, Faults.join_eq_nil]
    exact bind_pure_returns.trans (entriesOf_returns h)
  entries := by
    rintro _ _ ⟨⟩
    exact entriesOf_returns h
  inner := by
    rintro _ _ ⟨⟩ e he
    exact ⟨(h e he).1.value, (h e he).2.value⟩

theorem judges (n : Node) : Judges n := by
  induction n using Node.induction with
  | scalar tag text plain => exact judges_scalar text plain
  | sequence tag items ih => exact judges_sequence ih
  | mapping tag entries ih => exact judges_mapping ih
  | enclosing isMapping => exact judges_enclosing isMapping

end Constructors

theorem valueOf_returns (n : Node) : (∃ v, valueOf n = .ok v) ↔ n.faults = [] := by
  rw [Node.faults, flatten_fault?]
  exact (judges n).value

def Comes (e : YamlError) (n : Node) : Prop :=
  e = .badNode ∨ ∃ m : Node, m.Inside n ∧ m.fault? = some e

structure Traces (n : Node) : Prop where
  faults : ∀ e ∈ n.faults, Comes e n
  merged : ∀ e ∈ (mergedFaults n).flatten, Comes e n
  inner : ∀ tag entries, n = .mapping tag entries → ∀ x ∈ entries,
    (∀ e ∈ x.1.faults, Comes e x.1) ∧ ∀ e ∈ x.2.faults, Comes e x.2

section Origins

variable {e : YamlError} {n : Node} {tag : Option String} {items : List Node}
  {entries : List (Node × Node)}

theorem Comes.item (hn : n ∈ items) (h : Comes e n) : Comes e (.sequence tag items) :=
  h.imp_right fun ⟨m, hm, he⟩ => ⟨m, .item hn hm, he⟩

theorem Comes.entry {x : Node × Node} (hx : x ∈ entries) (h : Comes e x.1 ∨ Comes e x.2) :
    Comes e (.mapping tag entries) := by
  rcases h with h | h
  · exact h.imp_right fun ⟨m, hm, he⟩ => ⟨m, .key hx hm, he⟩
  · exact h.imp_right fun ⟨m, hm, he⟩ => ⟨m, .value hx hm, he⟩

theorem comes_of_held (h : ∀ e ∈ (heldFaults n).flatten, Comes e n) : ∀ e ∈ n.faults, Comes e n := by
  intro e he
  rw [Node.faults, List.flatten_cons, List.mem_append] at he
  rcases he with he | he
  · exact .inr ⟨n, .self, Option.mem_toList.mp he⟩
  · exact h e he

theorem keyFault?_comes (h : n.keyFault? = some e) : Comes e n := by
  unfold Node.keyFault? at h
  split at h
  · rename_i hdefault
    have hkind : n.kind? = some .default := eq_of_beq hdefault
    split at h
    · rename_i htext
      cases h
      refine .inr ⟨n, .self, ?_⟩
      simp [Node.fault?, hkind, htext, Kind.isCollection]
    · cases h
  · split at h
    · cases h
      exact .inl rfl
    · exact .inr ⟨n, .self, h⟩

theorem itemFaults_comes (h : ∀ m ∈ items, Traces m) (he : e ∈ (itemFaults items).flatten) :
    ∃ m ∈ items, Comes e m := by
  induction items with
  | nil => simp [itemFaults] at he
  | cons n ns ih =>
    rw [List.forall_mem_cons] at h
    rw [itemFaults, Faults.mem_join] at he
    rcases he with he | he
    · exact ⟨n, List.mem_cons_self, h.1.faults e he⟩
    · obtain ⟨m, hm, hcomes⟩ := ih h.2 he
      exact ⟨m, List.mem_cons_of_mem n hm, hcomes⟩

theorem pairFaults_comes (h : ∀ m ∈ items, Traces m) (he : e ∈ (pairFaults items).flatten) :
    e = .badNode ∨ ∃ m ∈ items, Comes e m := by
  induction items with
  | nil => simp [pairFaults] at he
  | cons n ns ih =>
    rw [List.forall_mem_cons] at h
    cases n with
    | mapping tag xs =>
      cases xs with
      | nil => exact .inl (by simpa [pairFaults] using he)
      | cons x xs =>
        cases xs with
        | cons y xs => exact .inl (by simpa [pairFaults] using he)
        | nil =>
          obtain ⟨key, value⟩ := x
          obtain ⟨hkey, hvalue⟩ := h.1.inner tag _ rfl (key, value) (by simp)
          have hhere (hcomes : Comes e key ∨ Comes e value) :
              ∃ m ∈ Node.mapping tag [(key, value)] :: ns, Comes e m :=
            ⟨_, List.mem_cons_self, .entry List.mem_cons_self hcomes⟩
          rw [pairFaults, Faults.mem_join, Faults.mem_join] at he
          rcases he with he | he | he
          · exact .inr (hhere (.inl (hkey e he)))
          · exact .inr (hhere (.inr (hvalue e he)))
          · refine (ih h.2 he).imp_right ?_
            rintro ⟨m, hm, hcomes⟩
            exact ⟨m, List.mem_cons_of_mem _ hm, hcomes⟩
    | scalar tag text plain => exact .inl (by simpa [pairFaults] using he)
    | sequence tag items => exact .inl (by simpa [pairFaults] using he)
    | enclosing isMapping => exact .inl (by simpa [pairFaults] using he)

theorem entryFaults_comes (h : ∀ x ∈ entries, Traces x.1 ∧ Traces x.2)
    (he : e ∈ (entryFaults entries).1.flatten ∨ e ∈ (entryFaults entries).2.flatten) :
    ∃ x ∈ entries, Comes e x.1 ∨ Comes e x.2 := by
  induction entries with
  | nil => simp [entryFaults] at he
  | cons x xs ih =>
    obtain ⟨key, value⟩ := x
    rw [List.forall_mem_cons] at h
    have hrest (he : e ∈ (entryFaults xs).1.flatten ∨ e ∈ (entryFaults xs).2.flatten) :
        ∃ x ∈ (key, value) :: xs, Comes e x.1 ∨ Comes e x.2 := by
      obtain ⟨x, hx, hcomes⟩ := ih h.2 he
      exact ⟨x, List.mem_cons_of_mem _ hx, hcomes⟩
    have hhere (he : Comes e key ∨ Comes e value) : ∃ x ∈ (key, value) :: xs, Comes e x.1 ∨ Comes e x.2 :=
      ⟨(key, value), List.mem_cons_self, he⟩
    rw [entryFaults] at he
    by_cases hmerge : key.isKind .merge = true
    · simp only [hmerge, if_true, Faults.mem_join] at he
      rcases he with (he | he) | he
      · exact hhere (.inr (h.1.2.merged e he))
      · exact hrest (.inl he)
      · exact hrest (.inr he)
    · simp only [hmerge, if_false, Faults.mem_join, Bool.false_eq_true] at he
      rcases he with he | he | he | he
      · exact hrest (.inl he)
      · exact hhere (.inl (keyFault?_comes (by simpa using he)))
      · exact hhere (.inr (h.1.2.faults e he))
      · exact hrest (.inr he)

theorem mergedAllFaults_comes (h : ∀ m ∈ items, Traces m) (he : e ∈ (mergedAllFaults items).flatten) :
    ∃ m ∈ items, Comes e m := by
  induction items with
  | nil => simp [mergedAllFaults] at he
  | cons n ns ih =>
    rw [List.forall_mem_cons] at h
    have hrest (he : e ∈ (mergedAllFaults ns).flatten) : ∃ m ∈ n :: ns, Comes e m := by
      obtain ⟨m, hm, hcomes⟩ := ih h.2 he
      exact ⟨m, List.mem_cons_of_mem n hm, hcomes⟩
    cases n with
    | mapping tag xs =>
      rw [mergedAllFaults, Faults.mem_join] at he
      rcases he with he | he
      · exact hrest he
      · refine ⟨_, List.mem_cons_self, h.1.merged e ?_⟩
        rw [mergedFaults]
        exact he
    | scalar tag text plain => exact hrest (by simpa [mergedAllFaults] using he)
    | sequence tag items => exact hrest (by simpa [mergedAllFaults] using he)
    | enclosing isMapping => exact hrest (by simpa [mergedAllFaults] using he)

theorem traces_sequence (h : ∀ m ∈ items, Traces m) : Traces (.sequence tag items) where
  faults := by
    apply comes_of_held
    intro e he
    have hpairs (he : e ∈ (pairFaults items).flatten) : Comes e (.sequence tag items) := by
      rcases pairFaults_comes h he with rfl | ⟨m, hm, hcomes⟩
      · exact .inl rfl
      · exact hcomes.item hm
    rw [heldFaults] at he
    split at he
    · obtain ⟨m, hm, hcomes⟩ := itemFaults_comes h he
      exact hcomes.item hm
    · exact hpairs he
    · exact hpairs he
    · split at he
      · exact .inl (by simpa using he)
      · simp at he
    · simp at he
  merged := by
    intro e he
    rw [mergedFaults] at he
    obtain ⟨m, hm, hcomes⟩ := mergedAllFaults_comes h he
    exact hcomes.item hm
  inner := by simp

theorem mappingFaults_comes (h : ∀ x ∈ entries, Traces x.1 ∧ Traces x.2)
    (he : e ∈ (mappingFaults entries).flatten) : Comes e (.mapping tag entries) := by
  rw [mappingFaults, Faults.mem_join, Faults.mem_join] at he
  rcases he with he | he
  · cases hmerges : mergesWell entries with
    | true => simp [hmerges] at he
    | false => exact .inl (by simpa [hmerges] using he)
  · obtain ⟨x, hx, hcomes⟩ := entryFaults_comes h he
    exact .entry hx hcomes

theorem traces_mapping (h : ∀ x ∈ entries, Traces x.1 ∧ Traces x.2) : Traces (.mapping tag entries) where
  faults := by
    apply comes_of_held
    intro e he
    rw [heldFaults] at he
    split at he
    · exact mappingFaults_comes h he
    · exact mappingFaults_comes h he
    · split at he
      · exact .inl (by simpa using he)
      · simp at he
    · simp at he
  merged := by
    intro e he
    rw [mergedFaults, Faults.mem_join] at he
    obtain ⟨x, hx, hcomes⟩ := entryFaults_comes h he
    exact .entry hx hcomes
  inner := by
    rintro _ _ ⟨⟩ x hx
    exact ⟨(h x hx).1.faults, (h x hx).2.faults⟩

theorem traces (n : Node) : Traces n := by
  induction n using Node.induction with
  | scalar tag text plain =>
    refine ⟨comes_of_held fun e he => ?_, by simp [mergedFaults], by simp⟩
    rw [heldFaults] at he
    split at he
    · split at he
      · exact .inl (by simpa using he)
      · simp at he
    · simp at he
  | sequence tag items ih => exact traces_sequence ih
  | mapping tag entries ih => exact traces_mapping ih
  | enclosing isMapping => exact ⟨comes_of_held (by simp [heldFaults]), by simp [mergedFaults], by simp⟩

theorem defaultText_error (h : ∀ x ∈ entries, ∀ e, scalarText x.2 = .error e → e = .badNode ∨ e = .endless)
    (he : defaultText entries = .error e) : e = .badNode ∨ e = .endless := by
  induction entries with
  | nil =>
    rw [defaultText] at he
    cases he
    exact .inl rfl
  | cons x xs ih =>
    rw [List.forall_mem_cons] at h
    rw [defaultText] at he
    split at he
    · exact h.1 e he
    · exact ih h.2 he

theorem scalarText_error (n : Node) : ∀ e, scalarText n = .error e → e = .badNode ∨ e = .endless := by
  induction n using Node.induction with
  | scalar tag text plain => simp [scalarText]
  | sequence tag items ih => simp [scalarText]
  | mapping tag entries ih =>
    intro e he
    rw [scalarText] at he
    exact defaultText_error (fun x hx => (ih x hx).2) he
  | enclosing isMapping => cases isMapping <;> simp [scalarText]

theorem faults_lack (he : e ∈ n.faults) (hbad : e ≠ .badNode) :
    ∃ m : Node, m.Inside n ∧ m.LacksValue e := by
  rcases (traces n).faults e he with h | ⟨m, hm, hfault⟩
  · exact absurd h hbad
  refine ⟨m, hm, ?_⟩
  unfold Node.fault? at hfault
  split at hfault
  · cases hfault
    exact absurd rfl hbad
  · rename_i kind hkind
    split at hfault
    · cases hfault
    · split at hfault
      · rename_i htext
        cases hfault
        rcases scalarText_error m e htext with rfl | rfl
        · exact absurd rfl hbad
        · exact .endless htext
      · rename_i text htext
        split at hfault
        · rename_i hatom
          cases hfault
          exact .unfit hkind (atomOf_error hatom hbad) htext hatom
        · cases hfault

end Origins

theorem load_eq_error {room : Nat} {text : List Char} {e : YamlError} : load room text = .error e ↔
    Node.ofText room text = .error e ∨
      ∃ root, Node.ofText room text = .ok (some root) ∧ root.faults.head? = some e := by
  unfold load
  cases htext : Node.ofText room text with
  | error e' => simp [bind, Except.bind]
  | ok result =>
    cases result with
    | none => simp [bind, Except.bind, pure, Except.pure]
    | some root =>
      cases hhead : root.faults.head? with
      | some fault => simp [bind, Except.bind, hhead, throw, throwThe, MonadExceptOf.throw]
      | none =>
        obtain ⟨v, hv⟩ := (valueOf_returns root).mpr (List.head?_eq_none_iff.mp hhead)
        simp [bind, Except.bind, hhead, hv]

/-- What can keep a text from having a value although it is well formed: something in it is unreadable,
it has openers for more collections than there is room for, or a text inside has no value. -/
inductive Stops (room : Nat) (text : List Char) : YamlError → Prop
  | unreadable {s : List Char} {e : YamlError} (hs : s <:+ text) (h : Unreadable s e) : Stops room text e
  | deep (h : room < 2 * openers text) (hnone : ∀ root, Node.ofText room text ≠ .ok root) :
      Stops room text .tooDeep
  | valueless {root m : Node} {e : YamlError} (hroot : Node.ofText room text = .ok (some root))
      (hm : m.Inside root) (h : m.LacksValue e) : Stops room text e

theorem load_error {room : Nat} {text : List Char} {e : YamlError} (h : load room text = .error e) :
    e = .malformed ∨ e = .badNode ∨ Stops room text e := by
  rcases load_eq_error.mp h with h | ⟨root, hroot, hfault⟩
  · rcases ofText_error h with (rfl | ⟨s, hs, hunreadable⟩) | ⟨rfl, hdeep⟩
    · exact .inl rfl
    · exact .inr (.inr (.unreadable hs hunreadable))
    · exact .inr (.inr (.deep hdeep fun root hroot => by cases h.symm.trans hroot))
  · by_cases hbad : e = .badNode
    · exact .inr (.inl hbad)
    · obtain ⟨m, hm, hlacks⟩ := faults_lack (List.mem_of_mem_head? hfault) hbad
      exact .inr (.inr (.valueless hroot hm hlacks))

end EdgeAudit.Yaml
