import EdgeAudit.Proofs.PlainTree

namespace EdgeAudit

open EdgeAudit.Path Ignore

namespace Entry

variable {root e : Entry} {entries : List (String × Entry)} {n : String} {ws : List String}

def isProper (entries : List (String × Entry)) : Bool :=
  decide (entries.map (·.1)).Nodup &&
    entries.all fun entry => decide (IsOrdinary entry.1 ∧ IsName entry.1)

def Proper (e : Entry) : Prop :=
  e.everyDir isProper = true

instance (e : Entry) : Decidable e.Proper :=
  inferInstanceAs (Decidable (_ = _))

theorem assocGet?_eq_some_iff (h : (entries.map (·.1)).Nodup) :
    assocGet? (· == ·) n entries = some e ↔ (n, e) ∈ entries := by
  refine ⟨mem_of_assocGet?, ?_⟩
  induction entries with
  | nil => simp
  | cons pair entries ih =>
    obtain ⟨m, e'⟩ := pair
    obtain ⟨hfresh, hrest⟩ := List.nodup_cons.mp h
    intro hm
    rcases List.mem_cons.mp hm with hhead | hm
    · cases hhead
      simp [assocGet?]
    · have hne : m ≠ n := by
        rintro rfl
        exact hfresh (List.mem_map.mpr ⟨_, hm, rfl⟩)
      have hget := ih hrest hm
      simpa [assocGet?, hne] using hget

theorem Proper.dir (h : (Entry.dir entries).Proper) :
    (∀ m e, assocGet? (· == ·) m entries = some e ↔ (m, e) ∈ entries) ∧
      (∀ m e, (m, e) ∈ entries → IsOrdinary m ∧ IsName m) ∧
      everyDirEach isProper entries = true := by
  obtain ⟨hhere, hbelow⟩ := Bool.and_eq_true_iff.mp h
  obtain ⟨hnodup, hnames⟩ := Bool.and_eq_true_iff.mp hhere
  refine ⟨fun m e => assocGet?_eq_some_iff (of_decide_eq_true hnodup), ?_, hbelow⟩
  intro m e hm
  exact of_decide_eq_true (List.all_eq_true.mp hnames (m, e) hm)

theorem Proper.names (h : root.Proper) (hat : root.at? ws = some e) :
    ∀ n ∈ ws, IsOrdinary n ∧ IsName n := by
  induction ws generalizing root with
  | nil => simp
  | cons m ws ih =>
    obtain ⟨entries, child, rfl, hchild, hat⟩ := at?_cons hat
    obtain ⟨hget, hnames, hbelow⟩ := h.dir
    have hm := (hget m child).mp hchild
    rw [List.forall_mem_cons]
    exact ⟨hnames m child hm, ih (everyDir_of_mem hbelow hm) hat⟩

/-- Names lead from a directory to one that has an ignore file. -/
def HasIgnoreFile (root : Entry) (way : List String) (e : Entry) (ws : List String) : Prop :=
  (∀ n ∈ ws, n ∉ prunedNames) ∧ ∃ x, e.at? (ws ++ [fileName]) = some x ∧
    root.leadsToDir? (way ++ ws) fileName x ≠ some true

theorem HasIgnoreFile.isDir {way : List String} (h : HasIgnoreFile root way e ws) :
    ∃ entries, e = .dir entries := by
  obtain ⟨-, x, hat, -⟩ := h
  cases ws with
  | nil =>
    obtain ⟨entries, -, rfl, -⟩ := at?_cons hat
    exact ⟨entries, rfl⟩
  | cons n ws =>
    obtain ⟨entries, -, rfl, -⟩ := at?_cons hat
    exact ⟨entries, rfl⟩

theorem Proper.at?_cons_iff (h : (Entry.dir entries).Proper) :
    (Entry.dir entries).at? (n :: ws) = some e ↔
      ∃ child, (n, child) ∈ entries ∧ child.at? ws = some e := by
  simp only [← h.dir.1, at?, child?]
  cases assocGet? (· == ·) n entries <;> simp

theorem hasIgnoreFile_nil {way : List String} (h : (Entry.dir entries).Proper) :
    HasIgnoreFile root way (.dir entries) [] ↔
      ∃ x, (fileName, x) ∈ entries ∧ root.leadsToDir? way fileName x ≠ some true := by
  simp only [HasIgnoreFile, List.nil_append, List.append_nil, h.at?_cons_iff]
  simp [at?]

theorem hasIgnoreFile_cons {way : List String} (h : (Entry.dir entries).Proper) :
    HasIgnoreFile root way (.dir entries) (n :: ws) ↔ ∃ child, (n, child) ∈ entries ∧
      n ∉ prunedNames ∧ HasIgnoreFile root (way ++ [n]) child ws := by
  simp only [HasIgnoreFile, List.cons_append, h.at?_cons_iff, List.forall_mem_cons,
    List.append_assoc, List.nil_append]
  constructor
  · rintro ⟨⟨hn, hws⟩, x, ⟨child, hmem, hat⟩, hleads⟩
    exact ⟨child, hmem, hn, hws, x, hat, hleads⟩
  · rintro ⟨child, hmem, hn, hws, x, hat, hleads⟩
    exact ⟨⟨hn, hws⟩, x, ⟨child, hmem, hat⟩, hleads⟩

mutual

theorem mem_ignoreBases (root : Entry) (way : List String) (shown base : String) :
    ∀ e : Entry, e.Proper → (base ∈ ignoreBases root way shown e ↔
      ∃ ws, HasIgnoreFile root way e ws ∧ base = ws.foldl Path.join shown)
  | .file bytes mtime, _ => by
    refine ⟨(fun h => by cases h), ?_⟩
    rintro ⟨ws, hws, -⟩
    obtain ⟨entries, he⟩ := hws.isDir
    cases he
  | .link target, _ => by
    refine ⟨(fun h => by cases h), ?_⟩
    rintro ⟨ws, hws, -⟩
    obtain ⟨entries, he⟩ := hws.isDir
    cases he
  | .dir entries, h => by
    have hhere : base ∈ (entries.filterMap fun (name, e) =>
        if name = fileName && root.leadsToDir? way name e != some true then some shown else none) ↔
          HasIgnoreFile root way (.dir entries) [] ∧ base = shown := by
      rw [hasIgnoreFile_nil h, List.mem_filterMap]
      constructor
      · rintro ⟨⟨n, x⟩, hmem, hbase⟩
        obtain ⟨hcond, hshown⟩ := Option.ite_none_right_eq_some.mp hbase
        simp only [Bool.and_eq_true, decide_eq_true_eq, bne_iff_ne] at hcond
        obtain ⟨rfl, hleads⟩ := hcond
        exact ⟨⟨x, hmem, hleads⟩, (Option.some.inj hshown).symm⟩
      · rintro ⟨⟨x, hmem, hleads⟩, rfl⟩
        exact ⟨(fileName, x), hmem, by simp [hleads]⟩
    have hbelow := mem_ignoreBasesEach root way shown base entries h.dir.2.2
    rw [ignoreBases, List.mem_append, hhere, List.mem_flatMap]
    simp only [List.mem_mergeSort]
    rw [hbelow]
    constructor
    · rintro (⟨hfile, hbase⟩ | ⟨n, child, hmem, hn, ws, hws, hbase⟩)
      · exact ⟨[], hfile, hbase⟩
      · exact ⟨n :: ws, (hasIgnoreFile_cons h).mpr ⟨child, hmem, hn, hws⟩, hbase⟩
    · rintro ⟨ws, hws, hbase⟩
      cases ws with
      | nil => exact .inl ⟨hws, hbase⟩
      | cons n ws =>
        obtain ⟨child, hmem, hn, hws⟩ := (hasIgnoreFile_cons h).mp hws
        exact .inr ⟨n, child, hmem, hn, ws, hws, hbase⟩

theorem mem_ignoreBasesEach (root : Entry) (way : List String) (shown base : String) :
    ∀ entries : List (String × Entry), everyDirEach isProper entries = true →
      ((∃ x ∈ ignoreBasesEach root way shown entries, base ∈ x.2) ↔
        ∃ n child, (n, child) ∈ entries ∧ n ∉ prunedNames ∧ ∃ ws,
          HasIgnoreFile root (way ++ [n]) child ws ∧ base = ws.foldl Path.join (Path.join shown n))
  | [], _ => by simp [ignoreBasesEach]
  | (n, child) :: es, h => by
    obtain ⟨hchild, hes⟩ := Bool.and_eq_true_iff.mp h
    have hfirst := mem_ignoreBases root (way ++ [n]) (Path.join shown n) base child hchild
    have hrest := mem_ignoreBasesEach root way shown base es hes
    have hpruned : base ∈ (if prunedNames.contains n then []
        else ignoreBases root (way ++ [n]) (Path.join shown n) child) ↔ n ∉ prunedNames ∧
          base ∈ ignoreBases root (way ++ [n]) (Path.join shown n) child := by
      by_cases hn : n ∈ prunedNames <;> simp [hn]
    simp only [ignoreBasesEach, List.mem_cons, exists_eq_or_imp, hrest, hpruned, hfirst, Prod.mk.injEq]
    constructor
    · rintro (⟨hn, hws⟩ | ⟨m, e, hmem, hm⟩)
      · exact ⟨n, child, .inl ⟨rfl, rfl⟩, hn, hws⟩
      · exact ⟨m, e, .inr hmem, hm⟩
    · rintro ⟨m, e, ⟨rfl, rfl⟩ | hmem, hm⟩
      · exact .inl hm
      · exact .inr ⟨m, e, hmem, hm⟩

end

end Entry

end EdgeAudit
