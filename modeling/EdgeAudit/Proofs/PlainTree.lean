import EdgeAudit.Ignore.Files
import EdgeAudit.Proofs.EscapedPattern
import EdgeAudit.Proofs.FileWrites
import EdgeAudit.Proofs.PathJoin

namespace EdgeAudit

open EdgeAudit.Path

namespace Entry

mutual

def everyDir (p : List (String × Entry) → Bool) : Entry → Bool
  | .dir entries => p entries && everyDirEach p entries
  | _ => true

def everyDirEach (p : List (String × Entry) → Bool) : List (String × Entry) → Bool
  | [] => true
  | (_, e) :: es => everyDir p e && everyDirEach p es

end

def isLink : Entry → Bool
  | .link _ => true
  | _ => false

variable {p : List (String × Entry) → Bool} {root e : Entry} {entries : List (String × Entry)}
  {n : String} {here ws w : List String}

theorem mem_of_assocGet? (h : assocGet? (· == ·) n entries = some e) : (n, e) ∈ entries := by
  obtain ⟨⟨m, e'⟩, hfind, rfl⟩ := Option.map_eq_some_iff.mp h
  obtain rfl : m = n := by simpa using List.find?_some hfind
  exact List.mem_of_find?_eq_some hfind

theorem everyDir_of_mem (h : everyDirEach p entries = true) (hm : (n, e) ∈ entries) :
    e.everyDir p = true := by
  induction entries with
  | nil => cases hm
  | cons pair entries ih =>
    obtain ⟨m, e'⟩ := pair
    rw [everyDirEach, Bool.and_eq_true] at h
    rcases List.mem_cons.mp hm with hhead | hm
    · cases hhead
      exact h.1
    · exact ih h.2 hm

theorem everyDir_at? (h : root.everyDir p = true) (hat : root.at? ws = some e) :
    e.everyDir p = true := by
  induction ws generalizing root with
  | nil =>
    cases hat
    exact h
  | cons n ws ih =>
    obtain ⟨entries, child, rfl, hchild, hat⟩ := at?_cons hat
    rw [everyDir, Bool.and_eq_true] at h
    exact ih (everyDir_of_mem h.2 (mem_of_assocGet? hchild)) hat

theorem everyDir_entries (h : root.everyDir p = true) (hat : root.at? ws = some (.dir entries)) :
    p entries = true := by
  have hdir := everyDir_at? h hat
  rw [everyDir, Bool.and_eq_true] at hdir
  exact hdir.1

theorem at?_append (root : Entry) (here ws : List String) :
    root.at? (here ++ ws) = (root.at? here).bind (·.at? ws) := by
  induction here generalizing root with
  | nil => rfl
  | cons n here ih =>
    rw [List.cons_append, at?, at?]
    cases root.child? n with
    | none => rfl
    | some child => exact ih child

theorem walk_unlinked (hroot : ∀ way target, root.at? way ≠ some (.link target))
    (hws : ∀ n ∈ ws, IsOrdinary n) (links : Nat) :
    root.walk true links here ws = .ok (w, e) ↔ w = here ++ ws ∧ root.at? (here ++ ws) = some e ∧
      ∀ n ∈ ws, n.utf8ByteSize ≤ maxNameBytes := by
  induction ws generalizing here with
  | nil =>
    rw [walk, List.append_nil]
    cases root.at? here with
    | none => simp
    | some e' => simp [eq_comm]
  | cons n ws ih =>
    obtain ⟨-, hdot, hup⟩ := hws n (by simp)
    have hnext := @ih (here ++ [n]) fun m hm => hws m (List.mem_cons_of_mem n hm)
    rw [List.append_assoc, List.singleton_append] at hnext
    rw [walk, List.forall_mem_cons]
    have hat := at?_append root here (n :: ws)
    cases hhere : root.at? here with
    | none => simp [hat, hhere]
    | some e' =>
      cases e' with
      | file bytes mtime => simp [hat, hhere, at?, child?]
      | link target => exact absurd hhere (hroot here target)
      | dir entries =>
        simp only [hdot, hup, if_false]
        by_cases hlong : maxNameBytes < n.utf8ByteSize
        · rw [if_pos hlong]
          constructor
          · intro h
            cases h
          · rintro ⟨-, -, hshort, -⟩
            omega
        · have hentry := at?_entry hhere n
          rw [if_neg hlong]
          cases hget : assocGet? (· == ·) n entries with
          | none =>
            have hnone : root.at? (here ++ n :: ws) = none := by
              rw [hat, hhere, Option.bind_some, at?, child?, hget]
            simp [hnone]
          | some e' =>
            cases e' with
            | link target =>
              rw [hget] at hentry
              exact absurd hentry.symm (hroot _ target)
            | file bytes mtime =>
              rw [hnext]
              simp [Nat.le_of_not_lt hlong]
            | dir entries' =>
              rw [hnext]
              simp [Nat.le_of_not_lt hlong]

def isPlain (name : String) (e : Entry) : Bool :=
  !name.toList.contains '/' && name != Ignore.fileName && !e.isLink

def Plain (e : Entry) : Prop :=
  e.everyDir (fun entries => entries.all fun (name, e) => isPlain name e) = true

instance (e : Entry) : Decidable e.Plain :=
  inferInstanceAs (Decidable (_ = _))

theorem Plain.entry (h : root.Plain) (hat : root.at? ws = some (.dir entries))
    (hm : (n, e) ∈ entries) :
    '/' ∉ n.toList ∧ n ≠ Ignore.fileName ∧ ∀ target, e ≠ .link target := by
  have hplain : isPlain n e = true :=
    List.all_eq_true.mp (everyDir_entries h hat) (n, e) hm
  simp only [isPlain, Bool.and_eq_true, bne_iff_ne, Bool.not_eq_true'] at hplain
  obtain ⟨⟨hslash, hname⟩, hlink⟩ := hplain
  refine ⟨by simpa using hslash, hname, ?_⟩
  rintro target rfl
  cases hlink

theorem Plain.at?_ne_link (h : root.Plain) (hroot : root.isLink = false) (way : List String)
    (target : String) : root.at? way ≠ some (.link target) := by
  induction way using List.reverseRecOn with
  | nil =>
    intro hat
    cases hat
    cases hroot
  | append_singleton way n _ =>
    intro hat
    rw [at?_snoc] at hat
    obtain ⟨e, hway, hchild⟩ := Option.bind_eq_some_iff.mp hat
    cases e with
    | dir entries => exact (h.entry hway (mem_of_assocGet? hchild)).2.2 target rfl
    | file bytes mtime => cases hchild
    | link target' => cases hchild

/-- No way leads to a link, and no name has a slash. -/
structure Unlinked (root : Entry) : Prop where
  links : ∀ way target, root.at? way ≠ some (.link target)
  slashes : ∀ {way entries n e}, root.at? way = some (.dir entries) → (n, e) ∈ entries →
    '/' ∉ n.toList

theorem Plain.unlinked (h : root.Plain) (hroot : root.isLink = false) : root.Unlinked :=
  ⟨h.at?_ne_link hroot, fun hat hm => (h.entry hat hm).1⟩

mutual

theorem Plain.ignoreBases_eq_nil (root : Entry) (way : List String) (shown : String) :
    ∀ e : Entry, e.Plain → ignoreBases root way shown e = []
  | .file _ _, _ => rfl
  | .link _, _ => rfl
  | .dir entries, h => by
    obtain ⟨hhere, hbelow⟩ := Bool.and_eq_true_iff.mp h
    rw [ignoreBases, List.append_eq_nil_iff, List.filterMap_eq_nil_iff, List.flatMap_eq_nil_iff]
    constructor
    · rintro ⟨n, e⟩ hm
      have hroot : (Entry.dir entries).at? [] = some (.dir entries) := rfl
      have hname : n ≠ Ignore.fileName := (h.entry hroot hm).2.1
      simp [hname]
    · intro x hx
      exact Plain.ignoreBasesEach_eq_nil root way shown entries hbelow x (List.mem_mergeSort.mp hx)

theorem Plain.ignoreBasesEach_eq_nil (root : Entry) (way : List String) (shown : String) :
    ∀ entries : List (String × Entry),
      everyDirEach (fun entries => entries.all fun (name, e) => isPlain name e) entries = true →
      ∀ x ∈ ignoreBasesEach root way shown entries, x.2 = []
  | [], _, x, hx => by cases hx
  | (n, e) :: es, h, x, hx => by
    obtain ⟨he, hes⟩ := Bool.and_eq_true_iff.mp h
    rw [ignoreBasesEach, List.mem_cons] at hx
    rcases hx with rfl | hx
    · simp [Plain.ignoreBases_eq_nil root (way ++ [n]) (Path.join shown n) e he]
    · exact Plain.ignoreBasesEach_eq_nil root way shown es hes x hx

end

end Entry

namespace Files

variable {f : Files} {base dir n : String} {l : Listed} {entries : List (String × Entry)}
  {names way : List String}

theorem mem_list (hfind : f.find (Path.join base dir) = .ok (way, .dir entries)) :
    l ∈ f.list base dir ↔ ∃ e, (l.name, e) ∈ entries ∧ l.path = Path.join dir l.name ∧
      f.root.leadsToDir? way l.name e = some l.isDir := by
  rw [list, hfind]
  simp only [List.mem_filterMap, Entry.listedChild, Option.map_eq_some_iff]
  constructor
  · rintro ⟨⟨n, e⟩, hmem, isDir, hdir, rfl⟩
    exact ⟨e, hmem, rfl, hdir⟩
  · rintro ⟨e, hmem, hpath, hdir⟩
    exact ⟨(l.name, e), hmem, l.isDir, hdir, by rw [← hpath]⟩

theorem search_last (n : String) : f.search base dir [Glob.nameSegment n] =
    ((f.list base dir).filter fun l => !l.isDir && (Glob.nameSegment n).fits l.name).map (·.path) := by
  rcases Glob.nameSegment_cases n with h | h <;> rw [h] <;> rfl

theorem search_into (hn : IsOrdinary n) (s : Glob.Segment) (rest : List Glob.Segment) :
    f.search base dir (Glob.nameSegment n :: s :: rest) =
      (((f.list base dir).filter fun l => l.isDir && (Glob.nameSegment n).fits l.name).map
        (·.path)).flatMap fun d => f.search base d (s :: rest) := by
  obtain ⟨-, hdot, hup⟩ := hn
  rcases Glob.nameSegment_cases n with h | h
  · rw [h]
    rfl
  · rw [h, search, dirsIn, List.nil_append]
    all_goals simp [hdot, hup]

theorem list_fitting (hfiles : f.root.Unlinked) (hway : f.root.at? way = some (.dir entries))
    (hfind : f.find (Path.join base dir) = .ok (way, .dir entries)) (hn : IsName n) {e : Entry}
    (hmem : (n, e) ∈ entries) {b : Bool} (hdir : f.root.leadsToDir? way n e = some b)
    {q : Bool → Bool} (hq : q b = true) :
    Path.join dir n ∈ ((f.list base dir).filter fun l =>
        q l.isDir && (Glob.nameSegment n).fits l.name).map (·.path) ∧
      ∀ path ∈ ((f.list base dir).filter fun l =>
        q l.isDir && (Glob.nameSegment n).fits l.name).map (·.path), path = Path.join dir n := by
  constructor
  · have hlisted : (⟨n, Path.join dir n, b⟩ : Listed) ∈ f.list base dir :=
      (mem_list hfind).mpr ⟨e, hmem, rfl, hdir⟩
    have hself : (Glob.nameSegment n).fits n = true := (Glob.nameSegment_fits hn hn.2).mpr rfl
    exact List.mem_map.mpr ⟨_, List.mem_filter.mpr ⟨hlisted, by simp [hq, hself]⟩, rfl⟩
  · intro path hpath
    obtain ⟨l, hl, rfl⟩ := List.mem_map.mp hpath
    obtain ⟨hl, hfit⟩ := List.mem_filter.mp hl
    obtain ⟨e', hmem', hpath', -⟩ := (mem_list hfind).mp hl
    have hslash := hfiles.slashes hway hmem'
    rw [hpath', (Glob.nameSegment_fits hn hslash).mp (Bool.and_eq_true_iff.mp hfit).2]

structure Below (base dir : String) (names : List String) : Prop where
  proper : ∀ n ∈ names, IsOrdinary n ∧ IsName n
  ordinary : ∀ n ∈ parts base ++ parts dir, IsOrdinary n
  relative : isAbsolute dir = false
  short : ∀ n ∈ parts base ++ parts dir ++ names, n.utf8ByteSize ≤ maxNameBytes

theorem Below.parts_join (h : Below base dir (n :: names)) :
    parts base ++ parts (Path.join dir n) = parts base ++ parts dir ++ [n] := by
  have hname := (h.proper n (by simp)).2
  rw [Path.parts_join hname.isAbsolute, hname.parts, List.append_assoc]

theorem Below.step (h : Below base dir (n :: names)) : Below base (Path.join dir n) names := by
  obtain ⟨hordinary, hname⟩ := h.proper n (by simp)
  refine ⟨fun m hm => h.proper m (List.mem_cons_of_mem n hm), ?_,
    isAbsolute_join h.relative hname.isAbsolute, ?_⟩
  · rw [h.parts_join]
    intro k hk
    rcases List.mem_append.mp hk with hk | hk
    · exact h.ordinary k hk
    · rw [List.mem_singleton.mp hk]
      exact hordinary
  · rw [h.parts_join, List.append_assoc, List.singleton_append]
    exact h.short

theorem Below.find (h : Below base dir names) (hfiles : f.root.Unlinked)
    (hway : f.root.at? (parts base ++ parts dir) = some (.dir entries)) :
    f.find (Path.join base dir) = .ok (parts base ++ parts dir, .dir entries) := by
  rw [Files.find, Path.parts_join h.relative, Entry.walk_unlinked hfiles.links h.ordinary]
  exact ⟨rfl, hway, fun m hm => h.short m (List.mem_append_left _ hm)⟩

theorem mem_search_append (hfiles : f.root.Unlinked) (hbelow : Below base dir names)
    (hat : f.root.at? (parts base ++ parts dir ++ names) = some (.dir entries))
    (s : Glob.Segment) (rest : List Glob.Segment) (path : String) :
    path ∈ f.search base dir (names.map Glob.nameSegment ++ s :: rest) ↔
      path ∈ f.search base (names.foldl Path.join dir) (s :: rest) := by
  -- one name after the other: each part enters the one directory of that name
  induction names generalizing dir with
  | nil => rfl
  | cons n names ih =>
    obtain ⟨hordinary, hname⟩ := hbelow.proper n (by simp)
    have hsplit := hat
    rw [Entry.at?_append] at hsplit
    obtain ⟨e, hway, hrest⟩ := Option.bind_eq_some_iff.mp hsplit
    obtain ⟨entries', child, rfl, hchild, hrest⟩ := Entry.at?_cons hrest
    have hdir : f.root.leadsToDir? (parts base ++ parts dir) n child = some true := by
      cases child with
      | dir _ => rfl
      | file _ _ => cases names <;> cases hrest
      | link _ => cases names <;> cases hrest
    obtain ⟨hhere, honly⟩ := list_fitting hfiles hway (hbelow.find hfiles hway) hname
      (Entry.mem_of_assocGet? hchild) hdir (q := id) rfl
    have hnext := @ih (Path.join dir n) hbelow.step (by
      rw [hbelow.parts_join, List.append_assoc, List.singleton_append]
      exact hat)
    have hinto : f.search base dir ((n :: names).map Glob.nameSegment ++ s :: rest) =
        (((f.list base dir).filter fun l => l.isDir && (Glob.nameSegment n).fits l.name).map
          (·.path)).flatMap fun d => f.search base d (names.map Glob.nameSegment ++ s :: rest) := by
      cases names <;> exact search_into hordinary _ _
    rw [hinto, List.foldl_cons, ← hnext, List.mem_flatMap]
    constructor
    · rintro ⟨d, hd, hpath⟩
      rwa [honly d hd] at hpath
    · intro hpath
      exact ⟨_, hhere, hpath⟩

theorem Below.foldl {init : List String} (h : Below base dir (init ++ names)) :
    Below base (init.foldl Path.join dir) names ∧
      parts base ++ parts (init.foldl Path.join dir) = parts base ++ parts dir ++ init := by
  induction init generalizing dir with
  | nil => exact ⟨h, (List.append_nil _).symm⟩
  | cons n init ih =>
    obtain ⟨hbelow, hparts⟩ := ih h.step
    rw [List.foldl_cons, hparts, h.parts_join, List.append_assoc, List.singleton_append]
    exact ⟨hbelow, rfl⟩

theorem search_names (hfiles : f.root.Unlinked) (hbelow : Below base dir names) (hne : names ≠ [])
    {bytes : ByteArray} {mtime : Int}
    (hfile : f.root.at? (parts base ++ parts dir ++ names) = some (.file bytes mtime)) :
    names.foldl Path.join dir ∈ f.search base dir (names.map Glob.nameSegment) ∧
      ∀ path ∈ f.search base dir (names.map Glob.nameSegment),
        path = names.foldl Path.join dir := by
  obtain ⟨init, n, rfl⟩ : ∃ init n, names = init ++ [n] :=
    ⟨_, _, (List.dropLast_append_getLast hne).symm⟩
  obtain ⟨hlast, hparts⟩ := hbelow.foldl
  rw [← List.append_assoc, Entry.at?_append] at hfile
  obtain ⟨e, hway, hchild⟩ := Option.bind_eq_some_iff.mp hfile
  obtain ⟨entries, child, rfl, hchild, hend⟩ := Entry.at?_cons hchild
  cases hend
  have hinit : Below base dir init :=
    ⟨fun m hm => hbelow.proper m (by simp [hm]), hbelow.ordinary, hbelow.relative,
      fun m hm => hbelow.short m (by simp only [← List.append_assoc, List.mem_append_left _ hm])⟩
  simp only [List.map_append, List.map_cons, List.map_nil, List.foldl_append, List.foldl_cons,
    List.foldl_nil, mem_search_append hfiles hinit hway, search_last]
  rw [← hparts] at hway
  exact list_fitting hfiles hway (hlast.find hfiles hway) (hbelow.proper n (by simp)).2
    (Entry.mem_of_assocGet? hchild) (b := false) rfl (q := not) rfl

theorem head?_escaped_joinWith (hnames : ∀ n ∈ names, IsName n) :
    (Glob.escaped (Text.joinWith "/" names).toList).head? ≠ some '/' := by
  intro h
  have habsolute : isAbsolute (Text.joinWith "/" names) = true :=
    beq_iff_eq.mpr (Glob.head?_of_escaped h (by decide))
  rw [isAbsolute_joinWith hnames] at habsolute
  cases habsolute

theorem searchPattern_names (hfiles : f.root.Unlinked)
    (hnames : ∀ n ∈ names, IsOrdinary n ∧ IsName n) (hne : names ≠ [])
    (hbase : ∀ n ∈ parts base, IsOrdinary n)
    (hsize : ∀ n ∈ parts base ++ names, n.utf8ByteSize ≤ maxNameBytes)
    {bytes : ByteArray} {mtime : Int}
    (hfile : f.root.at? (parts base ++ names) = some (.file bytes mtime)) :
    Text.joinWith "/" names ∈
        f.searchPattern base (Glob.escaped (Text.joinWith "/" names).toList) ∧
      ∀ path ∈ f.searchPattern base (Glob.escaped (Text.joinWith "/" names).toList),
        path = Text.joinWith "/" names := by
  have hnames' : ∀ n ∈ names, IsName n := fun n hn => (hnames n hn).2
  have hempty : parts base ++ parts "" = parts base := List.append_nil _
  rw [searchPattern, if_neg (head?_escaped_joinWith hnames'), Glob.segments_names hnames' hne, ← foldl_join hnames']
  exact search_names hfiles ⟨hnames, hempty.symm ▸ hbase, rfl, hempty.symm ▸ hsize⟩ hne
    (hempty.symm ▸ hfile)

end Files

end EdgeAudit
