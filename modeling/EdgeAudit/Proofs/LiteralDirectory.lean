import EdgeAudit.Proofs.DirectoryPattern
import EdgeAudit.Proofs.Discovery
import EdgeAudit.Proofs.Exclusion
import EdgeAudit.Proofs.IgnoreDirectories

namespace EdgeAudit

open EdgeAudit.Path

namespace Path

variable {dir path : String} {names : List String}

theorem isAbsolute_tidy (h : isAbsolute path = true) : isAbsolute (tidy path) = true := by
  have hfull : root path ++ Text.joinWith "/" ((parts path).filter (· != ".")) ≠ "" := by
    rcases root_cases h with hr | hr <;> simp [hr, ← String.toList_inj]
  rw [tidy, if_neg hfull]
  rcases root_cases h with hr | hr <;> simp [hr, isAbsolute]

theorem tidy_joinWith (h : ∀ n ∈ names, IsOrdinary n ∧ IsName n) (hne : names ≠ []) :
    tidy (Text.joinWith "/" names) = Text.joinWith "/" names := by
  have hnames : ∀ n ∈ names, IsName n := fun n hn => (h n hn).2
  have hroot : root (Text.joinWith "/" names) = "" := by
    have hhead : (Text.joinWith "/" names).toList.head? ≠ some '/' := by
      simpa [isAbsolute] using isAbsolute_joinWith hnames
    unfold root
    split <;> simp_all
  have hfilter : names.filter (· != ".") = names := by
    rw [List.filter_eq_self]
    intro n hn
    simpa using (h n hn).1.2.1
  have hfull : Text.joinWith "/" names ≠ "" := by
    intro he
    have hparts := parts_joinWith hnames
    rw [he] at hparts
    exact hne hparts.symm
  rw [tidy, hroot, parts_joinWith hnames, hfilter, String.empty_append, if_neg hfull]

theorem relativeTo_of_resolved (hdir : Normal dir) (hpath : isAbsolute path = true)
    (hparts : resolveDots true (parts path) = parts dir ++ names) :
    relativeTo path dir = if names = [] then "." else Text.joinWith "/" names := by
  obtain ⟨hordinary, hnormalize⟩ := normalize_eq_append hpath
  obtain ⟨hnormal, -, hresolved⟩ := normal_append (root_cases hpath) hordinary
  rw [← hnormalize] at hnormal hresolved
  have hself : absolute dir path = absolute dir (normalize path) := by
    rw [absolute, join, if_pos hpath, absolute, join, if_pos hnormal.absolute, hnormal.normal]
  have hsame : relativeTo path dir = relativeTo (normalize path) dir := by
    rw [relativeTo, hself]
    rfl
  rw [hsame, relativeTo_of_parts hdir hnormal (hresolved.trans hparts)]

end Path

namespace Entry

variable {root e : Entry} {entries : List (String × Entry)} {n : String}
  {here way ws w : List String}

theorem walk_resolved (hroot : ∀ way target, root.at? way ≠ some (.link target)) {links : Nat}
    (hws : ∀ n ∈ ws, n ≠ "") (hhere : ∀ n ∈ here, n ≠ "..")
    (h : root.walk true links here ws = .ok (w, e)) :
    w = (ws.foldl (pushPart true) here.reverse).reverse ∧
      ((∀ n ∈ here, n.utf8ByteSize ≤ maxNameBytes) → ∀ n ∈ w, n.utf8ByteSize ≤ maxNameBytes) := by
  -- no link is ever followed, so the names carry the induction and not the links
  induction ws generalizing here with
  | nil =>
    have hw : here = w := by
      rw [walk] at h
      cases hat : root.at? here <;> simp_all
    subst hw
    exact ⟨(List.reverse_reverse here).symm, id⟩
  | cons n ws ih =>
    rw [List.forall_mem_cons] at hws
    rw [walk] at h
    cases hat : root.at? here with
    | none => simp [hat] at h
    | some x =>
      cases x with
      | file bytes mtime => simp [hat] at h
      | link target => exact absurd hat (hroot here target)
      | dir entries =>
        simp only [hat] at h
        rw [List.foldl_cons]
        by_cases hdot : n = "."
        · have hpush : pushPart true here.reverse n = here.reverse := by simp [pushPart, hdot]
          rw [if_pos hdot] at h
          rw [hpush]
          exact ih hws.2 hhere h
        by_cases hup : n = ".."
        · have hpush : pushPart true here.reverse n = here.dropLast.reverse := by
            obtain rfl | ⟨init, last, rfl⟩ := here.eq_nil_or_concat
            · simp [pushPart, hup]
            · have hlast : last ≠ ".." := hhere last (by simp)
              simp [pushPart, hup, hlast]
          have hback : ∀ m ∈ here.dropLast, m ∈ here := fun m hm => List.mem_of_mem_dropLast hm
          rw [if_neg hdot, if_pos hup] at h
          rw [hpush]
          obtain ⟨hw, hshort⟩ := ih hws.2 (fun m hm => hhere m (hback m hm)) h
          exact ⟨hw, fun hsize => hshort fun m hm => hsize m (hback m hm)⟩
        have hpush : pushPart true here.reverse n = (here ++ [n]).reverse := by
          simp [pushPart, hws.1, hdot, hup]
        rw [if_neg hdot, if_neg hup] at h
        rw [hpush]
        split at h
        · cases h
        · rename_i hsize
          have hchild : root.walk true links (here ++ [n]) ws = .ok (w, e) := by
            have hentry := at?_entry hat n
            split at h
            · cases h
            · rename_i target hget
              exact absurd (hentry.symm.trans hget) (hroot _ target)
            · exact h
          have hnext : ∀ m ∈ here ++ [n], m ≠ ".." := by
            simpa [or_imp, forall_and] using ⟨hhere, hup⟩
          obtain ⟨hw, hshort⟩ := ih hws.2 hnext hchild
          refine ⟨hw, fun hall => hshort ?_⟩
          simpa [or_imp, forall_and] using ⟨hall, Nat.le_of_not_lt hsize⟩

def Hidden (n : String) : Prop :=
  n.toList.head? = some '.'

instance (n : String) : Decidable (Hidden n) :=
  inferInstanceAs (Decidable (_ = _))

theorem names_fits (n : String) : Glob.Segment.names.fits n = true ↔ ¬ Hidden n := by
  simp [Glob.Segment.fits, Glob.Segment.fits.isHidden, Hidden]

structure LeadsTo (root : Entry) (way : List String) (shown : String) (e : Entry) (ws : List String)
    (l : Listed) : Prop where
  entered : ∀ m ∈ ws, ¬ Hidden m
  path : l.path = (ws ++ [l.name]).foldl Path.join shown
  entry : ∃ x, e.at? (ws ++ [l.name]) = some x ∧ root.leadsToDir? (way ++ ws) l.name x = some l.isDir

variable {shown : String} {l : Listed}

theorem LeadsTo.isDir (h : LeadsTo root way shown e ws l) : ∃ entries, e = .dir entries := by
  obtain ⟨x, hat, -⟩ := h.entry
  cases ws <;>
  · obtain ⟨entries, -, rfl, -⟩ := at?_cons hat
    exact ⟨entries, rfl⟩

theorem leadsTo_nil (h : (Entry.dir entries).Proper) :
    LeadsTo root way shown (.dir entries) [] l ↔
      ∃ x, (l.name, x) ∈ entries ∧ root.listedChild way shown l.name x = some l := by
  have hchild : ∀ x, root.listedChild way shown l.name x = some l ↔
      root.leadsToDir? way l.name x = some l.isDir ∧ l.path = Path.join shown l.name := by
    intro x
    obtain ⟨name, path, isDir⟩ := l
    simp only [listedChild, Option.map_eq_some_iff, Listed.mk.injEq, true_and]
    constructor
    · rintro ⟨b, hb, rfl, rfl⟩
      exact ⟨hb, rfl⟩
    · rintro ⟨hb, rfl⟩
      exact ⟨isDir, hb, rfl, rfl⟩
  simp only [hchild]
  constructor
  · rintro ⟨-, hpath, x, hat, hdir⟩
    obtain ⟨child, hmem, hself⟩ := h.at?_cons_iff.mp hat
    cases hself
    exact ⟨x, hmem, by simpa using hdir, hpath⟩
  · rintro ⟨x, hmem, hdir, hpath⟩
    exact ⟨by simp, hpath, x, h.at?_cons_iff.mpr ⟨x, hmem, rfl⟩, by simpa using hdir⟩

theorem leadsTo_cons (h : (Entry.dir entries).Proper) :
    LeadsTo root way shown (.dir entries) (n :: ws) l ↔ ∃ child, (n, child) ∈ entries ∧
      ¬ Hidden n ∧ LeadsTo root (way ++ [n]) (Path.join shown n) child ws l := by
  constructor
  · rintro ⟨hshown, hpath, x, hat, hdir⟩
    obtain ⟨child, hmem, hat⟩ := h.at?_cons_iff.mp hat
    rw [List.forall_mem_cons] at hshown
    exact ⟨child, hmem, hshown.1, hshown.2, hpath, x, hat, by simpa using hdir⟩
  · rintro ⟨child, hmem, hn, hshown, hpath, x, hat, hdir⟩
    exact ⟨List.forall_mem_cons.mpr ⟨hn, hshown⟩, hpath, x,
      h.at?_cons_iff.mpr ⟨child, hmem, hat⟩, by simpa using hdir⟩

mutual

theorem mem_listedBelow (root : Entry) (way : List String) (shown : String) (l : Listed) :
    ∀ e : Entry, e.Proper →
      (l ∈ listedBelow root way shown e ↔ ∃ ws, LeadsTo root way shown e ws l)
  | .file bytes mtime, _ => by
    refine ⟨(fun h => by cases h), ?_⟩
    rintro ⟨ws, hws⟩
    obtain ⟨entries, he⟩ := hws.isDir
    cases he
  | .link target, _ => by
    refine ⟨(fun h => by cases h), ?_⟩
    rintro ⟨ws, hws⟩
    obtain ⟨entries, he⟩ := hws.isDir
    cases he
  | .dir entries, h => by
    rw [listedBelow, mem_listedEach root way shown l entries h.dir.2.2]
    constructor
    · rintro ⟨n, child, hmem, hchild | ⟨hn, ws, hws⟩⟩
      · obtain ⟨b, -, hl⟩ := Option.map_eq_some_iff.mp hchild
        have hname : n = l.name := congrArg Listed.name hl
        subst hname
        exact ⟨[], (leadsTo_nil h).mpr ⟨child, hmem, hchild⟩⟩
      · exact ⟨n :: ws, (leadsTo_cons h).mpr ⟨child, hmem, hn, hws⟩⟩
    · rintro ⟨ws, hws⟩
      cases ws with
      | nil =>
        obtain ⟨child, hmem, hchild⟩ := (leadsTo_nil h).mp hws
        exact ⟨l.name, child, hmem, .inl hchild⟩
      | cons n ws =>
        obtain ⟨child, hmem, hn, hws⟩ := (leadsTo_cons h).mp hws
        exact ⟨n, child, hmem, .inr ⟨hn, ws, hws⟩⟩

theorem mem_listedEach (root : Entry) (way : List String) (shown : String) (l : Listed) :
    ∀ entries : List (String × Entry), everyDirEach isProper entries = true →
      (l ∈ listedEach root way shown entries ↔ ∃ n child, (n, child) ∈ entries ∧
        (root.listedChild way shown n child = some l ∨ ¬ Hidden n ∧ ∃ ws,
          LeadsTo root (way ++ [n]) (Path.join shown n) child ws l))
  | [], _ => by simp [listedEach]
  | (n, child) :: es, h => by
    obtain ⟨hchild, hes⟩ := Bool.and_eq_true_iff.mp h
    have hbelow := mem_listedBelow root (way ++ [n]) (Path.join shown n) l child hchild
    have hentered : l ∈ (if Glob.Segment.names.fits n then
        listedBelow root (way ++ [n]) (Path.join shown n) child else []) ↔ ¬ Hidden n ∧
          ∃ ws, LeadsTo root (way ++ [n]) (Path.join shown n) child ws l := by
      rw [← hbelow, ← names_fits]
      split <;> simp [*]
    rw [listedEach, List.mem_append, List.mem_append, Option.mem_toList, hentered,
      mem_listedEach root way shown l es hes]
    simp only [List.mem_cons, Prod.mk.injEq]
    constructor
    · rintro (hfirst | ⟨m, e, hmem, hm⟩)
      · exact ⟨n, child, .inl ⟨rfl, rfl⟩, hfirst⟩
      · exact ⟨m, e, .inr hmem, hm⟩
    · rintro ⟨m, e, ⟨rfl, rfl⟩ | hmem, hm⟩
      · exact .inl hm
      · exact .inr ⟨m, e, hmem, hm⟩

end

structure Bare (root : Entry) : Prop where
  proper : root.Proper
  links : ∀ way target, root.at? way ≠ some (.link target)
  ignoreFiles : ∀ way bytes mtime, root.at? (way ++ [Ignore.fileName]) ≠ some (.file bytes mtime)

theorem Plain.bare (h : root.Plain) (hproper : root.Proper) (hroot : root.isLink = false) :
    root.Bare := by
  refine ⟨hproper, h.at?_ne_link hroot, ?_⟩
  intro way bytes mtime hat
  rw [at?_append] at hat
  obtain ⟨e, hway, hat⟩ := Option.bind_eq_some_iff.mp hat
  obtain ⟨entries, child, rfl, hchild, -⟩ := at?_cons hat
  exact (h.entry hway (mem_of_assocGet? hchild)).2.1 rfl

theorem Bare.unlinked (h : root.Bare) : root.Unlinked := by
  refine ⟨h.links, ?_⟩
  intro way entries n e hat hmem
  have hproper : (Entry.dir entries).Proper := everyDir_at? h.proper hat
  exact (hproper.dir.2.1 n e hmem).2.2

theorem Bare.ignoreBases_eq_nil (h : root.Bare) (hat : root.at? way = some e) (shown : String) :
    root.ignoreBases way shown e = [] := by
  apply List.eq_nil_iff_forall_not_mem.mpr
  intro base hbase
  obtain ⟨ws, ⟨-, x, hx, hdir⟩, -⟩ :=
    (mem_ignoreBases root way shown base e (everyDir_at? h.proper hat)).mp hbase
  have hfile : root.at? (way ++ ws ++ [Ignore.fileName]) = some x := by
    rw [List.append_assoc, at?_append, hat]
    exact hx
  cases x with
  | dir entries => exact hdir rfl
  | file bytes mtime => exact h.ignoreFiles _ _ _ hfile
  | link target => exact h.links _ _ hfile

end Entry

namespace Files

variable {f : Files} {cwd raw path : String} {names : List String} {entries : List (String × Entry)}

theorem ignoreFiles_bare (h : f.root.Bare) : f.ignoreFiles cwd = .ok ([], []) := by
  have hbases : f.ignoreBases cwd = [] := by
    rw [ignoreBases]
    split
    · rename_i way e hfind
      exact h.ignoreBases_eq_nil (Entry.walk_at? hfind) cwd
    · rfl
  rw [ignoreFiles, hbases]
  rfl

/-- A path leads to a directory at or below another one. -/
structure DirAt (f : Files) (cwd raw : String) (names : List String)
    (entries : List (String × Entry)) : Prop where
  normal : Normal cwd
  written : '\x00' ∉ (tidy (Path.join cwd raw)).toList
  short : (tidy (Path.join cwd raw)).utf8ByteSize ≤ maxPathBytes
  find : f.find (tidy (Path.join cwd raw)) = .ok (parts cwd ++ names, .dir entries)

theorem DirAt.resolved (h : f.DirAt cwd raw names entries) (hfiles : f.root.Bare) :
    parts cwd ++ names = resolveDots true (parts (tidy (Path.join cwd raw))) ∧
      ∀ n ∈ parts cwd ++ names, n.utf8ByteSize ≤ maxNameBytes := by
  obtain ⟨hway, hsize⟩ := Entry.walk_resolved hfiles.links
    (fun n hn => (isName_of_mem_parts hn).1) (by simp) h.find
  exact ⟨hway, hsize (by simp)⟩

theorem DirAt.at? (h : f.DirAt cwd raw names entries) :
    f.root.at? (parts cwd ++ names) = some (.dir entries) :=
  Entry.walk_at? h.find

theorem DirAt.ordinary (h : f.DirAt cwd raw names entries) (hfiles : f.root.Bare) :
    ∀ n ∈ names, IsOrdinary n ∧ IsName n := by
  intro n hn
  exact hfiles.proper.names h.at? n (List.mem_append_right _ hn)

theorem DirAt.relative (h : f.DirAt cwd raw names entries) (hfiles : f.root.Bare) :
    relativeTo (tidy (Path.join cwd raw)) cwd =
      if names = [] then "." else Text.joinWith "/" names := by
  have habsolute : isAbsolute (Path.join cwd raw) = true := by
    rw [Path.join]
    split
    · assumption
    · have hhead := h.normal.absolute
      obtain ⟨cs, hcs⟩ := List.head?_eq_some_iff.mp (beq_iff_eq.mp hhead)
      split <;> simp [isAbsolute, hcs]
  exact relativeTo_of_resolved h.normal (isAbsolute_tidy habsolute) (h.resolved hfiles).1.symm

theorem DirAt.wantedBy (h : f.DirAt cwd raw names entries) (hfiles : f.root.Bare) :
    f.wantedBy cwd raw = .ok ⟨Glob.usualBelow names, []⟩ := by
  have htest : ∀ p : Entry → Bool, f.test p (tidy (Path.join cwd raw)) = .ok (p (.dir entries)) := by
    intro p
    rw [test, if_neg (by simpa using h.written), if_neg (Nat.not_lt.mpr h.short), h.find]
  have hstart : (if relativeTo (tidy (Path.join cwd raw)) cwd = "." then "" else
      Glob.escape (tidy (relativeTo (tidy (Path.join cwd raw)) cwd)) ++ "/") =
        if names = [] then "" else Glob.escape (Text.joinWith "/" names) ++ "/" := by
    rw [h.relative hfiles]
    by_cases hne : names = []
    · simp [hne]
    · have hdot : Text.joinWith "/" names ≠ "." := by
        intro he
        have hparts := parts_joinWith fun n hn => (h.ordinary hfiles n hn).2
        rw [he] at hparts
        exact (h.ordinary hfiles "." (by rw [← hparts]; decide +kernel)).1.2.1 rfl
      rw [if_neg hne, if_neg hdot, if_neg hne, tidy_joinWith (h.ordinary hfiles) hne]
  simp only [Files.wantedBy, isFile, isDir, htest, hstart]
  rfl

theorem Below.of_dirAt (h : f.DirAt cwd raw names entries) (hfiles : f.root.Bare) :
    Below cwd "" names := by
  have hempty : parts cwd ++ parts "" = parts cwd := List.append_nil _
  refine ⟨h.ordinary hfiles, ?_, rfl, hempty.symm ▸ (h.resolved hfiles).2⟩
  rw [hempty]
  exact fun n hn => (h.normal.eq_append.1 n hn).1

/-- The files below a directory with some end, past no hidden name. -/
structure Shown (f : Files) (cwd : String) (names : List String) (suffix : String)
    (below : List String) : Prop where
  file : ∃ bytes mtime, f.root.at? (parts cwd ++ names ++ below) = some (.file bytes mtime)
  shown : ∀ n ∈ below, ¬ Entry.Hidden n
  ends : ∃ n ∈ below.getLast?, suffix.toList <:+ n.toList

theorem mem_listBelow (h : f.DirAt cwd raw names entries) (hfiles : f.root.Bare) (l : Listed) :
    l ∈ f.listBelow cwd (names.foldl Path.join "") ↔
      ∃ ws, Entry.LeadsTo f.root (parts cwd ++ names) (names.foldl Path.join "") (.dir entries) ws l := by
  have hbelow : Below cwd "" (names ++ []) := by
    rw [List.append_nil]
    exact .of_dirAt h hfiles
  obtain ⟨hdir, hparts⟩ := hbelow.foldl
  have hway : parts cwd ++ parts (names.foldl Path.join "") = parts cwd ++ names :=
    hparts.trans (congrArg (· ++ names) (List.append_nil _))
  have hfind := hdir.find hfiles.unlinked (hway.symm ▸ h.at?)
  rw [listBelow, hfind, hway]
  exact Entry.mem_listedBelow _ _ _ _ _ (Entry.everyDir_at? hfiles.proper h.at?)

theorem DirAt.at?_below (h : f.DirAt cwd raw names entries) (below : List String) :
    f.root.at? (parts cwd ++ names ++ below) = (Entry.dir entries).at? below := by
  rw [Entry.at?_append, h.at?]
  rfl

theorem joinWith_below (h : f.DirAt cwd raw names entries) (hfiles : f.root.Bare)
    {below : List String} {e : Entry} (hat : (Entry.dir entries).at? below = some e) :
    below.foldl Path.join (names.foldl Path.join "") = Text.joinWith "/" (names ++ below) := by
  have hbelow : ∀ n ∈ names ++ below, IsName n := by
    intro n hn
    have hway := (h.at?_below below).trans hat
    rw [List.append_assoc] at hway
    exact (hfiles.proper.names hway n (List.mem_append_right _ hn)).2
  rw [← List.foldl_append, foldl_join hbelow]

theorem head?_textBelow (hnames : ∀ n ∈ names, IsName n) (suffix : List Char) :
    (Glob.textBelow names suffix).head? ≠ some '/' := by
  unfold Glob.textBelow
  split
  · simp [Glob.belowText]
  · rename_i hne
    rw [List.head?_append]
    cases hcs : (Glob.escaped (Text.joinWith "/" names).toList).head? with
    | some c =>
      have hescaped := head?_escaped_joinWith hnames
      rw [hcs] at hescaped
      simpa using hescaped
    | none =>
      have hlength := Glob.length_le_escaped (Text.joinWith "/" names).toList
      rw [List.head?_eq_none_iff.mp hcs, List.length_nil, Nat.le_zero, List.length_eq_zero_iff,
        String.toList_eq_nil_iff] at hlength
      have hparts := parts_joinWith hnames
      rw [hlength] at hparts
      exact absurd hparts.symm hne

theorem mem_searchPattern_below (h : f.DirAt cwd raw names entries) (hfiles : f.root.Bare)
    {suffix : String} (hslash : '/' ∉ suffix.toList) (hsuffix : suffix.toList ≠ []) :
    path ∈ f.searchPattern cwd (Glob.textBelow names suffix.toList) ↔
      ∃ below, f.Shown cwd names suffix below ∧ path = Text.joinWith "/" (names ++ below) := by
  have hnames : ∀ n ∈ names, IsName n := fun n hn => (h.ordinary hfiles n hn).2
  have hhead := head?_textBelow hnames suffix.toList
  have hat : f.root.at? (parts cwd ++ parts "" ++ names) = some (.dir entries) := by
    rw [show parts cwd ++ parts "" = parts cwd from List.append_nil _]
    exact h.at?
  have hfits : ∀ n : String, '/' ∉ n.toList →
      ((Glob.Segment.wild ('*' :: Glob.escaped suffix.toList)).fits n = true ↔
        ¬ Entry.Hidden n ∧ suffix.toList <:+ n.toList) :=
    fun n hn => Glob.fits_star hslash hsuffix hn
  rw [searchPattern, if_neg hhead, Glob.segments_below hnames hslash,
    mem_search_append hfiles.unlinked (.of_dirAt h hfiles) hat, search, List.mem_map]
  constructor
  · rintro ⟨l, hl, rfl⟩
    obtain ⟨hl, hcond⟩ := List.mem_filter.mp hl
    obtain ⟨hfile, hfit⟩ := Bool.and_eq_true_iff.mp hcond
    obtain ⟨ws, hentered, hpath, x, hx, hdir⟩ := (mem_listBelow h hfiles l).mp hl
    have hplace := (h.at?_below (ws ++ [l.name])).trans hx
    have hname := (hfiles.proper.names hplace l.name (by simp)).2.2
    obtain ⟨hshown, hends⟩ := (hfits l.name hname).mp hfit
    refine ⟨ws ++ [l.name], ⟨?_, ?_, l.name, by simp, hends⟩,
      hpath.trans (joinWith_below h hfiles hx)⟩
    · cases x with
      | file bytes mtime => exact ⟨bytes, mtime, hplace⟩
      | dir entries =>
        have hisDir : true = l.isDir := Option.some.inj hdir
        simp [← hisDir] at hfile
      | link target => exact absurd hplace (hfiles.links _ target)
    · simpa [or_imp, forall_and] using ⟨hentered, hshown⟩
  · rintro ⟨below, ⟨⟨bytes, mtime, hplace⟩, hshown, n, hn, hends⟩, rfl⟩
    obtain ⟨ws, rfl⟩ := List.getLast?_eq_some_iff.mp hn
    have hx := (h.at?_below (ws ++ [n])).symm.trans hplace
    have hname := (hfiles.proper.names hplace n (by simp)).2.2
    simp only [List.mem_append, or_imp, forall_and, List.mem_singleton, forall_eq] at hshown
    refine ⟨⟨n, Text.joinWith "/" (names ++ (ws ++ [n])), false⟩, List.mem_filter.mpr ⟨?_, ?_⟩, rfl⟩
    · exact (mem_listBelow h hfiles _).mpr
        ⟨ws, hshown.1, (joinWith_below h hfiles hx).symm, .file bytes mtime, hx, rfl⟩
    · simpa using (hfits n hname).mpr ⟨hshown.2, hends⟩

theorem DirAt.candidates (h : f.DirAt cwd raw names entries) (hfiles : f.root.Bare) :
    ∃ found, f.candidates cwd ⟨Glob.usualBelow names, []⟩ (some []) = .ok found ∧
      ∀ path, path ∈ found ↔ ∃ below, path = Path.join cwd (Text.joinWith "/" (names ++ below)) ∧
        ∃ e ∈ Glob.extensions, f.Shown cwd names e below := by
  obtain ⟨texts, htexts, hmem⟩ := Glob.expandBraces_usual names
  have hpatterns : f.foundByPatterns cwd (Glob.usualBelow names) [] =
      .ok ((texts.flatMap (f.searchPattern cwd)).map (absolute cwd)) := by
    have hnone : Glob.expandBraces [] = .ok [] := rfl
    have hgiven : (Glob.usualBelow names).isEmpty = false := rfl
    simp only [foundByPatterns, glob, hgiven, htexts, hnone]
    simp [bind, Except.bind, pure, Except.pure]
  have hcandidates : f.candidates cwd ⟨Glob.usualBelow names, []⟩ (some []) =
      .ok (((texts.flatMap (f.searchPattern cwd)).map (absolute cwd) ++ []).eraseDups.mergeSort
        (· ≤ ·)) := by
    simp only [Files.candidates, Option.getD_some]
    rw [if_neg (by simp [Glob.usualBelow, defaultIncluded]), hpatterns]
    rfl
  refine ⟨_, hcandidates, ?_⟩
  intro path
  have hends : ∀ e ∈ Glob.extensions, '/' ∉ e.toList ∧ e.toList ≠ [] := by decide
  have habsolute : ∀ {e below}, f.Shown cwd names e below → absolute cwd
      (Text.joinWith "/" (names ++ below)) = Path.join cwd (Text.joinWith "/" (names ++ below)) := by
    intro e below hshown
    obtain ⟨⟨bytes, mtime, hfile⟩, -, n, hn, -⟩ := hshown
    rw [List.append_assoc] at hfile
    refine absolute_join h.normal ?_ ?_
    · exact fun m hm => hfiles.proper.names hfile m (List.mem_append_right _ hm)
    · exact List.append_ne_nil_of_right_ne_nil _ (List.ne_nil_of_mem (List.mem_of_mem_getLast? hn))
  rw [List.mem_mergeSort, List.mem_eraseDups, List.append_nil, List.mem_map]
  simp only [List.mem_flatMap, hmem]
  constructor
  · rintro ⟨place, ⟨t, ⟨e, he, rfl⟩, hplace⟩, rfl⟩
    obtain ⟨below, hshown, rfl⟩ :=
      (mem_searchPattern_below h hfiles (hends e he).1 (hends e he).2).mp hplace
    exact ⟨below, habsolute hshown, e, he, hshown⟩
  · rintro ⟨below, rfl, e, he, hshown⟩
    refine ⟨_, ⟨_, ⟨e, he, rfl⟩, ?_⟩, habsolute hshown⟩
    exact (mem_searchPattern_below h hfiles (hends e he).1 (hends e he).2).mpr ⟨below, hshown, rfl⟩

end Files

def oddFiles : Files :=
  ⟨.dir [("T", .dir [("project", .dir [(".[a]\x7bb,c\x7d*?\\", .dir
    [(".y.ts", .file .empty 0), ("z", .dir [("w.mjs", .file .empty 0)])])])])]⟩

theorem oddFiles_bare : oddFiles.root.Bare :=
  Entry.Plain.bare (by decide) (by decide) rfl

theorem oddFiles_dirAt : oddFiles.DirAt "/T/project" ".[a]\x7bb,c\x7d*?\\" [".[a]\x7bb,c\x7d*?\\"]
    [(".y.ts", .file .empty 0), ("z", .dir [("w.mjs", .file .empty 0)])] := by
  have hparts : parts (tidy (Path.join "/T/project" ".[a]\x7bb,c\x7d*?\\")) =
      ["T", "project", ".[a]\x7bb,c\x7d*?\\"] := by
    decide +kernel
  have hcwd : parts "/T/project" = ["T", "project"] := by decide +kernel
  refine ⟨Files.normal_project, by decide +kernel, by decide +kernel, ?_⟩
  rw [Files.find, hparts, hcwd, Entry.walk_unlinked oddFiles_bare.links (by decide)]
  exact ⟨rfl, rfl, by decide +kernel⟩

def oddScanner : Scanner where
  cwd := "/T/project"
  config := { excluded := some [] }
  paths := [".[a]\x7bb,c\x7d*?\\"]

end EdgeAudit
