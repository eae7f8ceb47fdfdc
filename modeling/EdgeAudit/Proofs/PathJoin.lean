import EdgeAudit.Proofs.PathParts

namespace EdgeAudit

open Text

theorem splitOn_ne_nil (sep : Char) (cs : List Char) : splitOn sep cs ≠ [] := by
  cases cs with
  | nil => simp [splitOn]
  | cons c cs =>
    rw [splitOn]
    split
    · simp
    · split <;> simp

theorem splitOn_append_sep (sep : Char) (a b : List Char) :
    splitOn sep (a ++ sep :: b) = splitOn sep a ++ splitOn sep b := by
  induction a with
  | nil => simp [splitOn]
  | cons c a ih =>
    rw [List.cons_append, splitOn, splitOn, ih]
    by_cases hc : c = sep
    · simp [hc]
    · cases hsplit : splitOn sep a with
      | nil => exact absurd hsplit (splitOn_ne_nil sep a)
      | cons l ls => simp [hc]

namespace Path

variable {dir path r x : String} {names : List String}

instance (n : String) : Decidable (IsName n) :=
  inferInstanceAs (Decidable (_ ∧ _))

theorem parts_slash (a b : String) : parts (a ++ "/" ++ b) = parts a ++ parts b := by
  have htext : (a ++ "/" ++ b).toList = a.toList ++ '/' :: b.toList := by simp
  rw [parts, htext, splitOn_append_sep, List.filter_append, List.map_append]
  rfl

theorem parts_join (h : isAbsolute path = false) : parts (join dir path) = parts dir ++ parts path := by
  unfold join
  rw [h]
  by_cases hdir : dir = "" ∨ dir.toList.getLast? = some '/'
  · rw [if_neg (by simp), if_pos hdir]
    rcases hdir with rfl | hlast
    · rw [String.empty_append]
      rfl
    · obtain ⟨before, hbefore⟩ := List.getLast?_eq_some_iff.mp hlast
      have hd : dir = String.ofList before ++ "/" := by
        rw [← String.toList_inj, hbefore]
        simp
      have hparts : parts dir = parts (String.ofList before) := by
        have hslash := parts_slash (String.ofList before) ""
        rw [String.append_empty, ← hd] at hslash
        rw [hslash]
        exact List.append_nil _
      rw [hparts, hd, parts_slash]
  · rw [if_neg (by simp), if_neg hdir, parts_slash]

theorem parts_joinWith (h : ∀ n ∈ names, IsName n) : parts (joinWith "/" names) = names := by
  have hparts := parts_slash "" (joinWith "/" names)
  rw [String.empty_append] at hparts
  have hnames := parts_ofParts h
  rw [ofParts, hparts] at hnames
  exact hnames

theorem joinWith_append {as bs : List String} (ha : as ≠ []) (hb : bs ≠ []) :
    joinWith "/" (as ++ bs) = joinWith "/" as ++ "/" ++ joinWith "/" bs := by
  induction as with
  | nil => exact absurd rfl ha
  | cons a as ih =>
    cases as with
    | nil =>
      obtain ⟨b, bs, rfl⟩ := List.exists_cons_of_ne_nil hb
      simp [joinWith, String.intercalate_cons_cons]
    | cons a' as =>
      have hrest := ih (by simp)
      simp only [joinWith, List.cons_append, String.intercalate_cons_cons] at hrest ⊢
      rw [hrest]
      simp [String.append_assoc]

theorem nil_not_mem_splitOn_joinWith (h : ∀ n ∈ names, IsName n) (hne : names ≠ []) :
    [] ∉ splitOn '/' (joinWith "/" names).toList := by
  rw [splitOn_joinWith h hne]
  intro hnil
  obtain ⟨n, hn, he⟩ := List.mem_map.mp hnil
  exact (h n hn).1 (by simpa using he)

theorem isAbsolute_joinWith (h : ∀ n ∈ names, IsName n) : isAbsolute (joinWith "/" names) = false := by
  by_cases hne : names = []
  · rw [hne]
    rfl
  · rw [← Bool.not_eq_true]
    intro habsolute
    obtain ⟨cs, hcs⟩ := List.head?_eq_some_iff.mp (beq_iff_eq.mp habsolute)
    apply nil_not_mem_splitOn_joinWith h hne
    rw [hcs]
    simp [splitOn]

theorem getLast?_joinWith (h : ∀ n ∈ names, IsName n) :
    (joinWith "/" names).toList.getLast? ≠ some '/' := by
  by_cases hne : names = []
  · simp [hne, joinWith]
  · intro hlast
    obtain ⟨cs, hcs⟩ := List.getLast?_eq_some_iff.mp hlast
    apply nil_not_mem_splitOn_joinWith h hne
    rw [hcs, splitOn_append_sep]
    simp [splitOn]

theorem IsName.isAbsolute {n : String} (h : IsName n) : Path.isAbsolute n = false := by
  simpa [joinWith] using @isAbsolute_joinWith [n] (by simpa using h)

theorem IsName.parts {n : String} (h : IsName n) : Path.parts n = [n] := by
  simpa [joinWith] using @parts_joinWith [n] (by simpa using h)

theorem isAbsolute_join (hdir : isAbsolute dir = false) (hpath : isAbsolute path = false) :
    isAbsolute (join dir path) = false := by
  rw [join, hpath, if_neg (by simp)]
  cases hcs : dir.toList with
  | nil =>
    rw [String.toList_eq_nil_iff.mp hcs]
    simpa using hpath
  | cons c cs =>
    have hc : c ≠ '/' := by simpa [isAbsolute, hcs] using hdir
    split <;> simp [isAbsolute, hcs, hc]

theorem foldl_join (h : ∀ n ∈ names, IsName n) : names.foldl join "" = joinWith "/" names := by
  induction names using List.reverseRecOn with
  | nil => rfl
  | append_singleton names n ih =>
    have hn := h n (by simp)
    have hnames : ∀ m ∈ names, IsName m := fun m hm => h m (by simp [hm])
    have hrelative := hn.isAbsolute
    rw [List.foldl_append, ih hnames, List.foldl_cons, List.foldl_nil]
    by_cases hne : names = []
    · simp [hne, joinWith, join, hrelative]
    · have hfull : joinWith "/" names ≠ "" := by
        intro he
        have hparts := parts_joinWith hnames
        rw [he] at hparts
        exact hne hparts.symm
      rw [joinWith_append hne (by simp), join, hrelative, if_neg (by simp),
        if_neg (by simp [hfull, getLast?_joinWith hnames])]
      simp [joinWith]

section Roots

theorem root_cases (h : isAbsolute path = true) : root path = "/" ∨ root path = "//" := by
  obtain ⟨cs, hcs⟩ := List.head?_eq_some_iff.mp (beq_iff_eq.mp h)
  unfold root
  split
  · exact .inl rfl
  · exact .inr rfl
  · exact .inl rfl
  · rename_i hnone
    exact absurd hcs (hnone cs)

variable (hr : r = "/" ∨ r = "//")

include hr

theorem root_append (hx : isAbsolute x = false) : root (r ++ x) = r := by
  have hhead : x.toList.head? ≠ some '/' := by simpa [isAbsolute] using hx
  rcases hr with rfl | rfl
  all_goals
    simp only [root, String.toList_append]
    cases hcs : x.toList with
    | nil => simp
    | cons c cs =>
      have hc : c ≠ '/' := by simpa [hcs] using hhead
      simp [hc]

theorem parts_append_root (x : String) : parts (r ++ x) = parts x := by
  have hslash := parts_slash "" x
  rw [String.empty_append] at hslash
  rcases hr with rfl | rfl
  · exact hslash
  · have hslashes := parts_slash "/" x
    rw [show "/" ++ "/" ++ x = "//" ++ x from rfl] at hslashes
    rw [hslashes]
    rfl

end Roots

theorem resolveDots_self (h : ∀ n ∈ names, IsOrdinary n) (absolute : Bool) :
    resolveDots absolute names = names := by
  have hfold : ∀ before, names.foldl (pushPart absolute) before = names.reverse ++ before := by
    induction names with
    | nil => simp
    | cons n names ih =>
      intro before
      obtain ⟨hempty, hdot, hup⟩ := h n (by simp)
      rw [List.foldl_cons, ih fun m hm => h m (List.mem_cons_of_mem n hm)]
      simp [pushPart, hempty, hdot, hup]
  rw [resolveDots, hfold, List.append_nil, List.reverse_reverse]

structure Normal (path : String) : Prop where
  absolute : isAbsolute path = true
  normal : normalize path = path

theorem normal_append (hr : r = "/" ∨ r = "//") (h : ∀ n ∈ names, IsOrdinary n ∧ IsName n) :
    Normal (r ++ joinWith "/" names) ∧ root (r ++ joinWith "/" names) = r ∧
      parts (r ++ joinWith "/" names) = names := by
  have hnames : ∀ n ∈ names, IsName n := fun n hn => (h n hn).2
  have hroot := root_append hr (isAbsolute_joinWith hnames)
  have hparts : parts (r ++ joinWith "/" names) = names := by
    rw [parts_append_root hr, parts_joinWith hnames]
  refine ⟨⟨?_, ?_⟩, hroot, hparts⟩
  · rcases hr with rfl | rfl <;> simp [isAbsolute]
  · have hfull : r ++ joinWith "/" names ≠ "" := by
      rcases hr with rfl | rfl <;> simp [← String.toList_inj]
    simp only [normalize, hroot, hparts, resolveDots_self fun n hn => (h n hn).1, if_neg hfull]

theorem normalize_eq_append (h : isAbsolute path = true) :
    (∀ n ∈ resolveDots true (parts path), IsOrdinary n ∧ IsName n) ∧
      normalize path = root path ++ joinWith "/" (resolveDots true (parts path)) := by
  refine ⟨resolveDots_ordinary fun n hn => (isName_of_mem_parts hn).2, ?_⟩
  have hfull : root path ++ joinWith "/" (resolveDots true (parts path)) ≠ "" := by
    rcases root_cases h with hr | hr <;> simp [hr, ← String.toList_inj]
  simp only [normalize, h, if_neg hfull]

theorem normal_normalize (h : isAbsolute path = true) : Normal (normalize path) := by
  obtain ⟨hnames, hpath⟩ := normalize_eq_append h
  rw [hpath]
  exact (normal_append (root_cases h) hnames).1

theorem Normal.eq_append (h : Normal path) :
    (∀ n ∈ parts path, IsOrdinary n ∧ IsName n) ∧ path = root path ++ joinWith "/" (parts path) := by
  obtain ⟨hbase, hpath⟩ := normalize_eq_append h.absolute
  rw [h.normal] at hpath
  have hparts : parts path = resolveDots true (parts path) := by
    have hthird := (normal_append (root_cases h.absolute) hbase).2.2
    rw [← hpath] at hthird
    exact hthird
  rw [← hparts] at hbase hpath
  exact ⟨hbase, hpath⟩

theorem relativeTo_of_parts (hdir : Normal dir) (hpath : Normal path)
    (hparts : parts path = parts dir ++ names) :
    relativeTo path dir = if names = [] then "." else joinWith "/" names := by
  have hcommon : ∀ base : List String, dropCommon base (base ++ names) = ([], names) := by
    intro base
    induction base with
    | nil => cases names <;> rfl
    | cons b base ih => simp [dropCommon, ih]
  have hself : absolute dir path = path := by
    rw [absolute, join, if_pos hpath.absolute, hpath.normal]
  simp [relativeTo, hdir.normal, hself, hparts, stepsBetween, hcommon]

section Below

variable (hdir : Normal dir) (hnames : ∀ n ∈ names, IsOrdinary n ∧ IsName n)

include hdir hnames

theorem join_eq_append (hne : names ≠ []) :
    join dir (joinWith "/" names) = root dir ++ joinWith "/" (parts dir ++ names) := by
  obtain ⟨hparts, hroot⟩ := hdir.eq_append
  have hrelative : isAbsolute (joinWith "/" names) = false :=
    isAbsolute_joinWith fun n hn => (hnames n hn).2
  by_cases hnil : parts dir = []
  · have hslash : dir.toList.getLast? = some '/' := by
      rw [hroot, hnil]
      rcases root_cases hdir.absolute with hr | hr <;> simp [hr, joinWith]
    rw [join, hrelative, if_neg (by simp), if_pos (.inr hslash), hnil, List.nil_append]
    nth_rewrite 1 [hroot]
    simp [hnil, joinWith]
  · have hplain : ¬ (dir = "" ∨ dir.toList.getLast? = some '/') := by
      have hjoined := getLast?_joinWith fun n hn => (hparts n hn).2
      have hfull : (joinWith "/" (parts dir)).toList ≠ [] := by
        intro he
        have hback := parts_joinWith fun n hn => (hparts n hn).2
        rw [String.toList_eq_nil_iff.mp he] at hback
        exact hnil hback.symm
      rintro (he | hlast)
      · rw [he] at hnil
        exact hnil rfl
      · rw [hroot, String.toList_append, List.getLast?_append_of_ne_nil _ hfull] at hlast
        exact hjoined hlast
    rw [join, hrelative, if_neg (by simp), if_neg hplain, joinWith_append hnil hne]
    nth_rewrite 1 [hroot]
    simp [String.append_assoc]

theorem ordinary_append : ∀ n ∈ parts dir ++ names, IsOrdinary n ∧ IsName n := by
  intro n hn
  rcases List.mem_append.mp hn with hn | hn
  · exact hdir.eq_append.1 n hn
  · exact hnames n hn

theorem normal_join (hne : names ≠ []) : Normal (join dir (joinWith "/" names)) ∧
    root (join dir (joinWith "/" names)) = root dir ∧
      parts (join dir (joinWith "/" names)) = parts dir ++ names := by
  rw [join_eq_append hdir hnames hne]
  exact normal_append (root_cases hdir.absolute) (ordinary_append hdir hnames)

theorem absolute_join (hne : names ≠ []) :
    absolute dir (joinWith "/" names) = join dir (joinWith "/" names) :=
  (normal_join hdir hnames hne).1.normal

theorem relativeTo_join (hne : names ≠ []) :
    relativeTo (join dir (joinWith "/" names)) dir = joinWith "/" names := by
  obtain ⟨hplace, -, hparts⟩ := normal_join hdir hnames hne
  rw [relativeTo_of_parts hdir hplace hparts, if_neg hne]

theorem normal_foldl_join : Normal (names.foldl join dir) ∧ root (names.foldl join dir) = root dir ∧
    parts (names.foldl join dir) = parts dir ++ names := by
  induction names generalizing dir with
  | nil => exact ⟨hdir, rfl, (List.append_nil _).symm⟩
  | cons n names ih =>
    have hn : ∀ m ∈ [n], IsOrdinary m ∧ IsName m := by simpa using hnames n (by simp)
    obtain ⟨hnext, hroot, hparts⟩ := normal_join hdir hn (by simp)
    rw [show joinWith "/" [n] = n by simp [joinWith]] at hnext hroot hparts
    obtain ⟨hnormal, hroot', hparts'⟩ := ih hnext fun m hm => hnames m (List.mem_cons_of_mem n hm)
    rw [List.foldl_cons, hroot', hparts', hroot, hparts, List.append_assoc]
    exact ⟨hnormal, rfl, rfl⟩

end Below

end Path

end EdgeAudit
