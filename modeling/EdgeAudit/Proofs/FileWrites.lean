import EdgeAudit.Files.Edit
import EdgeAudit.Proofs.FileOutcome

namespace EdgeAudit

theorem assocGet?_assocSet_self {ν : Type} (key : String) (value : ν) (pairs : List (String × ν)) :
    assocGet? (· == ·) key (assocSet (· == ·) key value pairs) = some value := by
  induction pairs with
  | nil => simp [assocSet, assocGet?]
  | cons pair pairs ih =>
    by_cases h : pair.1 = key
    · simp [assocSet, assocGet?, h]
    · simpa [assocSet, assocGet?, h] using ih

theorem assocGet?_assocSet_ne {ν : Type} {key other : String} (h : other ≠ key) (value : ν)
    (pairs : List (String × ν)) :
    assocGet? (· == ·) other (assocSet (· == ·) key value pairs) =
      assocGet? (· == ·) other pairs := by
  induction pairs with
  | nil => simp [assocSet, assocGet?, Ne.symm h]
  | cons pair pairs ih =>
    by_cases hk : pair.1 = key
    · have ho : pair.1 ≠ other := fun he => h (he ▸ hk)
      simp [assocSet, assocGet?, hk, Ne.symm h]
    · by_cases ho : pair.1 = other
      · simp [assocSet, assocGet?, h, ho]
      · simpa [assocSet, assocGet?, hk, ho] using ih

theorem assocSet_fresh {ν : Type} {key : String} {value : ν} {pairs : List (String × ν)}
    (h : assocGet? (· == ·) key pairs = none) :
    assocSet (· == ·) key value pairs = pairs ++ [(key, value)] := by
  induction pairs with
  | nil => rfl
  | cons pair pairs ih =>
    by_cases hk : pair.1 = key
    · simp [assocGet?, hk] at h
    · simp only [assocGet?, List.find?_cons, beq_eq_false_iff_ne.mpr hk] at h
      simp [assocSet, hk, ih h]

theorem map_fst_assocSet {ν : Type} {key : String} {value old : ν} {pairs : List (String × ν)}
    (h : assocGet? (· == ·) key pairs = some old) :
    (assocSet (· == ·) key value pairs).map (·.1) = pairs.map (·.1) := by
  induction pairs with
  | nil => cases h
  | cons pair pairs ih =>
    by_cases hk : pair.1 = key
    · simp [assocSet, hk]
    · simp only [assocGet?, List.find?_cons, beq_eq_false_iff_ne.mpr hk] at h
      simp [assocSet, hk, ih h]

theorem assocGet?_eq_none_iff {ν : Type} {key : String} {pairs : List (String × ν)} :
    assocGet? (· == ·) key pairs = none ↔ key ∉ pairs.map (·.1) := by
  simp only [assocGet?, Option.map_eq_none_iff, List.find?_eq_none, beq_iff_eq, List.mem_map]
  constructor
  · rintro h ⟨pair, hpair, hkey⟩
    exact h pair hpair hkey
  · intro h pair hpair hkey
    exact h ⟨pair, hpair, hkey⟩

theorem nodup_assocSet {ν : Type} {key : String} {value : ν} {pairs : List (String × ν)}
    (h : (pairs.map (·.1)).Nodup) : ((assocSet (· == ·) key value pairs).map (·.1)).Nodup := by
  cases hget : assocGet? (· == ·) key pairs with
  | some old =>
    rw [map_fst_assocSet hget]
    exact h
  | none =>
    rw [assocSet_fresh hget, List.map_append, List.nodup_append]
    refine ⟨h, by simp, ?_⟩
    intro a ha b hb hab
    rw [hab, List.mem_singleton.mp hb] at ha
    exact assocGet?_eq_none_iff.mp hget ha

namespace Entry

theorem at?_snoc (root : Entry) (way : List String) (name : String) :
    root.at? (way ++ [name]) = (root.at? way).bind (·.child? name) := by
  induction way generalizing root with
  | nil => cases h : root.child? name <;> simp [at?, h]
  | cons n way ih => cases h : root.child? n <;> simp [at?, h, ih]

theorem at?_entry {root : Entry} {way : List String} {entries : List (String × Entry)}
    (h : root.at? way = some (.dir entries)) (name : String) :
    assocGet? (· == ·) name entries = root.at? (way ++ [name]) := by
  rw [at?_snoc, h]
  rfl

theorem walk_at? {root : Entry} {follow : Bool} {links : Nat} {here rest way : List String}
    {e : Entry} (h : root.walk follow links here rest = .ok (way, e)) : root.at? way = some e := by
  fun_induction Entry.walk root follow links here rest <;> simp_all
  obtain ⟨rfl, rfl⟩ := h
  rw [← at?_entry ‹_›]
  assumption

inductive Alike : Option Entry → Option Entry → Prop
  | none : Alike none none
  | file {bytes bytes' : ByteArray} {mtime mtime' : Int} :
      Alike (some (.file bytes mtime)) (some (.file bytes' mtime'))
  | link {target : String} : Alike (some (.link target)) (some (.link target))
  | dir {entries entries' : List (String × Entry)} :
      Alike (some (.dir entries)) (some (.dir entries'))

theorem Alike.refl (e : Option Entry) : Alike e e := by
  rcases e with _ | (_ | _ | _) <;> constructor

/-- Two trees that differ only in what their files hold. -/
def SameShape (root root' : Entry) : Prop :=
  ∀ way, Alike (root.at? way) (root'.at? way)

namespace SameShape

variable {root root' : Entry} {way : List String} {name : String}
  {entries entries' : List (String × Entry)}

theorem dir (hs : SameShape root root') (h : root.at? way = some (.dir entries)) :
    ∃ entries', root'.at? way = some (.dir entries') := by
  have ha := hs way
  rw [h] at ha
  generalize root'.at? way = e at ha
  cases ha
  exact ⟨_, rfl⟩

theorem entry (hs : SameShape root root') (h : root.at? way = some (.dir entries))
    (h' : root'.at? way = some (.dir entries')) (name : String) :
    Alike (assocGet? (· == ·) name entries) (assocGet? (· == ·) name entries') := by
  rw [at?_entry h, at?_entry h']
  exact hs _

theorem entry_none (hs : SameShape root root') (h : root.at? way = some (.dir entries))
    (h' : root'.at? way = some (.dir entries')) (hn : assocGet? (· == ·) name entries = none) :
    assocGet? (· == ·) name entries' = none := by
  have ha := hs.entry h h' name
  rw [hn] at ha
  generalize assocGet? (· == ·) name entries' = e at ha
  cases ha
  rfl

theorem entry_link (hs : SameShape root root') (h : root.at? way = some (.dir entries))
    (h' : root'.at? way = some (.dir entries')) {target : String}
    (hl : assocGet? (· == ·) name entries = some (.link target)) :
    assocGet? (· == ·) name entries' = some (.link target) := by
  have ha := hs.entry h h' name
  rw [hl] at ha
  generalize assocGet? (· == ·) name entries' = e at ha
  cases ha
  rfl

theorem entry_other (hs : SameShape root root') (h : root.at? way = some (.dir entries))
    (h' : root'.at? way = some (.dir entries')) {e : Entry} (hne : ∀ target, e ≠ .link target)
    (he : assocGet? (· == ·) name entries = some e) :
    ∃ e', (∀ target, e' ≠ .link target) ∧ assocGet? (· == ·) name entries' = some e' := by
  have ha := hs.entry h h' name
  rw [he] at ha
  generalize assocGet? (· == ·) name entries' = o at ha
  cases ha with
  | file => exact ⟨_, by simp, rfl⟩
  | link => exact absurd rfl (hne _)
  | dir => exact ⟨_, by simp, rfl⟩

theorem walk (hs : SameShape root root') (follow : Bool) (links : Nat) (here rest : List String) :
    (root.walk follow links here rest).map (·.1) =
      (root'.walk follow links here rest).map (·.1) := by
  -- along the walk through the first tree: both trees take the same branch at every name
  induction links, here, rest using Entry.walk.induct root follow with
  | case1 links here e h =>
    have ha := hs here
    rw [h] at ha
    generalize h' : root'.at? here = o at ha
    cases ha <;> simp [Entry.walk, h, h', Except.map]
  | case2 links here h =>
    have ha := hs here
    rw [h] at ha
    generalize h' : root'.at? here = o at ha
    cases ha
    simp [Entry.walk, h, h']
  | case3 links here rest entries h ih =>
    obtain ⟨entries', h'⟩ := hs.dir h
    rw [Entry.walk, Entry.walk]
    simpa [h, h'] using ih
  | case4 links here rest entries h hn ih =>
    obtain ⟨entries', h'⟩ := hs.dir h
    rw [Entry.walk, Entry.walk]
    simpa [h, h'] using ih
  | case5 links here name rest entries h h1 h2 hlong =>
    obtain ⟨entries', h'⟩ := hs.dir h
    simp [Entry.walk, h, h', h1, h2, hlong]
  | case6 links here name rest entries h h1 h2 hlong hget =>
    obtain ⟨entries', h'⟩ := hs.dir h
    simp [Entry.walk, h, h', h1, h2, hlong, hget, hs.entry_none h h' hget]
  | case7 links here name rest entries h h1 h2 hlong target hget hlast =>
    obtain ⟨entries', h'⟩ := hs.dir h
    rw [Entry.walk, Entry.walk]
    simp [h, h', h1, h2, hlong, hget, hs.entry_link h h' hget, hlast]
  | case8 here name rest entries h h1 h2 hlong target hget hlast =>
    obtain ⟨entries', h'⟩ := hs.dir h
    rw [Entry.walk, Entry.walk]
    simp [h, h', h1, h2, hlong, hget, hs.entry_link h h' hget, hlast]
  | case9 here name rest entries h h1 h2 hlong hlast n hget =>
    obtain ⟨entries', h'⟩ := hs.dir h
    rw [Entry.walk, Entry.walk]
    simp [h, h', h1, h2, hlong, hget, hs.entry_link h h' hget, hlast]
  | case10 here name rest entries h h1 h2 hlong target hget hlast n htarget ih =>
    obtain ⟨entries', h'⟩ := hs.dir h
    rw [Entry.walk, Entry.walk]
    simpa [h, h', h1, h2, hlong, hget, hs.entry_link h h' hget, hlast, htarget] using ih
  | case11 links here name rest entries h h1 h2 hlong e hne hget ih =>
    obtain ⟨entries', h'⟩ := hs.dir h
    obtain ⟨e', hne', hget'⟩ := hs.entry_other h h' (fun t ht => hne t ht) hget
    rw [Entry.walk, Entry.walk]
    simpa [h, h', h1, h2, hlong, hget, hget'] using ih
  | case12 links here name rest e hne h =>
    have ha := hs here
    rw [h] at ha
    generalize h' : root'.at? here = o at ha
    cases ha with
    | file => simp [Entry.walk, h, h']
    | link => simp [Entry.walk, h, h']
    | dir => exact absurd rfl (hne _)
  | case13 links here name rest h =>
    have ha := hs here
    rw [h] at ha
    generalize h' : root'.at? here = o at ha
    cases ha
    simp [Entry.walk, h, h']

theorem link_iff (hs : SameShape root root') (target : String) :
    root.at? way = some (.link target) ↔ root'.at? way = some (.link target) := by
  have ha := hs way
  generalize root.at? way = e, root'.at? way = e' at ha
  cases ha <;> simp

theorem realWay (hs : SameShape root root') (links : Nat)
    (seen : List (List String × Option (List String))) (here : List String) (todo : List WayStep) :
    root.realWay links seen here todo = root'.realWay links seen here todo := by
  induction links, seen, here, todo using Entry.realWay.induct root with
  | case1 links seen here => simp [Entry.realWay]
  | case2 links seen here start todo ih =>
    rw [Entry.realWay, Entry.realWay]
    exact ih
  | case3 links seen here n todo hn ih =>
    rw [Entry.realWay, Entry.realWay]
    simpa only [hn, ↓reduceIte] using ih
  | case4 links seen here todo hn ih =>
    rw [Entry.realWay, Entry.realWay]
    simpa only [hn, ↓reduceIte] using ih
  | case5 links seen here n todo hn hd new target hl start place hf ih =>
    have hf' : (seen.find? fun s => s.1 == here ++ [n]) = some (start, some place) := hf
    rw [Entry.realWay, Entry.realWay]
    simp only [hn, hd, ↓reduceIte]
    rw [hl, (hs.link_iff target).mp hl]
    simpa only [hf'] using ih
  | case6 links seen here n todo hn hd new target hl start hf =>
    have hf' : (seen.find? fun s => s.1 == here ++ [n]) = some (start, none) := hf
    rw [Entry.realWay, Entry.realWay]
    simp only [hn, hd, ↓reduceIte]
    rw [hl, (hs.link_iff target).mp hl]
    simp only [hf']
  | case7 seen here n todo hn hd new target hl hf =>
    have hf' : (seen.find? fun s => s.1 == here ++ [n]) = none := hf
    rw [Entry.realWay, Entry.realWay]
    simp only [hn, hd, ↓reduceIte]
    rw [hl, (hs.link_iff target).mp hl]
    simp only [hf']
  | case8 seen here n todo hn hd new target hl hf k ih =>
    have hf' : (seen.find? fun s => s.1 == here ++ [n]) = none := hf
    rw [Entry.realWay, Entry.realWay]
    simp only [hn, hd, ↓reduceIte]
    rw [hl, (hs.link_iff target).mp hl]
    simpa only [hf', dite_eq_ite] using ih
  | case9 links seen here n todo hn hd new hne ih =>
    rw [Entry.realWay, Entry.realWay]
    simp only [hn, hd, ↓reduceIte]
    have ha := hs (here ++ [n])
    generalize h : root.at? (here ++ [n]) = e, root'.at? (here ++ [n]) = e' at ha
    cases ha with
    | link => exact (hne _ h).elim
    | none => exact ih
    | file => exact ih
    | dir => exact ih

end SameShape

section Put

variable {e : Entry} {way other : List String} {bytes bytes' : ByteArray} {mtime mtime' : Int}

theorem at?_put_self (e new : Entry) (way : List String) : (e.put new way).at? way = some new := by
  induction way generalizing e with
  | nil => rfl
  | cons name way ih => simp [put, at?, child?, assocGet?_assocSet_self, ih]

theorem at?_put_cons_ne {name other : String} (h : other ≠ name) (e new : Entry)
    {entries : List (String × Entry)} (he : e = .dir entries) (way rest : List String) :
    (e.put new (name :: way)).at? (other :: rest) = e.at? (other :: rest) := by
  subst he
  simp [put, at?, child?, Entry.entries, assocGet?_assocSet_ne h]

theorem at?_cons {name : String} {x : Entry} (h : e.at? (name :: way) = some x) :
    ∃ entries child, e = .dir entries ∧ e.child? name = some child ∧ child.at? way = some x := by
  cases e with
  | file => simp [at?, child?] at h
  | link => simp [at?, child?] at h
  | dir entries =>
    cases hc : (Entry.dir entries).child? name with
    | none => simp [at?, hc] at h
    | some child =>
      simp only [at?, hc] at h
      exact ⟨entries, child, rfl, rfl, h⟩

theorem at?_put_cons {name : String} {child : Entry} (h : e.child? name = some child)
    (new : Entry) (way rest : List String) :
    (e.put new (name :: way)).at? (name :: rest) = (child.put new way).at? rest := by
  rw [put, h]
  simp [at?, child?, assocGet?_assocSet_self]

theorem put_sameShape (h : e.at? way = some (.file bytes mtime)) :
    SameShape e (e.put (.file bytes' mtime') way) := by
  induction way generalizing e with
  | nil =>
    simp only [at?, Option.some.injEq] at h
    subst h
    intro other
    cases other with
    | nil => exact .file
    | cons name rest => exact .none
  | cons name way ih =>
    obtain ⟨entries, child, he, hc, hx⟩ := at?_cons h
    intro other
    cases other with
    | nil =>
      subst he
      exact .dir
    | cons n rest =>
      by_cases hn : n = name
      · subst hn
        rw [at?_put_cons hc]
        simpa [at?, hc] using ih hx rest
      · rw [at?_put_cons_ne hn e _ he]
        exact .refl _

theorem at?_put_other (h : e.at? way = some (.file bytes mtime)) {x : ByteArray} {t : Int}
    (hne : other ≠ way) (ho : e.at? other = some (.file x t)) (new : Entry) :
    (e.put new way).at? other = some (.file x t) := by
  induction way generalizing e other with
  | nil =>
    simp only [at?, Option.some.injEq] at h
    subst h
    cases other with
    | nil => exact absurd rfl hne
    | cons name rest => simp [at?, child?] at ho
  | cons name way ih =>
    obtain ⟨entries, child, he, hc, hx⟩ := at?_cons h
    cases other with
    | nil =>
      subst he
      simp [at?] at ho
    | cons n rest =>
      by_cases hn : n = name
      · subst hn
        rw [at?_put_cons hc]
        exact ih hx (fun hr => hne (by rw [hr])) (by simpa [at?, hc] using ho)
      · rw [at?_put_cons_ne hn e _ he]
        exact ho

theorem linkCounts_assocSet {entries : List (String × Entry)} {name : String} {child new : Entry}
    (h : assocGet? (· == ·) name entries = some child) (hc : new.linkCount = child.linkCount) :
    linkCounts (assocSet (· == ·) name new entries) = linkCounts entries := by
  induction entries with
  | nil => simp [assocGet?] at h
  | cons pair entries ih =>
    obtain ⟨n, x⟩ := pair
    by_cases hn : n = name
    · have hx : x = child := by simpa [assocGet?, hn] using h
      simp [assocSet, hn, linkCounts, hc, hx]
    · have hrest : assocGet? (· == ·) name entries = some child := by
        simpa [assocGet?, hn] using h
      simp [assocSet, hn, linkCounts, ih hrest]

theorem linkCount_put (h : e.at? way = some (.file bytes mtime)) :
    (e.put (.file bytes' mtime') way).linkCount = e.linkCount := by
  induction way generalizing e with
  | nil =>
    simp only [at?, Option.some.injEq] at h
    subst h
    simp [put, linkCount]
  | cons name way ih =>
    obtain ⟨entries, child, rfl, hc, hx⟩ := at?_cons h
    simp only [put, hc, Option.getD_some, Entry.entries, linkCount]
    exact linkCounts_assocSet hc (ih hx)

end Put

end Entry

namespace Files

variable {f g : Files} {cwd path : String} {bytes : ByteArray} {mtime : Int}

def Rewritten (f g : Files) : Prop :=
  ∃ path way old since bytes mtime, f.find path = .ok (way, .file old since) ∧ since < mtime ∧
    g = f.write path bytes mtime

def version? (f : Files) (cwd path : String) : Option (ByteArray × Int) :=
  match f.validatePath path cwd with
  | .error _ => none
  | .ok place =>
    match f.find place with
    | .ok (_, .file bytes mtime) => some (bytes, mtime)
    | _ => none

theorem Rewritten.root (h : f.Rewritten g) : ∃ way old since bytes mtime,
    f.root.at? way = some (.file old since) ∧ since < mtime ∧
      g.root = f.root.put (.file bytes mtime) way := by
  obtain ⟨path, way, old, since, bytes, mtime, hf, ht, rfl⟩ := h
  refine ⟨way, old, since, bytes, mtime, Entry.walk_at? hf, ht, ?_⟩
  simp [write, place, hf]

theorem Rewritten.sameShape (h : f.Rewritten g) : Entry.SameShape f.root g.root := by
  obtain ⟨way, old, since, bytes, mtime, ho, -, hg⟩ := h.root
  rw [hg]
  exact Entry.put_sameShape ho

theorem Rewritten.realParts (h : f.Rewritten g) (path : String) :
    g.realParts path = f.realParts path := by
  obtain ⟨way, old, since, bytes, mtime, ho, -, hg⟩ := h.root
  have hc : g.root.linkCount = f.root.linkCount := by
    rw [hg]
    exact Entry.linkCount_put ho
  unfold Files.realParts
  rw [hc, h.sameShape.realWay]

theorem Rewritten.validatePath (h : f.Rewritten g) (path cwd : String) :
    g.validatePath path cwd = f.validatePath path cwd := by
  simp only [Files.validatePath, h.realParts]

theorem Rewritten.find (h : f.Rewritten g) {way : List String}
    (hf : f.find path = .ok (way, .file bytes mtime)) : ∃ bytes' mtime',
      g.find path = .ok (way, .file bytes' mtime') ∧
        (mtime < mtime' ∨ bytes' = bytes ∧ mtime' = mtime) := by
  have hway := h.sameShape.walk true maxLinks [] (Path.parts path)
  have hfw : f.root.walk true maxLinks [] (Path.parts path) = .ok (way, .file bytes mtime) := hf
  rw [hfw] at hway
  cases hg : g.root.walk true maxLinks [] (Path.parts path) with
  | error fault => simp [hg, Except.map] at hway
  | ok pair =>
    obtain ⟨way', e⟩ := pair
    simp only [hg, Except.map, Except.ok.injEq] at hway
    subst hway
    have hat := Entry.walk_at? hfw
    have hat' := Entry.walk_at? hg
    have hgf : g.find path = .ok (way, e) := hg
    obtain ⟨w, old, since, bytes', mtime', ho, ht, hput⟩ := h.root
    by_cases hw : way = w
    · subst hw
      rw [hput, Entry.at?_put_self] at hat'
      cases hat'
      rw [hat] at ho
      cases ho
      exact ⟨bytes', mtime', hgf, .inl ht⟩
    · rw [hput, Entry.at?_put_other ho hw hat] at hat'
      cases hat'
      exact ⟨bytes, mtime, hgf, .inr ⟨rfl, rfl⟩⟩

theorem Rewritten.version? (h : f.Rewritten g) (hv : f.version? cwd path = some (bytes, mtime)) :
    ∃ bytes' mtime', g.version? cwd path = some (bytes', mtime') ∧
      (mtime < mtime' ∨ bytes' = bytes ∧ mtime' = mtime) := by
  unfold Files.version? at hv ⊢
  rw [h.validatePath]
  split at hv
  · cases hv
  · rename_i place hp
    split at hv
    · rename_i way b m hfind
      cases hv
      obtain ⟨bytes', mtime', hg, hlater⟩ := h.find hfind
      exact ⟨bytes', mtime', by rw [hg], hlater⟩
    · cases hv

theorem readBytes_version {place : String} (hp : f.validatePath path cwd = .ok place)
    (hv : f.version? cwd path = some (bytes, mtime)) : f.readBytes place = .ok bytes := by
  simp only [Files.version?, hp] at hv
  split at hv
  · rename_i way b m hfind
    cases hv
    simp [readBytes, hfind]
  · cases hv

theorem validateFile_eq_ok {place : String} {most : Int} {stats : FileStats}
    (h : f.validateFile place most = .ok stats) :
    ∃ way bytes, f.find place = .ok (way, .file bytes stats.mtime) := by
  unfold validateFile at h
  split at h
  · cases h
  · cases h
  · rename_i way bytes mtime hfind
    split at h
    · cases h
    · cases h
      exact ⟨way, bytes, hfind⟩
  · cases h

end Files

theorem Scanner.vet_version {s : Scanner} {f : Files} {path : String} {file : Pending}
    (h : s.vet f path = .ok file) : ∃ bytes, f.version? s.cwd path = some (bytes, file.mtime) ∧
      f.validatePath path s.cwd = .ok file.place := by
  obtain ⟨place, stats, hp, hs, rfl⟩ := vet_eq_ok h
  obtain ⟨way, bytes, hfind⟩ := Files.validateFile_eq_ok hs
  exact ⟨bytes, by simp [Files.version?, hp, hfind], hp⟩

end EdgeAudit
