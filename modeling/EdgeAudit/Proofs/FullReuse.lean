import EdgeAudit.Proofs.CacheSteps
import EdgeAudit.Proofs.ConcurrentWrites
import EdgeAudit.Proofs.Containment
import EdgeAudit.Proofs.Schedule

namespace EdgeAudit.Scanner

open Relation

variable {s : Scanner} {f : Files} {files : List String} {path : String} {file : Pending}
  {text : List Char} {scan : FileScan} {c c' : FindingCache} {stage stage' : Stage}

def kept (s : Scanner) (f : Files) (scan : FileScan) : Bool :=
  scan.fromCache ||
    ((f.sight s.cwd s.maxSize scan.path).outcome? s.executor s.config s.rules scan.path).any (·.isOk)

theorem fromCache_of_not_kept (h : s.kept f scan = false) : scan.fromCache = false :=
  (Bool.or_eq_false_iff.mp h).1

theorem kept_rejected {fault : PathFault} (hv : s.vet f path = .error fault) :
    s.kept f { path } = false := by
  simp [kept, sight_rejected hv, Sight.outcome?, Sight.executed?]

theorem kept_unreadable {fault : ReadFault} (hv : s.vet f path = .ok file)
    (hr : f.readText file.place = .error fault) : s.kept f { path } = false := by
  simp [kept, sight_unreadable hv hr, Sight.outcome?, Sight.executed?]

theorem kept_readable (scan : FileScan) {outcome : Outcome} (hv : s.vet f scan.path = .ok file)
    (hr : f.readText file.place = .ok text) (hc : scan.fromCache = false)
    (ho : (s.executor.execute (s.task scan.path text) none).1 = .ok outcome) :
    s.kept f scan = outcome.isOk := by
  simp only [task] at ho
  simp [kept, hc, sight_readable hv hr, Sight.outcome?, Sight.executed?, ho, Except.toOption]

theorem alone_refused {failure : ExecutionFailure} (hv : s.vet f path = .ok file)
    (hr : f.readText file.place = .ok text)
    (ho : (s.executor.execute (s.task path text) none).1 = .ok (.error failure)) :
    s.alone f path = .ok { path, error := some failure } := by
  simp only [task] at ho
  simp [alone, sight_readable hv hr, Sight.scanned, Sight.executed?, ho]

/-- What the cache has of a file that is done: its findings, or nothing of the file as it is. -/
inductive Left (s : Scanner) (f : Files) (files : List String) (c : FindingCache) (scan : FileScan) :
    Prop
  | held {file : Pending} (hk : s.kept f scan = true) (hv : s.vet f scan.path = .ok file)
      (he : scan.error = none) (hg : c.Guarded files scan.path ⟨scan.findings, file.mtime⟩)
  | lost (hk : s.kept f scan = false) (ha : s.alone f scan.path = .ok scan)
      (hs : ∀ file, s.vet f scan.path = .ok file → c.Forall (Cache.Stale scan.path file.mtime))

section First

def Settling (s : Scanner) (f : Files) (files : List String) (path : String) (c : FindingCache) :
    Stage → Prop
  | .waiting => True
  | .reading file => s.vet f path = .ok file ∧ c.Forall (Cache.Stale path file.mtime)
  | .judging file text => s.vet f path = .ok file ∧ f.readText file.place = .ok text ∧
      c.Forall (Cache.Stale path file.mtime)
  | .done scan => scan.path = path ∧ s.Left f files c scan

theorem stale_vet (hv : s.vet f path = .ok file) (hs : c.Forall (Cache.Stale path file.mtime)) :
    ∀ other, s.vet f path = .ok other → c.Forall (Cache.Stale path other.mtime) := by
  intro other hother
  rw [hv] at hother
  cases hother
  exact hs

theorem settling_own (h : CacheStep s f path stage c stage' c') (hn : c.keys.Nodup)
    (hk : s.Settling f files path c stage) : s.Settling f files path c' stage' := by
  cases h with
  | reject hv =>
    refine ⟨rfl, .lost (kept_rejected hv) (alone_rejected hv) ?_⟩
    intro file hv'
    simp only at hv'
    rw [hv] at hv'
    cases hv'
  | hit hv hl => exact ⟨rfl, .held (by simp [kept]) hv rfl (Cache.guarded_getValid hn hl)⟩
  | miss hv hl => exact ⟨hv, Cache.forall_getValid (Cache.stale_of_getValid hn hl) _⟩
  | fail hr =>
    obtain ⟨hv, hs⟩ := hk
    rw [vet_path hv]
    exact ⟨rfl, .lost (kept_unreadable hv hr) (alone_unreadable hv hr) (stale_vet hv hs)⟩
  | read hr => exact ⟨hk.1, hr, hk.2⟩
  | @refuse c file text failure ho =>
    obtain ⟨hv, hr, hs⟩ := hk
    have hpath := vet_path hv
    rw [hpath] at ho ⊢
    refine ⟨rfl, .lost ?_ (alone_refused hv hr ho) (stale_vet hv hs)⟩
    rw [kept_readable { path, error := some failure } hv hr rfl ho]
    rfl
  | @store c file text found findings ho =>
    obtain ⟨hv, hr, -⟩ := hk
    have hpath := vet_path hv
    rw [hpath] at ho ⊢
    refine ⟨rfl, .held ?_ hv rfl Cache.guarded_set⟩
    rw [kept_readable { path, findings } hv hr rfl ho]
    rfl

theorem settling_file {stage : Stage} (hk : s.Settling f files path c stage) :
    ∀ file text, stage = .judging file text → file.path = path := by
  rintro file text rfl
  exact vet_path hk.1

theorem settling_other {k : String} {known : Stage} (h : CacheStep s f path stage c stage' c')
    (hn : c.keys.Nodup) (hfit : files.length ≤ c.capacity) (hpath : path ∈ files)
    (hown : s.Settling f files path c stage) (hk : k ∈ files) (hne : k ≠ path)
    (hknown : s.Settling f files k c known) : s.Settling f files k c' known := by
  have hfile := settling_file hown
  cases known with
  | waiting => trivial
  | reading file => exact ⟨hknown.1, h.stale hfile hne hknown.2⟩
  | judging file text => exact ⟨hknown.1, hknown.2.1, h.stale hfile hne hknown.2.2⟩
  | done scan =>
    obtain ⟨rfl, hleft⟩ := hknown
    refine ⟨rfl, ?_⟩
    cases hleft with
    | held hkept hv he hg => exact .held hkept hv he (h.guarded hfile hn hfit hpath hk hne hg)
    | lost hkept ha hs => exact .lost hkept ha fun file hv => h.stale hfile hne (hs file hv)

theorem settling_sustains (s : Scanner) (f : Files) (files : List String) :
    Sustains s f files (fun c => c.Sound ∧ files.length ≤ c.capacity)
      (fun path stage c => s.Settling f files path c stage) where
  waiting _ _ := trivial
  own _ h hC hk := by
    obtain ⟨hsound, hcapacity⟩ := h.sound hC.1
    exact ⟨⟨hsound, hcapacity ▸ hC.2⟩, settling_own h hC.1.nodup hk⟩
  other hpath h hC hown hk hne hknown := settling_other h hC.1.nodup hC.2 hpath hown hk hne hknown

end First

section Second

variable {first : List FileScan}

theorem Left.getValid (h : s.Left f files c scan) (hn : c.keys.Nodup) (hpath : path ∈ files)
    (stamp : Int) : s.Left f files (c.getValid path stamp).2 scan := by
  cases h with
  | held hk hv he hg => exact .held hk hv he (hg.getValid hn hpath stamp)
  | lost hk ha hs => exact .lost hk ha fun file hv => Cache.forall_getValid (hs file hv) stamp

def Again (s : Scanner) (f : Files) (x : FileScan) : Stage → Prop
  | .waiting => True
  | .reading file => s.kept f x = false ∧ s.vet f x.path = .ok file
  | .judging file text => s.kept f x = false ∧ s.vet f x.path = .ok file ∧
      f.readText file.place = .ok text
  | .done scan => scan = { x with fromCache := s.kept f x }

theorem Left.alone_of_not_kept (h : s.Left f files c scan) (hk : s.kept f scan = false) :
    s.alone f scan.path = .ok scan := by
  cases h with
  | held hk' => simp [hk] at hk'
  | lost _ ha => exact ha

theorem again_done {x : FileScan} (hk : s.kept f x = false) (hx : s.alone f x.path = .ok x)
    (ha : s.alone f x.path = .ok scan) : s.Again f x (.done scan) := by
  rw [ha] at hx
  cases hx
  show scan = { scan with fromCache := s.kept f scan }
  rw [hk, ← fromCache_of_not_kept hk]

theorem again_step {x : FileScan} (h : CacheStep s f x.path stage c stage' c') (hn : c.keys.Nodup)
    (hleft : s.Left f files c x) (hk : s.Again f x stage) :
    s.Again f x stage' ∧ (c' = c ∨ ∃ stamp, c' = (c.getValid x.path stamp).2) := by
  cases h with
  | reject hv =>
    refine ⟨?_, .inl rfl⟩
    cases hleft with
    | held _ hv' =>
      rw [hv] at hv'
      cases hv'
    | lost hk ha _ => exact again_done hk ha (alone_rejected hv)
  | @hit c file findings hv hl =>
    refine ⟨?_, .inr ⟨_, rfl⟩⟩
    cases hleft with
    | held hk hv' he hg =>
      rw [hv] at hv'
      cases hv'
      rw [Cache.getValid_of_mem hn hg.mem] at hl
      cases hl
      show FileScan.mk _ _ _ _ = FileScan.mk _ _ _ _
      rw [hk, he]
    | lost _ _ hs => exact absurd rfl (hs file hv _ (Cache.mem_of_getValid hl) rfl)
  | @miss c file hv hl =>
    refine ⟨?_, .inr ⟨_, rfl⟩⟩
    cases hleft with
    | held _ hv' _ hg =>
      rw [hv] at hv'
      cases hv'
      rw [Cache.getValid_of_mem hn hg.mem] at hl
      cases hl
    | lost hk => exact ⟨hk, hv⟩
  | fail hr =>
    obtain ⟨hk, hv⟩ := hk
    rw [vet_path hv]
    exact ⟨again_done hk (hleft.alone_of_not_kept hk) (alone_unreadable hv hr), .inl rfl⟩
  | read hr => exact ⟨⟨hk.1, hk.2, hr⟩, .inl rfl⟩
  | refuse ho =>
    obtain ⟨hk, hv, hr⟩ := hk
    rw [vet_path hv] at ho ⊢
    exact ⟨again_done hk (hleft.alone_of_not_kept hk) (alone_refused hv hr ho), .inl rfl⟩
  | store ho =>
    obtain ⟨hk, hv, hr⟩ := hk
    rw [vet_path hv] at ho
    rw [kept_readable x hv hr (fromCache_of_not_kept hk) ho] at hk
    cases hk

theorem again_sustains (hfiles : first.map (·.path) = files) :
    Sustains s f files (fun c => c.Sound ∧ ∀ x ∈ first, s.Left f files c x)
      (fun path stage _ => ∀ x ∈ first, x.path = path → s.Again f x stage) where
  waiting _ _ _ _ _ := trivial
  own {path stage c stage' c'} hpath h hC hk := by
    obtain ⟨hsound, hleft⟩ := hC
    have hnext : ∀ x ∈ first, x.path = path →
        s.Again f x stage' ∧ (c' = c ∨ ∃ stamp, c' = (c.getValid path stamp).2) := by
      rintro x hx rfl
      exact again_step h hsound.nodup (hleft x hx) (hk x hx rfl)
    refine ⟨⟨(h.sound hsound).1, ?_⟩, fun x hx hp => (hnext x hx hp).1⟩
    rw [← hfiles] at hpath
    obtain ⟨x, hx, hp⟩ := List.mem_map.mp hpath
    intro y hy
    rcases (hnext x hx hp).2 with rfl | ⟨stamp, rfl⟩
    · exact hleft y hy
    · exact (hleft y hy).getValid hsound.nodup (hfiles ▸ List.mem_map.mpr ⟨x, hx, hp⟩) stamp
  other _ _ _ _ _ _ hknown := hknown

end Second

section Rescan

variable {changes : ChangeSet} {elapsed : Number.Binary64} {cache : Option FindingCache}
  {scans : List FileScan} {out : ScanOutcome}

def Gives (s : Scanner) (f : Files) (changes : ChangeSet) (elapsed : Number.Binary64)
    (cache : Option FindingCache) (scans : List FileScan) (out : ScanOutcome) : Prop :=
  s.outOfStack = false ∧ ∃ found notes p, s.discover f = .ok (found, notes) ∧
    BatchesRun s f { cache, notes := s.openingNotes changes found notes }
      (s.batches (s.selected changes found).1) scans p ∧
    out = ⟨resultOf scans cache.isSome (.real (elapsed.scale 1000)), p.completed, p.notes, p.cache⟩

theorem scans_iff_gives :
    s.Scans f changes elapsed cache out ↔ ∃ scans, s.Gives f changes elapsed cache scans out := by
  constructor
  · rintro ⟨hstack, found, notes, scans, p, h⟩
    exact ⟨scans, hstack, found, notes, p, h⟩
  · rintro ⟨scans, hstack, found, notes, p, h⟩
    exact ⟨hstack, found, notes, scans, p, h⟩

def Moment (s : Scanner) (f : Files) (changes : ChangeSet) (cache : Option FindingCache) (b : Batch) :
    Prop :=
  ∃ found notes finished batch rest scans p, s.discover f = .ok (found, notes) ∧
    s.batches (s.selected changes found).1 = finished ++ batch :: rest ∧
    BatchesRun s f { cache, notes := s.openingNotes changes found notes } finished scans p ∧
    ReflTransGen (Batch.Step s f) (Batch.start p batch) b

theorem gives_left {found : List String} {notes : List LogLine}
    (hd : s.discover f = .ok (found, notes)) (hsound : c.Sound)
    (hfit : (s.selected changes found).1.length ≤ c.capacity)
    (h : s.Gives f changes elapsed (some c) scans out) :
    scans.map (·.path) = (s.selected changes found).1 ∧ ∃ c', out.cache = some c' ∧ c'.Sound ∧
      ∀ x ∈ scans, s.Left f (s.selected changes found).1 c' x := by
  obtain ⟨-, found', notes', p, hd', hrun, rfl⟩ := h
  rw [hd] at hd'
  cases hd'
  have hflat := s.flatten_batches (s.selected changes found).1
  obtain ⟨c', hc', ⟨hsound', -⟩, hall⟩ :=
    hrun.shares_done (settling_sustains s f (s.selected changes found).1) (by simp [hflat])
      (hflat.symm ▸ nodup_selected hd) rfl ⟨hsound, hfit⟩
  rw [hflat] at hall
  obtain ⟨hleft, hpaths⟩ := (List.forall₂_and_left _ _).mp (hall.flip.imp fun _ _ h => And.symm h)
  refine ⟨?_, c', hc', hsound', hleft⟩
  rw [← List.forall₂_eq_eq_eq, List.forall₂_map_left_iff]
  exact hpaths

section Again

variable {found : List String} {notes : List LogLine} {first : List FileScan}
  (hd : s.discover f = .ok (found, notes)) (hsound : c.Sound)
  (hpaths : first.map (·.path) = (s.selected changes found).1)
  (hleft : ∀ x ∈ first, s.Left f (s.selected changes found).1 c x)

include hd hsound hpaths hleft

theorem gives_again (h : s.Gives f changes elapsed (some c) scans out) :
    scans = first.map fun x => { x with fromCache := s.kept f x } := by
  obtain ⟨-, found', notes', p, hd', hrun, rfl⟩ := h
  rw [hd] at hd'
  cases hd'
  have hflat := s.flatten_batches (s.selected changes found).1
  obtain ⟨c', -, -, hall⟩ := hrun.shares_done (again_sustains hpaths) (by simp [hflat])
    (hflat.symm ▸ nodup_selected hd) rfl ⟨hsound, hleft⟩
  rw [hflat, ← hpaths, List.forall₂_map_left_iff] at hall
  have hmem := (List.forall₂_and_left _ _).mpr ⟨fun x (hx : x ∈ first) => hx, hall⟩
  apply Eq.symm
  rw [← List.forall₂_eq_eq_eq, List.forall₂_map_left_iff]
  exact hmem.imp fun x scan h => (h.2 x h.1 rfl).symm

theorem scan_again_returns (hstack : s.outOfStack = false) (elapsed : Number.Binary64) :
    ∃ out, s.scan f changes elapsed (some c) = .ok out := by
  have hflat := s.flatten_batches (s.selected changes found).1
  apply scan_of_scanBatches hstack hd
  refine (again_sustains hpaths).returns ?_ _ [] (by simp [hflat]) ?_ rfl ⟨hsound, hleft⟩ (by simp)
  · intro path file c' hpath hC hR
    rw [← hpaths] at hpath
    obtain ⟨x, hx, rfl⟩ := List.mem_map.mp hpath
    exact ⟨x, (hC.2 x hx).alone_of_not_kept (hR x hx rfl).1⟩
  · simpa [hflat] using nodup_selected hd

theorem moment_again {b : Batch} (h : s.Moment f changes (some c) b) {x : FileScan} (hx : x ∈ first)
    (hk : s.kept f x = true) {stage : Stage} (hmem : (x.path, stage) ∈ b.stages) :
    stage.file? = none := by
  obtain ⟨found', notes', finished, batch, rest, scans, p, hd', hbatches, hrun, hsteps⟩ := h
  rw [hd] at hd'
  cases hd'
  have hflat := s.flatten_batches (s.selected changes found).1
  rw [hbatches, List.flatten_append, List.flatten_cons, ← List.append_assoc] at hflat
  have hn : (s.selected changes found).1.Nodup := nodup_selected hd
  rw [← hflat] at hn
  obtain ⟨c', -, hR⟩ := hrun.shares_next (again_sustains hpaths) hsteps
    (fun k hk => hflat ▸ List.mem_append_left _ hk) (List.nodup_append.mp hn).1 rfl ⟨hsound, hleft⟩
  have hagain := hR _ hmem x hx rfl
  cases stage with
  | waiting | done => rfl
  | reading file | judging file text =>
    have hlost := hagain.1
    rw [hk] at hlost
    cases hlost

end Again

theorem length_selected_le {found : List String} : (s.selected changes found).1.length ≤ found.length := by
  unfold selected
  split
  · exact List.length_filter_le _ _
  · exact Nat.le_refl _

theorem Left.atOccasion {m n : Occasion} (h : (s.atOccasion m).Left f files c scan) :
    (s.atOccasion n).Left f files c scan := by
  cases h with
  | held hk hv he hg => exact .held hk hv he hg
  | lost hk ha hs => exact .lost hk ha hs

/-- If there is room for all files, a second scan of the same files takes from the cache exactly those
that could be judged, and reads none of them. -/
theorem rescan_reuses (s : Scanner) (past : List Occasion) (o again : Occasion) (c : FindingCache)
    (found : List String) (notes : List LogLine) (scans : List FileScan) (first : ScanOutcome)
    (hist : s.History past (some c)) (hfiles : again.files = o.files)
    (hchanges : again.changes = o.changes) (hd : s.discover o.files = .ok (found, notes))
    (hfit : found.length ≤ c.capacity)
    (h : (s.atOccasion o).Gives o.files o.changes o.elapsed (some c) scans first) :
    (∃ second, (s.atOccasion again).scan again.files again.changes again.elapsed first.cache =
      .ok second) ∧
    (∀ rescans second,
      (s.atOccasion again).Gives again.files again.changes again.elapsed first.cache rescans second →
        rescans = (scans.map fun x => { x with fromCache := s.kept o.files x }) ∧
        second.result.cachedCount = some ((scans.countP (s.kept o.files) : Nat) : Int)) ∧
    ∀ b, (s.atOccasion again).Moment again.files again.changes first.cache b →
      ∀ x ∈ scans, s.kept o.files x = true → ∀ stage, (x.path, stage) ∈ b.stages →
        stage.file? = none := by
  obtain ⟨c₀, hc₀, hsound⟩ := history_sound hist
  cases hc₀
  have hselected : ((s.atOccasion o).selected o.changes found).1.length ≤ c.capacity :=
    length_selected_le.trans hfit
  obtain ⟨hpaths, c', hc', hsound', hleft⟩ := gives_left (s := s.atOccasion o) hd hsound hselected h
  have hagain : ∀ x ∈ scans,
      (s.atOccasion again).Left o.files ((s.atOccasion again).selected o.changes found).1 c' x :=
    fun x hx => (hleft x hx).atOccasion
  rw [hc', hfiles, hchanges]
  refine ⟨scan_again_returns (s := s.atOccasion again) hd hsound' hpaths hagain h.1 again.elapsed, ?_, ?_⟩
  · intro rescans second hgives
    have hrescans := gives_again (s := s.atOccasion again) hd hsound' hpaths hagain hgives
    refine ⟨hrescans, ?_⟩
    obtain ⟨-, -, -, -, -, -, rfl⟩ := hgives
    simp only [resultOf, hrescans, Option.isSome_some, if_true, List.countP_map]
    rfl
  · intro b hb x hx hk stage hmem
    exact moment_again (s := s.atOccasion again) hd hsound' hpaths hagain hb hx hk hmem

theorem rescan_reuses_sample : ∃ scans first rescans second,
    (sampleScanner.atOccasion { files := sampleFiles ⟨#[99]⟩ 2, parallel := true }).Gives
      (sampleFiles ⟨#[99]⟩ 2) {} (.ofInt 0) (some ⟨2, []⟩) scans first ∧
    (sampleScanner.atOccasion { files := sampleFiles ⟨#[99]⟩ 2 }).Gives
      (sampleFiles ⟨#[99]⟩ 2) {} (.ofInt 0) first.cache rescans second ∧
    (∃ x ∈ rescans, x.path = "/p/a.js" ∧ x.fromCache = true) ∧
    second.result.cachedCount =
      some ((scans.countP (sampleScanner.kept (sampleFiles ⟨#[99]⟩ 2)) : Nat) : Int) := by
  have hd := sample_discover ⟨#[99]⟩ 2
  obtain ⟨first, hfirst⟩ := scan_returns
    (s := sampleScanner.atOccasion { files := sampleFiles ⟨#[99]⟩ 2, parallel := true }) rfl hd
    (fun path _ => returns_of_rules_nil rfl rfl sample_stays path) (.ofInt 0) (some ⟨2, []⟩)
  obtain ⟨scans, hscans⟩ := scans_iff_gives.mp (scan_scans hfirst)
  have hist : sampleScanner.History [] (some ⟨2, []⟩) :=
    ⟨false, [], .opened (show Cache.create 2 = _ from rfl)⟩
  obtain ⟨⟨second, hsecond⟩, hreuse, -⟩ := rescan_reuses sampleScanner []
    { files := sampleFiles ⟨#[99]⟩ 2, parallel := true } { files := sampleFiles ⟨#[99]⟩ 2 } _ _ _ scans
    first hist rfl rfl hd (by decide) hscans
  obtain ⟨rescans, hrescans⟩ := scans_iff_gives.mp (scan_scans hsecond)
  obtain ⟨hmap, hcount⟩ := hreuse rescans second hrescans
  refine ⟨scans, first, rescans, second, hscans, hrescans, ?_, hcount⟩
  have hpaths := (gives_left (s := sampleScanner.atOccasion { files := sampleFiles ⟨#[99]⟩ 2, parallel := true })
    hd (Cache.sound_create (show Cache.create 2 = _ from rfl)) (by decide) hscans).1
  obtain ⟨x, hx, hp⟩ : ∃ x ∈ scans, x.path = "/p/a.js" := by
    apply List.mem_map.mp
    rw [hpaths]
    decide
  refine ⟨{ x with fromCache := sampleScanner.kept (sampleFiles ⟨#[99]⟩ 2) x }, ?_, hp, ?_⟩
  · rw [hmap]
    exact List.mem_map.mpr ⟨x, hx, rfl⟩
  have htext : Files.textOf ⟨#[99]⟩ = .ok ['c'] := by decide +kernel
  have hseen := sight_readable (sample_vet ⟨#[99]⟩ 2 (by decide)) (sample_readText _ 2 htext)
  have hrun : (sampleScanner.executor.execute (sampleScanner.task "/p/a.js" ['c']) none).1 = .ok (.ok []) :=
    rfl
  simp only [task] at hrun
  simp [kept, hp, hseen, Sight.outcome?, Sight.executed?, hrun, Except.isOk, Except.toBool, Except.toOption]

end Rescan

end EdgeAudit.Scanner
