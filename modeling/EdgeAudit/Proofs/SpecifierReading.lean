import EdgeAudit.Proofs.FindingPlaces
import EdgeAudit.Proofs.MergedReferences
import EdgeAudit.Proofs.PathParts

namespace EdgeAudit

open Text

/-- The module that a specifier names: what stands before its first slash, without one `node:`. -/
def moduleOf (specifier : String) : List Char :=
  let first := specifier.toList.takeWhile (· != '/')
  if "node:".toList <+: first then first.drop "node:".length else first

def Within (cs name : List Char) : Prop :=
  cs = name ∨ name ++ ['/'] <+: cs

inductive IsPackage : List Char → Prop
  | single {name : List Char} (hne : name ≠ []) (hslash : '/' ∉ name) (hdot : name.head? ≠ some '.')
      (hat : name.head? ≠ some '@') (hscheme : ¬ "node:".toList <+: name) : IsPackage name
  | inScope {scope name : List Char} (hscope : '/' ∉ scope) (hname : '/' ∉ name) (hne : name ≠ []) :
      IsPackage ('@' :: scope ++ '/' :: name)

section Modules

variable {specifier module : String} {cs name : List Char}

theorem within_iff : Within cs name ↔ cs = name ∨ ∃ r, cs = name ++ '/' :: r := by
  rw [Within, List.IsPrefix]
  simp [eq_comm]

theorem within_iff_takeWhile (hname : '/' ∉ name) : Within cs name ↔ cs.takeWhile (· != '/') = name := by
  rw [within_iff]
  constructor
  · rintro (rfl | ⟨r, rfl⟩)
    · exact takeWhile_plain hname
    · exact takeWhile_slash hname r
  · intro h
    by_cases hcs : '/' ∈ cs
    · obtain ⟨a, r, rfl, ha⟩ := List.eq_append_cons_of_mem hcs
      rw [takeWhile_slash ha] at h
      exact .inr ⟨r, by rw [h]⟩
    · rw [takeWhile_plain hcs] at h
      exact .inl h

theorem refersTo_iff_within : refersTo specifier module = true ↔
    Within specifier.toList module.toList ∨ Within specifier.toList ("node:".toList ++ module.toList) := by
  simp only [refersTo, Within, Bool.or_eq_true, beq_iff_eq, List.isPrefixOf_iff_prefix]
  tauto

theorem refersTo_iff_moduleOf (hslash : '/' ∉ module.toList) (hscheme : ¬ "node:".toList <+: module.toList) :
    refersTo specifier module = true ↔ moduleOf specifier = module.toList := by
  have hfull : '/' ∉ "node:".toList ++ module.toList := by simpa using hslash
  rw [refersTo_iff_within, within_iff_takeWhile hslash, within_iff_takeWhile hfull, moduleOf]
  constructor
  · rintro (h | h)
    · rw [h, if_neg hscheme]
    · rw [h, if_pos (List.prefix_append _ _)]
      exact List.drop_left
  · intro h
    split at h
    · rename_i hnode
      obtain ⟨r, hr⟩ := hnode
      rw [← hr] at h ⊢
      exact .inr (congrArg _ (List.drop_left.symm.trans h))
    · exact .inl h

end Modules

section Packages

variable {specifier : String} {cs a name : List Char} {sep : Char} {rest : List (List Char)}

theorem splitOn_eq_cons (h : splitOn sep cs = a :: rest) :
    sep ∉ a ∧ (rest = [] ∧ cs = a ∨ ∃ r, rest = splitOn sep r ∧ cs = a ++ sep :: r) := by
  by_cases hcs : sep ∈ cs
  · obtain ⟨b, r, rfl, hb⟩ := List.eq_append_cons_of_mem hcs
    rw [splitOn_append hb] at h
    cases h
    exact ⟨hb, .inr ⟨r, rfl, rfl⟩⟩
  · rw [splitOn_plain hcs] at h
    cases h
    exact ⟨hcs, .inl ⟨rfl, rfl⟩⟩

theorem splitOn_within (hname : '/' ∉ name) (h : Within cs name) : ∃ rest, splitOn '/' cs = name :: rest := by
  rcases within_iff.mp h with rfl | ⟨r, rfl⟩
  · exact ⟨[], splitOn_plain hname⟩
  · exact ⟨_, splitOn_append hname r⟩

theorem within_of_splitOn (h : splitOn '/' cs = name :: rest) : '/' ∉ name ∧ Within cs name := by
  obtain ⟨hname, ⟨-, rfl⟩ | ⟨r, -, rfl⟩⟩ := splitOn_eq_cons h
  · exact ⟨hname, .inl rfl⟩
  · exact ⟨hname, within_iff.mpr (.inr ⟨r, rfl⟩)⟩

theorem Within.behind (h : Within cs name) (a : List Char) : Within (a ++ '/' :: cs) (a ++ '/' :: name) := by
  rw [within_iff] at h ⊢
  rcases h with rfl | ⟨r, rfl⟩
  · exact .inl rfl
  · exact .inr ⟨r, by simp⟩

theorem scheme_of_within (hname : '/' ∉ name) (h : Within cs name) (hscheme : "node:".toList <+: cs) :
    "node:".toList <+: name := by
  obtain ⟨r, rfl⟩ := hscheme
  rw [within_iff_takeWhile hname, List.takeWhile_append_of_pos (not_slash (by decide))] at h
  exact ⟨_, h⟩

theorem prefix_of_within (h : Within cs name) : name <+: cs := by
  rcases within_iff.mp h with rfl | ⟨r, rfl⟩
  · exact List.prefix_refl _
  · exact List.prefix_append _ _

theorem basePackage?_of_within (hname : IsPackage name) (h : Within specifier.toList name) :
    basePackage? specifier = some (String.ofList name) := by
  cases hname with
  | single hne hslash hdot hat hscheme =>
    obtain ⟨rest, hsplit⟩ := splitOn_within hslash h
    have hnode : "node:".toList.isPrefixOf specifier.toList = false := by
      rw [Bool.eq_false_iff, ne_eq, List.isPrefixOf_iff_prefix]
      exact fun hin => hscheme (scheme_of_within hslash h hin)
    obtain ⟨c, name, rfl⟩ := List.exists_cons_of_ne_nil hne
    obtain ⟨r, hr⟩ := prefix_of_within h
    simp only [List.head?_cons, ne_eq, Option.some.injEq, List.mem_cons, not_or] at hdot hat hslash
    have hplain : specifier.toList.isEmpty = false ∧ ['.'].isPrefixOf specifier.toList = false ∧
        ['/'].isPrefixOf specifier.toList = false ∧ ['@'].isPrefixOf specifier.toList = false := by
      rw [← hr]
      simp [List.isPrefixOf, hslash.1, Ne.symm hdot, Ne.symm hat]
    simp only [basePackage?, hplain, hnode, hsplit]
    rfl
  | @inScope scope name hscope hname hne =>
    obtain ⟨r, hr, hrest⟩ : ∃ r, specifier.toList = '@' :: scope ++ '/' :: r ∧ Within r name := by
      rcases within_iff.mp h with heq | ⟨r, heq⟩
      · exact ⟨name, heq, .inl rfl⟩
      · exact ⟨name ++ '/' :: r, by simpa using heq, within_iff.mpr (.inr ⟨r, rfl⟩)⟩
    obtain ⟨rest, hsplit⟩ := splitOn_within hname hrest
    have hparts : splitOn '/' specifier.toList = ('@' :: scope) :: name :: rest := by
      rw [hr, splitOn_append (by simpa using hscope), hsplit]
    have hopen : (specifier.toList.isEmpty || ['.'].isPrefixOf specifier.toList ||
        ['/'].isPrefixOf specifier.toList || "node:".toList.isPrefixOf specifier.toList) = false ∧
          ['@'].isPrefixOf specifier.toList = true := by
      rw [hr]
      exact ⟨rfl, rfl⟩
    simp only [basePackage?, hopen, hparts, if_neg hne]
    rfl

theorem isPackage_of_basePackage? {package : String} (h : basePackage? specifier = some package) :
    IsPackage package.toList ∧ Within specifier.toList package.toList := by
  simp only [basePackage?, Bool.or_eq_true, List.isPrefixOf_iff_prefix] at h
  split at h
  · cases h
  rename_i hguard
  simp only [not_or] at hguard
  obtain ⟨⟨⟨-, hdot⟩, hslash⟩, hscheme⟩ := hguard
  split at h
  · rename_i hat
    split at h
    · rename_i scope name rest hsplit
      split at h
      · cases h
      · rename_i hne
        cases h
        obtain ⟨hscope, ⟨hnil, -⟩ | ⟨r, hr, heq⟩⟩ := splitOn_eq_cons hsplit
        · cases hnil
        · obtain ⟨hname, hrest⟩ := within_of_splitOn hr.symm
          rw [heq] at hat hslash
          cases scope with
          | nil => exact absurd ⟨r, rfl⟩ hslash
          | cons c scope =>
            obtain rfl : '@' = c := by simpa using hat
            rw [String.toList_ofList, heq]
            exact ⟨.inScope (by simpa using hscope) hname hne, hrest.behind _⟩
    · cases h
  · rename_i hat
    split at h
    · rename_i first rest hsplit
      split at h
      · cases h
      · rename_i hne
        cases h
        obtain ⟨hfirst, hwithin⟩ := within_of_splitOn hsplit
        have hstart : first <+: specifier.toList := prefix_of_within hwithin
        have hhead : ∀ c, ¬ [c] <+: specifier.toList → first.head? ≠ some c := by
          intro c hc heq
          obtain ⟨ys, rfl⟩ := List.head?_eq_some_iff.mp heq
          exact hc (List.IsPrefix.trans ⟨ys, rfl⟩ hstart)
        rw [String.toList_ofList]
        exact ⟨.single hne hfirst (hhead _ hdot) (hhead _ hat) fun hin => hscheme (hin.trans hstart),
          hwithin⟩
    · cases h

theorem basePackage?_eq_some_iff {package : String} : basePackage? specifier = some package ↔
    IsPackage package.toList ∧ Within specifier.toList package.toList := by
  refine ⟨isPackage_of_basePackage?, ?_⟩
  rintro ⟨hpackage, hwithin⟩
  rw [basePackage?_of_within hpackage hwithin, String.ofList_toList]

theorem package_unique {p q : List Char} (hp : IsPackage p) (hq : IsPackage q)
    (hpin : Within specifier.toList p) (hqin : Within specifier.toList q) : p = q := by
  have h := (basePackage?_of_within hp hpin).symm.trans (basePackage?_of_within hq hqin)
  exact String.ofList_injective (Option.some.inj h)

end Packages

def InTable (table : List Replacement) (specifier : String) : Prop :=
  ∃ r ∈ table, IsPackage r.source.toList ∧ Within specifier.toList r.source.toList

section Table

variable {table : List Replacement} {specifier : String} {o : Occurrence}

theorem flaggedPackage?_eq_some {package : String} {r : Replacement}
    (h : flaggedPackage? table o = some (package, r)) : r ∈ table ∧ r.source = package ∧
      IsPackage r.source.toList ∧ Within o.value.toList r.source.toList := by
  obtain ⟨p, hpackage, hrest⟩ := Option.bind_eq_some_iff.mp h
  obtain ⟨r', hr, heq⟩ := Option.bind_eq_some_iff.mp hrest
  cases heq
  have hsource : r.source = package := by simpa using List.find?_some hr
  rw [hsource]
  exact ⟨List.mem_of_find?_eq_some hr, rfl, basePackage?_eq_some_iff.mp hpackage⟩

theorem flaggedPackage?_isSome : (flaggedPackage? table o).isSome = true ↔ InTable table o.value := by
  constructor
  · intro h
    obtain ⟨⟨package, r⟩, hsome⟩ := Option.isSome_iff_exists.mp h
    obtain ⟨hmem, -, hr⟩ := flaggedPackage?_eq_some hsome
    exact ⟨r, hmem, hr⟩
  · rintro ⟨r, hmem, hr⟩
    have hfound : (replacement? table r.source).isSome = true := by
      rw [replacement?, List.find?_isSome]
      exact ⟨r, hmem, by simp⟩
    obtain ⟨r', hr'⟩ := Option.isSome_iff_exists.mp hfound
    simp [flaggedPackage?, basePackage?_eq_some_iff.mpr hr, hr']

instance (table : List Replacement) (specifier : String) : Decidable (InTable table specifier) :=
  decidable_of_iff _ (flaggedPackage?_isSome (o := ⟨0, 0, .reference .require, specifier, none⟩))

def Reports (table : List Replacement) (source : Source) (o : Occurrence) (f : Finding) : Prop :=
  ∃ r ∈ table, IsPackage r.source.toList ∧ Within o.value.toList r.source.toList ∧
    f = o.finding source dependencyId .error
      ("Package \"" ++ r.source ++ "\" is not Edge-safe. " ++ r.reason) r.suggestions

theorem dependencyFindings_reports (table : List Replacement) (source : Source) :
    List.Forall₂ (Reports table source)
      ((source.moduleReferences [.staticImport, .require]).filter fun o => InTable table o.value)
      (dependencyFindings table source) := by
  rw [dependencyFindings]
  induction source.moduleReferences [.staticImport, .require] with
  | nil => exact .nil
  | cons o os ih =>
    cases hflag : flaggedPackage? table o with
    | none =>
      have hnot : ¬ InTable table o.value := by simp [← flaggedPackage?_isSome, hflag]
      rw [List.filter_cons_of_neg (by simpa using hnot), List.filterMap_cons_none (by simp [hflag])]
      exact ih
    | some flagged =>
      obtain ⟨package, r⟩ := flagged
      have hlisted : InTable table o.value := by simp [← flaggedPackage?_isSome, hflag]
      obtain ⟨hmem, rfl, hr⟩ := flaggedPackage?_eq_some hflag
      rw [List.filter_cons_of_pos (by simpa using hlisted), List.filterMap_cons_some (by rw [hflag]; rfl)]
      exact .cons ⟨r, hmem, hr.1, hr.2, rfl⟩ ih

end Table

namespace BuiltIn

/-- Whether a rule reports the references with a specifier. -/
def flags (specifier : String) : BuiltIn → Bool
  | .forbidden m => refersTo specifier m.module
  | .caution m => refersTo specifier m.module
  | .buffer m => refersTo specifier m.module
  | .dependency table => InTable table specifier
  | _ => false

def links : BuiltIn → List Link
  | .dependency _ => [.staticImport, .require]
  | _ => Link.all

end BuiltIn

section Flags

variable {specifier : String} {source : Source} {b b' : BuiltIn} {fs : List Finding}

theorem head_of_flags (hb : b.Plain) (h : b.flags specifier = true) :
    specifier.toList.takeWhile (· != '/') ∈ b.heads := by
  cases b with
  | forbidden m => exact takeWhile_of_refersTo (hb _ (by simp [BuiltIn.heads])) h
  | caution m => exact takeWhile_of_refersTo (hb _ (by simp [BuiltIn.heads])) h
  | buffer m => exact takeWhile_of_refersTo (hb _ (by simp [BuiltIn.heads])) h
  | dependency table =>
    obtain ⟨r, hr, -, hwithin⟩ := of_decide_eq_true h
    have hmem : r.source.toList ∈ (BuiltIn.dependency table).heads := List.mem_map_of_mem hr
    rw [(within_iff_takeWhile (hb _ hmem)).mp hwithin]
    exact hmem
  | _ => cases h

theorem catalog_flags (specifier : String) : (catalog.filter (BuiltIn.flags specifier)).length ≤ 1 := by
  have hpair : (catalog.filter (BuiltIn.flags specifier)).Pairwise fun _ _ => False := by
    refine (catalog_apart.filter _).imp_of_mem ?_
    intro b b' hb hb' hapart
    obtain ⟨hmem, hflags⟩ := List.mem_filter.mp hb
    obtain ⟨hmem', hflags'⟩ := List.mem_filter.mp hb'
    exact hapart.1 _ (head_of_flags (catalog_plain b hmem) hflags)
      (head_of_flags (catalog_plain b' hmem') hflags')
  rcases hlist : catalog.filter (BuiltIn.flags specifier) with _ | ⟨b, _ | ⟨b', rest⟩⟩
  · simp
  · simp
  · rw [hlist] at hpair
    exact ((List.pairwise_cons.mp hpair).1 b' (by simp)).elim

theorem refers_of_found {links : List Link} {o : Occurrence} (h : o ∈ source.moduleReferences links) :
    InText.refers Link.all o = true := by
  have hfound : o ∈ source.found (.references links) := h
  obtain ⟨link, hlink⟩ := reference_of_found hfound
  rw [InText.refers_iff, hlink]
  exact List.mem_map_of_mem (InTree.mem_links link)

theorem filter_refers {links : List Link} (p : Occurrence → Bool) :
    ((source.moduleReferences links).filter p).filter (InText.refers Link.all) =
      (source.moduleReferences links).filter p :=
  List.filter_eq_self.mpr fun _ ho => refers_of_found (List.mem_of_mem_filter ho)

theorem filter_refers_other (source : Source) (family : Listing.Family) {os : List Occurrence}
    (hfamily : ∀ link, .reference link ∉ family.constructs) (hos : ∀ o ∈ os, o ∈ source.found family) :
    os.filter (InText.refers Link.all) = [] := by
  apply List.filter_eq_nil_iff.mpr
  intro o ho hrefers
  obtain ⟨link, -, hlink⟩ := List.mem_map.mp (InText.refers_iff.mp hrefers)
  exact hfamily link (hlink ▸ Source.found_construct (hos o ho))

theorem detect_references (h : b.rule.detect source = .ok fs) : ∃ os : List Occurrence,
    fs.map Finding.location = os.map (fun o => locate source.path source.text o.start o.stop) ∧
    (os.filter (InText.refers Link.all)).Perm
      ((source.moduleReferences b.links).filter fun o => b.flags o.value) := by
  have hmodule : ∀ m : ModuleRule, (m.references source).filter (InText.refers Link.all) =
      (source.moduleReferences Link.all).filter fun o => refersTo o.value m.module :=
    fun m => filter_refers _
  have hnone : ∀ os : List Occurrence, os.filter (fun _ => false) = [] := by simp
  cases b with
  | forbidden m =>
    cases h
    exact ⟨_, places_map fun _ => rfl, .of_eq (hmodule m)⟩
  | caution m =>
    cases h
    exact ⟨_, places_map fun _ => rfl, .of_eq (hmodule m)⟩
  | buffer m =>
    cases h
    refine ⟨_, places_map fun _ => rfl, ((List.mergeSort_perm _ _).filter _).trans (.of_eq ?_)⟩
    have hbuffers : source.bufferCalls.filter (InText.refers Link.all) = [] :=
      filter_refers_other source .buffers (by simp [Listing.Family.constructs]) fun _ ho => ho
    rw [List.filter_append, hmodule, hbuffers, List.append_nil]
    rfl
  | dynamicCode =>
    cases h
    have hcalls : source.evalCalls.filter (InText.refers Link.all) = [] :=
      filter_refers_other source .dynamicCode (by simp [Listing.Family.constructs]) fun _ ho => ho
    exact ⟨_, places_map fun _ => rfl, .of_eq (hcalls.trans (hnone _).symm)⟩
  | wasmSync =>
    cases h
    have hcalls : source.wasmInstantiations.filter (InText.refers Link.all) = [] :=
      filter_refers_other source .wasmSync (by simp [Listing.Family.constructs]) fun _ ho => ho
    exact ⟨_, places_map fun _ => rfl, .of_eq (hcalls.trans (hnone _).symm)⟩
  | longTimer threshold =>
    obtain ⟨rs, hrs, rfl⟩ := detect_timers h
    obtain ⟨g, hg, rfl⟩ := mapM_ok hrs
    rw [List.filterMap_map]
    refine ⟨_, places_filterMap ?_, .of_eq ?_⟩
    · intro o ho f hf
      apply timerFinding_location threshold
      rw [hg o ho, ← hf]
      rfl
    · refine Eq.trans ?_ (hnone _).symm
      apply filter_refers_other source .timers (by simp [Listing.Family.constructs])
      exact fun _ ho => List.mem_of_mem_filter ho
  | dependency table =>
    cases h
    refine ⟨_, places_filterMap ?_, .of_eq ?_⟩
    · intro o _ f hf
      obtain ⟨flagged, -, rfl⟩ := Option.map_eq_some_iff.mp hf
      rfl
    · rw [filter_refers]
      apply List.filter_congr
      intro o _
      rw [Option.isSome_map, Bool.eq_iff_iff, flaggedPackage?_isSome]
      simp [BuiltIn.flags]

end Flags

/-- A specifier refers to a module exactly if its first part is the module's name; the imports and
requires of a package that the table lists are reported, and no others; and at most one rule of the
catalog reports a specifier. -/
theorem specifiers_classified :
    (∀ specifier module : String, '/' ∉ module.toList → ¬ "node:".toList <+: module.toList →
      (refersTo specifier module = true ↔ moduleOf specifier = module.toList)) ∧
    (∀ (table : List Replacement) (source : Source), ∃ fs : List Finding,
      (dependencyRule table).detect source = .ok fs ∧
      List.Forall₂ (Reports table source)
        ((source.moduleReferences [.staticImport, .require]).filter fun o => InTable table o.value) fs) ∧
    (∀ (specifier : String) (p q : List Char), IsPackage p → IsPackage q → Within specifier.toList p →
      Within specifier.toList q → p = q) ∧
    (∀ (b : BuiltIn) (source : Source) (fs : List Finding), b.rule.detect source = .ok fs →
      ∃ os : List Occurrence,
        fs.map Finding.location = os.map (fun o => locate source.path source.text o.start o.stop) ∧
        (os.filter (InText.refers Link.all)).Perm
          ((source.moduleReferences b.links).filter fun o => b.flags o.value)) ∧
    ∀ specifier : String, (catalog.filter (BuiltIn.flags specifier)).length ≤ 1 := by
  refine ⟨?_, ?_, ?_, ?_, catalog_flags⟩
  · intro specifier module hslash hscheme
    exact refersTo_iff_moduleOf hslash hscheme
  · intro table source
    exact ⟨dependencyFindings table source, rfl, dependencyFindings_reports table source⟩
  · intro specifier p q hp hq hpin hqin
    exact package_unique hp hq hpin hqin
  · intro b source fs h
    exact detect_references h

theorem specifiers_classified_odd :
    ('/' ∉ "fs".toList ∧ ¬ "node:".toList <+: "fs".toList ∧
      (refersTo "node:node:fs" "fs" = true ↔ moduleOf "node:node:fs" = "fs".toList) ∧
      moduleOf "node:node:fs" = "node:fs".toList ∧ moduleOf "node:fs//x" = "fs".toList) ∧
    IsPackage "@/pg".toList ∧ Within "@/pg//x".toList "@/pg".toList ∧
    ∀ p, IsPackage p → Within "@/pg//x".toList p → p = "@/pg".toList := by
  have hpackage : IsPackage ('@' :: [] ++ '/' :: "pg".toList) := .inScope (by simp) (by decide) (by decide)
  have hwithin : Within "@/pg//x".toList "@/pg".toList := .inr ⟨"/x".toList, rfl⟩
  refine ⟨⟨by decide, by decide, ?_, by decide, by decide⟩, hpackage, hwithin, ?_⟩
  · exact specifiers_classified.1 "node:node:fs" "fs" (by decide) (by decide)
  · intro p hp hpin
    exact specifiers_classified.2.2.1 "@/pg//x" p _ hp hpackage hpin hwithin

end EdgeAudit
