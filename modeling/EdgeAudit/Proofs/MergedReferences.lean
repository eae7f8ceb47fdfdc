import EdgeAudit.Proofs.OccurrencePlaces

namespace EdgeAudit

open Listing Script Text

variable {os es : List Occurrence} {o : Occurrence}

theorem eq_of_starts (hos : os.Pairwise fun a b => a.start < b.start)
    (hes : es.Pairwise fun a b => a.start < b.start) (h : ∀ o, o ∈ os ↔ o ∈ es) : os = es := by
  have hnodup : ∀ {xs : List Occurrence}, xs.Pairwise (fun a b => a.start < b.start) → xs.Nodup := by
    intro xs hxs
    exact List.Nodup.of_map _ (starts_nodup hxs)
  apply List.Perm.eq_of_pairwise _ hos hes
  · exact (List.perm_ext_iff_of_nodup (hnodup hos) (hnodup hes)).mpr h
  · intro a b _ _ hab hba
    omega

namespace InText

open Pattern

variable {c : Construct} {cs : List Char} {links : List Link} {constructs : List Construct}

theorem construct_of_mem (h : o ∈ occurrences (pattern c) c (named c) cs) : o.construct = c := by
  obtain ⟨f, -, rfl⟩ := List.mem_map.mp h
  rfl

theorem occurrences_starts (c : Construct) (cs : List Char) :
    (occurrences (pattern c) c (named c) cs).Pairwise fun a b => a.start < b.start := by
  apply List.pairwise_map.mpr
  exact findAll_starts (pattern c) cs

theorem nodup_starts (cs : List Char) (h : constructs.Nodup) :
    ((constructs.flatMap fun c => occurrences (pattern c) c (named c) cs).map
      Occurrence.start).Nodup := by
  rw [List.map_flatMap, List.nodup_flatMap]
  constructor
  · intro c _
    exact starts_nodup (occurrences_starts c cs)
  · refine h.imp ?_
    intro c c' hne n hn hn'
    obtain ⟨o, ho, rfl⟩ := List.mem_map.mp hn
    obtain ⟨o', ho', hstart⟩ := List.mem_map.mp hn'
    obtain ⟨f, hf, rfl⟩ := List.mem_map.mp ho
    obtain ⟨f', hf', rfl⟩ := List.mem_map.mp ho'
    exact hne (construct_of_start hf hf' hstart.symm)

theorem mem_inOrder (h : constructs.Nodup) :
    o ∈ inOrder (constructs.flatMap fun c => occurrences (pattern c) c (named c) cs) ↔
      ∃ c ∈ constructs, o ∈ occurrences (pattern c) c (named c) cs := by
  rw [inOrder_of_nodup (nodup_starts cs h), List.mem_mergeSort, List.mem_flatMap]

theorem moduleReferences_eq (links : List Link) (cs : List Char) : moduleReferences links cs =
    inOrder (((Link.all.filter links.contains).map .reference).flatMap fun c =>
      occurrences (pattern c) c (named c) cs) := by
  rw [List.flatMap_map]
  rfl

theorem evalCalls_eq (cs : List Char) : evalCalls cs =
    inOrder ([Construct.evalCall, .newFunction].flatMap fun c =>
      occurrences (pattern c) c (named c) cs) := by
  simp only [List.flatMap_cons, List.flatMap_nil, List.append_nil]
  rfl

/-- The occurrences of some constructs in the order of their places: each construct has all that its
pattern finds, and nothing else occurs. -/
structure MergeOf (cs : List Char) (constructs : List Construct) (os : List Occurrence) : Prop where
  each : ∀ c ∈ constructs, os.filter (fun o => o.construct = c) =
    occurrences (pattern c) c (named c) cs
  only : ∀ o ∈ os, o.construct ∈ constructs
  ordered : os.Pairwise fun a b => a.start < b.start

theorem mergeOf_inOrder (h : constructs.Nodup) : MergeOf cs constructs
    (inOrder (constructs.flatMap fun c => occurrences (pattern c) c (named c) cs)) := by
  have hordered := inOrder_starts (constructs.flatMap fun c => occurrences (pattern c) c (named c) cs)
  refine ⟨?_, ?_, hordered⟩
  · intro c hc
    apply eq_of_starts (hordered.filter _) (occurrences_starts c cs)
    intro o
    rw [List.mem_filter, mem_inOrder h, decide_eq_true_eq]
    constructor
    · rintro ⟨⟨c', -, ho⟩, hconstruct⟩
      rwa [← hconstruct, construct_of_mem ho]
    · intro ho
      exact ⟨⟨c, hc, ho⟩, construct_of_mem ho⟩
  · intro o ho
    obtain ⟨c, hc, ho⟩ := (mem_inOrder h).mp ho
    rwa [construct_of_mem ho]

theorem MergeOf.congr {constructs' : List Construct} (h : MergeOf cs constructs os)
    (hsame : ∀ c, c ∈ constructs ↔ c ∈ constructs') : MergeOf cs constructs' os :=
  ⟨fun c hc => h.each c ((hsame c).mpr hc), fun o ho => (hsame _).mp (h.only o ho), h.ordered⟩

theorem mergeOf_moduleReferences (links : List Link) (cs : List Char) :
    MergeOf cs (links.map .reference) (moduleReferences links cs) := by
  have hnodup : ((Link.all.filter links.contains).map Construct.reference).Nodup := by
    have hall : Link.all.Nodup := by decide
    exact (hall.filter _).map fun a b h => Construct.reference.inj h
  rw [moduleReferences_eq]
  apply (mergeOf_inOrder hnodup).congr
  intro c
  simp only [List.mem_map, List.mem_filter, InTree.mem_links, true_and, List.contains_iff_mem]

theorem mergeOf_evalCalls (cs : List Char) :
    MergeOf cs [.evalCall, .newFunction] (evalCalls cs) := by
  rw [evalCalls_eq]
  exact mergeOf_inOrder (by decide)

theorem MergeOf.mem_iff (h : MergeOf cs constructs os) :
    o ∈ os ↔ ∃ c ∈ constructs, o ∈ occurrences (pattern c) c (named c) cs := by
  constructor
  · intro ho
    refine ⟨o.construct, h.only o ho, ?_⟩
    rw [← h.each _ (h.only o ho)]
    exact List.mem_filter.mpr ⟨ho, by simp⟩
  · rintro ⟨c, hc, ho⟩
    rw [← h.each c hc] at ho
    exact (List.mem_filter.mp ho).1

def refers (links : List Link) (o : Occurrence) : Bool :=
  (links.map .reference).contains o.construct

theorem refers_iff : refers links o = true ↔ o.construct ∈ links.map .reference :=
  List.contains_iff_mem

theorem moduleReferences_restrict (links : List Link) (cs : List Char) :
    moduleReferences links cs = (moduleReferences Link.all cs).filter (refers links) := by
  have hpart := mergeOf_moduleReferences links cs
  have hall := mergeOf_moduleReferences Link.all cs
  apply eq_of_starts hpart.ordered (hall.ordered.filter _)
  intro o
  rw [List.mem_filter, refers_iff, hpart.mem_iff, hall.mem_iff]
  constructor
  · rintro ⟨c, hc, ho⟩
    obtain ⟨link, hlink, rfl⟩ := List.mem_map.mp hc
    exact ⟨⟨_, List.mem_map_of_mem (InTree.mem_links link), ho⟩, construct_of_mem ho ▸ hc⟩
  · rintro ⟨⟨c, -, ho⟩, hlinks⟩
    exact ⟨c, construct_of_mem ho ▸ hlinks, ho⟩

end InText

namespace InTree

theorem moduleReference?_restrict (links : List Link) (cs : Array Char) (t : Tree) :
    moduleReference? links cs t =
      (moduleReference? Link.all cs t).filter (InText.refers links) := by
  simp only [moduleReference?]
  cases reference? cs t with
  | none => rfl
  | some found =>
    obtain ⟨link, source⟩ := found
    cases hvalue : stringValue? cs source with
    | none => simp [hvalue]
    | some value =>
      have hrefers : InText.refers links (occurrence t (.reference link) value none) =
          links.contains link := by
        simp [InText.refers, occurrence]
      by_cases hlink : link ∈ links <;> simp [hvalue, mem_links, Option.filter_some, hrefers, hlink]

theorem moduleReferences_restrict (links : List Link) (cs : Array Char) (root : Tree) :
    moduleReferences links cs root =
      (moduleReferences Link.all cs root).filter (InText.refers links) := by
  rw [moduleReferences, moduleReferences, List.filter_filterMap]
  exact congrArg (fun f => root.walk.filterMap f) (funext (moduleReference?_restrict links cs))

end InTree

/-- Looking for several constructs at once loses nothing, and to ask for fewer ways to refer to a
module is to leave the other ones out of the answer. -/
theorem Source.references_merge :
    (∀ (s : Spot) (c c' : Construct), (InText.pattern c).read some s ≠ none →
      (InText.pattern c').read some s ≠ none → c = c') ∧
    (∀ links cs, InText.MergeOf cs (links.map .reference) (InText.moduleReferences links cs)) ∧
    (∀ cs, InText.MergeOf cs [.evalCall, .newFunction] (InText.evalCalls cs)) ∧
    ∀ (s : Source) (links : List Link),
      s.moduleReferences links = (s.moduleReferences Link.all).filter (InText.refers links) := by
  refine ⟨?_, InText.mergeOf_moduleReferences, InText.mergeOf_evalCalls, ?_⟩
  · intro s c c' hread hread'
    exact InText.construct_of_read rfl hread hread'
  · intro s links
    unfold moduleReferences
    cases s.tree with
    | none => exact InText.moduleReferences_restrict links s.text
    | some t => exact InTree.moduleReferences_restrict links s.text.toArray t

theorem Source.references_merge_require :
    let s : Spot := ⟨none, 0, "require('fs')".toList, []⟩
    (InText.pattern (.reference .require)).read some s ≠ none ∧
    (∀ c, (InText.pattern c).read some s ≠ none → c = .reference .require) ∧
    InText.moduleReferences [.require] s.rest =
      (InText.moduleReferences Link.all s.rest).filter (InText.refers [.require]) := by
  intro s
  have hread : (InText.pattern (.reference .require)).read some s ≠ none := by
    have hsome : ((InText.pattern (.reference .require)).read some s).isSome = true := by decide +kernel
    exact Option.isSome_iff_ne_none.mp hsome
  obtain ⟨hunique, -, -, hfilter⟩ := references_merge
  exact ⟨hread, fun c hc => hunique s c _ hc hread, hfilter ⟨"a.js", s.rest, .auto, false, none⟩ [.require]⟩

end EdgeAudit
