import Mathlib
import EdgeAudit.Proofs.JsonWriting
import EdgeAudit.Report.Format

namespace EdgeAudit

open Json Number

section Members

variable {key name : String} {v : Json} {value : Option Json} {ms : List (String × Json)}

theorem get?_cons : (Json.obj ((key, v) :: ms)).get? name =
    if key = name then some v else (Json.obj ms).get? name := by
  by_cases h : key = name <;> simp [Json.get?, h]

theorem get?_nil : (Json.obj []).get? name = none := rfl

theorem get?_optionalMember_append : (Json.obj (optionalMember key value ++ ms)).get? name =
    if key = name then value.or ((Json.obj ms).get? name) else (Json.obj ms).get? name := by
  cases value with
  | none => simp [optionalMember]
  | some v => simp [optionalMember, get?_cons]

theorem get?_optionalMember : (Json.obj (optionalMember key value)).get? name =
    if key = name then value else none := by
  cases value with
  | none => simp [optionalMember, get?_nil]
  | some v => simp [optionalMember, get?_cons, get?_nil]

def nonemptyArr {α : Type} (f : α → Json) (xs : List α) : Option Json :=
  if xs.isEmpty then none else some (.arr (xs.map f))

theorem optionalMember_nonemptyArr {α : Type} (key : String) (f : α → Json) (xs : List α) :
    (if xs.isEmpty then [] else [(key, .arr (xs.map f))]) = optionalMember key (nonemptyArr f xs) := by
  cases xs <;> rfl

theorem nonemptyArr_injective {α : Type} {f : α → Json} (hf : Function.Injective f) :
    Function.Injective (nonemptyArr f) := by
  intro xs ys h
  cases xs with
  | nil =>
    cases ys with
    | nil => rfl
    | cons y ys => cases h
  | cons x xs =>
    cases ys with
    | nil => cases h
    | cons y ys => exact List.map_injective_iff.mpr hf (Json.arr.inj (Option.some.inj h))

end Members

section Records

theorem map_str_injective : Function.Injective (Option.map Json.str) :=
  Option.map_injective fun _ _ => Json.str.inj

theorem map_int_injective : Function.Injective (Option.map Json.int) :=
  Option.map_injective fun _ _ => Json.int.inj

theorem Location.get?_toJson (l : Location) :
    l.toJson.get? "file" = some (.str l.file) ∧ l.toJson.get? "line" = some (.int l.line) ∧
    l.toJson.get? "column" = some (.int l.column) ∧ l.toJson.get? "end_line" = l.endLine.map .int ∧
    l.toJson.get? "end_column" = l.endColumn.map .int := by
  simp [toJson, get?_cons, get?_optionalMember_append, get?_optionalMember]

theorem Location.toJson_injective : Function.Injective Location.toJson := by
  intro a b h
  have hget := a.get?_toJson
  simp only [h, b.get?_toJson, Option.some.injEq, Json.str.injEq, Json.int.injEq, map_int_injective.eq_iff] at hget
  cases a
  cases b
  simp_all

theorem Suggestion.get?_toJson (s : Suggestion) :
    s.toJson.get? "message" = some (.str s.message) ∧
    s.toJson.get? "replacement" = s.replacement.map .str ∧ s.toJson.get? "package" = s.package.map .str ∧
    s.toJson.get? "import_statement" = s.importStatement.map .str ∧
    s.toJson.get? "docs_url" = s.docsUrl.map .str := by
  simp [toJson, get?_cons, get?_optionalMember_append, get?_optionalMember]

theorem Suggestion.toJson_injective : Function.Injective Suggestion.toJson := by
  intro a b h
  have hget := a.get?_toJson
  simp only [h, b.get?_toJson, Option.some.injEq, Json.str.injEq, map_str_injective.eq_iff] at hget
  cases a
  cases b
  simp_all

theorem Severity.name_injective : Function.Injective Severity.name := by
  intro a b h
  revert h
  cases a <;> cases b <;> decide

theorem Finding.get?_toJson (f : Finding) :
    f.toJson.get? "rule_id" = some (.str f.ruleId) ∧ f.toJson.get? "severity" = some (.str f.severity.name) ∧
    f.toJson.get? "message" = some (.str f.message) ∧ f.toJson.get? "location" = some f.location.toJson ∧
    f.toJson.get? "code_frame" = f.codeFrame.map .str ∧
    f.toJson.get? "suggestions" = nonemptyArr Suggestion.toJson f.suggestions := by
  rw [toJson, optionalMember_nonemptyArr]
  simp [get?_cons, get?_optionalMember_append, get?_optionalMember]

theorem Finding.toJson_injective : Function.Injective Finding.toJson := by
  intro a b h
  have hget := a.get?_toJson
  simp only [h, b.get?_toJson, Option.some.injEq, Json.str.injEq, map_str_injective.eq_iff,
    Severity.name_injective.eq_iff, Location.toJson_injective.eq_iff,
    (nonemptyArr_injective Suggestion.toJson_injective).eq_iff] at hget
  cases a
  cases b
  simp_all

theorem FileError.get?_toJson (e : FileError) :
    e.toJson.get? "file" = some (.str e.file) ∧ e.toJson.get? "message" = some (.str e.message) := by
  simp [toJson, get?_cons]

theorem FileError.toJson_injective : Function.Injective FileError.toJson := by
  intro a b h
  have hget := a.get?_toJson
  simp only [h, b.get?_toJson, Option.some.injEq, Json.str.injEq] at hget
  cases a
  cases b
  simp_all

end Records

def Number.Quantity.IsFinite : Quantity → Prop
  | .whole _ => True
  | .real x => x.IsFinite

def Number.Quantity.wholes : Quantity → List Int
  | .whole n => [n]
  | .real _ => []

def Location.wholes (l : Location) : List Int :=
  [l.line, l.column] ++ l.endLine.toList ++ l.endColumn.toList

/-- The whole numbers of a JSON report. -/
def ScanResult.wholes (r : ScanResult) : List Int :=
  r.counts.map (fun p => (p.2 : Int)) ++ r.findings.flatMap (fun f => f.location.wholes) ++
    [r.fileCount] ++ r.duration.wholes ++ r.cachedCount.toList

section Every

variable {whole : Int → Prop} {real : Binary64 → Prop}

theorem every_optionalMember {key : String} {value : Option Json} :
    (∀ m ∈ optionalMember key value, Every whole real m.2) ↔ ∀ j ∈ value, Every whole real j := by
  cases value <;> simp [optionalMember]

theorem every_map_str (value : Option String) : ∀ j ∈ value.map Json.str, Every whole real j := by
  intro j hj
  obtain ⟨s, -, rfl⟩ := Option.map_eq_some_iff.mp hj
  exact .str s

theorem every_map_int {value : Option Int} :
    (∀ j ∈ value.map Json.int, Every whole real j) ↔ ∀ n ∈ value.toList, whole n := by
  cases value <;> simp [every_int]

theorem every_nonemptyArr {α : Type} {f : α → Json} {xs : List α} :
    (∀ j ∈ nonemptyArr f xs, Every whole real j) ↔ ∀ x ∈ xs, Every whole real (f x) := by
  cases xs with
  | nil => simp [nonemptyArr]
  | cons x xs => simp [nonemptyArr, every_arr]

theorem Location.every_toJson {l : Location} :
    Every whole real l.toJson ↔ ∀ n ∈ l.wholes, whole n := by
  rw [toJson, every_obj, wholes]
  simp only [List.forall_mem_append, List.forall_mem_cons, every_optionalMember, every_map_int, every_int,
    every_str, true_and, List.not_mem_nil, false_implies, implies_true, and_true]

theorem Suggestion.every_toJson (s : Suggestion) : Every whole real s.toJson := by
  rw [toJson, every_obj]
  simp only [List.forall_mem_append, List.forall_mem_cons, every_optionalMember, every_str, true_and]
  exact ⟨⟨⟨every_map_str _, every_map_str _⟩, every_map_str _⟩, every_map_str _⟩

theorem Finding.every_toJson {f : Finding} :
    Every whole real f.toJson ↔ ∀ n ∈ f.location.wholes, whole n := by
  rw [toJson, optionalMember_nonemptyArr, every_obj]
  simp only [List.forall_mem_append, List.forall_mem_cons, every_optionalMember, every_nonemptyArr, every_str,
    Location.every_toJson, true_and, List.not_mem_nil, false_implies, implies_true, and_true]
  exact ⟨fun h => h.1.1, fun h => ⟨⟨h, every_map_str _⟩, fun s _ => s.every_toJson⟩⟩

theorem FileError.every_toJson (e : FileError) : Every whole real e.toJson := by
  rw [toJson, every_obj]
  simp [every_str]

theorem every_durationJson {q : Quantity} (hreal : ∀ x, q = .real x → real (x.roundTo 2)) :
    Every whole real (durationJson q) ↔ ∀ n ∈ q.wholes, whole n := by
  cases q with
  | whole n => simp [durationJson, every_int, Quantity.wholes]
  | real x => simp [durationJson, every_real, Quantity.wholes, hreal x rfl]

theorem ScanResult.every_toJson {r : ScanResult} (hreal : ∀ x, r.duration = .real x → real (x.roundTo 2)) :
    Every whole real r.toJson ↔ ∀ n ∈ r.wholes, whole n := by
  have hsummary : Every whole real r.summaryJson ↔ ∀ n ∈ r.counts.map (fun p => (p.2 : Int)), whole n := by
    rw [summaryJson, every_obj]
    simp only [List.forall_mem_map, every_int]
  rw [toJson, optionalMember_nonemptyArr, every_obj, wholes]
  simp only [List.forall_mem_append, List.forall_mem_cons, every_optionalMember, every_nonemptyArr, every_map_int,
    every_int, every_arr, List.forall_mem_map, List.forall_mem_flatMap, Finding.every_toJson, hsummary,
    every_durationJson hreal, FileError.every_toJson, List.not_mem_nil, false_implies, implies_true, and_true]
  tauto

end Every

namespace ScanResult

variable {r r' : ScanResult}

theorem get?_toJson (r : ScanResult) :
    r.toJson.get? "findings" = some (.arr (r.findings.map Finding.toJson)) ∧
    r.toJson.get? "file_count" = some (.int r.fileCount) ∧
    r.toJson.get? "cached_count" = r.cachedCount.map .int ∧
    r.toJson.get? "errors" = nonemptyArr FileError.toJson r.errors := by
  rw [toJson, optionalMember_nonemptyArr]
  simp [get?_cons, get?_optionalMember_append, get?_optionalMember]

theorem eq_of_toJson (h : r.toJson = r'.toJson) : r.findings = r'.findings ∧ r.fileCount = r'.fileCount ∧
    r.cachedCount = r'.cachedCount ∧ r.errors = r'.errors := by
  have hget := r'.get?_toJson
  simp only [← h, r.get?_toJson, Option.some.injEq, Json.arr.injEq, Json.int.injEq, map_int_injective.eq_iff,
    (List.map_injective_iff.mpr Finding.toJson_injective).eq_iff,
    (nonemptyArr_injective FileError.toJson_injective).eq_iff] at hget
  exact hget

theorem writable_toJson (h : r.duration.IsFinite) (hshort : ∀ n ∈ r.wholes, Short n) : Writable r.toJson := by
  refine (every_toJson fun x hx => ?_).mpr hshort
  rw [hx] at h
  exact Binary64.roundTo_isFinite 2 h

theorem render_json_eq_ok {cwd text : String} :
    r.render .json cwd = .ok text ↔ ∃ t, r.toJson.pretty? = some t ∧ text = t ++ "\n" := by
  rw [render]
  cases r.toJson.pretty? with
  | none => simp
  | some t => simp [eq_comm]

theorem short_of_render_json {cwd text : String} (h : r.render .json cwd = .ok text) :
    ∀ n ∈ r.wholes, Short n := by
  obtain ⟨t, ht, -⟩ := render_json_eq_ok.mp h
  have hwritten : (write? (some 2) 0 r.toJson).isSome = true := by
    rw [pretty?] at ht
    obtain ⟨cs, hcs, -⟩ := Option.map_eq_some_iff.mp ht
    rw [hcs]
    rfl
  exact (every_toJson fun _ _ => trivial).mp (short_of_write? hwritten)

theorem render_json_denotes (h : r.duration.IsFinite) (hshort : ∀ n ∈ r.wholes, Short n) (cwd : String) :
    ∃ text, r.render .json cwd = .ok text ∧ Denotes text r.toJson ∧ Ascii text.toList := by
  obtain ⟨t, ht, hdenotes, hascii⟩ := pretty?_writable (writable_toJson h hshort)
  exact ⟨t ++ "\n", render_json_eq_ok.mpr ⟨t, ht, rfl⟩, hdenotes, hascii⟩

theorem denotes_of_render_json {cwd text : String} (h : r.duration.IsFinite) (htext : r.render .json cwd = .ok text) :
    Denotes text r.toJson ∧ Ascii text.toList := by
  obtain ⟨t, ht, hdenotes⟩ := render_json_denotes h (short_of_render_json htext) cwd
  rw [htext] at ht
  obtain rfl := Except.ok.inj ht
  exact hdenotes

end ScanResult

def oddResult (endLine : Option Int) : ScanResult where
  findings := [⟨"edge/pattern:eval", .warning, "say \"\\n\" \u0007 😀", ⟨"/a/é.js", 1, 0, endLine, none⟩,
    some "> 1 | x\n", [⟨"", some "", none, none, none⟩]⟩]
  fileCount := 1
  duration := .real (.finite false 4526117625507348 (-52))
  cachedCount := some 0
  errors := [⟨"/a/b.js", "\t"⟩]

theorem oddResult_finite (endLine : Option Int) : (oddResult endLine).duration.IsFinite :=
  ⟨by norm_num, by norm_num, by norm_num, .inl (by norm_num)⟩

theorem oddResult_short (endLine : Option Int) (h : ∀ n ∈ endLine, n.natAbs < 10) :
    ∀ n ∈ (oddResult endLine).wholes, n.natAbs < 10 ^ maxWholeDigits := by
  intro n hn
  simp only [ScanResult.wholes, oddResult, Location.wholes, Quantity.wholes, ScanResult.counts, ScanResult.count,
    Severity.all] at hn
  have hsmall : n.natAbs < 10 := by
    have hcases : endLine = some n ∨ n = 1 ∨ n = 0 := by
      simp at hn
      tauto
    rcases hcases with hend | rfl | rfl
    · exact h n hend
    · decide
    · decide
  exact hsmall.trans_le (Nat.le_self_pow (by decide) 10)

end EdgeAudit
