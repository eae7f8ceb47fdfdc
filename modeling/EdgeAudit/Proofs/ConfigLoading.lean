import EdgeAudit.Config.Load
import EdgeAudit.Proofs.AcceptedDocuments
import EdgeAudit.Proofs.ByteOffsets
import EdgeAudit.Proofs.DocumentFaults
import EdgeAudit.Proofs.ScanReturns

/-!
Loading a configuration, stage by stage (`Loads`). Besides a configuration and the refusal of one there are
four ways out: a path that is too long to be looked up, bytes that are no text, a document with something
unreadable, nested too deeply or with a text that has no value, and a value that cannot be written where it
is shown or names a rule.

A file is decoded as a whole here and its tokens are all read before its nodes. Where a document has
several faults, another one may be met first by a reader that takes a piece at a time; what is said below
does not depend on this.
-/

namespace EdgeAudit

open Text Yaml

theorem none_or_first {α ε : Type} (p : α → Except ε Bool) (xs : List α) :
    (∀ x ∈ xs, p x = .ok false) ∨ ∃ before x after, xs = before ++ x :: after ∧
      (∀ y ∈ before, p y = .ok false) ∧ p x ≠ .ok false := by
  induction xs with
  | nil => exact .inl (by simp)
  | cons x xs ih =>
    by_cases hx : p x = .ok false
    · rcases ih with hall | ⟨before, y, after, rfl, hbefore, hy⟩
      · exact .inl (List.forall_mem_cons.mpr ⟨hx, hall⟩)
      · exact .inr ⟨x :: before, y, after, rfl, List.forall_mem_cons.mpr ⟨hx, hbefore⟩, hy⟩
    · exact .inr ⟨[], x, xs, rfl, by simp, hx⟩

theorem findM?_append {α ε : Type} {p : α → Except ε Bool} {before rest : List α}
    (h : ∀ y ∈ before, p y = .ok false) : (before ++ rest).findM? p = rest.findM? p := by
  induction before with
  | nil => rfl
  | cons x before ih =>
    rw [List.forall_mem_cons] at h
    rw [List.cons_append, List.findM?, h.1]
    exact ih h.2

namespace Files

/-- The path at which a configuration is read: the given one, or the first of the usual ones with a
file. -/
inductive Chooses (f : Files) (cwd : String) : Option String → String → Prop
  | given (path : String) : Chooses f cwd (some path) path
  | found {before after : List String} {path : String}
      (hpaths : configNames.map (Path.join cwd) = before ++ path :: after)
      (hbefore : ∀ p ∈ before, f.isFile p = .ok false) (hpath : f.isFile path = .ok true) :
      Chooses f cwd none path

inductive MeetsOverlong (f : Files) (cwd : String) : Option String → Prop
  | searched {before after : List String} {path : String}
      (hpaths : configNames.map (Path.join cwd) = before ++ path :: after)
      (hbefore : ∀ p ∈ before, f.isFile p = .ok false) (hpath : f.Overlong path) :
      MeetsOverlong f cwd none
  | chosen {asked : Option String} {path : String} (h : Chooses f cwd asked path)
      (hpath : f.Overlong (Path.tidy (Path.join cwd path))) : MeetsOverlong f cwd asked

def NoneThere (f : Files) (cwd : String) (asked : Option String) : Prop :=
  asked = none ∧ ∀ p ∈ configNames.map (Path.join cwd), f.isFile p = .ok false

structure ConfigBytes (f : Files) (cwd : String) (asked : Option String) (path : String)
    (bytes : ByteArray) : Prop where
  chosen : f.Chooses cwd asked path
  isFile : f.isFile (Path.tidy (Path.join cwd path)) = .ok true
  read : f.readBytes (Path.tidy (Path.join cwd path)) = .ok bytes

def ConfigText (f : Files) (cwd : String) (asked : Option String) (path : String) (text : List Char) :
    Prop :=
  ∃ bytes chars, f.ConfigBytes cwd asked path bytes ∧ bytes.toList = utf8Bytes chars ∧
    unifyLineEnds chars = text

def ConfigValue (f : Files) (stack : Stack) (cwd : String) (asked : Option String) (v : Value) : Prop :=
  ∃ path text, f.ConfigText cwd asked path text ∧ Yaml.load stack.nodes text = .ok v

inductive Loads (f : Files) (stack : Stack) (cwd : String) (asked : Option String) :
    Except LoadError Config → Prop
  | absent (h : f.NoneThere cwd asked) : Loads f stack cwd asked (.ok {})
  | overlong (h : f.MeetsOverlong cwd asked) : Loads f stack cwd asked (.error (.lookup .nameTooLong))
  | missing {path : String} (h : f.Chooses cwd asked path)
      (hfile : f.isFile (Path.tidy (Path.join cwd path)) = .ok false) :
      Loads f stack cwd asked (.error (.config (.notFound (Path.tidy path))))
  | undecoded {path : String} {bytes : ByteArray} {fault : Utf8Fault}
      (h : f.ConfigBytes cwd asked path bytes) (hdecode : decodeUtf8 bytes.toList = .error fault) :
      Loads f stack cwd asked (.error (.decoding fault))
  | unreadable {path : String} {text : List Char} {e : YamlError} (h : f.ConfigText cwd asked path text)
      (hload : Yaml.load stack.nodes text = .error e) (he : e = .malformed ∨ e = .badNode) :
      Loads f stack cwd asked (.error (.config (.unreadable (Path.name path))))
  | valueless {path : String} {text : List Char} {e : YamlError} (h : f.ConfigText cwd asked path text)
      (hload : Yaml.load stack.nodes text = .error e) (he : ¬ (e = .malformed ∨ e = .badNode)) :
      Loads f stack cwd asked (.error (.value e))
  | accepted {v : Value} {c : Config} (h : f.ConfigValue stack cwd asked v) (hv : Config.ofValue stack.values v = .ok c) :
      Loads f stack cwd asked (.ok c)
  | refused {v : Value} {e : ConfigError} (h : f.ConfigValue stack cwd asked v)
      (hv : Config.ofValue stack.values v = .error (.config e)) : Loads f stack cwd asked (.error (.config e))
  | unwritten {v : Value} {fault : Value.WriteFault} (h : f.ConfigValue stack cwd asked v)
      (hv : Config.ofValue stack.values v = .error (.unwritten fault)) :
      Loads f stack cwd asked (.error (.unwritten fault))

section Stages

variable {f : Files} {stack : Stack} {cwd path : String} {asked : Option String}

theorem isFile_error {fault : LookupFault} :
    f.isFile path = .error fault ↔ f.Overlong path ∧ fault = .nameTooLong := by
  unfold isFile test Overlong
  by_cases hnul : '\x00' ∈ path.toList
  · simp [hnul]
  · simp only [hnul, List.contains_eq_mem, decide_false, Bool.false_eq_true, if_false]
    by_cases hlong : maxPathBytes < path.utf8ByteSize
    · simp [hlong, eq_comm]
    · simp only [hlong, if_false]
      cases hfind : f.find path with
      | ok found => simp
      | error fault => cases fault <;> simp [eq_comm]

theorem readBytes_of_isFile (h : f.isFile path = .ok true) : ∃ bytes, f.readBytes path = .ok bytes := by
  unfold isFile test at h
  unfold readBytes
  by_cases hnul : '\x00' ∈ path.toList
  · simp [hnul] at h
  · simp only [hnul, List.contains_eq_mem, decide_false, Bool.false_eq_true, if_false] at h
    split at h
    · cases h
    · cases hfind : f.find path with
      | error fault => cases fault <;> simp [hfind] at h
      | ok found =>
        obtain ⟨real, entry⟩ := found
        cases entry with
        | file bytes mtime => exact ⟨bytes, rfl⟩
        | _ => simp [hfind] at h

theorem readText_of_bytes {bytes : ByteArray} (h : f.readBytes path = .ok bytes) :
    f.readText path = unifyLineEnds <$> (decodeUtf8 bytes.toList).mapError .decoding := by
  rw [readText, h, mapError_ok]
  exact bind_pure_comp unifyLineEnds ((decodeUtf8 bytes.toList).mapError ReadFault.decoding)

theorem ConfigBytes.of_isFile (h : f.Chooses cwd asked path)
    (hfile : f.isFile (Path.tidy (Path.join cwd path)) = .ok true) : ∃ bytes, f.ConfigBytes cwd asked path bytes := by
  obtain ⟨bytes, hbytes⟩ := readBytes_of_isFile hfile
  exact ⟨bytes, h, hfile, hbytes⟩

theorem findConfig_none (h : ∀ p ∈ configNames.map (Path.join cwd), f.isFile p = .ok false) :
    f.findConfig cwd = .ok none := by
  rw [findConfig, ← List.append_nil (configNames.map _), findM?_append h]
  rfl

theorem loadConfig_chosen (h : f.Chooses cwd asked path) :
    f.loadConfig stack cwd asked = f.loadConfigFile stack cwd path := by
  cases h with
  | given => rfl
  | found hpaths hbefore hpath =>
    have hfind : f.findConfig cwd = .ok (some path) := by
      rw [findConfig, hpaths, findM?_append hbefore, List.findM?, hpath]
      rfl
    rw [loadConfig, hfind]
    rfl

theorem loadConfig_overlong (h : f.MeetsOverlong cwd asked) :
    f.loadConfig stack cwd asked = .error (.lookup .nameTooLong) := by
  cases h with
  | searched hpaths hbefore hpath =>
    have hfind : f.findConfig cwd = .error .nameTooLong := by
      rw [findConfig, hpaths, findM?_append hbefore, List.findM?, isFile_error.mpr ⟨hpath, rfl⟩]
      rfl
    rw [loadConfig, hfind]
    rfl
  | chosen h hpath =>
    rw [loadConfig_chosen h, loadConfigFile, isFile_error.mpr ⟨hpath, rfl⟩]
    rfl

theorem loadConfig_missing (h : f.Chooses cwd asked path)
    (hfile : f.isFile (Path.tidy (Path.join cwd path)) = .ok false) :
    f.loadConfig stack cwd asked = .error (.config (.notFound (Path.tidy path))) := by
  rw [loadConfig_chosen h, loadConfigFile, hfile]
  rfl

theorem loadConfig_undecoded {bytes : ByteArray} {fault : Utf8Fault}
    (h : f.ConfigBytes cwd asked path bytes) (hdecode : decodeUtf8 bytes.toList = .error fault) :
    f.loadConfig stack cwd asked = .error (.decoding fault) := by
  have hread : f.readText (Path.tidy (Path.join cwd path)) = .error (.decoding fault) := by
    rw [readText_of_bytes h.read, hdecode]
    rfl
  rw [loadConfig_chosen h.chosen, loadConfigFile, h.isFile]
  simp only [hread]
  rfl

theorem loadConfig_text {text : List Char} (h : f.ConfigText cwd asked path text) :
    f.loadConfig stack cwd asked = match Yaml.load stack.nodes text with
      | .error .malformed => .error (.config (.unreadable (Path.name path)))
      | .error .badNode => .error (.config (.unreadable (Path.name path)))
      | .error e => .error (.value e)
      | .ok v => (Config.ofValue stack.values v).mapError .ofDocument := by
  obtain ⟨bytes, chars, hbytes, hchars, rfl⟩ := h
  have hread : f.readText (Path.tidy (Path.join cwd path)) = .ok (unifyLineEnds chars) := by
    rw [readText_of_bytes hbytes.read, decodeUtf8_eq_ok.mpr hchars]
    rfl
  rw [loadConfig_chosen hbytes.chosen, loadConfigFile, hbytes.isFile]
  simp only [hread]
  rfl

theorem loadConfig_value {v : Value} (h : f.ConfigValue stack cwd asked v) :
    f.loadConfig stack cwd asked = (Config.ofValue stack.values v).mapError .ofDocument := by
  obtain ⟨path, text, htext, hload⟩ := h
  rw [loadConfig_text htext, hload]

theorem loadConfig_unreadable {text : List Char} {e : YamlError} (h : f.ConfigText cwd asked path text)
    (hload : Yaml.load stack.nodes text = .error e) (he : e = .malformed ∨ e = .badNode) :
    f.loadConfig stack cwd asked = .error (.config (.unreadable (Path.name path))) := by
  rw [loadConfig_text h, hload]
  rcases he with rfl | rfl <;> rfl

theorem loadConfig_valueless {text : List Char} {e : YamlError} (h : f.ConfigText cwd asked path text)
    (hload : Yaml.load stack.nodes text = .error e) (he : ¬ (e = .malformed ∨ e = .badNode)) :
    f.loadConfig stack cwd asked = .error (.value e) := by
  rw [loadConfig_text h, hload]
  cases e with
  | malformed => exact absurd (.inl rfl) he
  | badNode => exact absurd (.inr rfl) he
  | _ => rfl

theorem Loads.loadConfig_eq {r : Except LoadError Config} (h : f.Loads stack cwd asked r) :
    f.loadConfig stack cwd asked = r := by
  cases h with
  | absent h =>
    obtain ⟨rfl, hnone⟩ := h
    rw [loadConfig, findConfig_none hnone]
    rfl
  | overlong h => exact loadConfig_overlong h
  | missing h hfile => exact loadConfig_missing h hfile
  | undecoded h hdecode => exact loadConfig_undecoded h hdecode
  | unreadable h hload he => exact loadConfig_unreadable h hload he
  | valueless h hload he => exact loadConfig_valueless h hload he
  | accepted h hv => rw [loadConfig_value h, hv, mapError_ok]
  | refused h hv => rw [loadConfig_value h, hv, mapError_error, LoadError.ofDocument]
  | unwritten h hv => rw [loadConfig_value h, hv, mapError_error, LoadError.ofDocument]

theorem choice_cases (f : Files) (cwd : String) (asked : Option String) :
    f.NoneThere cwd asked ∨ f.MeetsOverlong cwd asked ∨ ∃ path, f.Chooses cwd asked path := by
  cases asked with
  | some path => exact .inr (.inr ⟨path, .given path⟩)
  | none =>
    rcases none_or_first f.isFile (configNames.map (Path.join cwd)) with
      hnone | ⟨before, path, after, hpaths, hbefore, hpath⟩
    · exact .inl ⟨rfl, hnone⟩
    · cases htest : f.isFile path with
      | error fault => exact .inr (.inl (.searched hpaths hbefore (isFile_error.mp htest).1))
      | ok there =>
        cases there with
        | false => exact absurd htest hpath
        | true => exact .inr (.inr ⟨path, .found hpaths hbefore htest⟩)

theorem ConfigText.loads {text : List Char} (h : f.ConfigText cwd asked path text) :
    ∃ r, f.Loads stack cwd asked r := by
  cases hload : Yaml.load stack.nodes text with
  | error e =>
    by_cases he : e = .malformed ∨ e = .badNode
    · exact ⟨_, .unreadable h hload he⟩
    · exact ⟨_, .valueless h hload he⟩
  | ok v =>
    have hvalue : f.ConfigValue stack cwd asked v := ⟨path, text, h, hload⟩
    cases hv : Config.ofValue stack.values v with
    | ok c => exact ⟨_, .accepted hvalue hv⟩
    | error e =>
      cases e with
      | config e => exact ⟨_, .refused hvalue hv⟩
      | unwritten fault => exact ⟨_, .unwritten hvalue hv⟩

theorem Chooses.loads (h : f.Chooses cwd asked path) : ∃ r, f.Loads stack cwd asked r := by
  cases hfile : f.isFile (Path.tidy (Path.join cwd path)) with
  | error fault => exact ⟨_, .overlong (.chosen h (isFile_error.mp hfile).1)⟩
  | ok there =>
    cases there with
    | false => exact ⟨_, .missing h hfile⟩
    | true =>
      obtain ⟨bytes, hbytes⟩ := ConfigBytes.of_isFile h hfile
      cases hdecode : decodeUtf8 bytes.toList with
      | error fault => exact ⟨_, .undecoded hbytes hdecode⟩
      | ok chars =>
        exact ConfigText.loads ⟨bytes, chars, hbytes, decodeUtf8_eq_ok.mp hdecode, rfl⟩

theorem loads_iff {r : Except LoadError Config} : f.Loads stack cwd asked r ↔ f.loadConfig stack cwd asked = r := by
  refine ⟨Loads.loadConfig_eq, ?_⟩
  rintro rfl
  have hloads : ∃ r, f.Loads stack cwd asked r := by
    rcases choice_cases f cwd asked with hnone | hlong | ⟨path, hpath⟩
    · exact ⟨_, .absent hnone⟩
    · exact ⟨_, .overlong hlong⟩
    · exact hpath.loads
  obtain ⟨r, hr⟩ := hloads
  rwa [hr.loadConfig_eq]

end Stages

def HoldsNoText (f : Files) (cwd : String) (asked : Option String) : Prop :=
  ∃ path bytes, f.ConfigBytes cwd asked path bytes ∧ ∀ chars, bytes.toList ≠ utf8Bytes chars

/-- The configuration file holds a text with something that can keep it from having a value. -/
def HoldsNoValue (f : Files) (stack : Stack) (cwd : String) (asked : Option String) (e : YamlError) : Prop :=
  ∃ path text, f.ConfigText cwd asked path text ∧ Stops stack.nodes text e

section Outcomes

variable {f : Files} {stack : Stack} {cwd path : String} {asked : Option String} {text : List Char}

theorem loadConfig_returns : (∃ c, f.loadConfig stack cwd asked = .ok c) ↔ f.NoneThere cwd asked ∨
    ∃ v, f.ConfigValue stack cwd asked v ∧ v.Accepted ∧ v.HasWritableIds stack.values := by
  simp only [← loads_iff]
  constructor
  · rintro ⟨c, hc⟩
    cases hc with
    | absent h => exact .inl h
    | accepted h hv => exact .inr ⟨_, h, judged_ofValue.returns.mp ⟨c, hv⟩⟩
  · rintro (hnone | ⟨v, hvalue, hv⟩)
    · exact ⟨_, .absent hnone⟩
    · obtain ⟨c, hc⟩ := judged_ofValue.returns.mpr hv
      exact ⟨c, .accepted hvalue hc⟩

theorem loadConfig_lookup :
    (∃ fault, f.loadConfig stack cwd asked = .error (.lookup fault)) ↔ f.MeetsOverlong cwd asked := by
  simp only [← loads_iff]
  constructor
  · rintro ⟨fault, h⟩
    cases h with
    | overlong h => exact h
  · intro h
    exact ⟨_, .overlong h⟩

theorem holdsNoText_of_decoding {fault : Utf8Fault}
    (h : f.loadConfig stack cwd asked = .error (.decoding fault)) : f.HoldsNoText cwd asked := by
  rw [← loads_iff] at h
  cases h with
  | undecoded h hdecode =>
    refine ⟨_, _, h, fun chars hchars => ?_⟩
    rw [decodeUtf8_eq_ok.mpr hchars] at hdecode
    cases hdecode

theorem loadConfig_decoding {bytes : ByteArray} (h : f.ConfigBytes cwd asked path bytes)
    (hnone : ∀ chars, bytes.toList ≠ utf8Bytes chars) :
    ∃ fault, f.loadConfig stack cwd asked = .error (.decoding fault) := by
  cases hdecode : decodeUtf8 bytes.toList with
  | error fault => exact ⟨fault, loadConfig_undecoded h hdecode⟩
  | ok chars => exact absurd (decodeUtf8_eq_ok.mp hdecode) (hnone chars)

theorem holdsNoValue_of_value {e : YamlError} (h : f.loadConfig stack cwd asked = .error (.value e)) :
    f.HoldsNoValue stack cwd asked e := by
  rw [← loads_iff] at h
  cases h with
  | valueless h hload he =>
    rcases load_error hload with hmalformed | hbad | hstops
    · exact absurd (.inl hmalformed) he
    · exact absurd (.inr hbad) he
    · exact ⟨_, _, h, hstops⟩

theorem loadConfig_tooDeep (h : f.ConfigText cwd asked path text)
    (hdeep : Node.ofText stack.nodes text = .error .tooDeep) :
    f.loadConfig stack cwd asked = .error (.value .tooDeep) :=
  loadConfig_valueless h (load_eq_error.mpr (.inl hdeep)) (by simp)

theorem loadConfig_faults {root : Node} (h : f.ConfigText cwd asked path text)
    (hroot : Node.ofText stack.nodes text = .ok (some root)) (hfaults : root.faults ≠ [])
    (hvalues : ∀ e ∈ root.faults, ¬ (e = .malformed ∨ e = .badNode)) :
    ∃ e ∈ root.faults, f.loadConfig stack cwd asked = .error (.value e) := by
  obtain ⟨e, hhead⟩ := Option.isSome_iff_exists.mp (List.isSome_head?.mpr hfaults)
  have hmem := List.mem_of_mem_head? hhead
  exact ⟨e, hmem, loadConfig_valueless h (load_eq_error.mpr (.inr ⟨root, hroot, hhead⟩)) (hvalues e hmem)⟩

theorem loadConfig_unwritten {fault : Value.WriteFault} :
    f.loadConfig stack cwd asked = .error (.unwritten fault) ↔
      ∃ v, f.ConfigValue stack cwd asked v ∧ v.Shows stack.values fault := by
  rw [← loads_iff]
  constructor
  · intro h
    cases h with
    | unwritten h hv => exact ⟨_, h, (judged_ofValue.stops fault).mp hv⟩
  · rintro ⟨v, h, hv⟩
    exact .unwritten h ((judged_ofValue.stops fault).mpr hv)

end Outcomes

def configured (bytes : ByteArray) : Files :=
  ⟨.dir [("T", .dir [("project", .dir [("edgecompat.config.yaml", .file bytes 0)])])]⟩

theorem configured_bytes (bytes : ByteArray) :
    (configured bytes).ConfigBytes "/T/project" none "/T/project/edgecompat.config.yaml" bytes := by
  have hjoin : Path.tidy (Path.join "/T/project" "/T/project/edgecompat.config.yaml") =
      "/T/project/edgecompat.config.yaml" := by decide +kernel
  have hparts : Path.parts "/T/project/edgecompat.config.yaml" =
      ["T", "project", "edgecompat.config.yaml"] := by decide +kernel
  have hshort : ∀ n ∈ ["T", "project", "edgecompat.config.yaml"], ¬ maxNameBytes < n.utf8ByteSize := by
    decide +kernel
  have hfind : (configured bytes).find "/T/project/edgecompat.config.yaml" =
      .ok (["T", "project", "edgecompat.config.yaml"], .file bytes 0) := by
    simp [find, hparts, hshort, configured, Entry.walk, Entry.at?, Entry.child?, assocGet?]
  have hwhole : ¬ maxPathBytes < "/T/project/edgecompat.config.yaml".utf8ByteSize := by decide +kernel
  have hfile : (configured bytes).isFile "/T/project/edgecompat.config.yaml" = .ok true := by
    simp [isFile, test, hfind, hwhole]
  have hpaths : configNames.map (Path.join "/T/project") = [] ++ "/T/project/edgecompat.config.yaml" ::
      (configNames.drop 1).map (Path.join "/T/project") := by decide +kernel
  refine ⟨.found hpaths (by simp) hfile, by rw [hjoin, hfile], ?_⟩
  rw [hjoin, readBytes, hfind]

end Files

end EdgeAudit
