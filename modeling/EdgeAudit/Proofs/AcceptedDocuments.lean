import Mathlib
import EdgeAudit.Config.Load
import EdgeAudit.Proofs.FileWrites
import EdgeAudit.Proofs.IntegerText

namespace EdgeAudit

open Number

/-- A check returns on one condition, and stops at a value that cannot be written on another. -/
structure Judged {α : Type} (x : Except DocumentError α) (accepted : Prop)
    (shows : Value.WriteFault → Prop) : Prop where
  returns : (∃ a, x = .ok a) ↔ accepted
  stops : ∀ fault, x = .error (.unwritten fault) ↔ shows fault

section Judged

variable {α β : Type} {x : Except DocumentError α} {k : α → Except DocumentError β} {p p' : Prop}
  {q q' : Value.WriteFault → Prop}

theorem judged_ok (a : α) : Judged (.ok a) True fun _ => False :=
  ⟨by simp, by simp⟩

theorem judged_refused (e : ConfigError) : Judged (.error (.config e) : Except _ α) False fun _ => False :=
  ⟨by simp, by simp⟩

theorem judged_unwritten (fault : Value.WriteFault) :
    Judged (.error (.unwritten fault) : Except _ α) False (some fault = some ·) :=
  ⟨by simp, by simp⟩

theorem judged_refuse (room : Nat) (v : Value) (e : ConfigError) :
    Judged (refuse room v e : Except _ α) False (v.writeFault? room = some ·) := by
  unfold refuse
  cases v.writeFault? room with
  | none => exact ⟨by simp, by simp⟩
  | some fault => exact judged_unwritten fault

theorem Judged.congr (h : Judged x p q) (hp : p ↔ p') (hq : ∀ fault, q fault ↔ q' fault) : Judged x p' q' :=
  ⟨h.returns.trans hp, fun fault => (h.stops fault).trans (hq fault)⟩

theorem Judged.bind (h : Judged x p q) (hk : ∀ a, x = .ok a → Judged (k a) p' q') :
    Judged (x >>= k) (p ∧ p') (fun fault => q fault ∨ p ∧ q' fault) := by
  obtain ⟨hreturns, hstops⟩ := h
  cases x with
  | error e =>
    have hp : ¬ p := fun hp => by simpa using hreturns.mpr hp
    refine ⟨by simp [hp, bind, Except.bind], fun fault => ?_⟩
    rw [← hstops]
    simp [hp, bind, Except.bind]
  | ok a =>
    have hp : p := hreturns.mp ⟨a, rfl⟩
    have hq : ∀ fault, ¬ q fault := fun fault hq => by simpa using (hstops fault).mpr hq
    obtain ⟨hreturns', hstops'⟩ := hk a rfl
    simp only [hp, hq, true_and, false_or]
    exact ⟨hreturns', hstops'⟩

theorem Judged.refused_iff (h : Judged x p q) :
    (∃ e, x = .error (.config e)) ↔ ¬ p ∧ ∀ fault, ¬ q fault := by
  simp only [← h.returns, ← h.stops]
  cases x with
  | ok a => simp
  | error e => cases e <;> simp

end Judged

theorem RuleLevel.ofName?_eq_some {s : String} {l : RuleLevel} : ofName? s = some l ↔ s = l.name := by
  constructor
  · intro h
    have hname := List.find?_some h
    exact (eq_of_beq hname).symm
  · rintro rfl
    cases l <;> rfl

theorem Target.ofName?_eq_some {s : String} {t : Target} : ofName? s = some t ↔ s = t.name := by
  constructor
  · intro h
    have hname := List.find?_some h
    exact (eq_of_beq hname).symm
  · rintro rfl
    cases t <;> rfl

namespace Value

variable {v : Value} {key : String}

def NamesTarget (v : Value) : Prop :=
  ∃ t : Target, v = .text t.name

def NamesLevel (v : Value) : Prop :=
  ∃ l : RuleLevel, v = .text l.name

def ListsTexts (v : Value) : Prop :=
  ∃ texts : List String, v = .list (texts.map .text)

def GivesTarget (v t : Value) : Prop :=
  v.get? "edgeTarget" = some t ∨ v.get? "edgeTarget" = none ∧ v.get? "edge_target" = some t

def IsSetting (v : Value) : Prop :=
  v.NamesLevel ∨ (∃ entries, v = .mapping entries) ∧
    (∃ s, v.get? "severity" = some s ∧ s.NamesLevel) ∧
    ∀ i, v.get? "ignore" = some i → i.isTruthy = false ∨ i.ListsTexts

structure HasPlainFields (v : Value) : Prop where
  target : ∀ t, v.GivesTarget t → t.NamesTarget
  strict : ∀ s, v.get? "strict" = some s → ∃ b, s = .bool b
  included : ∀ g, v.get? "include" = some g → g = .null ∨ g.ListsTexts
  excluded : ∀ g, v.get? "exclude" = some g → g = .null ∨ g.ListsTexts

structure IsDocument (v : Value) : Prop extends HasPlainFields v where
  mapping : ∃ entries, v = .mapping entries
  rules : ∀ r, v.get? "rules" = some r → r.isTruthy = false ∨
    ∃ entries, r = .mapping entries ∧ ∀ e ∈ entries, e.2.IsSetting

/-- The value counts as nothing, or has the fields of a configuration. -/
def Accepted (v : Value) : Prop :=
  v.isTruthy = false ∨ v.IsDocument

theorem GivesTarget.orElse_eq {t : Value} (h : v.GivesTarget t) :
    (v.get? "edgeTarget").orElse (fun _ => v.get? "edge_target") = some t := by
  rcases h with h | ⟨h, h'⟩
  · simp [h]
  · simp [h, h']

theorem texts?_eq_some {texts : List String} : v.texts? = some texts ↔ v = .list (texts.map .text) := by
  cases v with
  | list xs =>
    simp only [texts?, list.injEq]
    induction xs generalizing texts with
    | nil => cases texts <;> simp
    | cons x xs ih =>
      rw [List.mapM_cons]
      cases x with
      | text s =>
        simp only [Option.bind_eq_bind, Option.bind_some, Option.bind_eq_some_iff, ih]
        cases texts with
        | nil => simp
        | cons t ts => simp [and_comm, eq_comm]
      | _ => cases texts <;> simp
  | _ => simp [texts?]

theorem listsTexts_iff : v.ListsTexts ↔ ∃ texts, v.texts? = some texts := by
  simp only [ListsTexts, texts?_eq_some]

theorem get?_of_falsy (h : v.isTruthy = false) (key : String) : v.get? key = none := by
  cases v with
  | mapping es =>
    have hnil : es = [] := by simpa [isTruthy] using h
    rw [hnil]
    rfl
  | _ => rfl

mutual

def depth : Value → Nat
  | .list xs => itemsDepth xs
  | .set [] => 0
  | .set xs => itemsDepth xs + 1
  | .pair a b => max (depth a) (depth b) + 1
  | .mapping es => entriesDepth es
  | _ => 0

def itemsDepth : List Value → Nat
  | [] => 0
  | x :: xs => max (depth x + 1) (itemsDepth xs)

def entriesDepth : List (Value × Value) → Nat
  | [] => 0
  | (k, v) :: es => max (max (depth k) (depth v) + 1) (entriesDepth es)

end

mutual

def wholes : Value → List Int
  | .int n => [n]
  | .list xs => itemsWholes xs
  | .set xs => itemsWholes xs
  | .pair a b => wholes a ++ wholes b
  | .mapping es => entriesWholes es
  | _ => []

def itemsWholes : List Value → List Int
  | [] => []
  | x :: xs => wholes x ++ itemsWholes xs

def entriesWholes : List (Value × Value) → List Int
  | [] => []
  | (k, v) :: es => wholes k ++ wholes v ++ entriesWholes es

end

def Causes (room depth : Nat) (wholes : List Int) : WriteFault → Prop
  | .tooDeep => room < depth
  | .tooLong => ∃ n ∈ wholes, 10 ^ maxWholeDigits ≤ n.natAbs

theorem Causes.mono {room room' depth depth' : Nat} {ns ns' : List Int} {fault : WriteFault}
    (h : Causes room depth ns fault) (hdepth : depth + room' ≤ depth' + room) (hns : ns ⊆ ns') :
    Causes room' depth' ns' fault := by
  cases fault with
  | tooDeep =>
    simp only [Causes] at h ⊢
    omega
  | tooLong =>
    obtain ⟨n, hn, hlong⟩ := h
    exact ⟨n, hns hn, hlong⟩

mutual

theorem causes_of_writeFault? : ∀ (v : Value) {room : Nat} {fault : WriteFault},
    v.writeFault? room = some fault → Causes room v.depth v.wholes fault
  | .int n, room, fault, h => by
    simp only [writeFault?] at h
    split at h
    · cases h
    · rename_i hnone
      cases h
      rw [Bool.not_eq_true, Option.isSome_eq_false_iff, Option.isNone_iff_eq_none, wholeText?_eq_none] at hnone
      exact ⟨n, by simp [wholes], hnone⟩
  | .list xs, room, fault, h => by
    simp only [writeFault?, depth, wholes] at h ⊢
    exact causes_of_itemsFault? xs h
  | .set [], room, fault, h => by simp [writeFault?] at h
  | .set (x :: xs), room, fault, h => by
    cases room with
    | zero =>
      cases h
      simp [Causes, depth]
    | succ room =>
      simp only [writeFault?, depth, wholes] at h ⊢
      exact (causes_of_itemsFault? (x :: xs) h).mono (by omega) (List.Subset.refl _)
  | .pair a b, room, fault, h => by
    cases room with
    | zero =>
      cases h
      simp [Causes, depth]
    | succ room =>
      simp only [writeFault?, depth, wholes, Option.or_eq_some_iff] at h ⊢
      rcases h with h | ⟨-, h⟩
      · exact (causes_of_writeFault? a h).mono (by omega) (by simp)
      · exact (causes_of_writeFault? b h).mono (by omega) (by simp)
  | .mapping es, room, fault, h => by
    simp only [writeFault?, depth, wholes] at h ⊢
    exact causes_of_entriesFault? es h
  | .null, room, fault, h => by simp [writeFault?] at h
  | .bool _, room, fault, h => by simp [writeFault?] at h
  | .real _, room, fault, h => by simp [writeFault?] at h
  | .text _, room, fault, h => by simp [writeFault?] at h
  | .bytes _, room, fault, h => by simp [writeFault?] at h
  | .date _, room, fault, h => by simp [writeFault?] at h
  | .moment _, room, fault, h => by simp [writeFault?] at h
  | .loop _, room, fault, h => by simp [writeFault?] at h

theorem causes_of_itemsFault? : ∀ (xs : List Value) {room : Nat} {fault : WriteFault},
    itemsFault? room xs = some fault → Causes room (itemsDepth xs) (itemsWholes xs) fault
  | [], room, fault, h => by simp [itemsFault?] at h
  | x :: xs, room, fault, h => by
    cases room with
    | zero =>
      cases h
      simp [Causes, itemsDepth]
    | succ room =>
      simp only [itemsFault?, itemsDepth, itemsWholes, Option.or_eq_some_iff] at h ⊢
      rcases h with h | ⟨-, h⟩
      · exact (causes_of_writeFault? x h).mono (by omega) (by simp)
      · exact (causes_of_itemsFault? xs h).mono (by omega) (by simp)

theorem causes_of_entriesFault? : ∀ (es : List (Value × Value)) {room : Nat} {fault : WriteFault},
    entriesFault? room es = some fault → Causes room (entriesDepth es) (entriesWholes es) fault
  | [], room, fault, h => by simp [entriesFault?] at h
  | (k, v) :: es, room, fault, h => by
    cases room with
    | zero =>
      cases h
      simp [Causes, entriesDepth]
    | succ room =>
      simp only [entriesFault?, entriesDepth, entriesWholes, Option.or_eq_some_iff] at h ⊢
      rcases h with (h | ⟨-, h⟩) | ⟨-, h⟩
      · exact (causes_of_writeFault? k h).mono (by omega) (by simp)
      · exact (causes_of_writeFault? v h).mono (by omega) (by simp)
      · exact (causes_of_entriesFault? es h).mono (by omega) (by simp)

end

structure Fits (room : Nat) (v : Value) : Prop where
  shallow : v.depth ≤ room
  short : ∀ n ∈ v.wholes, n.natAbs < 10 ^ maxWholeDigits

theorem Fits.writeFault? {room : Nat} (h : v.Fits room) : v.writeFault? room = none := by
  rw [Option.eq_none_iff_forall_ne_some]
  intro fault hfault
  have hcause := causes_of_writeFault? v hfault
  cases fault with
  | tooDeep => exact absurd h.shallow (not_le.mpr hcause)
  | tooLong =>
    obtain ⟨n, hn, hlong⟩ := hcause
    exact absurd (h.short n hn) (not_lt.mpr hlong)

theorem Fits.of_mem {es : List (Value × Value)} {e : Value × Value} {room : Nat}
    (h : (Value.mapping es).Fits room) (he : e ∈ es) : e.1.Fits room ∧ e.2.Fits room := by
  obtain ⟨hdepth, hshort⟩ := h
  simp only [depth, wholes] at hdepth hshort
  induction es with
  | nil => cases he
  | cons x es ih =>
    simp only [entriesDepth, entriesWholes, List.mem_append, or_imp, forall_and] at hdepth hshort
    rcases List.mem_cons.mp he with rfl | he
    · exact ⟨⟨by omega, hshort.1.1⟩, ⟨by omega, hshort.1.2⟩⟩
    · exact ih he (by omega) hshort.2

theorem Fits.get? {x : Value} {room : Nat} (h : v.Fits room) (hx : v.get? key = some x) : x.Fits room := by
  cases v with
  | mapping es =>
    obtain ⟨e, he, rfl⟩ := Option.map_eq_some_iff.mp hx
    exact (h.of_mem (List.mem_of_find?_eq_some he)).2
  | _ => cases hx

section Shown

variable (room : Nat)

def ShowsLevel (v : Value) (fault : WriteFault) : Prop :=
  ∃ s, v.get? "severity" = some s ∧ s.writeFault? room = some fault

def FitsRule (e : Value × Value) : Prop :=
  e.1.writeFault? room = none ∧ e.2.IsSetting

def StopsRule (fault : WriteFault) (e : Value × Value) : Prop :=
  e.1.writeFault? room = some fault ∨ e.1.writeFault? room = none ∧ e.2.ShowsLevel room fault

def StopsRules (fault : WriteFault) (entries : List (Value × Value)) : Prop :=
  ∃ before e after, entries = before ++ e :: after ∧ (∀ b ∈ before, FitsRule room b) ∧ StopsRule room fault e

def HasWritableIds (v : Value) : Prop :=
  ∀ entries, v.get? "rules" = some (.mapping entries) → ∀ e ∈ entries, e.1.writeFault? room = none

/-- The check comes to a value that has to be shown and cannot be written: the target, or one of the
rules after all else was in order. -/
def Shows (v : Value) (fault : WriteFault) : Prop :=
  (∃ t, v.GivesTarget t ∧ t.writeFault? room = some fault) ∨
    v.HasPlainFields ∧ ∃ entries, v.get? "rules" = some (.mapping entries) ∧ StopsRules room fault entries

variable {room} {fault : WriteFault}

theorem stopsRules_nil : ¬ StopsRules room fault [] := by
  rintro ⟨before, e, after, h, -⟩
  simp at h

theorem stopsRules_cons {e : Value × Value} {es : List (Value × Value)} :
    StopsRules room fault (e :: es) ↔ StopsRule room fault e ∨ FitsRule room e ∧ StopsRules room fault es := by
  constructor
  · rintro ⟨before, x, after, heq, hbefore, hx⟩
    cases before with
    | nil =>
      cases heq
      exact .inl hx
    | cons b bs =>
      cases heq
      rw [List.forall_mem_cons] at hbefore
      exact .inr ⟨hbefore.1, bs, x, after, rfl, hbefore.2, hx⟩
  · rintro (h | ⟨he, bs, x, after, rfl, hbs, hx⟩)
    · exact ⟨[], e, es, rfl, by simp, h⟩
    · exact ⟨e :: bs, x, after, rfl, List.forall_mem_cons.mpr ⟨he, hbs⟩, hx⟩

end Shown

end Value

open Value

section Checks

variable {v : Value} {id key : String} {room : Nat}

theorem levelOf_name (l : RuleLevel) : RuleSetting.levelOf room id (.text l.name) = .ok l := by
  cases l <;> rfl

theorem levelOf_other (h : ¬ v.NamesLevel) :
    RuleSetting.levelOf room id v = refuse room v (.badLevel id v) := by
  cases v with
  | text s =>
    have hnone : RuleLevel.ofName? s = none := by
      rw [Option.eq_none_iff_forall_ne_some]
      intro l hl
      exact h ⟨l, by rw [RuleLevel.ofName?_eq_some.mp hl]⟩
    simp only [RuleSetting.levelOf, hnone]
  | _ => rfl

theorem judged_levelOf :
    Judged (RuleSetting.levelOf room id v) v.NamesLevel (v.writeFault? room = some ·) := by
  by_cases h : v.NamesLevel
  · obtain ⟨l, rfl⟩ := h
    rw [levelOf_name]
    refine (judged_ok l).congr ?_ (by simp [writeFault?])
    exact ⟨fun _ => ⟨l, rfl⟩, fun _ => trivial⟩
  · rw [levelOf_other h]
    exact (judged_refuse room _ _).congr (by simp [h]) (by simp)

theorem judged_ignoreOf :
    Judged (RuleSetting.ignoreOf id v) (v.isTruthy = false ∨ v.ListsTexts) fun _ => False := by
  unfold RuleSetting.ignoreOf
  cases htruthy : v.isTruthy with
  | false => exact (judged_ok []).congr (by simp) (by simp)
  | true =>
    rw [listsTexts_iff]
    cases v.texts? with
    | some texts => exact (judged_ok texts).congr (by simp) (by simp)
    | none => exact (judged_refused _).congr (by simp) (by simp)

theorem judged_setting : Judged (RuleSetting.ofValue room id v) v.IsSetting (v.ShowsLevel room) := by
  unfold RuleSetting.ofValue
  cases v with
  | text s =>
    refine (judged_levelOf.bind fun level _ => judged_ok (RuleSetting.mk level [])).congr ?_ ?_
    · simp [IsSetting]
    · simp [writeFault?, ShowsLevel, Value.get?]
  | mapping es =>
    refine (judged_levelOf.bind fun level _ =>
      judged_ignoreOf.bind fun ignore _ => judged_ok (RuleSetting.mk level ignore)).congr ?_ ?_
    · have hnot : ¬ (Value.mapping es).NamesLevel := by simp [NamesLevel]
      simp only [IsSetting, hnot, false_or, mapping.injEq, exists_eq', true_and, and_true]
      refine and_congr ?_ ?_
      · cases (Value.mapping es).get? "severity" <;> simp [NamesLevel]
      · cases (Value.mapping es).get? "ignore" <;> simp [isTruthy]
    · cases hs : (Value.mapping es).get? "severity" <;> simp [ShowsLevel, hs, writeFault?]
  | _ =>
    refine (judged_refused _).congr ?_ ?_
    · simp [IsSetting, NamesLevel]
    · simp [ShowsLevel, Value.get?]

theorem targetOf_none (h : ∀ t, ¬ v.GivesTarget t) : Config.targetOf room v = .ok .auto := by
  have hnone : v.get? "edgeTarget" = none ∧ v.get? "edge_target" = none := by
    unfold GivesTarget at h
    cases hcamel : v.get? "edgeTarget" <;> cases hsnake : v.get? "edge_target" <;> simp_all
  simp [Config.targetOf, hnone]

theorem targetOf_name {t : Target} (h : v.GivesTarget (.text t.name)) : Config.targetOf room v = .ok t := by
  rw [Config.targetOf, h.orElse_eq]
  cases t <;> rfl

theorem targetOf_other {x : Value} (h : v.GivesTarget x) (hx : ¬ x.NamesTarget) :
    Config.targetOf room v = refuse room x (.badTarget x) := by
  rw [Config.targetOf, h.orElse_eq]
  cases x with
  | text s =>
    have hnone : Target.ofName? s = none := by
      rw [Option.eq_none_iff_forall_ne_some]
      intro t ht
      exact hx ⟨t, by rw [Target.ofName?_eq_some.mp ht]⟩
    simp only [hnone]
  | _ => rfl

theorem judged_target : Judged (Config.targetOf room v) (∀ t, v.GivesTarget t → t.NamesTarget)
    (fun fault => ∃ t, v.GivesTarget t ∧ t.writeFault? room = some fault) := by
  by_cases hnone : ∀ t, ¬ v.GivesTarget t
  · rw [targetOf_none hnone]
    exact (judged_ok _).congr (by simp [hnone]) (by simp [hnone])
  · obtain ⟨x, hx⟩ := not_forall_not.mp hnone
    have hunique : ∀ t, v.GivesTarget t ↔ t = x := by
      intro t
      refine ⟨fun ht => Option.some.inj (ht.orElse_eq.symm.trans hx.orElse_eq), ?_⟩
      rintro rfl
      exact hx
    simp only [hunique, forall_eq, exists_eq_left]
    by_cases hname : x.NamesTarget
    · obtain ⟨t, rfl⟩ := hname
      rw [targetOf_name hx]
      refine (judged_ok t).congr ?_ (by simp [writeFault?])
      exact ⟨fun _ => ⟨t, rfl⟩, fun _ => trivial⟩
    · rw [targetOf_other hx hname]
      exact (judged_refuse room _ _).congr (by simp [hname]) (by simp)

theorem judged_strict :
    Judged (Config.strictOf v) (∀ s, v.get? "strict" = some s → ∃ b, s = .bool b) fun _ => False := by
  unfold Config.strictOf
  cases v.get? "strict" with
  | none => exact (judged_ok _).congr (by simp) (by simp)
  | some x =>
    cases x with
    | bool b => exact (judged_ok b).congr (by simp) (by simp)
    | _ => exact (judged_refused _).congr (by simp) (by simp)

theorem judged_globs :
    Judged (Config.globsOf v key) (∀ g, v.get? key = some g → g = .null ∨ g.ListsTexts) fun _ => False := by
  unfold Config.globsOf
  cases v.get? key with
  | none => exact (judged_ok _).congr (by simp) (by simp)
  | some x =>
    simp only [Option.some.injEq, forall_eq', listsTexts_iff]
    by_cases hnull : x = .null
    · subst hnull
      exact (judged_ok none).congr (by simp) (by simp)
    · simp only [hnull, false_or]
      cases x.texts? with
      | some texts => exact (judged_ok _).congr (by simp) (by simp)
      | none => exact (judged_refused _).congr (by simp) (by simp)

theorem judged_ruleId : Judged (Config.ruleIdOf room v) (v.writeFault? room = none)
    (v.writeFault? room = some ·) := by
  unfold Config.ruleIdOf
  cases v.writeFault? room with
  | none => exact (judged_ok _).congr (by simp) (by simp)
  | some fault => exact (judged_unwritten fault).congr (by simp) (by simp)

theorem judged_addRule (rules : List (String × RuleSetting)) (e : Value × Value) :
    Judged (Config.addRule room rules e) (FitsRule room e) (StopsRule room · e) := by
  refine (judged_ruleId.bind fun id _ => judged_setting.bind fun setting _ =>
    judged_ok (assocSet (· == ·) id setting rules)).congr ?_ ?_
  · simp [FitsRule]
  · simp [StopsRule]

theorem judged_addRules (entries : List (Value × Value)) (rules : List (String × RuleSetting)) :
    Judged (entries.foldlM (Config.addRule room) rules) (∀ e ∈ entries, FitsRule room e)
      (StopsRules room · entries) := by
  induction entries generalizing rules with
  | nil => exact (judged_ok rules).congr (by simp) (by simp [stopsRules_nil])
  | cons e es ih =>
    rw [List.foldlM_cons]
    exact ((judged_addRule rules e).bind fun rules' _ => ih rules').congr
      List.forall_mem_cons.symm fun _ => stopsRules_cons.symm

theorem judged_rules : Judged (Config.rulesOf room v)
    (∀ r, v.get? "rules" = some r → r.isTruthy = false ∨
      ∃ entries, r = .mapping entries ∧ ∀ e ∈ entries, FitsRule room e)
    (fun fault => ∃ entries, v.get? "rules" = some (.mapping entries) ∧ StopsRules room fault entries) := by
  unfold Config.rulesOf
  cases hr : v.get? "rules" with
  | none => exact (judged_ok []).congr (by simp) (by simp)
  | some r =>
    simp only [Option.getD_some, Option.some.injEq, forall_eq']
    cases htruthy : r.isTruthy with
    | false =>
      refine (judged_ok []).congr (by simp) ?_
      simp only [false_iff]
      rintro fault ⟨entries, rfl, hstops⟩
      have hnil : entries = [] := by simpa [isTruthy] using htruthy
      rw [hnil] at hstops
      exact stopsRules_nil hstops
    | true =>
      cases r with
      | mapping entries => exact (judged_addRules entries []).congr (by simp) (by simp)
      | _ => exact (judged_refused _).congr (by simp) (by simp)

theorem rulesFit_iff : (∀ r, v.get? "rules" = some r → r.isTruthy = false ∨
      ∃ entries, r = .mapping entries ∧ ∀ e ∈ entries, FitsRule room e) ↔
    (∀ r, v.get? "rules" = some r → r.isTruthy = false ∨
      ∃ entries, r = .mapping entries ∧ ∀ e ∈ entries, e.2.IsSetting) ∧ v.HasWritableIds room := by
  constructor
  · intro h
    refine ⟨fun r hr => (h r hr).imp_right ?_, fun entries hr => ?_⟩
    · rintro ⟨entries, rfl, hfit⟩
      exact ⟨entries, rfl, fun e he => (hfit e he).2⟩
    · rcases h _ hr with hfalsy | ⟨entries', heq, hfit⟩
      · have hnil : entries = [] := by simpa [isTruthy] using hfalsy
        simp [hnil]
      · cases heq
        exact fun e he => (hfit e he).1
  · rintro ⟨h, hids⟩ r hr
    refine (h r hr).imp_right ?_
    rintro ⟨entries, rfl, hset⟩
    exact ⟨entries, rfl, fun e he => ⟨hids entries hr e he, hset e he⟩⟩

theorem hasWritableIds_of_get? (h : ∀ key, v.get? key = none) : v.HasWritableIds room := by
  simp [HasWritableIds, h]

theorem not_shows_of_get? (h : ∀ key, v.get? key = none) (fault : WriteFault) : ¬ v.Shows room fault := by
  simp [Value.Shows, GivesTarget, h]

theorem judged_ofValue :
    Judged (Config.ofValue room v) (v.Accepted ∧ v.HasWritableIds room) (v.Shows room) := by
  unfold Config.ofValue
  cases htruthy : v.isTruthy with
  | false =>
    have hnone := get?_of_falsy htruthy
    refine (judged_ok _).congr ?_ ?_
    · simp [Accepted, htruthy, hasWritableIds_of_get? hnone]
    · simp [not_shows_of_get? hnone]
  | true =>
    cases v with
    | mapping es =>
      refine (judged_target.bind fun target _ => judged_strict.bind fun strict _ =>
        judged_globs.bind fun included _ => judged_globs.bind fun excluded _ =>
        judged_rules.bind fun rules _ =>
          judged_ok (Config.mk target strict included excluded rules)).congr ?_ ?_
      · rw [rulesFit_iff]
        constructor
        · rintro ⟨ht, hs, hi, he, ⟨hr, hids⟩, -⟩
          exact ⟨.inr ⟨⟨ht, hs, hi, he⟩, ⟨es, rfl⟩, hr⟩, hids⟩
        · rintro ⟨hfalsy | ⟨⟨ht, hs, hi, he⟩, -, hr⟩, hids⟩
          · simp [htruthy] at hfalsy
          · exact ⟨ht, hs, hi, he, ⟨hr, hids⟩, trivial⟩
      · intro fault
        simp only [false_or, and_false, or_false]
        refine or_congr_right ?_
        constructor
        · rintro ⟨ht, hs, hi, he, hstops⟩
          exact ⟨⟨ht, hs, hi, he⟩, hstops⟩
        · rintro ⟨⟨ht, hs, hi, he⟩, hstops⟩
          exact ⟨ht, hs, hi, he, hstops⟩
    | _ =>
      refine (judged_refused _).congr ?_ ?_
      · simp only [Accepted, htruthy, false_or, false_iff, not_and, Bool.true_eq_false]
        rintro ⟨-, ⟨es, hes⟩, -⟩
        cases hes
      · simp only [false_iff]
        exact not_shows_of_get? fun _ => rfl

end Checks

section Fitting

variable {v : Value} {room : Nat}

theorem Value.Fits.hasWritableIds (h : v.Fits room) : v.HasWritableIds room := by
  intro entries hr e he
  exact ((h.get? hr).of_mem he).1.writeFault?

theorem Value.Fits.not_shows (h : v.Fits room) (fault : WriteFault) : ¬ v.Shows room fault := by
  have hwritten {x : Value} (hx : x.Fits room) : x.writeFault? room ≠ some fault := by
    rw [hx.writeFault?]
    simp
  rintro (⟨t, ht, hfault⟩ | ⟨-, entries, hr, before, e, after, rfl, -, hstop⟩)
  · rcases ht with ht | ⟨-, ht⟩ <;> exact hwritten (h.get? ht) hfault
  · obtain ⟨hid, hsetting⟩ := (h.get? hr).of_mem (e := e) (by simp)
    rcases hstop with hfault | ⟨-, s, hs, hfault⟩
    · exact hwritten hid hfault
    · exact hwritten (hsetting.get? hs) hfault

end Fitting

section Rewritten

theorem texts?_map_text (texts : List String) : (Value.list (texts.map .text)).texts? = some texts :=
  texts?_eq_some.mpr rfl

variable {room : Nat}

theorem ofValue_toValue_setting (id : String) (s : RuleSetting) :
    RuleSetting.ofValue room id s.toValue = .ok s := by
  have hseverity : s.toValue.get? "severity" = some (.text s.level.name) := by
    simp [RuleSetting.toValue, Value.get?, assocGet?, same, sameAtom, quantity?]
  have hignore : s.toValue.get? "ignore" = some (.list (s.ignore.map .text)) := by
    simp [RuleSetting.toValue, Value.get?, assocGet?, same, sameAtom, quantity?]
  have hread : RuleSetting.ignoreOf id (.list (s.ignore.map .text)) = .ok s.ignore := by
    rw [RuleSetting.ignoreOf, texts?_map_text]
    cases s.ignore <;> rfl
  have hvalue : RuleSetting.ofValue room id s.toValue =
      (RuleSetting.levelOf room id ((s.toValue.get? "severity").getD .null) >>= fun level =>
        RuleSetting.ignoreOf id ((s.toValue.get? "ignore").getD .null) >>= fun ignore =>
          .ok ⟨level, ignore⟩) := rfl
  rw [hvalue, hseverity, hignore, Option.getD_some, Option.getD_some, levelOf_name, hread]
  rfl

theorem addRule_toValue (rules : List (String × RuleSetting)) (id : String) (s : RuleSetting) :
    Config.addRule room rules (.text id, s.toValue) = .ok (assocSet (· == ·) id s rules) := by
  have hid : Config.ruleIdOf room (.text id) = .ok id := by
    simp [Config.ruleIdOf, writeFault?, plain]
  simp only [Config.addRule, hid, ofValue_toValue_setting, bind, Except.bind, pure, Except.pure]

theorem addRules_toValue {rules before : List (String × RuleSetting)}
    (h : ((before ++ rules).map (·.1)).Nodup) :
    (rules.map fun (id, s) => (Value.text id, s.toValue)).foldlM (Config.addRule room) before =
      .ok (before ++ rules) := by
  induction rules generalizing before with
  | nil => simp [pure, Except.pure]
  | cons r rules ih =>
    have hfresh : assocGet? (· == ·) r.1 before = none := by
      rw [assocGet?_eq_none_iff]
      intro hmem
      rw [List.map_append, List.nodup_append] at h
      exact h.2.2 r.1 hmem r.1 (by simp) rfl
    rw [List.map_cons, List.foldlM_cons, addRule_toValue, assocSet_fresh hfresh]
    have hrest := @ih (before ++ [r]) (by simpa using h)
    simpa [bind, Except.bind] using hrest

theorem nodup_addRules {entries : List (Value × Value)} {before rules : List (String × RuleSetting)}
    (hbefore : (before.map (·.1)).Nodup) (h : entries.foldlM (Config.addRule room) before = .ok rules) :
    (rules.map (·.1)).Nodup := by
  induction entries generalizing before with
  | nil =>
    cases h
    exact hbefore
  | cons e es ih =>
    rw [List.foldlM_cons, bind_eq_ok] at h
    obtain ⟨after, hadd, hrest⟩ := h
    simp only [Config.addRule, bind_eq_ok] at hadd
    obtain ⟨id, -, setting, -, hset⟩ := hadd
    cases hset
    exact ih (nodup_assocSet hbefore) hrest

theorem nodup_rules {v : Value} {rules : List (String × RuleSetting)}
    (h : Config.rulesOf room v = .ok rules) : (rules.map (·.1)).Nodup := by
  simp only [Config.rulesOf] at h
  split at h
  · cases h
    exact List.nodup_nil
  · split at h
    · refine nodup_addRules ?_ h
      exact List.nodup_nil
    · cases h

theorem globsOf_globsValue {v : Value} {key : String} {globs : Option (List String)}
    (h : v.get? key = some (Config.globsValue globs)) : Config.globsOf v key = .ok globs := by
  rw [Config.globsOf, h]
  cases globs with
  | none => rfl
  | some patterns => simp only [Config.globsValue, texts?_map_text]

theorem rulesOf_toValue {v : Value} {rules : List (String × RuleSetting)}
    (h : v.get? "rules" = some (.mapping (rules.map fun (id, s) => (.text id, s.toValue))))
    (hnodup : (rules.map (·.1)).Nodup) : Config.rulesOf room v = .ok rules := by
  rw [Config.rulesOf, h, Option.getD_some]
  cases rules with
  | nil => rfl
  | cons r rules => exact addRules_toValue (by simpa using hnodup)

theorem ofValue_toValue {c : Config} (h : (c.rules.map (·.1)).Nodup) :
    Config.ofValue room c.toValue = .ok c := by
  have htarget : c.toValue.get? "edgeTarget" = some (.text c.target.name) := by
    simp [Config.toValue, Value.get?, assocGet?, same, sameAtom, quantity?]
  have hstrict : c.toValue.get? "strict" = some (.bool c.strict) := by
    simp [Config.toValue, Value.get?, assocGet?, same, sameAtom, quantity?]
  have hincluded : c.toValue.get? "include" = some (Config.globsValue c.included) := by
    simp [Config.toValue, Value.get?, assocGet?, same, sameAtom, quantity?]
  have hexcluded : c.toValue.get? "exclude" = some (Config.globsValue c.excluded) := by
    simp [Config.toValue, Value.get?, assocGet?, same, sameAtom, quantity?]
  have hrules : c.toValue.get? "rules" =
      some (.mapping (c.rules.map fun (id, s) => (.text id, s.toValue))) := by
    simp [Config.toValue, Value.get?, assocGet?, same, sameAtom, quantity?]
  have hvalue : Config.ofValue room c.toValue =
      (Config.targetOf room c.toValue >>= fun target => Config.strictOf c.toValue >>= fun strict =>
        Config.globsOf c.toValue "include" >>= fun included =>
        Config.globsOf c.toValue "exclude" >>= fun excluded =>
        Config.rulesOf room c.toValue >>= fun rules =>
          .ok ⟨target, strict, included, excluded, rules⟩) := rfl
  rw [hvalue, targetOf_name (.inl htarget), globsOf_globsValue hincluded,
    globsOf_globsValue hexcluded, rulesOf_toValue hrules h, Config.strictOf, hstrict]
  rfl

theorem nodup_rules_of_ofValue {v : Value} {c : Config} (h : Config.ofValue room v = .ok c) :
    (c.rules.map (·.1)).Nodup := by
  simp only [Config.ofValue] at h
  split at h
  · cases h
    exact List.nodup_nil
  · split at h
    · simp only [bind_eq_ok] at h
      obtain ⟨target, -, strict, -, included, -, excluded, -, rules, hrules, heq⟩ := h
      cases heq
      exact nodup_rules hrules
    · cases h

end Rewritten

/-- A document has a configuration exactly if it is accepted by its shape and its ids can be written;
else it is refused, or its check stops at a value that cannot be written. A document that is shallow
enough and without numbers that are too long has a configuration or is refused by its shape alone. A
configuration is read back from its document. -/
theorem Config.ofValue_accepts (room : Nat) (v : Value) :
    ((∃ c, ofValue room v = .ok c) ↔ v.Accepted ∧ v.HasWritableIds room) ∧
    (∀ fault, ofValue room v = .error (.unwritten fault) ↔ v.Shows room fault) ∧
    ((∃ e, ofValue room v = .error (.config e)) ↔
      ¬ (v.Accepted ∧ v.HasWritableIds room) ∧ ∀ fault, ¬ v.Shows room fault) ∧
    (v.Fits room → ((∃ c, ofValue room v = .ok c) ↔ v.Accepted) ∧
      ((∃ e, ofValue room v = .error (.config e)) ↔ ¬ v.Accepted)) ∧
    ∀ c, ofValue room v = .ok c → ofValue room c.toValue = .ok c := by
  have hjudged := @judged_ofValue v room
  refine ⟨hjudged.returns, hjudged.stops, hjudged.refused_iff, fun hfits => ?_, fun c hc => ?_⟩
  · rw [hjudged.returns, hjudged.refused_iff]
    simp [hfits.hasWritableIds, hfits.not_shows]
  · exact ofValue_toValue (nodup_rules_of_ofValue hc)

theorem Config.ofValue_accepts_collision :
    let document := Value.mapping [(.text "edge_target", .text "deno"), (.text "include", .null),
      (.text "rules", .mapping [(.int 7, .text "warn"),
        (.text "7", .mapping [(.text "severity", .text "off"), (.text "ignore", .list [.text "*.js"])])])]
    let config : Config := ⟨.deno, false, none, none, [("7", ⟨.off, ["*.js"]⟩)]⟩
    document.Accepted ∧ ofValue 3 document = .ok config ∧ ofValue 3 config.toValue = .ok config := by
  intro document config
  have hread : ofValue 3 document = .ok config := by cbv
  have haccepts := ofValue_accepts 3 document
  exact ⟨(haccepts.1.mp ⟨config, hread⟩).1, hread, haccepts.2.2.2.2 config hread⟩

theorem writeFault?_nested (room : Nat) : ((fun v => Value.list [v])^[room + 1] .null).writeFault? room =
    some .tooDeep := by
  induction room with
  | zero => rfl
  | succ room ih =>
    rw [Function.iterate_succ_apply', writeFault?, itemsFault?, ih]
    rfl

theorem Config.ofValue_stops_at_long :
    let room := ({} : Stack).values
    let long := Value.int (16 ^ 3572 - 1 : Nat)
    let nested := (fun v => Value.list [v])^[room + 1] .null
    let shown := fun target => Value.mapping [(.text "edgeTarget", target)]
    let named := Value.mapping [(.text "rules", .mapping [(long, .text "warn")])]
    (¬ (shown long).Accepted ∧ ofValue room (shown long) = .error (.unwritten .tooLong)) ∧
      (¬ (shown nested).Accepted ∧ ofValue room (shown nested) = .error (.unwritten .tooDeep)) ∧
      named.Accepted ∧ ofValue room named = .error (.unwritten .tooLong) := by
  intro room long nested
  have hlong : long.writeFault? room = some .tooLong := by
    have hdigits : 10 ^ maxWholeDigits ≤ 16 ^ 3572 - 1 := by decide +kernel
    have hnone {n : Nat} (h : 10 ^ maxWholeDigits ≤ n) : wholeText? n = none := wholeText?_eq_none.mpr h
    simp only [long, writeFault?, hnone hdigits]
    rfl
  have hnested : nested.writeFault? room = some .tooDeep := writeFault?_nested room
  clear_value room long nested
  intro shown named
  have htarget (x : Value) : (shown x).GivesTarget x := by
    simp [shown, GivesTarget, Value.get?, assocGet?, same, sameAtom, quantity?]
  have hstops {x : Value} {fault : WriteFault} (hx : x.writeFault? room = some fault) :
      ¬ (shown x).Accepted ∧ ofValue room (shown x) = .error (.unwritten fault) := by
    refine ⟨?_, (judged_ofValue.stops fault).mpr (.inl ⟨x, htarget x, hx⟩)⟩
    rintro (hfalsy | hdocument)
    · cases hfalsy
    · obtain ⟨t, rfl⟩ := hdocument.target x (htarget x)
      simp [writeFault?] at hx
  have hrules : named.get? "rules" = some (.mapping [(long, .text "warn")]) := by
    simp [named, Value.get?, assocGet?, same, sameAtom, quantity?]
  have hplain : named.HasPlainFields := by
    constructor <;>
      simp [named, GivesTarget, Value.get?, assocGet?, same, sameAtom, quantity?]
  refine ⟨hstops hlong, hstops hnested, ?_, ?_⟩
  · refine .inr ⟨hplain, ⟨_, rfl⟩, fun r hr => ?_⟩
    cases hrules.symm.trans hr
    refine .inr ⟨_, rfl, ?_⟩
    simp only [List.mem_singleton, forall_eq]
    exact .inl ⟨.warn, rfl⟩
  · exact (judged_ofValue.stops .tooLong).mpr
      (.inr ⟨hplain, _, hrules, [], _, [], rfl, by simp, .inl hlong⟩)

end EdgeAudit
