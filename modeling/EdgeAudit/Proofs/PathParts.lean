import EdgeAudit.Path.Basic
import Mathlib.Data.List.Infix

namespace EdgeAudit

open Text

section Splits

variable {sep : Char} {a cs : List Char}

theorem not_mem_of_mem_splitOn (h : a ∈ splitOn sep cs) : sep ∉ a := by
  induction cs generalizing a with
  | nil =>
    rw [splitOn, List.mem_singleton] at h
    simp [h]
  | cons c cs ih =>
    rw [splitOn] at h
    by_cases hc : c = sep
    · rw [if_pos hc] at h
      rcases List.mem_cons.mp h with rfl | h
      · simp
      · exact ih h
    · rw [if_neg hc] at h
      cases hsplit : splitOn sep cs with
      | nil =>
        rw [hsplit] at h
        rw [List.mem_singleton.mp h]
        simpa using Ne.symm hc
      | cons l ls =>
        rw [hsplit] at h ih
        rcases List.mem_cons.mp h with rfl | h
        · rw [List.mem_cons, not_or]
          exact ⟨Ne.symm hc, ih (by simp)⟩
        · exact ih (List.mem_cons_of_mem l h)

theorem splitOn_plain (ha : sep ∉ a) : splitOn sep a = [a] := by
  induction a with
  | nil => rfl
  | cons c a ih =>
    rw [List.mem_cons, not_or] at ha
    rw [splitOn, if_neg (Ne.symm ha.1), ih ha.2]

theorem splitOn_append (ha : sep ∉ a) (cs : List Char) :
    splitOn sep (a ++ sep :: cs) = a :: splitOn sep cs := by
  induction a with
  | nil => simp [splitOn]
  | cons c a ih =>
    rw [List.mem_cons, not_or] at ha
    rw [List.cons_append, splitOn, if_neg (Ne.symm ha.1), ih ha.2]

end Splits

namespace Path

variable {n path : String} {names before start : List String}

def IsName (n : String) : Prop :=
  n ≠ "" ∧ '/' ∉ n.toList

/-- A name that stands for something in a directory. -/
def IsOrdinary (n : String) : Prop :=
  n ≠ "" ∧ n ≠ "." ∧ n ≠ ".."

instance (n : String) : Decidable (IsOrdinary n) :=
  inferInstanceAs (Decidable (_ ∧ _))

theorem isName_of_mem_parts (h : n ∈ parts path) : IsName n := by
  obtain ⟨cs, hcs, rfl⟩ := List.mem_map.mp h
  obtain ⟨hsplit, hne⟩ := List.mem_filter.mp hcs
  refine ⟨?_, by simpa using not_mem_of_mem_splitOn hsplit⟩
  intro he
  have hnil : cs = [] := by simpa using congrArg String.toList he
  simp [hnil] at hne

theorem toList_joinWith_cons (n m : String) (names : List String) :
    (joinWith "/" (n :: m :: names)).toList = n.toList ++ '/' :: (joinWith "/" (m :: names)).toList := by
  simp [joinWith, String.intercalate_cons_cons]

theorem splitOn_joinWith (h : ∀ n ∈ names, IsName n) (hne : names ≠ []) :
    splitOn '/' (joinWith "/" names).toList = names.map String.toList := by
  induction names with
  | nil => exact absurd rfl hne
  | cons n names ih =>
    cases names with
    | nil => simpa [joinWith] using splitOn_plain (h n (by simp)).2
    | cons m names =>
      rw [toList_joinWith_cons, splitOn_append (h n (by simp)).2,
        ih (fun k hk => h k (List.mem_cons_of_mem n hk)) (by simp)]
      rfl

theorem parts_ofParts (h : ∀ n ∈ names, IsName n) : parts (ofParts names) = names := by
  have hslash : (ofParts names).toList = '/' :: (joinWith "/" names).toList := by
    simp [ofParts]
  have hfilter : (names.map String.toList).filter (fun p => !p.isEmpty) = names.map String.toList := by
    rw [List.filter_eq_self]
    intro cs hcs
    obtain ⟨n, hn, rfl⟩ := List.mem_map.mp hcs
    simpa using (h n hn).1
  cases names with
  | nil => rfl
  | cons n names =>
    rw [parts, hslash, splitOn, if_pos rfl, splitOn_joinWith h (by simp),
      List.filter_cons_of_neg (by simp), hfilter, List.map_map]
    simp [Function.comp_def]

theorem pushPart_ordinary (hb : ∀ n ∈ before, IsOrdinary n ∧ IsName n) (hn : '/' ∉ n.toList) :
    ∀ m ∈ pushPart true before n, IsOrdinary m ∧ IsName m := by
  unfold pushPart
  split
  · exact hb
  · rename_i hdot
    rw [not_or] at hdot
    split
    · cases before with
      | nil => simp
      | cons last rest =>
        have hlast : last ≠ ".." := (hb last (by simp)).1.2.2
        simp only [hlast, if_false]
        intro m hm
        exact hb m (List.mem_cons_of_mem last hm)
    · rename_i hup
      intro m hm
      rcases List.mem_cons.mp hm with rfl | hm
      · exact ⟨⟨hdot.1, hdot.2, hup⟩, hdot.1, hn⟩
      · exact hb m hm

theorem resolveDots_ordinary (h : ∀ n ∈ names, '/' ∉ n.toList) :
    ∀ m ∈ resolveDots true names, IsOrdinary m ∧ IsName m := by
  have hfold : ∀ before : List String, (∀ n ∈ before, IsOrdinary n ∧ IsName n) →
      ∀ m ∈ names.foldl (pushPart true) before, IsOrdinary m ∧ IsName m := by
    induction names with
    | nil => exact fun before hb => hb
    | cons n names ih =>
      intro before hb
      exact ih (fun m hm => h m (List.mem_cons_of_mem n hm)) _ (pushPart_ordinary hb (h n (by simp)))
  intro m hm
  exact hfold [] (by simp) m (List.mem_reverse.mp hm)

theorem after?_eq_some {rest : List String} : after? start names = some rest ↔ names = start ++ rest := by
  induction start generalizing names with
  | nil => simp [after?]
  | cons a start ih =>
    cases names with
    | nil => simp [after?]
    | cons b names =>
      by_cases h : a = b
      · simp [after?, h, ih]
      · simp [after?, h, Ne.symm h]

theorem after?_returns : (∃ rest, after? start names = some rest) ↔ start <+: names := by
  constructor
  · rintro ⟨rest, h⟩
    exact ⟨rest, (after?_eq_some.mp h).symm⟩
  · rintro ⟨rest, h⟩
    exact ⟨rest, after?_eq_some.mpr h.symm⟩

end Path

end EdgeAudit
