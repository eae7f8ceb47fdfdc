import EdgeAudit.Proofs.Failure
import EdgeAudit.Scan.Scanner
import Mathlib.Data.List.Nodup

namespace EdgeAudit

theorem nodup_eraseDups {α : Type} [BEq α] [LawfulBEq α] (xs : List α) : xs.eraseDups.Nodup := by
  induction h : xs.length using Nat.strongRecOn generalizing xs with
  | ind n ih =>
    cases xs with
    | nil => simp
    | cons x xs =>
      rw [List.eraseDups_cons, List.nodup_cons]
      have hlen : (xs.filter fun y => !y == x).length < n := by
        have := List.length_filter_le (fun y => !y == x) xs
        simp only [List.length_cons] at h
        omega
      refine ⟨?_, ih _ hlen _ rfl⟩
      intro hx
      have := (List.mem_filter.mp (List.mem_eraseDups.mp hx)).2
      simp at this

namespace Files

variable {f : Files} {cwd : String} {w : Wanted} {excluded : Option (List String)}

theorem candidates_sorted {found : List String} (h : f.candidates cwd w excluded = .ok found) :
    found.Pairwise (· < ·) := by
  unfold candidates at h
  simp only [bind, Except.bind, pure, Except.pure] at h
  split at h
  · cases h
  · rename_i byPatterns _
    split at h
    · cases h
    · rename_i literally _
      cases h
      have htrans : ∀ a b c : String, decide (a ≤ b) = true → decide (b ≤ c) = true →
          decide (a ≤ c) = true := by
        intro a b c hab hbc
        simp only [decide_eq_true_eq] at hab hbc ⊢
        exact String.le_trans hab hbc
      have htotal : ∀ a b : String, (decide (a ≤ b) || decide (b ≤ a)) = true := by
        intro a b
        simpa using String.le_total a b
      have hle := List.pairwise_mergeSort htrans htotal (byPatterns ++ literally).eraseDups
      have hne : ((byPatterns ++ literally).eraseDups.mergeSort fun a b => decide (a ≤ b)).Nodup :=
        (List.mergeSort_perm _ _).nodup_iff.mpr (nodup_eraseDups _)
      refine (hle.and hne).imp ?_
      intro a b hab
      exact Std.lt_of_le_of_ne (of_decide_eq_true hab.1) hab.2

theorem discover_sorted {useIgnoreFiles : Bool} {found : List String} {notes : List LogLine}
    (h : f.discover cwd w excluded useIgnoreFiles = .ok (found, notes)) :
    found.Pairwise (· < ·) := by
  unfold discover at h
  cases hc : f.candidates cwd w excluded with
  | error e => simp [hc, bind, Except.bind] at h
  | ok all =>
    have hs := candidates_sorted hc
    simp only [hc, mapError_ok, bind, Except.bind, pure, Except.pure] at h
    split at h
    · split at h
      · cases h
      · cases h
        exact hs.filter _
    · cases h
      exact hs

end Files

theorem Scanner.discover_sorted {s : Scanner} {f : Files} {found : List String}
    {notes : List LogLine} (h : s.discover f = .ok (found, notes)) : found.Pairwise (· < ·) := by
  unfold Scanner.discover at h
  cases hw : s.wanted f with
  | error e => simp [hw, bind, Except.bind] at h
  | ok w =>
    simp only [hw, mapError_ok, bind, Except.bind] at h
    exact Files.discover_sorted h

end EdgeAudit
