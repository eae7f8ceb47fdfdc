import EdgeAudit.Source.Position
import Mathlib.Data.List.TakeWhile

namespace EdgeAudit

def Location.Before (a b : Location) : Prop :=
  a.line < b.line ∨ a.line = b.line ∧ a.column < b.column

namespace Location.Before

variable {a b : Location}

theorem apart (h : a.Before b) : (a.line, a.column) ≠ (b.line, b.column) := by
  intro heq
  obtain ⟨hline, hcolumn⟩ := Prod.mk.inj heq
  unfold Before at h
  omega

end Location.Before

def lineTail (cs : List Char) : Nat :=
  (cs.reverse.takeWhile (· != '\n')).length

theorem lineTail_le (cs : List Char) : lineTail cs ≤ cs.length := by
  have h := (List.takeWhile_prefix (l := cs.reverse) (· != '\n')).length_le
  simpa [lineTail] using h

theorem lineTail_append {xs ys : List Char} (h : '\n' ∉ ys) :
    lineTail (xs ++ ys) = lineTail xs + ys.length := by
  have hall : ∀ c ∈ ys.reverse, (c != '\n') = true := by
    intro c hc
    simp only [bne_iff_ne]
    rintro rfl
    exact h (List.mem_reverse.mp hc)
  rw [lineTail, List.reverse_append, List.takeWhile_append_of_pos hall, List.length_append,
    List.length_reverse, Nat.add_comm]
  rfl

theorem sliceEnd_natCast {length offset : Nat} (h : offset ≤ length) :
    sliceEnd length offset = offset := by
  rw [sliceEnd, if_neg (by omega)]
  omega

theorem position_natCast {text : List Char} {offset : Nat} (h : offset ≤ text.length) :
    position text offset =
      ((((text.take offset).count '\n' + 1 : Nat) : Int), (lineTail (text.take offset) : Int)) := by
  have hle := lineTail_le (text.take offset)
  have hlen : (text.take offset).length = offset := by simp [h]
  simp only [position, sliceEnd_natCast h, Prod.mk.injEq, true_and]
  unfold lineTail at hle ⊢
  omega

theorem locate_before {file : String} {text : List Char} {start stop start' stop' : Nat}
    (hlt : start < start') (hle : start' ≤ text.length) :
    (locate file text start stop).Before (locate file text start' stop') := by
  obtain ⟨between, hsplit⟩ : ∃ between, text.take start' = text.take start ++ between := by
    have h := List.take_append_drop start (text.take start')
    rw [List.take_take, Nat.min_eq_left (by omega)] at h
    exact ⟨_, h.symm⟩
  have hlength : between.length = start' - start := by
    have h := congrArg List.length hsplit
    simp only [List.length_take, List.length_append] at h
    omega
  simp only [Location.Before, locate, position_natCast hle,
    position_natCast (show start ≤ text.length by omega), hsplit, List.count_append]
  by_cases hline : '\n' ∈ between
  · have hcount := List.count_pos_iff.mpr hline
    left
    omega
  · right
    rw [List.count_eq_zero.mpr hline, lineTail_append hline]
    omega

end EdgeAudit
