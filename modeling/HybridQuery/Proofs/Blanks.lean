import Mathlib.Data.List.TakeWhile
import HybridQuery.Text.Blank
import HybridQuery.Text.Letters

/-!
# Texts without blanks

* `Text.trim_eq_self`: a text without blanks is not trimmed.
* `Text.isBlank_of_isLetterOrDigit`: letters and digits are no blanks.
-/

namespace HybridQuery

/-- A text without blanks. -/
def NoBlanks (cs : List Char) : Prop := ∀ c ∈ cs, Text.isBlank c = false

namespace NoBlanks

variable {a b : List Char} {c : Char}

@[simp] theorem nil_iff : NoBlanks [] ↔ True := by simp [NoBlanks]

@[simp] theorem cons_iff : NoBlanks (c :: a) ↔ Text.isBlank c = false ∧ NoBlanks a := by simp [NoBlanks]

@[simp] theorem append_iff : NoBlanks (a ++ b) ↔ NoBlanks a ∧ NoBlanks b := by
  simp [NoBlanks, or_imp, forall_and]

end NoBlanks

theorem NoBlanks.trimStart_eq {cs : List Char} (h : NoBlanks cs) : Text.trimStart cs = cs :=
  List.dropWhile_eq_self_iff.mpr fun hpos => by simp [h _ (List.getElem_mem hpos)]

namespace Text

theorem trim_eq_self {s : String} (h : NoBlanks s.toList) : trim s = s := by
  have hreverse : NoBlanks s.toList.reverse := fun c hc => h c (List.mem_reverse.mp hc)
  have hend : trimEnd s.toList = s.toList := by
    change (trimStart s.toList.reverse).reverse = s.toList
    rw [hreverse.trimStart_eq, List.reverse_reverse]
  rw [trim, trimChars, h.trimStart_eq, hend, String.ofList_toList]

/-! ## Letters and digits -/

/-- The code points of the blanks. -/
def blankPoints : List Nat :=
  List.range' 9 5 ++ [0x20, 0x85, 0xA0, 0x1680] ++ List.range' 0x2000 11 ++
    [0x2028, 0x2029, 0x202F, 0x205F, 0x3000]

theorem mem_blankPoints {c : Char} (h : isBlank c = true) : c.toNat ∈ blankPoints := by
  simp only [isBlank, Bool.or_eq_true, Bool.and_eq_true, decide_eq_true_eq, beq_iff_eq] at h
  simp only [blankPoints, List.mem_append, List.mem_range'_1, List.mem_cons, List.not_mem_nil, or_false]
  omega

/-- No blank is in the table of letters and digits. -/
theorem letterRanges_blankPoints :
    ∀ n ∈ blankPoints, (letterRanges.any fun part => part.any fun r => r.1 ≤ n && n ≤ r.2) = false := by
  decide +kernel

theorem isBlank_of_isLetterOrDigit {c : Char} (h : isLetterOrDigit c = true) : isBlank c = false := by
  by_contra hblank
  rw [isLetterOrDigit, letterRanges_blankPoints _ (mem_blankPoints (Bool.of_not_eq_false hblank))] at h
  cases h

end Text
end HybridQuery
