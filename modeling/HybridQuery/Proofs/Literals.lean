import Mathlib.Data.List.Basic
import HybridQuery.Proofs.Blanks
import HybridQuery.Types.SequenceType

/-!
# Literals of sequence types

The literals that are read are those that spell a type between blanks: the empty sequence in one of two ways, or
a name and the mark of an occurrence. No name has a character that means something else in a literal, so that
printing a type and reading it are inverse to each other.

* `SequenceType.IsTypeName`, `SequenceType.Spells`: names of types, and what literals say.
* `SequenceType.parse_eq_ok_iff`: a literal is read as what it spells.
* `SequenceType.parse_eq_declared_iff`: the literals that name a declared type.
* `SequenceType.parse_inverts_text`: literals and types, there and back.
-/

namespace HybridQuery

/-! ## Names of item types -/

namespace ItemType

variable {name other : String} {type : ItemType}

theorem mem_of_builtin? (h : builtin? name = some type) : (name, type) ∈ builtins := by
  obtain ⟨before, after, hsplit, -⟩ := List.lookup_eq_some_iff.mp h
  rw [hsplit]
  simp

/-- The types that are not declared are built in. -/
theorem mem_builtins (h : ∀ name, type ≠ .declared name) : (type.name, type) ∈ builtins := by
  cases type with
  | declared name => exact absurd rfl (h name)
  | _ => decide

/-- The name of a built-in type stands for it. -/
theorem ofName_name (h : ∀ name, type ≠ .declared name) : ofName type.name = type := by
  have hnames : ∀ p ∈ builtins, ofName p.1 = p.2 := by decide
  exact hnames _ (mem_builtins h)

/-- A type goes by the name that it was found under. -/
@[simp] theorem name_ofName (name : String) : (ofName name).name = name := by
  have hnames : ∀ p ∈ builtins, p.2.name = p.1 := by decide
  rw [ofName]
  cases h : builtin? name with
  | none => rfl
  | some type => exact hnames _ (mem_of_builtin? h)

/-- A name stands for a declared type if it is not built in, and then for the one of that name. -/
theorem ofName_eq_declared_iff : ofName name = .declared other ↔ builtin? name = none ∧ name = other := by
  have hbuiltins : ∀ p ∈ builtins, p.2 ≠ .declared other := by simp [builtins]
  rw [ofName]
  cases h : builtin? name with
  | none => simp
  | some type => simp [hbuiltins _ (mem_of_builtin? h)]

end ItemType

/-! ## Names and marks -/

theorem Occurrence.toList_mark (occurrence : Occurrence) :
    occurrence.mark.toList =
      match occurrence with
      | .one => []
      | .zeroOrOne => ['?']
      | .zeroOrMore => ['*']
      | .oneOrMore => ['+'] := by
  cases occurrence <;> simp [mark]

namespace SequenceType

/-- What may be the name of a type: letters, digits, hyphens, low lines and colons, at least one. -/
structure IsTypeName (name : String) : Prop where
  nonempty : name.toList ≠ []
  chars : ∀ c ∈ name.toList, isNameChar c = true

instance (name : String) : Decidable (IsTypeName name) :=
  decidable_of_iff (name.toList.isEmpty = false ∧ name.toList.all isNameChar = true)
    ⟨fun h => ⟨List.isEmpty_eq_false_iff.mp h.1, List.all_eq_true.mp h.2⟩,
      fun h => ⟨List.isEmpty_eq_false_iff.mpr h.nonempty, List.all_eq_true.mpr h.chars⟩⟩

theorem isBlank_of_isNameChar {c : Char} (h : isNameChar c = true) : Text.isBlank c = false := by
  simp only [isNameChar, Bool.or_eq_true, beq_iff_eq] at h
  obtain ((h | rfl) | rfl) | rfl := h
  · exact Text.isBlank_of_isLetterOrDigit h
  all_goals rfl

/-- The characters that mean something else in a literal. -/
theorem isNameChar_reserved : ∀ c ∈ ['?', '*', '+', '('], isNameChar c = false := by
  -- The statement is decided as a check of the list, not of all characters.
  have hall : ['?', '*', '+', '('].all (fun c => isNameChar c == false) = true := by decide +kernel
  exact fun c hc => beq_iff_eq.mp (List.all_eq_true.mp hall c hc)

theorem isTypeName_builtin {type : ItemType} (h : ∀ name, type ≠ .declared name) : IsTypeName type.name := by
  have hnames : ∀ p ∈ ItemType.builtins, IsTypeName p.1 := by decide +kernel
  exact hnames _ (ItemType.mem_builtins h)

/-- The mark is split off where it was put. -/
theorem splitMark_append {name : List Char} (h : ∀ c ∈ name, isNameChar c = true) (occurrence : Occurrence) :
    splitMark (name ++ occurrence.mark.toList) = (name, occurrence) := by
  rw [occurrence.toList_mark]
  cases occurrence with
  | one =>
    have hlast (c : Char) (hc : c ∈ ['?', '*', '+', '(']) : name.getLast? ≠ some c := fun hlast => by
      have hname := h c (List.mem_of_getLast? hlast)
      rw [isNameChar_reserved c hc] at hname
      cases hname
    rw [List.append_nil, splitMark]
    split
    · next h => exact absurd h (hlast '?' (by simp))
    · next h => exact absurd h (hlast '*' (by simp))
    · next h => exact absurd h (hlast '+' (by simp))
    · rfl
  | _ => simp [splitMark]

/-- Nothing is lost when the mark is split off. -/
theorem splitMark_restored (cs : List Char) : (splitMark cs).1 ++ (splitMark cs).2.mark.toList = cs := by
  rw [Occurrence.toList_mark]
  unfold splitMark
  split
  · next h => exact List.dropLast_append_getLast? _ h
  · next h => exact List.dropLast_append_getLast? _ h
  · next h => exact List.dropLast_append_getLast? _ h
  · exact List.append_nil cs

namespace IsTypeName

variable {name : String} (h : IsTypeName name)
include h

theorem noBlanks (occurrence : Occurrence) : NoBlanks (name ++ occurrence.mark).toList := by
  rw [String.toList_append, NoBlanks.append_iff, occurrence.toList_mark]
  refine ⟨fun c hc => isBlank_of_isNameChar (h.chars c hc), ?_⟩
  cases occurrence <;> simp [Text.isBlank]

/-- No type has a name with which its literal would say that there is nothing. -/
theorem not_empty (occurrence : Occurrence) :
    ¬(name ++ occurrence.mark = "()" ∨ name ++ occurrence.mark = "empty-sequence()") := by
  have hopen : '(' ∉ (name ++ occurrence.mark).toList := by
    rw [String.toList_append, List.mem_append, occurrence.toList_mark]
    rintro (hname | hmark)
    · have hchar := h.chars _ hname
      rw [isNameChar_reserved '(' (by simp)] at hchar
      cases hchar
    · cases occurrence <;> simp at hmark
  rintro (heq | heq)
  · exact hopen (heq ▸ by simp)
  · exact hopen (heq ▸ by simp)

end IsTypeName

/-! ## Literals -/

/-- What a literal without blanks around it says. -/
inductive Spells : String → SequenceType → Prop where
  | parentheses : Spells "()" .empty
  | emptySequence : Spells "empty-sequence()" .empty
  | ofName {name : String} (h : IsTypeName name) (occurrence : Occurrence) :
    Spells (name ++ occurrence.mark) (.of (.ofName name) occurrence)

namespace Spells

variable {s : String} {type : SequenceType}

theorem trim_eq (h : Spells s type) : Text.trim s = s := by
  cases h with
  | parentheses | emptySequence => decide +kernel
  | ofName hname occurrence => exact Text.trim_eq_self (hname.noBlanks occurrence)

theorem of_mark {name : String} {itemType : ItemType} (hname : IsTypeName name)
    (h : ItemType.ofName name = itemType) (occurrence : Occurrence) :
    Spells (SequenceType.of itemType occurrence).text (.of itemType occurrence) := by
  rw [← h, text, ItemType.name_ofName]
  exact .ofName hname occurrence

/-- A type is spelled by the literal that it prints as. -/
theorem printed (h : Spells s type) : Spells type.text type := by
  cases h with
  | parentheses | emptySequence => exact .parentheses
  | ofName hname occurrence => exact .of_mark hname rfl occurrence

/-- That literal is the one that was read, but for the longer way to say that there is nothing. -/
theorem text_eq (h : Spells s type) : type.text = if s = "empty-sequence()" then "()" else s := by
  cases h with
  | parentheses | emptySequence => rfl
  | ofName hname occurrence =>
    rw [if_neg fun heq => hname.not_empty occurrence (.inr heq), text, ItemType.name_ofName]

end Spells

/-- A literal is read as what it spells between blanks. -/
theorem parse_eq_ok_iff {literal : String} {type : SequenceType} :
    parse literal = .ok type ↔ Spells (Text.trim literal) type := by
  rw [parse]
  generalize Text.trim literal = s
  dsimp only
  constructor
  · intro h
    split at h
    · next hempty =>
      cases h
      obtain rfl | rfl := hempty
      · exact .parentheses
      · exact .emptySequence
    · split at h
      · cases h
      · next hname =>
        cases h
        simp only [Bool.or_eq_true, Bool.not_eq_true', not_or, Bool.not_eq_false, List.all_eq_true,
          List.isEmpty_iff] at hname
        have hs : s = String.ofList (splitMark s.toList).1 ++ (splitMark s.toList).2.mark := by
          rw [← String.toList_inj, String.toList_append, String.toList_ofList, splitMark_restored]
        have hname : IsTypeName (String.ofList (splitMark s.toList).1) :=
          ⟨by simpa using hname.1, by simpa using hname.2⟩
        have hspells := Spells.ofName hname (splitMark s.toList).2
        rwa [← hs] at hspells
  · rintro (_ | _ | ⟨hname, occurrence⟩)
    · rfl
    · rfl
    · rw [if_neg (hname.not_empty occurrence), String.toList_append, splitMark_append hname.chars,
        String.ofList_toList, if_neg]
      simpa [hname.nonempty] using hname.chars

/-- What spells a type without blanks around it is read as the type. -/
theorem Spells.parse_eq {s : String} {type : SequenceType} (h : Spells s type) : parse s = .ok type := by
  rw [parse_eq_ok_iff, h.trim_eq]
  exact h

/-- A literal names a declared type if it is the name with a mark, between blanks; the name has the form that
names have in literals, and is not built in. -/
theorem parse_eq_declared_iff {literal name : String} {occurrence : Occurrence} :
    parse literal = .ok (.of (.declared name) occurrence) ↔
      IsTypeName name ∧ ItemType.builtin? name = none ∧ Text.trim literal = name ++ occurrence.mark := by
  rw [parse_eq_ok_iff]
  generalize Text.trim literal = s
  constructor
  · intro h
    generalize htype : SequenceType.of (.declared name) occurrence = type at h
    cases h with
    | parentheses | emptySequence => cases htype
    | ofName hname _ =>
      injection htype with hdeclared hoccurrence
      obtain ⟨hbuiltin, rfl⟩ := ItemType.ofName_eq_declared_iff.mp hdeclared.symm
      exact ⟨hname, hbuiltin, by rw [hoccurrence]⟩
  · rintro ⟨hname, hbuiltin, rfl⟩
    exact .of_mark hname (ItemType.ofName_eq_declared_iff.mpr ⟨hbuiltin, rfl⟩) occurrence

/-- **Literals and types, there and back.** A literal that is read as a type prints as itself without the blanks
around it, and the longer way to say that there is nothing as the shorter one; what is printed is read as the
same type. Every item type that is built in, or declared by a name under which some literal is read, is read back
with every occurrence from what it prints as. -/
theorem parse_inverts_text :
    (∀ literal type, parse literal = .ok type →
      parse type.text = .ok type ∧
        type.text = if Text.trim literal = "empty-sequence()" then "()" else Text.trim literal) ∧
    ∀ itemType occurrence,
      (∀ name, itemType = .declared name → ∃ literal o, parse literal = .ok (.of itemType o)) →
        parse (SequenceType.of itemType occurrence).text = .ok (.of itemType occurrence) := by
  refine ⟨fun literal type h => ?_, fun itemType occurrence h => ?_⟩
  · have hspells := parse_eq_ok_iff.mp h
    exact ⟨hspells.printed.parse_eq, hspells.text_eq⟩
  · by_cases hbuiltin : ∀ name, itemType ≠ .declared name
    · exact (Spells.of_mark (isTypeName_builtin hbuiltin) (ItemType.ofName_name hbuiltin) occurrence).parse_eq
    · obtain ⟨name, rfl⟩ := by simpa using hbuiltin
      obtain ⟨literal, o, hliteral⟩ := h name rfl
      obtain ⟨hname, hnone, -⟩ := parse_eq_declared_iff.mp hliteral
      exact parse_eq_declared_iff.mpr ⟨hname, hnone, Text.trim_eq_self (hname.noBlanks occurrence)⟩

/-- A declared name beyond ASCII between blanks that are not, and the empty sequence beside the optional item,
with which it shares its items and their number. -/
theorem parse_inverts_text_umlaut :
    let size : ItemType := .declared "größe:2-a"
    parse "\u00a0größe:2-a+\u3000\n" = .ok (.of size .oneOrMore) ∧
      (SequenceType.of size .oneOrMore).text = "größe:2-a+" ∧
      parse "größe:2-a?" = .ok (.of size .zeroOrOne) ∧
      parse " empty-sequence() " = .ok .empty ∧ empty.text = "()" ∧
      parse (SequenceType.of .item .zeroOrOne).text = .ok (.of .item .zeroOrOne) := by
  intro size
  have hread : parse "\u00a0größe:2-a+\u3000\n" = .ok (.of size .oneOrMore) := by decide +kernel
  have hempty : parse " empty-sequence() " = .ok .empty := by decide +kernel
  refine ⟨hread, ?_, ?_, hempty, ?_, ?_⟩
  · exact ((parse_inverts_text.1 _ _ hread).2).trans (by decide +kernel)
  · exact parse_inverts_text.2 size .zeroOrOne fun _ _ => ⟨_, _, hread⟩
  · exact ((parse_inverts_text.1 _ _ hempty).2).trans (by decide +kernel)
  · exact parse_inverts_text.2 .item .zeroOrOne fun _ => nofun

end SequenceType
end HybridQuery
