import HybridQuery.Proofs.Declarations
import HybridQuery.Proofs.Literals

/-!
# Naming declared types

A declared type is named by a literal of its name and the mark of an occurrence. Any name is accepted when a
type is declared, unless it is built in or taken; but a literal is read only if its name is of the form that
names have there, so that a type of another name stays out of reach for good.

* `Catalogue.Reaches`: a literal that resolves to a declared type.
* `Catalogue.reaches_iff`: the literals that do, by their text.
* `Catalogue.declared_reached`: the names with which all that is declared can be named.
* `Catalogue.declared_unreachable`: a type that is declared and that no literal names.
-/

namespace HybridQuery
namespace Catalogue

variable {c d : Catalogue} {literal : String} {type other : ObjectType}

/-! ## Resolving literals -/

theorem resolve_eq_ok_iff {t : SequenceType} :
    c.resolve literal = .ok t ↔ SequenceType.parse literal = .ok t ∧ c.Knows t.itemType := by
  rw [resolve, ← check_eq_ok_iff]
  cases SequenceType.parse literal with
  | error fault => exact ⟨nofun, fun h => nomatch h.1⟩
  | ok t' =>
    change (c.check t' >>= fun _ => .ok t') = .ok t ↔ _
    cases hcheck : c.check t' with
    | error fault =>
      refine ⟨nofun, ?_⟩
      rintro ⟨⟨⟩, hok⟩
      rw [hcheck] at hok
      cases hok
    | ok =>
      refine ⟨?_, ?_⟩
      · rintro ⟨⟩
        exact ⟨rfl, hcheck⟩
      · rintro ⟨⟨⟩, -⟩
        rfl

/-- A literal resolves to a type that is declared, with some occurrence. -/
def Reaches (c : Catalogue) (literal : String) (type : ObjectType) : Prop :=
  type ∈ c.declarations ∧ ∃ occurrence, c.resolve literal = .ok (.of (.declared type.name) occurrence)

/-- What reaches a declared type is its name with a mark between blanks, if the name has the form of one. -/
theorem reaches_iff (hc : c.Closed) (htype : type ∈ c.declarations) :
    c.Reaches literal type ↔ SequenceType.IsTypeName type.name ∧
      ∃ occurrence : Occurrence, Text.trim literal = type.name ++ occurrence.mark := by
  have hknown : c.Knows (.declared type.name) := fun name hname => by
    cases hname
    exact declares_of_mem htype
  simp only [Reaches, htype, resolve_eq_ok_iff, SequenceType.parse_eq_declared_iff, hc.not_builtin type htype,
    SequenceType.itemType, hknown, true_and, and_true, exists_and_left]

/-- A literal reaches one declared type at most. -/
theorem Reaches.unique (hc : c.Closed) (h : c.Reaches literal type) (h' : c.Reaches literal other) :
    type = other := by
  obtain ⟨htype, occurrence, hread⟩ := h
  obtain ⟨hother, occurrence', hread'⟩ := h'
  have hnames := hread.symm.trans hread'
  simp only [Except.ok.injEq, SequenceType.of.injEq, ItemType.declared.injEq] at hnames
  exact List.inj_on_of_nodup_map hc.names_nodup htype hother hnames.1

/-! ## What can be named -/

/-- A declared type resolves from its name with every mark, if the name has the form of one. -/
theorem resolve_declared (hc : c.Closed) (htype : type ∈ c.declarations)
    (hname : SequenceType.IsTypeName type.name) (occurrence : Occurrence) :
    c.resolve (type.name ++ occurrence.mark) = .ok (.of (.declared type.name) occurrence) := by
  refine resolve_eq_ok_iff.mpr ⟨SequenceType.parse_eq_declared_iff.mpr ⟨hname, hc.not_builtin type htype, ?_⟩, ?_⟩
  · exact Text.trim_eq_self (hname.noBlanks occurrence)
  · rintro name ⟨⟩
    exact declares_of_mem htype

/-- **What is declared can be named if its name has the form of one.** Let any calls be made on a new catalogue,
then a declaration that is accepted, then any calls again. The name stands for the type that was declared under
it. If the name has the form that names have in literals, it resolves with the mark of any occurrence to the type
with this occurrence; if it has not, the type is declared all the same, and no literal reaches it. And no literal
reaches two types. -/
theorem declared_reached (earlier later : List Call) (type : ObjectType) (c : Catalogue)
    (h : (empty.afterAll earlier).declare type = .ok c) :
    let d := c.afterAll later
    d.find? type.name = some type ∧
      (SequenceType.IsTypeName type.name → ∀ occurrence : Occurrence,
        d.resolve (type.name ++ occurrence.mark) = .ok (.of (.declared type.name) occurrence)) ∧
      (¬SequenceType.IsTypeName type.name → ∀ literal, ¬d.Reaches literal type) ∧
      ∀ literal first second, d.Reaches literal first → d.Reaches literal second → first = second := by
  intro d
  have hd : d.Closed := ((Closed.empty.afterAll earlier).declare h).afterAll later
  have htype : type ∈ d.declarations := by
    refine (declarations_afterAll later).subset ?_
    obtain ⟨-, -, -, rfl⟩ := declare_eq_ok_iff.mp h
    simp
  refine ⟨hd.find?_eq htype, resolve_declared hd htype, fun hname literal hreaches => ?_,
    fun _ _ _ => Reaches.unique hd⟩
  exact hname ((reaches_iff hd htype).mp hreaches).1

/-- A type with a name beyond ASCII, declared between two others, resolves as a repetition. -/
theorem declared_reached_umlaut :
    let size : ObjectType := ⟨"größe", [("next", ⟨.of (.declared "größe") .zeroOrOne, true⟩)]⟩
    let c : Catalogue := ⟨[⟨"a", []⟩, size]⟩
    (empty.afterAll [.declare ⟨"a", []⟩]).declare size = .ok c ∧ SequenceType.IsTypeName "größe" ∧
      (c.afterAll [.declare ⟨"b c", []⟩]).resolve "größe*" = .ok (.of (.declared "größe") .zeroOrMore) := by
  intro size c
  have hdeclare : (empty.afterAll [.declare ⟨"a", []⟩]).declare size = .ok c := by decide +kernel
  have hname : SequenceType.IsTypeName "größe" := by decide +kernel
  exact ⟨hdeclare, hname,
    (declared_reached [.declare ⟨"a", []⟩] [.declare ⟨"b c", []⟩] size c hdeclare).2.1 hname .zeroOrMore⟩

/-- A type that is declared under a name with a blank in it is reached by no literal, its name least of all. -/
theorem declared_unreachable :
    ∃ c, empty.declare ⟨"my type", []⟩ = .ok c ∧
      c.resolve "my type" = .error (.invalidSequenceType "my type") ∧
      ∀ literal, ¬c.Reaches literal ⟨"my type", []⟩ := by
  have hdeclare : empty.declare ⟨"my type", []⟩ = .ok ⟨[⟨"my type", []⟩]⟩ := by decide +kernel
  refine ⟨_, hdeclare, by decide +kernel, fun literal hreaches => ?_⟩
  have hname := ((reaches_iff (Closed.empty.declare hdeclare) (List.mem_singleton_self _)).mp hreaches).1
  have hblank : SequenceType.isNameChar ' ' = true := hname.chars ' ' (by decide +kernel)
  exact absurd hblank (by decide +kernel)

end Catalogue
end HybridQuery
