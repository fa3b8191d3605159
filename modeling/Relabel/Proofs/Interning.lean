import Mathlib.Data.Finset.Card
import Mathlib.Data.List.Nodup
import Relabel.Interner

namespace Relabel.Interner

/-- Interns texts one after the other. Each is listed with the name handed out for it. -/
def internAll (interner : Interner) : List String → List (String × Name) × Interner
  | [] => ([], interner)
  | text :: texts =>
    let (name, next) := interner.intern text
    let (answers, last) := next.internAll texts
    ((text, name) :: answers, last)

variable {interner : Interner} {text : String} {name other : Name}

/-- A text stands in one place only. -/
theorem eq_of_text? (found : interner.text? name = some text)
    (foundOther : interner.text? other = some text) : name = other := by
  have listed := (interner.agree text name).2 found
  have listedOther := (interner.agree text other).2 foundOther
  exact Option.some.inj (listed.symm.trans listedOther)

theorem nodup_texts (interner : Interner) : interner.texts.toList.Nodup := by
  rw [List.nodup_iff_injective_getElem]
  intro first second same
  have stands (place : Fin interner.texts.toList.length) :
      interner.text? ⟨place⟩ = some interner.texts.toList[place] := by
    simp [text?]
  have found := stands first
  rw [show interner.texts.toList[first] = interner.texts.toList[second] from same] at found
  exact Fin.ext (congrArg Name.index (eq_of_text? found (stands second)))

theorem internAll_fst_map_fst (interner : Interner) (texts : List String) :
    (interner.internAll texts).1.map Prod.fst = texts := by
  induction texts generalizing interner with
  | nil => rfl
  | cons text texts ih => exact congrArg (List.cons text) (ih (interner.intern text).2)

theorem text?_internAll_of_text? (found : interner.text? name = some text) (texts : List String) :
    (interner.internAll texts).2.text? name = some text := by
  induction texts generalizing interner with
  | nil => exact found
  | cons other texts ih => exact ih (text?_intern_of_text? found other)

/-- What was handed out during a run is still right at its end. -/
theorem text?_of_mem_internAll {texts : List String}
    (handedOut : (text, name) ∈ (interner.internAll texts).1) :
    (interner.internAll texts).2.text? name = some text := by
  induction texts generalizing interner with
  | nil => exact nomatch handedOut
  | cons first texts ih =>
    rcases List.mem_cons.1 handedOut with here | later
    · obtain ⟨rfl, rfl⟩ := Prod.mk.inj here
      exact text?_internAll_of_text? (text?_intern interner text) texts
    · exact ih later

theorem mem_texts_internAll (interner : Interner) (texts : List String) :
    text ∈ (interner.internAll texts).2.texts ↔ text ∈ interner.texts ∨ text ∈ texts := by
  induction texts generalizing interner with
  | nil => simp [internAll]
  | cons first texts ih =>
    have rest := ih (interner.intern first).2
    rw [mem_texts_intern, or_assoc] at rest
    rw [List.mem_cons]
    exact rest

/-- The texts of a run are in the interner, and besides them the empty text only. -/
theorem size_internAll (texts : List String) :
    (({} : Interner).internAll texts).2.size = (insert "" texts.toFinset).card := by
  have same : (({} : Interner).internAll texts).2.texts.toList.toFinset =
      insert "" texts.toFinset := by
    ext text
    rw [List.mem_toFinset, Array.mem_toList_iff, mem_texts_internAll, Finset.mem_insert,
      List.mem_toFinset, Array.mem_singleton]
  rw [← same, List.toFinset_card_of_nodup (nodup_texts _), Array.length_toList, size]

/-- An interner that was new, after some texts have been interned in it with these answers. -/
structure Interned (texts : List String) (answers : List (String × Name)) (interner : Interner) :
    Prop where
  answered : answers.map Prod.fst = texts
  leadsBack : ∀ text, (interner.intern text).2.text? (interner.intern text).1 = some text
  injective : ∀ one ∈ answers, ∀ other ∈ answers, one.2 = other.2 ↔ one.1 = other.1
  stable : ∀ answer ∈ answers, ∀ more,
    (interner.internAll more).2.text? answer.2 = some answer.1 ∧
      (interner.internAll more).2.intern answer.1 = (answer.2, (interner.internAll more).2)
  known : ∀ name, (interner.text? name).isSome ↔ name.index < interner.size
  below : ∀ answer ∈ answers, answer.2.index < interner.size
  blank : interner.text? .empty = some "" ∧ interner.intern "" = (.empty, interner)
  size : interner.size = 1 + (texts.toFinset.erase "").card
  isEmpty : interner.isEmpty = true ↔ ∀ text ∈ texts, text = ""

/-- At every point of a run, names and texts correspond one to one, and what has a name keeps it. -/
theorem interned_of_internAll (texts : List String) :
    Interned texts (({} : Interner).internAll texts).1 (({} : Interner).internAll texts).2 := by
  have blank : (({} : Interner).internAll texts).2.text? .empty = some "" :=
    text?_internAll_of_text? rfl texts
  have size : (({} : Interner).internAll texts).2.size = 1 + (texts.toFinset.erase "").card := by
    rw [size_internAll, ← Finset.erase_insert_eq_erase, Nat.add_comm,
      Finset.card_erase_add_one (Finset.mem_insert_self _ _)]
  constructor
  · exact internAll_fst_map_fst _ texts
  · exact text?_intern _
  · intro one handedOut other handedOutToo
    have found := text?_of_mem_internAll handedOut
    have foundOther := text?_of_mem_internAll handedOutToo
    constructor
    · intro same
      rw [same] at found
      exact Option.some.inj (found.symm.trans foundOther)
    · intro same
      rw [same] at found
      exact eq_of_text? found foundOther
  · intro answer handedOut more
    have found := text?_internAll_of_text? (text?_of_mem_internAll handedOut) more
    exact ⟨found, intern_of_text? found⟩
  · exact text?_isSome_iff _
  · intro answer handedOut
    rw [← text?_isSome_iff, text?_of_mem_internAll handedOut]
    rfl
  · exact ⟨blank, intern_of_text? blank⟩
  · exact size
  · rw [isEmpty, size, beq_iff_eq, Nat.add_eq_left, Finset.card_eq_zero,
      Finset.eq_empty_iff_forall_notMem]
    simp [not_imp_not]

example : (({} : Interner).internAll ["a", "", "b", "a"]).1 =
    [("a", ⟨1⟩), ("", .empty), ("b", ⟨2⟩), ("a", ⟨1⟩)] := by decide

end Relabel.Interner
