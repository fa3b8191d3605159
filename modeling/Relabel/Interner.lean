namespace Relabel

/-- An interned text: its position in the interner that issued it. -/
structure Name where
  index : Nat
deriving DecidableEq, Repr

namespace Name

/-- The name of the empty text in every interner. -/
def empty : Name := ⟨0⟩

def label (name : Name) : String := s!"Name({name.index})"

end Name

namespace Interner

/-- A text has a name exactly if it stands at the position that this name is. -/
def Agree (names : List (String × Name)) (texts : Array String) : Prop :=
  ∀ text name, names.lookup text = some name ↔ texts[name.index]? = some text

theorem agree_start : Agree [("", .empty)] #[""] := by
  intro text name
  obtain ⟨index⟩ := name
  by_cases blank : text = ""
  · subst blank
    cases index <;> simp [Name.empty]
  · have other : (text == "") = false := beq_eq_false_iff_ne.2 blank
    cases index <;> simp [List.lookup_cons, other, Ne.symm blank]

/-- A text without a name may be put at the end, with the next position as its name. -/
theorem Agree.push {names : List (String × Name)} {texts : Array String} {text : String}
    (agree : Agree names texts) (absent : names.lookup text = none) :
    Agree ((text, ⟨texts.size⟩) :: names) (texts.push text) := by
  intro other name
  have last (found : Name) (same : found.index = texts.size) : names.lookup other ≠ some found := by
    intro listed
    rw [agree, same, Array.getElem?_size] at listed
    cases listed
  rw [List.lookup_cons, Array.getElem?_push]
  by_cases same : other = text
  · subst same
    have unlisted : texts[name.index]? ≠ some other := by
      rw [Ne, ← agree, absent]
      exact nofun
    obtain ⟨index⟩ := name
    by_cases here : index = texts.size
    · simp [here]
    · simpa [here, Ne.symm here] using unlisted
  · have differs : (other == text) = false := beq_eq_false_iff_ne.2 same
    by_cases here : name.index = texts.size
    · simpa [differs, here, Ne.symm same] using last name here
    · simpa [differs, here] using agree other name

end Interner

/-- The texts interned so far, each once, in the order of their names, with a table of the names. -/
structure Interner where
  names : List (String × Name) := [("", .empty)]
  texts : Array String := #[""]
  agree : Interner.Agree names texts := by exact Interner.agree_start
deriving DecidableEq, Repr

namespace Interner

/-- The name of a text: the one it already has, or the next free one. -/
def intern (interner : Interner) (text : String) : Name × Interner :=
  match known : interner.names.lookup text with
  | some name => (name, interner)
  | none =>
    let name : Name := ⟨interner.texts.size⟩
    (name, ⟨(text, name) :: interner.names, interner.texts.push text, interner.agree.push known⟩)

def text? (interner : Interner) (name : Name) : Option String :=
  interner.texts[name.index]?

def size (interner : Interner) : Nat := interner.texts.size

/-- Only the empty text is interned. -/
def isEmpty (interner : Interner) : Bool := interner.size == 1

theorem text?_isSome_iff (interner : Interner) (name : Name) :
    (interner.text? name).isSome ↔ name.index < interner.size := by
  simp [text?, size]

/-- Interning a text that has a name gives this name and nothing else happens. -/
theorem intern_of_text? {interner : Interner} {text : String} {name : Name}
    (found : interner.text? name = some text) : interner.intern text = (name, interner) := by
  have listed := (interner.agree text name).2 found
  unfold intern
  split
  · next known =>
    rw [listed] at known
    rw [Option.some.inj known]
  · next absent =>
    rw [listed] at absent
    cases absent

/-- A text is given its name, or it is new and comes last. -/
theorem intern_cases (interner : Interner) (text : String) :
    (∃ name, interner.text? name = some text ∧ interner.intern text = (name, interner)) ∨
    ((∀ name, interner.text? name ≠ some text) ∧ (interner.intern text).1 = ⟨interner.size⟩ ∧
      (interner.intern text).2.texts = interner.texts.push text) := by
  cases known : interner.names.lookup text with
  | some name =>
    have found := (interner.agree text name).1 known
    exact .inl ⟨name, found, intern_of_text? found⟩
  | none =>
    refine .inr ⟨fun name found => ?_, ?_⟩
    · rw [text?, ← interner.agree, known] at found
      cases found
    · unfold intern
      split
      · next name listed =>
        rw [known] at listed
        cases listed
      · exact ⟨rfl, rfl⟩

/-- The name handed out for a text leads back to that text. -/
theorem text?_intern (interner : Interner) (text : String) :
    (interner.intern text).2.text? (interner.intern text).1 = some text := by
  rcases interner.intern_cases text with ⟨name, found, same⟩ | ⟨-, name, texts⟩
  · rw [same]
    exact found
  · rw [text?, name, texts]
    exact Array.getElem?_push_size

/-- A name goes on to stand for the text that it stands for. -/
theorem text?_intern_of_text? {interner : Interner} {text : String} {name : Name}
    (found : interner.text? name = some text) (other : String) :
    (interner.intern other).2.text? name = some text := by
  rcases interner.intern_cases other with ⟨_, -, same⟩ | ⟨-, -, texts⟩
  · rw [same]
    exact found
  · have inside : name.index < interner.texts.size := by
      rw [← size, ← text?_isSome_iff, found]
      rfl
    rw [text?, texts, Array.getElem?_push_lt inside]
    exact (Array.getElem?_eq_getElem inside).symm.trans found

theorem mem_texts_intern (interner : Interner) (text other : String) :
    other ∈ (interner.intern text).2.texts ↔ other ∈ interner.texts ∨ other = text := by
  rcases interner.intern_cases text with ⟨name, found, same⟩ | ⟨-, -, texts⟩
  · have inside : text ∈ interner.texts := Array.mem_of_getElem? found
    rw [same]
    constructor
    · exact .inl
    · rintro (listed | rfl)
      · exact listed
      · exact inside
  · rw [texts, Array.mem_push]

end Interner

end Relabel
