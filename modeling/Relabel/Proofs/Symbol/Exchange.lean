import Mathlib.Data.Set.Function
import Relabel.Proofs.Symbol.Replacement

namespace Relabel

/-- What a bijection followed by another map makes bijective, that other map makes so of its image. -/
theorem bijOn_of_comp {α β γ : Type} {f : α → β} {g : β → γ} {h : α → γ} {s : Set α} {t : Set β}
    {u : Set γ} (first : Set.BijOn f s t) (whole : Set.BijOn h s u)
    (same : ∀ a ∈ s, g (f a) = h a) : Set.BijOn g t u := by
  rw [← first.image_eq, ← Set.bijOn_comp_iff first.injOn]
  exact whole.congr fun a inside => (same a inside).symm

namespace SymbolId

variable {base : Nat} {first second : List SymbolId} {old : SymbolId}

/-- The symbol that stands for the same one in another copy, where the copies have given new symbols
to those in `first` and in `second`, in these orders. -/
def exchanged (base : Nat) (first second : List SymbolId) (id : SymbolId) : SymbolId :=
  if id.index < base then id
  else ((first[id.index - base]?).map (allotted base second)).getD id

theorem exchanged_of_lt {id : SymbolId} (below : id.index < base) :
    id.exchanged base first second = id := if_pos below

theorem exchanged_allotted (below : old.index < base) (same : old ∈ first ↔ old ∈ second) :
    (old.allotted base first).exchanged base first second = old.allotted base second := by
  by_cases inside : old ∈ first
  · have position : base + first.idxOf old - base = first.idxOf old := by omega
    have above : ¬base + first.idxOf old < base := by omega
    rw [allotted_of_mem inside, exchanged, if_neg above, position, List.getElem?_idxOf inside]
    rfl
  · have outside : old ∉ second := fun other => inside (same.2 other)
    rw [allotted_of_not_mem inside, exchanged_of_lt below, allotted_of_not_mem outside]

theorem bijOn_allotted (distinct : first.Nodup) (below : ∀ old ∈ first, old.index < base) :
    Set.BijOn (allotted base first) {old | old ∈ first}
      {id | base ≤ id.index ∧ id.index < base + first.length} := by
  refine ⟨fun old inside => ?_, fun one inside other insideOther same => ?_, fun id between => ?_⟩
  · have position := List.idxOf_lt_length_of_mem inside
    rw [allotted_of_mem inside]
    exact ⟨Nat.le_add_right _ _, Nat.add_lt_add_left position base⟩
  · exact injOn_allotted (below one inside) (below other insideOther) same
  · obtain ⟨low, high⟩ := between
    have position : id.index - base < first.length := by omega
    have inside : first[id.index - base] ∈ first := List.getElem_mem position
    have index : base + (id.index - base) = id.index := by omega
    refine ⟨first[id.index - base], inside, ?_⟩
    rw [allotted_of_mem inside, distinct.idxOf_getElem _ position, index]

/-- New symbols are exchanged one for one. -/
theorem bijOn_exchanged (distinct : first.Nodup) (permuted : first.Perm second)
    (below : ∀ old ∈ first, old.index < base) : Set.BijOn (exchanged base first second)
      {id | base ≤ id.index ∧ id.index < base + first.length}
      {id | base ≤ id.index ∧ id.index < base + second.length} := by
  have belowSecond (old : SymbolId) (inside : old ∈ second) : old.index < base :=
    below old (permuted.mem_iff.2 inside)
  have target := bijOn_allotted (permuted.nodup_iff.1 distinct) belowSecond
  have same : {old | old ∈ second} = {old | old ∈ first} :=
    Set.ext fun old => permuted.mem_iff.symm
  rw [same] at target
  refine bijOn_of_comp (bijOn_allotted distinct below) target fun old inside => ?_
  exact exchanged_allotted (below old inside) permuted.mem_iff

end SymbolId

end Relabel
