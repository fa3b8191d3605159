import Mathlib.Data.List.Nodup

namespace Relabel

variable {α β : Type}

theorem length_filterMap_of_known {f : α → Option β} {list : List α}
    (known : ∀ a ∈ list, ∃ b, f a = some b) : (list.filterMap f).length = list.length := by
  rw [List.length_filterMap_eq_countP, List.countP_eq_length]
  intro a inside
  obtain ⟨b, found⟩ := known a inside
  rw [found]
  rfl

theorem getElem?_filterMap_of_known {f : α → Option β} {list : List α}
    (known : ∀ a ∈ list, ∃ b, f a = some b) (index : Nat) :
    (list.filterMap f)[index]? = list[index]?.bind f := by
  induction list generalizing index with
  | nil => rfl
  | cons a list ih =>
    obtain ⟨b, found⟩ := known a List.mem_cons_self
    have rest := ih fun other inside => known other (List.mem_cons_of_mem a inside)
    rw [List.filterMap_cons_some found]
    cases index with
    | zero => exact found.symm
    | succ index => exact rest index

variable [DecidableEq α]

theorem lookup_eq_none_iff_forall_ne {entries : List (α × β)} {key : α} :
    entries.lookup key = none ↔ key ∉ entries.map Prod.fst := by
  rw [List.lookup_eq_none_iff, List.mem_map]
  constructor
  · rintro absent ⟨entry, inside, rfl⟩
    exact absurd (absent entry inside) (by simp)
  · intro absent entry inside
    have other : key ≠ entry.1 := fun same => absent ⟨entry, inside, same.symm⟩
    simpa using other

theorem exists_lookup_of_mem {entries : List (α × β)} {key : α}
    (inside : key ∈ entries.map Prod.fst) : ∃ value, entries.lookup key = some value := by
  rw [← Option.ne_none_iff_exists']
  intro absent
  exact lookup_eq_none_iff_forall_ne.1 absent inside

theorem mem_of_lookup {entries : List (α × β)} {key : α} {value : β}
    (found : entries.lookup key = some value) : (key, value) ∈ entries := by
  obtain ⟨before, after, rfl, -⟩ := List.lookup_eq_some_iff.1 found
  simp

/-- Where no key is repeated, looking up finds every entry. -/
theorem lookup_eq_some_iff_mem {entries : List (α × β)} (distinct : (entries.map Prod.fst).Nodup)
    {key : α} {value : β} : entries.lookup key = some value ↔ (key, value) ∈ entries := by
  refine ⟨mem_of_lookup, fun inside => ?_⟩
  induction entries with
  | nil => exact nomatch inside
  | cons entry entries ih =>
    rw [List.map_cons, List.nodup_cons] at distinct
    rw [List.lookup_cons]
    rcases List.mem_cons.1 inside with rfl | inside
    · simp
    · have other : key ≠ entry.1 := by
        rintro rfl
        exact distinct.1 (List.mem_map.2 ⟨_, inside, rfl⟩)
      rw [beq_eq_false_iff_ne.2 other]
      exact ih distinct.2 inside

theorem nodup_eraseDups (list : List α) : list.eraseDups.Nodup := by
  match list with
  | [] => exact List.nodup_nil
  | head :: tail =>
    rw [List.eraseDups_cons, List.nodup_cons]
    exact ⟨by simp, nodup_eraseDups (tail.filter fun other => !other == head)⟩
termination_by list.length
decreasing_by exact Nat.lt_succ_of_le (List.length_filter_le _ tail)

end Relabel
