import Mathlib.Data.String.Basic
import Mathlib.Data.List.Basic
import TextLisp.Table

namespace TextLisp

variable {α : Type}

theorem lookup_of_mem {name : String} {value : α} {entries : List (String × α)}
    (hnodup : (bindingNames entries).Nodup) (hmem : (name, value) ∈ entries) :
    entries.lookup name = some value := by
  obtain ⟨before, after, rfl⟩ := List.append_of_mem hmem
  rw [bindingNames, List.map_append, List.nodup_append] at hnodup
  refine List.lookup_eq_some_iff.mpr ⟨before, after, rfl, fun binding hbinding => ?_⟩
  have hne := hnodup.2.2 binding.1 (List.mem_map_of_mem hbinding) name List.mem_cons_self
  exact bne_iff_ne.mpr hne.symm

theorem mem_of_lookup {name : String} {value : α} {entries : List (String × α)}
    (h : entries.lookup name = some value) : (name, value) ∈ entries := by
  obtain ⟨before, after, rfl, -⟩ := List.lookup_eq_some_iff.mp h
  simp

namespace Table

@[simp]
theorem mem_entries_iff {t : Table α} {name : String} {value : α} :
    (name, value) ∈ t.entries ↔ t.get? name = some value :=
  ⟨lookup_of_mem t.nodup, mem_of_lookup⟩

/-- A binding is listed exactly if it is there. -/
@[simp]
theorem mem_sorted_iff {t : Table α} {name : String} {value : α} :
    (name, value) ∈ t.sorted ↔ t.get? name = some value := by
  unfold sorted
  rw [List.mem_mergeSort, mem_entries_iff]

theorem sorted_perm (t : Table α) : t.sorted.Perm t.entries :=
  List.mergeSort_perm _ _

/-- Sorting leaves the names distinct, so where they ascend they ascend strictly. -/
theorem ascending_sorted (t : Table α) : (bindingNames t.sorted).Pairwise (· < ·) := by
  have hle : t.sorted.Pairwise fun a b => a.1 ≤ b.1 := by
    have htrans (a b c : String × α) (hab : decide (a.1 ≤ b.1) = true)
        (hbc : decide (b.1 ≤ c.1) = true) : decide (a.1 ≤ c.1) = true := by
      rw [decide_eq_true_iff] at hab hbc ⊢
      exact le_trans hab hbc
    have htotal (a b : String × α) : (decide (a.1 ≤ b.1) || decide (b.1 ≤ a.1)) = true := by
      rw [Bool.or_eq_true, decide_eq_true_iff, decide_eq_true_iff]
      exact le_total a.1 b.1
    exact (List.pairwise_mergeSort htrans htotal t.entries).imp fun h => of_decide_eq_true h
  have hne : t.sorted.Pairwise fun a b => a.1 ≠ b.1 := by
    have hnodup : (bindingNames t.sorted).Nodup :=
      (t.sorted_perm.map Prod.fst).nodup_iff.mpr t.nodup
    exact List.pairwise_map.mp hnodup
  exact List.pairwise_map.mpr ((hle.and hne).imp fun h => lt_of_le_of_ne h.1 h.2)

end Table

end TextLisp
