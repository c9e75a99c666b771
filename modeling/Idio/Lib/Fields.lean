/-
  Lib/Fields.lean --- texts as sequences of fields.

  `List.splitOn` has a field on either side of each separator.  `fields` drops the
  last one if it is empty, as a scanner does that stops when it is at the end of the
  text, and `names` drops all empty fields.  A text without empty fields is determined
  by its names, and to put a separator between two texts is to put their names
  together.
-/
import Mathlib.Data.List.Basic

set_option autoImplicit false

namespace Fields

variable {α : Type} [DecidableEq α] {sep : α} {t u : List α} {es : List (List α)}

/-- The fields, less an empty last one. -/
def fields (sep : α) (t : List α) : List (List α) :=
  if (t.splitOn sep).getLast? = some [] then (t.splitOn sep).dropLast else t.splitOn sep

/-- The fields that are not empty. -/
def names (sep : α) (t : List α) : List (List α) := (t.splitOn sep).filter (· ≠ [])

theorem fields_nil (sep : α) : fields sep ([] : List α) = [] := by
  simp [fields]

theorem fields_of_not_mem (h : sep ∉ t) (hne : t ≠ []) : fields sep t = [t] := by
  rw [fields, List.splitOn_eq_singleton h]
  simp [hne]

theorem fields_append_cons (h : sep ∉ u) (t : List α) :
    fields sep (u ++ sep :: t) = u :: fields sep t := by
  obtain ⟨e, es, hsplit⟩ := List.exists_cons_of_ne_nil (List.splitOn_ne_nil sep t)
  rw [fields, List.splitOn_append_cons_self_of_not_mem h, fields, hsplit, List.getLast?_cons_cons]
  split
  · rw [List.dropLast_cons_of_ne_nil (List.cons_ne_nil e es)]
  · rfl

/-- The empty last field is no name. -/
theorem filter_fields (sep : α) (t : List α) : (fields sep t).filter (· ≠ []) = names sep t := by
  rw [fields, names]
  split
  · rename_i h
    obtain ⟨l, hl⟩ := List.getLast?_eq_some_iff.mp h
    rw [hl, List.dropLast_concat, List.filter_append]
    simp
  · rfl

theorem names_append_cons (u t : List α) :
    names sep (u ++ sep :: t) = names sep u ++ names sep t := by
  rw [names, List.splitOn_append_cons_self, List.filter_append, names, names]

theorem not_mem_of_mem_splitOn {e : List α} (h : e ∈ t.splitOn sep) : sep ∉ e := by
  induction t generalizing e with
  | nil =>
    rw [List.splitOn_nil, List.mem_singleton] at h
    rw [h]
    exact List.not_mem_nil
  | cons c t ih =>
    rw [List.splitOn_cons_eq_if_modifyHead] at h
    split at h
    · rcases List.mem_cons.mp h with rfl | h
      · exact List.not_mem_nil
      · exact ih h
    · rename_i hc
      obtain ⟨e', es, hsplit⟩ := List.exists_cons_of_ne_nil (List.splitOn_ne_nil sep t)
      rw [hsplit] at h ih
      rcases List.mem_cons.mp h with rfl | h
      · rw [List.mem_cons, not_or]
        exact ⟨fun he => hc (by rw [he]; exact BEq.refl c), ih List.mem_cons_self⟩
      · exact ih (List.mem_cons_of_mem e' h)

omit [DecidableEq α] in
theorem intercalate_concat_nil (sep : α) (h : es ≠ []) :
    [sep].intercalate (es ++ [[]]) = [sep].intercalate es ++ [sep] := by
  induction es with
  | nil => exact absurd rfl h
  | cons e es ih =>
    cases es with
    | nil => simp
    | cons f es =>
      rw [List.cons_append, List.cons_append, List.intercalate_cons_cons,
        List.intercalate_cons_cons, ← List.cons_append, ih (List.cons_ne_nil f es)]
      simp

/-- A text ends with a separator, or is its fields joined. -/
theorem fields_cases (ht : t ≠ []) : fields sep t ≠ [] ∧
    (t = [sep].intercalate (fields sep t) ++ [sep] ∧ t.splitOn sep = fields sep t ++ [[]] ∨
      t = [sep].intercalate (fields sep t) ∧ t.splitOn sep = fields sep t ∧
        t.getLast? ≠ some sep) := by
  have hjoin : [sep].intercalate (t.splitOn sep) = t := List.intercalate_splitOn sep
  rw [fields]
  split
  · rename_i h
    obtain ⟨l, hl⟩ := List.getLast?_eq_some_iff.mp h
    have hne : l ≠ [] := by
      rintro rfl
      rw [hl] at hjoin
      exact ht (by simpa using hjoin.symm)
    rw [hl, List.dropLast_concat]
    rw [hl, intercalate_concat_nil sep hne] at hjoin
    exact ⟨hne, .inl ⟨hjoin.symm, rfl⟩⟩
  · rename_i h
    refine ⟨List.splitOn_ne_nil sep t, .inr ⟨hjoin.symm, rfl, fun hlast => h ?_⟩⟩
    obtain ⟨u, hu⟩ := List.getLast?_eq_some_iff.mp hlast
    rw [hu, List.splitOn_append_cons_self, List.splitOn_nil, List.getLast?_concat]

/-- Names that are joined are the names of the result. -/
theorem names_intercalate (h : ∀ e ∈ es, e ≠ [] ∧ sep ∉ e) : names sep ([sep].intercalate es) = es := by
  by_cases hes : es = []
  · rw [hes]
    simp [names]
  · rw [names, List.splitOn_intercalate sep (fun e he => (h e he).2) hes]
    exact List.filter_eq_self.mpr fun e he => decide_eq_true (h e he).1

end Fields
