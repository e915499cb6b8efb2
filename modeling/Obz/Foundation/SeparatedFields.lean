import Mathlib.Data.List.Basic
import Mathlib.Tactic

/-!
# Fields with a separator between them

A list of fields is written as their texts with a separator in between. If the
texts can be told apart and are free of the separator, exactly one list of
fields is written as a given text.
-/
namespace Obz.Foundation

variable {α ι : Type*} [DecidableEq α]

/-- The texts of fields, and the field with a given text. -/
structure FieldFormat (α ι : Type*) where
  separator : α
  text : ι → List α
  find : List α → Option ι
  free : ∀ i, separator ∉ text i
  find_eq_some : ∀ s i, find s = some i ↔ s = text i

namespace FieldFormat

variable (F : FieldFormat α ι)

def print (fields : List ι) : List α := [F.separator].intercalate (fields.map F.text)

def parse (s : List α) : Option (List ι) := (s.splitOn F.separator).mapM F.find

omit [DecidableEq α] in
theorem mapM_find_eq_some {parts : List (List α)} {fields : List ι} :
    parts.mapM F.find = some fields ↔ parts = fields.map F.text := by
  induction parts generalizing fields with
  | nil => cases fields <;> simp
  | cons part parts ih =>
    cases fields with
    | nil => simp [Option.bind_eq_some_iff]
    | cons field fields => simp [Option.bind_eq_some_iff, F.find_eq_some, ih]

/-- Exactly what is printed is parsed. -/
theorem parse_eq_some {s : List α} {fields : List ι} (hne : fields ≠ []) :
    F.parse s = some fields ↔ s = F.print fields := by
  rw [parse, mapM_find_eq_some]
  constructor
  · intro h
    rw [print, ← h, List.intercalate_splitOn]
  · rintro rfl
    refine List.splitOn_intercalate _ ?_ (by simpa using hne)
    intro part hpart
    obtain ⟨i, -, rfl⟩ := List.mem_map.mp hpart
    exact F.free i

omit [DecidableEq α] in
/-- What is neither the separator nor in a field is not in a list of fields. -/
theorem notMem_print {a : α} (hseparator : a ≠ F.separator) (htext : ∀ i, a ∉ F.text i)
    (fields : List ι) : a ∉ F.print fields := by
  induction fields with
  | nil => simp [print]
  | cons field fields ih =>
    cases fields with
    | nil => simpa [print] using htext field
    | cons next rest =>
      have hprint : F.print (field :: next :: rest) =
          F.text field ++ F.separator :: F.print (next :: rest) := by
        simp [print, List.intercalate_cons_cons]
      rw [hprint, List.mem_append, List.mem_cons]
      rintro (hfield | rfl | hrest)
      · exact htext field hfield
      · exact hseparator rfl
      · exact ih hrest

end FieldFormat
end Obz.Foundation
