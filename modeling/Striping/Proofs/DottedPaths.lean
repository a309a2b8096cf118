import Striping.Path

/-!
# Dotted paths

The spelling of a path joins its names by dots, and reading a path takes the spelling apart again
at every dot. A name with a dot in it falls apart too, and the path with one empty name has the
spelling of the root, which has no names. Nothing else is lost.

* `Path.toDotted_ofDotted`: every text is the spelling of what is read from it.
* `Path.Separable`: no name has a dot, and the path is not one empty name. These are the paths that
  are read from texts (`Path.separable_ofDotted`).
* `Path.dotted_lossless`: **reading and spelling are inverse to each other** on all texts and on
  the separable paths, and on no other paths.
-/

namespace Striping

namespace Path

variable {p q : Path}

/-- The pieces of a list that is split have no separator in them. -/
theorem not_mem_of_mem_splitOn {c : Char} {cs piece : List Char} (h : piece ∈ cs.splitOn c) :
    c ∉ piece := by
  induction cs generalizing piece with
  | nil =>
    rw [List.splitOn_nil, List.mem_singleton] at h
    simp [h]
  | cons x cs ih =>
    rw [List.splitOn_cons_eq_if_modifyHead] at h
    by_cases hx : x = c
    · rw [if_pos (beq_iff_eq.2 hx), List.mem_cons] at h
      rcases h with rfl | h
      · exact List.not_mem_nil
      · exact ih h
    · -- the first piece goes on to the left, and is not empty for it
      rw [if_neg (fun h => hx (beq_iff_eq.1 h))] at h
      obtain ⟨first, rest, hpieces⟩ := List.exists_cons_of_ne_nil (List.splitOn_ne_nil c cs)
      rw [hpieces, List.modifyHead_cons, List.mem_cons] at h
      rcases h with rfl | h
      · have hfirst : c ∉ first := ih (by simp [hpieces])
        have hne : c ≠ x := fun h => hx h.symm
        simp [hfirst, hne]
      · exact ih (by simp [hpieces, h])

/-- Only the root and the path with one empty name are spelled by the empty text. -/
theorem toDotted_eq_empty_iff : p.toDotted = "" ↔ p.parts = [] ∨ p.parts = [""] := by
  unfold toDotted
  match p.parts with
  | [] => simp
  | [name] => simp
  | first :: second :: rest => simp [String.intercalate_cons_cons]

/-- **Every text is the spelling of what is read from it**, wherever its dots are. -/
theorem toDotted_ofDotted (s : String) : (ofDotted s).toDotted = s := by
  unfold ofDotted toDotted
  by_cases hs : s = ""
  · rw [if_pos hs, hs]
    exact String.intercalate_nil
  · rw [if_neg hs]
    apply String.toList_inj.1
    have hpieces : ((s.toList.splitOn '.').map String.ofList).map String.toList =
        s.toList.splitOn '.' := by simp [Function.comp_def]
    rw [String.toList_intercalate, hpieces]
    exact List.intercalate_splitOn '.'

/-- The paths that nothing is lost of when they are spelled. -/
structure Separable (p : Path) : Prop where
  /-- No name has a dot in it. -/
  dotless : ∀ name ∈ p.parts, '.' ∉ name.toList
  /-- The path is not one empty name, which is spelled like the root. -/
  not_blank : p.parts ≠ [""]

instance : DecidablePred Separable := fun p =>
  decidable_of_iff ((∀ name ∈ p.parts, '.' ∉ name.toList) ∧ p.parts ≠ [""])
    ⟨fun h => ⟨h.1, h.2⟩, fun h => ⟨h.dotless, h.not_blank⟩⟩

/-- What is read from a text is separable. -/
theorem separable_ofDotted (s : String) : (ofDotted s).Separable := by
  constructor
  · intro name hname
    unfold ofDotted at hname
    split at hname
    · simp [root] at hname
    · obtain ⟨piece, hpiece, rfl⟩ := List.mem_map.1 hname
      rw [String.toList_ofList]
      exact not_mem_of_mem_splitOn hpiece
  · intro hblank
    -- then the text is empty, and the root is read from it
    have hempty := toDotted_eq_empty_iff.2 (.inr hblank)
    rw [toDotted_ofDotted] at hempty
    subst hempty
    simp [ofDotted, root] at hblank

/-- A separable path is read from its spelling. -/
theorem Separable.ofDotted_toDotted (h : p.Separable) : ofDotted p.toDotted = p := by
  obtain ⟨parts⟩ := p
  by_cases hempty : toDotted ⟨parts⟩ = ""
  · have hroot : parts = [] := by
      rcases toDotted_eq_empty_iff.1 hempty with hnil | hblank
      · exact hnil
      · exact absurd hblank h.not_blank
    subst hroot
    rfl
  · have hne : parts.map String.toList ≠ [] := by
      intro hnil
      exact hempty (toDotted_eq_empty_iff.2 (.inl (List.map_eq_nil_iff.1 hnil)))
    have hdotless : ∀ cs ∈ parts.map String.toList, '.' ∉ cs := by
      intro cs hcs
      obtain ⟨name, hname, rfl⟩ := List.mem_map.1 hcs
      exact h.dotless name hname
    have hsplit : (toDotted ⟨parts⟩).toList.splitOn '.' = parts.map String.toList := by
      unfold toDotted
      rw [String.toList_intercalate]
      exact List.splitOn_intercalate '.' hdotless hne
    unfold ofDotted
    rw [if_neg hempty, hsplit]
    simp [Function.comp_def]

/-- **Dotted paths are lossless up to the dot.** Every text is spelled again by the path that is
read from it, also with dots at its ends, with dots side by side, and without any character. A path
is read again from its spelling just if no name has a dot and it is not one empty name; so no two
such paths have the same spelling. -/
theorem dotted_lossless :
    (∀ s, (ofDotted s).toDotted = s) ∧
      (∀ p : Path, ofDotted p.toDotted = p ↔ p.Separable) ∧
      ∀ p q : Path, p.Separable → q.Separable → p.toDotted = q.toDotted → p = q := by
  refine ⟨toDotted_ofDotted, ?_, ?_⟩
  · intro p
    constructor
    · intro h
      rw [← h]
      exact separable_ofDotted p.toDotted
    · exact Separable.ofDotted_toDotted
  · intro p q hp hq h
    rw [← hp.ofDotted_toDotted, h, hq.ofDotted_toDotted]

/-- Empty names keep their places: at the beginning, in the middle and at the end. -/
theorem dotted_lossless_blanks :
    Separable ⟨["", "Name", "", ""]⟩ ∧ toDotted ⟨["", "Name", "", ""]⟩ = ".Name.." ∧
      ofDotted ".Name.." = ⟨["", "Name", "", ""]⟩ ∧
      Separable ⟨["Name", "", ""]⟩ ∧ toDotted ⟨["Name", "", ""]⟩ ≠ ".Name.." := by
  obtain ⟨-, hread, hinjective⟩ := dotted_lossless
  have hp : Separable ⟨["", "Name", "", ""]⟩ := by decide
  have hq : Separable ⟨["Name", "", ""]⟩ := by decide
  have hspelling : toDotted ⟨["", "Name", "", ""]⟩ = ".Name.." := rfl
  refine ⟨hp, hspelling, ?_, hq, ?_⟩
  · rw [← hspelling]
    exact (hread _).2 hp
  · intro h
    have heq := hinjective _ _ hq hp (h.trans hspelling.symm)
    exact absurd heq (by decide)

/-- A name with a dot falls apart, and one empty name is taken for the root; two empty names have
a dot between them. -/
example : ofDotted (toDotted ⟨["a.b"]⟩) = ⟨["a", "b"]⟩ ∧ ofDotted (toDotted ⟨[""]⟩) = root ∧
    Separable ⟨["", ""]⟩ := by decide

end Path

end Striping
