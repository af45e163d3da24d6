import Mathlib.Data.List.Forall2
import TextLisp.Proofs.Text.Expression
import TextLisp.Tree.Parse

namespace TextLisp

open Text

theorem forall₂_of_mapM_eq_ok {ε α γ : Type} {f : α → Except ε γ} {xs : List α} {ys : List γ}
    (h : xs.mapM f = .ok ys) : List.Forall₂ (fun x y => f x = .ok y) xs ys := by
  induction xs generalizing ys with
  | nil =>
    obtain rfl := Except.ok.inj h
    exact .nil
  | cons x xs ih =>
    rw [List.mapM_cons] at h
    cases hhead : f x with
    | error e =>
      rw [hhead] at h
      cases h
    | ok y =>
      cases htail : xs.mapM f with
      | error e =>
        rw [hhead, htail] at h
        cases h
      | ok zs =>
        rw [hhead, htail] at h
        obtain rfl := Except.ok.inj h
        exact .cons hhead (ih htail)

def Text.Spells (text : String) (tree : Tree) : Prop :=
  trim text = text ∧ Tree.read text = .ok tree

namespace Tree

theorem eq_atom_of_read {text : String} {tree : Tree} (h : read text = .ok tree)
    (hbracketed : isBracketed (trim text) = false) :
    tree = .atom (trim text) ∧ isAtom (trim text) = true := by
  have hword : ∀ inner, trimChars text.toList ≠ '(' :: inner := by
    intro inner hinner
    have htrue : isBracketed (trim text) = true := by
      rw [isBracketed_iff, toList_trim]
      exact ⟨inner, hinner⟩
    rw [htrue] at hbracketed
    cases hbracketed
  rw [read, ofChars_of_word hword] at h
  split at h
  next hatom =>
    obtain rfl := Except.ok.inj h
    exact ⟨rfl, hatom⟩
  · cases h

/-- The children of a form are the trees of its siblings. -/
theorem eq_node_of_read {text : String} {tree : Tree} (h : read text = .ok tree)
    (hbracketed : isBracketed (trim text) = true) :
    ∃ siblings children, splitForm text = .ok siblings ∧ tree = .node (trim text) children ∧
      List.Forall₂ Spells siblings children := by
  obtain ⟨inner, hinner⟩ := isBracketed_iff.mp hbracketed
  rw [toList_trim] at hinner
  rw [read] at h
  cases hsplit : splitFormChars text.toList with
  | error fault =>
    rw [ofChars_of_fault hinner hsplit] at h
    cases h
  | ok parts =>
    rw [ofChars_of_form hinner hsplit] at h
    obtain ⟨children, hchildren, rfl⟩ := exists_of_map_eq_ok h
    have hsiblings : splitForm text = .ok (parts.map String.ofList) :=
      splitForm_eq_ok.mpr ⟨parts, hsplit, rfl⟩
    refine ⟨parts.map String.ofList, children, hsiblings, ?_, ?_⟩
    · rw [trim, hinner]
    · unfold Spells
      rw [List.forall₂_and_left, List.forall₂_map_left_iff]
      refine ⟨fun sibling hmem => (sibling_of_splitForm hsiblings hmem).1, ?_⟩
      simp only [read, String.toList_ofList]
      exact forall₂_of_mapM_eq_ok hchildren

theorem text_of_read {text : String} {tree : Tree} (h : read text = .ok tree) :
    tree.text = trim text := by
  cases hbracketed : isBracketed (trim text) with
  | true =>
    obtain ⟨_, _, _, rfl, _⟩ := eq_node_of_read h hbracketed
    rfl
  | false =>
    obtain ⟨rfl, -⟩ := eq_atom_of_read h hbracketed
    rfl

theorem isExpression_of_read {text : String} {tree : Tree} (h : read text = .ok tree) :
    IsExpression text := by
  cases hbracketed : isBracketed (trim text) with
  | true =>
    obtain ⟨siblings, _, hsiblings, -, -⟩ := eq_node_of_read h hbracketed
    exact Or.inr ⟨siblings, hsiblings⟩
  | false => exact Or.inl (eq_atom_of_read h hbracketed).2

end Tree

theorem Text.Spells.text_eq {text : String} {tree : Tree} (h : Spells text tree) :
    tree.text = text := by
  rw [Tree.text_of_read h.2, h.1]

theorem Text.map_text_of_spells {texts : List String} {trees : List Tree}
    (h : List.Forall₂ Spells texts trees) : trees.map Tree.text = texts := by
  induction h with
  | nil => rfl
  | cons hhead _ ih => rw [List.map_cons, hhead.text_eq, ih]

/-- Parameters that were read once are the ones that would be read again. -/
theorem parameterNames_of_spells {text : String} {tree : Tree} (h : Spells text tree) :
    parameterNames text = tree.parameterNames := by
  obtain ⟨htrim, hread⟩ := h
  unfold parameterNames
  -- Their bracket is looked for before anything is trimmed, but a slice has nothing to trim.
  cases hbracketed : isBracketed (trim text) with
  | true =>
    obtain ⟨siblings, children, hsiblings, rfl, hchildren⟩ := Tree.eq_node_of_read hread hbracketed
    rw [htrim] at hbracketed
    rw [if_pos hbracketed, hsiblings, Tree.parameterNames, map_text_of_spells hchildren]
    rfl
  | false =>
    obtain ⟨rfl, -⟩ := Tree.eq_atom_of_read hread hbracketed
    rw [htrim] at hbracketed ⊢
    have hunbracketed : ¬ isBracketed text = true := Bool.eq_false_iff.mp hbracketed
    rw [if_neg hunbracketed, Tree.parameterNames]

theorem Code.read_eq {params body : String} {names : List String} {tree : Tree}
    (hnames : parameterNames params = .ok names) (htree : Tree.read body = .ok tree) :
    Code.read params body = ⟨names, body, tree⟩ := by
  rw [Code.read, hnames, htree]

theorem Code.text_read (params body : String) : (Code.read params body).text = body := by
  unfold Code.read
  split <;> rfl

end TextLisp
