import Mathlib
import TextLisp.Arithmetic
import TextLisp.Proofs.Session.Numerals
import TextLisp.Proofs.Text.Grammar

namespace TextLisp

open Text

variable {α γ : Type}

/-- Texts that are read have derivations in a row. -/
theorem exists_items_of_readDatum {texts : List (List Char)} {vs : List Value}
    (h : List.Forall₂ (fun text v => readDatum text = .ok v) texts vs) :
    ∃ items, List.Forall₂ (fun (e : Sexp) text => e.tokens = tokenChars text) items texts ∧
      Sexp.itemTokens items = texts.flatMap tokenChars := by
  induction h with
  | nil => exact ⟨[], .nil, rfl⟩
  | cons hread _ ih =>
    obtain ⟨e, he, -⟩ := exists_derives_of_readDatum hread
    obtain ⟨items, hitems, htokens⟩ := ih
    refine ⟨e :: items, .cons he hitems, ?_⟩
    rw [Sexp.itemTokens, he, htokens, List.flatMap_cons]

/-- A text with the tokens of a list is a form, and its siblings have the tokens of the items. -/
theorem exists_splitForm_of_tokens {text : String} {items : List Sexp}
    (h : tokens text = (Sexp.list items).tokens) :
    ∃ siblings, splitForm text = .ok siblings ∧
      List.Forall₂ (fun item sibling => tokens sibling = item.tokens) items siblings := by
  obtain ⟨parts, hparts⟩ := exists_splitFormChars_of_tokenChars h
  obtain ⟨inner, hinner⟩ := exists_open_of_splitFormChars hparts
  have hread := readDatum_of_tokens h.symm
  rw [readDatum_of_form hinner hparts] at hread
  obtain ⟨vs, hvs, -⟩ := exists_of_map_eq_ok hread
  obtain ⟨es, hes, htokens⟩ := exists_items_of_readDatum (forall₂_of_mapM_eq_ok hvs)
  -- The parts in a row have the tokens of the form, and no tokens are derived in two ways.
  have hlist : (Sexp.list es).tokens = (Sexp.list items).tokens := by
    rw [← h, tokens, tokenChars_of_splitFormChars hparts, ← htokens, Sexp.tokens]
  obtain rfl := Sexp.list.inj (Sexp.tokens_injective hlist)
  refine ⟨parts.map String.ofList, splitForm_eq_ok.mpr ⟨parts, hparts, rfl⟩, ?_⟩
  rw [List.forall₂_map_right_iff]
  apply hes.imp
  intro e part he
  rw [tokens, String.toList_ofList, he]

/-- The computation ends with the value if there are levels enough, and else reports the limit. It
leaves the store as it is. -/
structure Settles (s : Store) (enough : Prop) (a : α) (limit : Nat) (o : Outcome α) : Prop where
  success : enough → o.result = .ok a
  failure : ¬ enough → o.result = .error (.depthExceeded limit)
  store : o.store = s

namespace Settles

variable {s : Store} {limit : Nat}

/-- Levels have to be enough for both parts, and if they are not the limit is reported by one of
them. -/
theorem bind {enough enough' : Prop} {a : α} {b : γ} {x : Run α} {f : α → Run γ}
    (h : Settles s enough a limit (x s)) (h' : enough → Settles s enough' b limit (f a s)) :
    Settles s (enough ∧ enough') b limit ((x >>= f) s) := by
  by_cases henough : enough
  · obtain ⟨hsuccess, hfailure, hstore⟩ := h' henough
    rw [Run.bind_of_result_ok (h.success henough), h.store]
    exact ⟨fun hboth => hsuccess hboth.2, fun hboth => hfailure fun h' => hboth ⟨henough, h'⟩,
      hstore⟩
  · rw [Run.bind_of_result_error (h.failure henough)]
    exact ⟨fun hboth => absurd hboth.1 henough, fun _ => rfl, h.store⟩

theorem of_iff {enough enough' : Prop} {a : α} {o : Outcome α} (h : Settles s enough a limit o)
    (hiff : enough' ↔ enough) : Settles s enough' a limit o := by
  rwa [propext hiff]

end Settles

/-- Every operator is bound to its operation, and numerals are not bound at all. -/
structure Store.IsArithmetic (s : Store) : Prop where
  operators : ∀ operator : Operator,
    s.globals.get? operator.builtin.id = some operator.builtin.toValue
  numerals : ∀ n : NumeralAtom, s.globals.get? n.text = none

theorem toNumbers_map_number (operation : String) (xs : List Float) :
    Value.toNumbers operation (xs.map Value.number : List Value) = .ok xs := by
  induction xs with
  | nil => rfl
  | cons x xs ih =>
    rw [List.map_cons, Value.toNumbers, ih]
    rfl

theorem onNumbers_map_number {f : List Float → Option Value} {xs : List Float} {v : Value}
    (h : f xs = some v) (operation : String) :
    Builtin.onNumbers operation f (xs.map Value.number) = .ok v := by
  rw [Builtin.onNumbers, toNumbers_map_number]
  simp only [bind, Except.bind, h]
  rfl

/-- The operation of an operator combines any number and those behind it. -/
theorem Operator.apply_builtin (operator : Operator) (x : Float) (xs : List Float) :
    operator.builtin.apply ((x :: xs).map Value.number : List Value) =
      .ok (.number (operator.combine x xs)) := by
  cases operator with
  | add | mul =>
    rw [builtin, Builtin.apply]
    exact onNumbers_map_number rfl _
  | sub | div =>
    rw [builtin, Builtin.apply]
    apply onNumbers_map_number
    cases xs <;> rfl

theorem Operator.keyword_id (operator : Operator) :
    Keyword.ofText? operator.builtin.id = none := by
  cases operator <;> decide

theorem Operator.isAtom_id (operator : Operator) : isAtom operator.builtin.id = true := by
  cases operator <;> cbv

/-- An atom is what it stands for, if there is a level for it. -/
theorem settles_atom (host : Host) {s : Store} {env : Environment} {text : String} {value : Value}
    (hatom : isAtom (trim text) = true) (h : atomValue env s (trim text) = .ok value)
    (remaining depth : Nat) :
    Settles s (0 < remaining) value (depth + remaining)
      (evaluate host remaining depth env text s) := by
  cases remaining with
  | zero => exact ⟨fun hlt => absurd hlt (Nat.lt_irrefl 0), fun _ => rfl, rfl⟩
  | succ remaining =>
    have hlt : 0 < remaining + 1 := Nat.succ_pos remaining
    rw [evaluate_atom hatom, h]
    exact ⟨fun _ => rfl, fun hnot => absurd hlt hnot, rfl⟩

/-- Siblings with the tokens of the forms of expressions are written expressions. -/
theorem Arithmetic.forall₂_isWritten {es : List Arithmetic} {texts : List String}
    (h : List.Forall₂ (fun item text => tokens text = Sexp.tokens item) (sexps es) texts) :
    List.Forall₂ IsWritten es texts := by
  induction es generalizing texts with
  | nil =>
    cases h
    exact .nil
  | cons e es ih =>
    obtain _ | ⟨hhead, htail⟩ := h
    exact .cons hhead (ih htail)

section

variable {host : Host} {s : Store} (hs : s.IsArithmetic)
include hs

theorem Store.IsArithmetic.atomValue_operator (operator : Operator) :
    atomValue .empty s operator.builtin.id = .ok operator.builtin.toValue := by
  have hlookup : Environment.empty.lookup s operator.builtin.id = some operator.builtin.toValue :=
    hs.operators operator
  apply atomValue_of_lookup operator.isAtom_id hlookup
  intro target he
  cases he

theorem Store.IsArithmetic.atomValue_numeral (n : NumeralAtom) :
    atomValue .empty s n.text = .ok (.number n.value) := by
  have hlookup : Environment.empty.lookup s n.text = none := hs.numerals n
  rw [atomValue_of_unbound n.isAtom hlookup, n.parses]

/-- A form of an operator and its operands is settled as its operands are. -/
theorem settles_application (operator : Operator) {operands : List String} {x : Float}
    {xs : List Float} {enough : Prop} {remaining depth : Nat} (hlevel : enough → 0 < remaining)
    (h : Settles s enough ((x :: xs).map Value.number) (depth + remaining)
      (evaluateOperands (evaluate host remaining depth) .empty operands s)) (text : String) :
    Settles s enough (.number (operator.combine x xs)) (depth + remaining)
      (evaluateSiblings host (evaluate host remaining depth) .empty text
        (operator.builtin.id :: operands) s) := by
  have hatom : isAtom (trim operator.builtin.id) = true := by
    rw [trim_of_isAtom operator.isAtom_id]
    exact operator.isAtom_id
  have hvalue := hs.atomValue_operator operator
  rw [← trim_of_isAtom operator.isAtom_id] at hvalue
  have hhead := settles_atom host hatom hvalue remaining depth
  have hcall : Settles s True (.number (operator.combine x xs)) (depth + remaining)
      (applyProcedure host (applyClosure (evaluate host remaining depth) .empty)
        ((x :: xs).map Value.number) (.primitive ⟨operator.builtin.id, operator.builtin.arity,
          .builtin operator.builtin⟩) s) := by
    have hcheck :
        operator.builtin.arity.check ((x :: xs).map Value.number : List Value).length = .ok () := by
      cases operator <;> simp [Arity.check, Operator.builtin, Builtin.arity, Arity.Accepts]
    rw [applyProcedure, hcheck, Run.bind_ofExcept]
    dsimp only
    rw [Run.ofExcept_apply, Operation.apply, operator.apply_builtin]
    exact ⟨fun _ => rfl, fun hnot => absurd trivial hnot, rfl⟩
  rw [evaluateSiblings, operator.keyword_id]
  apply (hhead.bind fun _ => h.bind fun _ => hcall).of_iff
  constructor
  · exact fun henough => ⟨hlevel henough, henough, trivial⟩
  · exact fun hall => hall.2.1

omit hs in
/-- Expressions in a row are settled when each of them is. -/
theorem settles_evaluateOperands {remaining depth : Nat}
    (hd : ∀ (e : Arithmetic) (text : String), e.IsWritten text →
      Settles s (e.height < remaining) (.number e.value) (depth + remaining)
        (evaluate host remaining depth .empty text s))
    {es : List Arithmetic} {texts : List String}
    (h : List.Forall₂ Arithmetic.IsWritten es texts) :
    Settles s (Arithmetic.levels es ≤ remaining)
      ((Arithmetic.values es).map Value.number : List Value) (depth + remaining)
      (evaluateOperands (evaluate host remaining depth) .empty texts s) := by
  induction h with
  | nil => exact ⟨fun _ => rfl, fun hnot => absurd (Nat.zero_le _) hnot, rfl⟩
  | @cons e text es texts hwritten _ ih =>
    have hcons : Settles s True ((Arithmetic.values (e :: es)).map Value.number : List Value)
        (depth + remaining)
        ((pure (.number e.value :: (Arithmetic.values es).map .number) : Run (List Value)) s) := by
      rw [Arithmetic.values, List.map_cons]
      exact ⟨fun _ => rfl, fun hnot => absurd trivial hnot, rfl⟩
    apply ((hd e text hwritten).bind fun _ => ih.bind fun _ => hcons).of_iff
    rw [Arithmetic.levels, Nat.max_le, and_true]
    exact Iff.rfl

/-- The text of an expression is evaluated to its number, if its height is below the levels that
are left. -/
theorem settles_evaluate (e : Arithmetic) (remaining depth : Nat) (text : String)
    (h : e.IsWritten text) : Settles s (e.height < remaining) (.number e.value) (depth + remaining)
      (evaluate host remaining depth .empty text s) := by
  induction remaining generalizing e depth text with
  | zero => exact ⟨fun hlt => absurd hlt (Nat.not_lt_zero _), fun _ => rfl, rfl⟩
  | succ remaining ih =>
    cases e with
    | numeral n =>
      obtain ⟨hatom, htrim⟩ := isAtomChars_of_tokenChars h
      have hvalue := hs.atomValue_numeral n
      rw [← htrim] at hvalue
      exact settles_atom host (isAtom_ofList.mpr hatom) hvalue (remaining + 1) depth
    | node operator first rest =>
      obtain ⟨siblings, hsplit, hsiblings⟩ := exists_splitForm_of_tokens h
      obtain _ | ⟨hhead, hoperands⟩ := hsiblings
      rename_i head operands
      have hid : head = operator.builtin.id := by
        rw [← (sibling_of_splitForm hsplit List.mem_cons_self).1]
        exact (isAtomChars_of_tokenChars hhead).2
      subst hid
      have hwritten : List.Forall₂ Arithmetic.IsWritten (first :: rest) operands :=
        Arithmetic.forall₂_isWritten hoperands
      have hvalues := settles_evaluateOperands (fun e => ih e (depth + 1)) hwritten
      -- The first operand takes up a level, so there is one for the operator too.
      have hlevel : Arithmetic.levels (first :: rest) ≤ remaining → 0 < remaining := by
        intro hle
        rw [Arithmetic.levels, Nat.max_le] at hle
        exact Nat.lt_of_lt_of_le first.height.succ_pos hle.1
      have happly := settles_application hs operator hlevel hvalues (trim text)
      rw [Nat.add_right_comm] at happly
      obtain ⟨hsuccess, hfailure, hstore⟩ := happly.of_iff Nat.lt_succ_iff
      rw [evaluate_of_splitForm hsplit]
      exact ⟨hsuccess, hfailure, hstore⟩

end

/-- In every store where the operators are bound to their operations and no numeral is bound, the
text of an expression is the number that its tree means when the height of the tree is below the
limit, and runs into the limit otherwise. The store stays as it is. -/
theorem arithmetic_means_its_tree (host : Host) {s : Store} (hs : s.IsArithmetic) (e : Arithmetic)
    {text : String} (h : e.IsWritten text) (limit : Nat) :
    (evaluateLine host limit text s).result =
      (if e.height < limit then .ok (.number e.value) else .error (.depthExceeded limit)) ∧
    (evaluateLine host limit text s).store = s := by
  have hsettles : Settles s (e.height < limit) (.number e.value) (0 + limit)
      (evaluateLine host limit text s) := settles_evaluate hs e limit 0 text h
  rw [Nat.zero_add] at hsettles
  obtain ⟨hsuccess, hfailure, hstore⟩ := hsettles
  refine ⟨?_, hstore⟩
  split
  · next hlt => exact hsuccess hlt
  · next hnot => exact hfailure hnot

/-- At the start every operator is bound, and no numeral is. -/
theorem isArithmetic_initial : Store.initial.IsArithmetic := by
  refine ⟨fun operator => by cases operator <;> rfl, ?_⟩
  intro n
  have hname : isName n.text = false := by
    rw [isName, n.parses]
    exact Bool.and_false _
  exact isNamed_initial.lookup_eq_none hname .empty

/-- A difference with a product in it has three levels. -/
theorem difference_means_its_tree :
    ∃ ten two three : NumeralAtom,
      let host : Host := fun _ _ => .ok .nil
      let text := "( -\t10(* 2 3) )"
      (ten.text = "10" ∧ two.text = "2" ∧ three.text = "3") ∧
      (evaluateLine host 3 text Store.initial).result =
        .ok (.number (ten.value - (0 + 1 * two.value * three.value))) ∧
      (evaluateLine host 2 text Store.initial).result = .error (.depthExceeded 2) := by
  have hread (text : String) (integer : List Char) (hatom : Text.isAtom text = true)
      (h : Numeral.read? text.toList = some (⟨false, integer, none, none⟩, [])) :
      ∃ n : NumeralAtom, n.text = text :=
    ⟨⟨text, Numeral.value ⟨false, integer, none, none⟩, hatom, by rw [parseNumberExact, h]⟩, rfl⟩
  obtain ⟨ten, hten⟩ := hread "10" ['1', '0'] (by cbv) (by cbv)
  obtain ⟨two, htwo⟩ := hread "2" ['2'] (by cbv) (by cbv)
  obtain ⟨three, hthree⟩ := hread "3" ['3'] (by cbv) (by cbv)
  let e : Arithmetic := .node .sub (.numeral ten) [.node .mul (.numeral two) [.numeral three]]
  have hwritten : e.IsWritten "( -\t10(* 2 3) )" := by
    simp only [Arithmetic.IsWritten, e, Arithmetic.sexp, Arithmetic.sexps, hten, htwo, hthree]
    cbv
  refine ⟨ten, two, three, ⟨hten, htwo, hthree⟩, ?_, ?_⟩
  · exact (arithmetic_means_its_tree _ isArithmetic_initial e hwritten 3).1
  · exact (arithmetic_means_its_tree _ isArithmetic_initial e hwritten 2).1

end TextLisp
