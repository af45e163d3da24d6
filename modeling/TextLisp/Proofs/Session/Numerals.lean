import Mathlib
import TextLisp.Proofs.Evaluator.Recorded
import TextLisp.Proofs.Store.Holding
import TextLisp.Session

namespace TextLisp

/-- Everything that is bound in a table is a name. -/
def Store.IsNamed (s : Store) : Prop :=
  s.Holds fun _ name _ => isName name = true

theorem Store.IsNamed.of_mem_names {s : Store} (h : s.IsNamed) {owner : Owner} {name : String}
    (hname : name ∈ (s.table owner).names) :
    Text.isAtom name = true ∧ parseNumberExact name = none := by
  obtain ⟨value, hvalue⟩ := Table.exists_get?_of_mem_names hname
  exact isName_iff.mp (h owner name value hvalue)

/-- Only names become bound, since definitions and parameters are checked before. -/
theorem Store.History.isNamed {s s' : Store} {log : List Record} (h : s.History log s')
    (hs : s.IsNamed) : s'.IsNamed :=
  h.holds hs (fun _ _ _ hname _ => hname) fun _ _ _ hname => hname

/-- What is no name is bound nowhere. -/
theorem Store.IsNamed.lookup_eq_none {s : Store} (h : s.IsNamed) {text : String}
    (htext : isName text = false) (env : Environment) : env.lookup s text = none := by
  cases hlookup : env.lookup s text with
  | none => rfl
  | some value =>
    rw [Environment.lookup_eq_owner?] at hlookup
    obtain ⟨owner, -, hvalue⟩ := Option.bind_eq_some_iff.mp hlookup
    rw [h owner text value hvalue] at htext
    cases htext

theorem isName_id (operation : Builtin) : isName operation.id = true := by
  cases operation <;> cbv

theorem isName_of_mem_constants {constant : String × Value} (h : constant ∈ constants) :
    isName constant.1 = true := by
  revert constant
  simp only [constants, List.forall_mem_cons]
  exact ⟨by cbv, by cbv, by cbv, by cbv, List.forall_mem_nil _⟩

theorem isName_of_mem_aliases {pair : String × String} (h : pair ∈ aliases) :
    isName pair.1 = true := by
  obtain rfl := List.mem_singleton.mp h
  cbv

/-- What is bound at the start is a name. -/
theorem isNamed_initial : Store.initial.IsNamed :=
  Store.holds_initialGlobals isName_id (fun _ => isName_of_mem_constants)
    fun _ => isName_of_mem_aliases

/-- Lines bind names only, whether they succeed or fail. -/
theorem isNamed_after_lines (host : Host) (lines : List (String × Nat)) {s : Store}
    (h : s.IsNamed) :
    (s.after host (lines.map fun line => .evaluate line.1 line.2)).IsNamed := by
  induction lines generalizing s with
  | nil => exact h
  | cons line lines ih =>
    exact ih ((recordedAt_evaluate host line.2 0 Environment.empty line.1 s).isNamed h)

/-- Where nothing but names is bound, a numeral is the number that it says. -/
theorem evaluate_numeral (host : Host) {s : Store} (h : s.IsNamed) {text : String} {x : Float}
    (hatom : Text.isAtom text = true) (hnumeral : parseNumberExact text = some x)
    (remaining depth : Nat) (env : Environment) :
    evaluate host (remaining + 1) depth env text s =
      ⟨.ok (.number x), s, [.evaluate depth text]⟩ := by
  have hname : isName text = false := by
    rw [isName, hnumeral]
    exact Bool.and_false _
  have htrim : Text.trim text = text := Text.trim_of_isAtom hatom
  have hvalue : atomValue env s text = .ok (.number x) := by
    rw [atomValue_of_unbound hatom (h.lookup_eq_none hname env), hnumeral]
  have htrimmed : Text.isAtom (Text.trim text) = true := by rwa [htrim]
  rw [evaluate_atom htrimmed, htrim, hvalue]

/-- Numerals mean themselves. Over a session of lines, whether they succeed or fail, every global
name and every name in a frame is an atom that is no numeral. Wherever an evaluation begins in the
course of a further line this is so as well, and there each numeral is the number that it says,
whatever chain of frames it is evaluated in. -/
theorem numerals_mean_themselves (host : Host) (lines : List (String × Nat)) :
    let s := Store.initial.after host (lines.map fun line => .evaluate line.1 line.2)
    (∀ owner, ∀ name ∈ (s.table owner).names,
      Text.isAtom name = true ∧ parseNumberExact name = none) ∧
    ∀ line limit start w,
      Evaluation.Begins host ⟨limit, 0, Environment.empty, line, s⟩ start w →
        (∀ owner, ∀ name ∈ (w.store.table owner).names,
          Text.isAtom name = true ∧ parseNumberExact name = none) ∧
        ∀ text x, Text.isAtom text = true → parseNumberExact text = some x →
          ∀ remaining depth env, evaluate host (remaining + 1) depth env text w.store =
            ⟨.ok (.number x), w.store, [.evaluate depth text]⟩ := by
  intro s
  have hs : s.IsNamed := isNamed_after_lines host lines isNamed_initial
  refine ⟨fun owner name hname => hs.of_mem_names hname, ?_⟩
  intro line limit start w hbegins
  have hw : w.store.IsNamed := hbegins.history.isNamed hs
  refine ⟨fun owner name hname => hw.of_mem_names hname, ?_⟩
  intro text x hatom hnumeral remaining depth env
  exact evaluate_numeral host hw hatom hnumeral remaining depth env

/-- The definition of a numeral is refused, and the test of a conditional reads the number. -/
theorem numeral_is_never_defined :
    let host : Host := fun _ _ => .ok .nil
    let s := Store.initial.after host [.evaluate "(define 12 #t)" 5]
    evaluate host 4 1 .empty "12" s =
      ⟨.ok (.number (Numeral.value ⟨false, ['1', '2'], none, none⟩)), s, [.evaluate 1 "12"]⟩ := by
  intro host s
  have hatom : Text.isAtom "12" = true := by cbv
  have hread : Numeral.read? "12".toList = some (⟨false, ['1', '2'], none, none⟩, []) := by cbv
  have hnumeral : parseNumberExact "12" = some (Numeral.value ⟨false, ['1', '2'], none, none⟩) := by
    rw [parseNumberExact, hread]
  have hform : Text.splitForm "(if 12 13 14)" = .ok ["if", "12", "13", "14"] := by cbv
  have hbegins : Evaluation.Begins host ⟨5, 0, Environment.empty, "(if 12 13 14)", s⟩
      [.evaluate 0 (Text.trim "(if 12 13 14)")] ⟨4, 1, Environment.empty, "12", s⟩ :=
    .inside hform .test (.itself _)
  exact ((numerals_mean_themselves host [("(define 12 #t)", 5)]).2 _ _ _ _ hbegins).2 _ _ hatom
    hnumeral 3 1 Environment.empty

end TextLisp
