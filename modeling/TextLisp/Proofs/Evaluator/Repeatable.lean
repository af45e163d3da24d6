import Mathlib
import TextLisp.Proofs.Evaluator.Issued
import TextLisp.Proofs.Evaluator.Matching
import TextLisp.Proofs.Text.Atoms
import TextLisp.Proofs.Tree.Parse

namespace TextLisp

/-- Neither `define` nor `set!` is an atom of the text. -/
def Text.IsPure (text : String) : Prop :=
  ¬ HasAtom Keyword.define.text text ∧ ¬ HasAtom Keyword.assign.text text

/-- Applying it binds nothing, and runs nothing of the embedding program. -/
def Procedure.IsPure : Procedure → Prop
  | .primitive p => ∃ operation, p.operation = .builtin operation
  | .closure c => Text.IsPure c.body

def renumber (start restart n : Nat) : Nat :=
  if n < start then n else restart + (n - start)

/-- The procedure that a run from `s'` makes where a run from `s` makes this one. Closures and
frames that `s` has given out are kept, and the others are given out again. -/
def Procedure.renew (s s' : Store) : Procedure → Procedure
  | .primitive p => .primitive p
  | .closure c => .closure ⟨renumber s.nextClosure s'.nextClosure c.identity, c.params, c.body,
      ⟨c.env.frames.map (renumber s.frames.size s'.frames.size)⟩⟩

theorem Text.IsPure.of_trim {text : String} (h : IsPure text) : IsPure (trim text) :=
  ⟨fun hatom => h.1 hatom.of_trim, fun hatom => h.2 hatom.of_trim⟩

theorem Text.IsPure.of_sibling {text sibling : String} {siblings : List String} (h : IsPure text)
    (hsplit : splitForm text = .ok siblings) (hmem : sibling ∈ siblings) : IsPure sibling :=
  ⟨fun hatom => h.1 (hatom.of_sibling hsplit hmem), fun hatom => h.2 (hatom.of_sibling hsplit hmem)⟩

theorem renumber_of_lt {start restart n : Nat} (h : n < start) : renumber start restart n = n :=
  if_pos h

theorem renumber_add (start restart n : Nat) :
    renumber start restart (start + n) = restart + n := by
  rw [renumber, if_neg (by omega), Nat.add_sub_cancel_left]

theorem renumber_self (start n : Nat) : renumber start start n = n := by
  unfold renumber
  split <;> omega

/-- Counting elsewhere keeps different numbers different. -/
theorem renumber_inj {start restart : Nat} (h : start ≤ restart) {n n' : Nat} :
    renumber start restart n = renumber start restart n' ↔ n = n' := by
  unfold renumber
  split <;> split <;> omega

theorem Procedure.renew_closure_eq_self {s s' : Store} {c : Closure}
    (hidentity : renumber s.nextClosure s'.nextClosure c.identity = c.identity)
    (henv : ∀ index ∈ c.env.frames, renumber s.frames.size s'.frames.size index = index) :
    Procedure.renew s s' (.closure c) = .closure c := by
  have hframes : c.env.frames.map (renumber s.frames.size s'.frames.size) = c.env.frames := by
    rw [List.map_congr_left henv, List.map_id']
  rw [Procedure.renew, hidentity, hframes]

/-- Over the same store nothing is renewed. -/
theorem Procedure.renew_self (s : Store) (p : Procedure) : p.renew s s = p := by
  cases p with
  | primitive p => rfl
  | closure c => exact renew_closure_eq_self (renumber_self _ _) fun _ _ => renumber_self _ _

/-- What was given out by the first store is not given out again. -/
theorem Procedure.IsIssued.renew {s : Store} {p : Procedure} (h : p.IsIssued s) (s' : Store) :
    p.renew s s' = p := by
  cases p with
  | primitive p => rfl
  | closure c =>
    exact renew_closure_eq_self (renumber_of_lt h.1)
      fun index hmem => renumber_of_lt (h.2 index hmem)

namespace Matching

def renewal (s s' : Store) (hsize : s.frames.size ≤ s'.frames.size)
    (hnext : s.nextClosure ≤ s'.nextClosure) : Matching where
  accepts := Text.IsPure
  frame i j := j = renumber s.frames.size s'.frames.size i
  identity a b := b = renumber s.nextClosure s'.nextClosure a
  trimmed _ h := h.of_trim
  sibling _ _ h hsplit _ hmem := h.of_sibling hsplit hmem
  frame_iff := by
    rintro i i' j j' rfl rfl
    exact (renumber_inj hsize).symm
  identity_iff := by
    rintro a a' b b' rfl rfl
    exact (renumber_inj hnext).symm

variable {s s' : Store} {hsize : s.frames.size ≤ s'.frames.size}
  {hnext : s.nextClosure ≤ s'.nextClosure}

theorem procedures_renew {p : Procedure} (h : p.IsPure) :
    (renewal s s' hsize hnext).Procedures p (p.renew s s') := by
  cases p with
  | primitive p => exact .primitive h
  | closure c =>
    apply Procedures.closure rfl h
    rw [List.forall₂_map_right_iff, List.forall₂_same]
    exact fun _ _ => rfl

theorem eq_renew {p q : Procedure} (h : (renewal s s' hsize hnext).Procedures p q) :
    q = p.renew s s' := by
  cases h with
  | primitive => rfl
  | @closure identity identity' params body frames frames' hidentity _ hframes =>
    have hmap : List.Forall₂ Eq (frames.map (renumber s.frames.size s'.frames.size)) frames' :=
      List.forall₂_map_left_iff.mpr (hframes.imp fun _ _ hij => hij.symm)
    rw [List.forall₂_eq_eq_eq] at hmap
    rw [Procedure.renew, hmap, hidentity]

/-- A store matches a later one that has kept its globals and its frames. -/
theorem stores_renewal (hs : s.Within fun p => p.IsPure ∧ p.renew s s' = p)
    (hglobals : s'.globals = s.globals)
    (hframes : ∀ index < s.frames.size, s'.frame index = s.frame index) :
    (renewal s s' hsize hnext).Stores s s' s s' := by
  have hself (p : Procedure) (hp : p.IsPure ∧ p.renew s s' = p) :
      (renewal s s' hsize hnext).Procedures p p := by
    have hrenew : (renewal s s' hsize hnext).Procedures p (p.renew s s') := procedures_renew hp.1
    rwa [hp.2] at hrenew
  constructor
  case globals =>
    rw [hglobals]
    exact (hs .globals).alike_self hself
  case frames =>
    intro i j hij
    by_cases hlt : i < s.frames.size
    · obtain rfl : j = i := hij.trans (renumber_of_lt hlt)
      rw [hframes j hlt]
      exact (hs (.frame j)).alike_self hself
    · obtain ⟨n, rfl⟩ := Nat.exists_eq_add_of_le (Nat.le_of_not_lt hlt)
      obtain rfl : j = s'.frames.size + n := hij.trans (renumber_add _ _ n)
      simpa using Table.alike_empty
  case newFrames => exact fun n => (renumber_add _ _ n).symm
  case newClosures => exact fun n => (renumber_add _ _ n).symm
  case left => exact fun _ _ => rfl
  case right => exact fun _ _ => rfl

end Matching

theorem not_isPure_define : ¬ Text.IsPure Keyword.define.text :=
  fun h => h.1 (Text.hasAtom_self _)

theorem not_isPure_assign : ¬ Text.IsPure Keyword.assign.text :=
  fun h => h.2 (Text.hasAtom_self _)

section

variable (host : Host) {s : Store} (hs : s.Within Procedure.IsPure) {line : String}
  (hline : Text.IsPure line) (limit : Nat)
include hs hline

/-- Comparing a run with itself shows that it announces nothing. -/
theorem not_announces_evaluateLine :
    ∀ r ∈ (evaluateLine host limit line s).log, r.announces = false := by
  have hself : (Matching.renewal s s (Nat.le_refl _) (Nat.le_refl _)).Stores s s s s := by
    apply Matching.stores_renewal _ rfl fun _ _ => rfl
    exact fun owner name value hvalue =>
      (hs owner name value hvalue).and (Value.within_of_occurs value fun p _ => p.renew_self s)
  have hends := Matching.ends_evaluate host hself (.nil : List.Forall₂ _ [] []) hline limit 0
  exact Matching.not_announces_of_log hends.log not_isPure_define not_isPure_assign

/-- What announces nothing leaves the globals and the frames as they were. -/
theorem unchanged_evaluateLine :
    (evaluateLine host limit line s).store.globals = s.globals ∧
      ∀ index < s.frames.size, (evaluateLine host limit line s).store.frame index = s.frame index :=
  (recordedAt_evaluate host limit 0 Environment.empty line s).unchanged
    (not_announces_evaluateLine host hs hline limit)

/-- The second evaluation makes the closures of the first one anew, and is the same otherwise. -/
theorem evaluateLine_again (hsound : s.IsSound) :
    let o := evaluateLine host limit line s
    let o' := evaluateLine host limit line o.store
    o'.result = o.result.map (Value.mapProcedures (Procedure.renew s o.store)) ∧
      o'.log = o.log := by
  intro o o'
  have hhistory : s.History o.log o.store :=
    recordedAt_evaluate host limit 0 Environment.empty line s
  obtain ⟨hglobals, hframes⟩ := unchanged_evaluateLine host hs hline limit
  let m := Matching.renewal s o.store hhistory.keepsNames.size_le hhistory.nextClosure_le
  have hstores : m.Stores s o.store s o.store := by
    apply Matching.stores_renewal _ hglobals hframes
    exact fun owner name value hvalue => (hs owner name value hvalue).and
      (Value.within_of_occurs value fun p hp =>
        ((hsound owner name value hvalue).of_occurs hp).renew o.store)
  have hends : (m.coupling s o.store).Ends (Value.Alike m.Procedures) o o' :=
    Matching.ends_evaluate host hstores (.nil : List.Forall₂ m.frame [] []) hline limit 0
  refine ⟨?_, Matching.log_eq hends.log⟩
  obtain ⟨hresult, -, -⟩ := hends
  generalize o.result = r at hresult ⊢
  generalize o'.result = r' at hresult ⊢
  cases hresult with
  | ok hvalue =>
    exact congrArg Except.ok (hvalue.eq_mapProcedures fun _ _ hp => Matching.eq_renew hp)
  | error => rfl

end

/-- Evaluating a text without binding forms, over a store whose closures are without them, changes
neither the globals nor any frame that is there, whether it succeeds or fails. If the store points
nowhere beyond itself, evaluating the text again makes the same records and fails with the same
error or gives the same value, but for the closures that the run has made itself. -/
theorem pure_line_is_repeatable (host : Host) {s : Store} (hs : s.Within Procedure.IsPure)
    {line : String} (hline : Text.IsPure line) (limit : Nat) :
    let o := evaluateLine host limit line s
    o.store.globals = s.globals ∧
    (∀ index < s.frames.size, o.store.frame index = s.frame index) ∧
    (s.IsSound →
      let o' := evaluateLine host limit line o.store
      o'.result = o.result.map (Value.mapProcedures (Procedure.renew s o.store)) ∧
      o'.log = o.log) := by
  intro o
  obtain ⟨hglobals, hframes⟩ := unchanged_evaluateLine host hs hline limit
  exact ⟨hglobals, hframes, evaluateLine_again host hs hline limit⟩

/-- The second evaluation makes a closure of its own, the same but for its identity. -/
theorem closure_is_made_again :
    let host : Host := fun _ _ => .ok .nil
    let s : Store := ⟨Table.ofList [("f", .procedure (.closure ⟨0, "(x)", "x", ⟨[]⟩⟩))], #[], 1⟩
    let o := evaluateLine host 1 "(lambda (y) y)" s
    let o' := evaluateLine host 1 "(lambda (y) y)" o.store
    o.store.globals = s.globals ∧
      o.result = .ok (.procedure (.closure ⟨1, "(y)", "y", ⟨[]⟩⟩)) ∧
      o'.result = .ok (.procedure (.closure ⟨2, "(y)", "y", ⟨[]⟩⟩)) := by
  intro host s o o'
  -- Without an `f` there is no `define`, and without a `!` no `set!`.
  have hpure {text : String} (hf : text.toList.contains 'f' = false)
      (hmark : text.toList.contains '!' = false) : Text.IsPure text := by
    have hdefine : Keyword.define.text.toList.contains 'f' = true := by cbv
    have hassign : Keyword.assign.text.toList.contains '!' = true := by cbv
    refine ⟨fun h => ?_, fun h => ?_⟩
    · rw [h.contains hdefine] at hf
      cases hf
    · rw [h.contains hassign] at hmark
      cases hmark
  have hline : Text.IsPure "(lambda (y) y)" := hpure (by cbv) (by cbv)
  have hbody : Text.IsPure "x" := hpure (by cbv) (by cbv)
  have hwithin {admits : Procedure → Prop} (h : admits (.closure ⟨0, "(x)", "x", ⟨[]⟩⟩)) :
      s.Within admits
    | .globals => Table.within_ofList fun binding hmem => by
      obtain rfl := List.mem_singleton.mp hmem
      exact .procedure h
    | .frame _ => Table.within_empty
  have hissued : s.IsSound :=
    hwithin ⟨Nat.zero_lt_one, fun _ hmem => absurd hmem List.not_mem_nil⟩
  have hmade (s : Store) : (evaluateLine host 1 "(lambda (y) y)" s).result =
      .ok (.procedure (.closure ⟨s.nextClosure, "(y)", "y", ⟨[]⟩⟩)) := by cbv
  have hleft (s : Store) : (evaluateLine host 1 "(lambda (y) y)" s).store.nextClosure =
      s.nextClosure + 1 := by cbv
  have hresult : o.result = .ok (.procedure (.closure ⟨1, "(y)", "y", ⟨[]⟩⟩)) := hmade s
  have hnext : s.nextClosure = 1 ∧ o.store.nextClosure = 2 := ⟨rfl, hleft s⟩
  have hpureStore : s.Within Procedure.IsPure := hwithin hbody
  clear_value host s
  obtain ⟨hglobals, -, hagain⟩ := pure_line_is_repeatable host hpureStore hline 1
  refine ⟨hglobals, hresult, ?_⟩
  have hsecond : o'.result = o.result.map _ := (hagain hissued).1
  rw [hsecond, hresult, Except.map, Value.mapProcedures, Procedure.renew, hnext.1, hnext.2]
  rfl

/-- A session only ever leaves a store that points nowhere beyond itself. A text without binding
forms that it ends with can be evaluated again and gives the same, as long as the closures that the
session has stored are without them too. -/
theorem last_line_of_session_repeats {host : Host} (hhost : host.IssuesNothing)
    (lines : List (String × Nat)) {last : String} (hlast : Text.IsPure last) (limit : Nat) :
    let s := Store.initial.after host (lines.map fun line => .evaluate line.1 line.2)
    let o := evaluateLine host limit last s
    let o' := evaluateLine host limit last o.store
    s.Within Procedure.IsPure →
      o.store.globals = s.globals ∧ o'.log = o.log ∧
        o'.result = o.result.map (Value.mapProcedures (Procedure.renew s o.store)) := by
  intro s o o' hs
  obtain ⟨hglobals, -⟩ := unchanged_evaluateLine host hs hlast limit
  have hsound : s.IsSound := isSound_after hhost lines isSound_initial
  obtain ⟨hresult, hlog⟩ := evaluateLine_again host hs hlast limit hsound
  exact ⟨hglobals, hlog, hresult⟩

end TextLisp
