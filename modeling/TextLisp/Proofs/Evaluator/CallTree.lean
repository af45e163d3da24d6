import Mathlib.Data.List.Chain
import TextLisp.Proofs.Evaluator.Operations

namespace TextLisp

variable {α β γ ε : Type}

def Record.depth? : Record → Option Nat
  | .evaluate depth _ => some depth
  | _ => none

inductive CallTree where
  | node (calls : List CallTree)

namespace CallTree

mutual

def depths (depth : Nat) : CallTree → List Nat
  | node calls => depth :: rowDepths (depth + 1) calls

def rowDepths (depth : Nat) : List CallTree → List Nat
  | [] => []
  | call :: calls => call.depths depth ++ rowDepths depth calls

end

mutual

def height : CallTree → Nat
  | node calls => rowHeight calls + 1

def rowHeight : List CallTree → Nat
  | [] => 0
  | call :: calls => max call.height (rowHeight calls)

end

@[simp]
theorem rowDepths_append (depth : Nat) (calls calls' : List CallTree) :
    rowDepths depth (calls ++ calls') = rowDepths depth calls ++ rowDepths depth calls' := by
  induction calls with
  | nil => rfl
  | cons call calls ih => rw [List.cons_append, rowDepths, rowDepths, ih, List.append_assoc]

@[simp]
theorem rowHeight_append (calls calls' : List CallTree) :
    rowHeight (calls ++ calls') = max (rowHeight calls) (rowHeight calls') := by
  induction calls with
  | nil => simp [rowHeight]
  | cons call calls ih => rw [List.cons_append, rowHeight, rowHeight, ih, max_assoc]

/-- The first evaluation in a row has the depth of the row. -/
theorem eq_of_mem_head?_rowDepths {depth k : Nat} {calls : List CallTree}
    (h : k ∈ (rowDepths depth calls).head?) : k = depth := by
  cases calls with
  | nil => cases h
  | cons call calls =>
    cases call with
    | node inner =>
      rw [rowDepths, depths, List.cons_append, List.head?_cons] at h
      exact (Option.some.inj h).symm

mutual

/-- Depths lie between that of the root and that of the last level of the tree. -/
theorem bounds_of_mem_depths {depth k : Nat} : ∀ (call : CallTree), k ∈ call.depths depth →
    depth ≤ k ∧ k < depth + call.height
  | node calls, h => by
    rw [depths] at h
    rw [height]
    obtain rfl | h := List.mem_cons.mp h
    · omega
    · have hinside := bounds_of_mem_rowDepths calls h
      omega

/-- The evaluations in a row and those inside them are as deep as the row or deeper, and the levels
that they take up bound their depths. -/
theorem bounds_of_mem_rowDepths {depth k : Nat} : ∀ (calls : List CallTree),
    k ∈ rowDepths depth calls → depth ≤ k ∧ k < depth + rowHeight calls
  | [], h => by cases h
  | call :: calls, h => by
    rw [rowDepths] at h
    rw [rowHeight]
    obtain h | h := List.mem_append.mp h
    · have hfirst := bounds_of_mem_depths call h
      omega
    · have hrest := bounds_of_mem_rowDepths calls h
      omega

end

mutual

/-- In preorder every evaluation is at most one level deeper than the one before it. -/
theorem isChain_depths (depth : Nat) : ∀ call : CallTree,
    (call.depths depth).IsChain fun k next => next ≤ k + 1
  | node calls => by
    rw [depths, List.isChain_cons]
    refine ⟨?_, isChain_rowDepths (depth + 1) calls⟩
    intro next hnext
    exact (eq_of_mem_head?_rowDepths hnext).le

/-- In preorder no depth is more than one above the depth before it. -/
theorem isChain_rowDepths (depth : Nat) : ∀ calls : List CallTree,
    (rowDepths depth calls).IsChain fun k next => next ≤ k + 1
  | [] => .nil
  | call :: calls => by
    rw [rowDepths, List.isChain_append]
    refine ⟨isChain_depths depth call, isChain_rowDepths depth calls, ?_⟩
    -- Behind the first call the row goes on at its own depth, which nothing inside is above.
    intro k hlast next hnext
    have hk := (bounds_of_mem_depths call (List.mem_of_mem_getLast? hlast)).1
    have hnext := eq_of_mem_head?_rowDepths hnext
    omega

end

end CallTree

/-- A condition on logs that says something about evaluations only, and holds of a log if it holds
of two parts of it. -/
structure LogCondition (P : List Record → Prop) : Prop where
  nil : P []
  quiet : ∀ r : Record, r.depth? = none → P [r]
  append : ∀ log log', P log → P log' → P (log ++ log')

namespace Run

def Logs (P : List Record → Prop) (x : RunOver β α) : Prop :=
  ∀ s, P (x s).log

end Run

open Run

section

variable {P : List Record → Prop} (hP : LogCondition P)
include hP

theorem logs_of_log_eq_nil {x : RunOver β α} (h : ∀ s, (x s).log = []) : Logs P x := by
  intro s
  rw [h]
  exact hP.nil

theorem logs_ofExcept (r : Except Error α) : Logs P (ofExcept r : RunOver β α) :=
  logs_of_log_eq_nil hP (by simp)

/-- A condition on logs holds of two parts in a row if it holds of each of them. -/
theorem logs_bind {x : RunOver β α} {f : α → RunOver β γ} (hx : Logs P x)
    (hf : ∀ a, Logs P (f a)) : Logs P (x >>= f) := by
  intro s
  have hfirst := hx s
  rcases hrun : x s with ⟨e | a, s₁, log⟩
  · rw [hrun] at hfirst
    rw [bind_of_error hrun]
    exact hfirst
  · rw [hrun] at hfirst
    rw [bind_of_ok hrun]
    exact hP.append _ _ hfirst (hf a s₁)

theorem logs_record {r : Record} (h : r.depth? = none) : Logs P (record r : RunOver β Unit) :=
  fun _ => hP.quiet r h

theorem logs_update (u : Store β → Except Error (Store β)) : Logs P (update u) := by
  apply logs_of_log_eq_nil hP
  intro s
  unfold update
  split <;> rfl

theorem logs_bindGlobal (name : String) (value : Value β) : Logs P (bindGlobal name value) := by
  apply logs_bind hP (logs_ofExcept hP _)
  intro _
  apply logs_bind hP (logs_record hP rfl)
  intro _
  apply logs_bind hP (logs_update hP _)
  exact fun _ => logs_of_log_eq_nil hP fun _ => rfl

theorem logs_overwrite (owner : Owner) (name : String) (value : Value β) :
    Logs P (overwrite owner name value) := by
  apply logs_bind hP (logs_ofExcept hP _)
  intro _
  apply logs_bind hP (logs_record hP rfl)
  intro _
  apply logs_bind hP (logs_update hP _)
  exact fun _ => logs_of_log_eq_nil hP fun _ => rfl

theorem logs_makeClosure (params : String) (body : β) (env : Environment) :
    Logs P (makeClosure params body env) := by
  intro s
  rw [makeClosure_apply]
  exact hP.quiet _ rfl

theorem logs_enterClosure (scope : Environment) (params body : String) (names : List String)
    (args : List (Value β)) : Logs P (enterClosure scope params body names args) := by
  intro s
  rw [enterClosure_apply]
  split
  · split
    · exact hP.quiet _ rfl
    · exact hP.quiet _ rfl
  · exact hP.nil

section

variable {descend : Descent ε β} (hd : ∀ env expr, Logs P (descend env expr))
include hd

theorem logs_evaluateConditional (env : Environment) (operands : List ε) :
    Logs P (evaluateConditional descend env operands) := by
  unfold evaluateConditional
  split
  -- Which operand comes second depends on the first value, and the condition is met by both.
  · exact logs_bind hP (hd env _) fun _ => hd env _
  · exact logs_ofExcept hP _

theorem logs_evaluateOperands (env : Environment) (operands : List ε) :
    Logs P (evaluateOperands descend env operands) := by
  induction operands with
  | nil => exact logs_of_log_eq_nil hP fun _ => rfl
  | cons operand operands ih =>
    apply logs_bind hP (hd env operand)
    intro value
    apply logs_bind hP ih
    exact fun _ => logs_of_log_eq_nil hP fun _ => rfl

theorem logs_evaluateApplication (host : Host β)
    {call : Closure β → List (Value β) → RunOver β (Value β)} (hcall : ∀ c args, Logs P (call c args))
    (env : Environment) (head : ε) (operands : List ε) :
    Logs P (evaluateApplication host call descend env head operands) := by
  apply logs_bind hP (hd env head)
  intro value
  cases value with
  | procedure p =>
    apply logs_bind hP (logs_evaluateOperands hP hd env operands)
    intro args
    cases p with
    | primitive p => exact logs_bind hP (logs_ofExcept hP _) fun _ => logs_ofExcept hP _
    | closure c => exact hcall c args
  | _ => exact logs_of_log_eq_nil hP fun _ => rfl

end

section

variable {descend : Descent} (hd : ∀ env text, Logs P (descend env text))
include hd

theorem logs_applyClosure (env : Environment) (c : Closure) (args : List Value) :
    Logs P (applyClosure descend env c args) := by
  apply logs_bind hP (logs_ofExcept hP _)
  intro names
  apply logs_bind hP (logs_enterClosure hP _ _ _ names args)
  exact fun inner => hd inner c.body

/-- Between the evaluations that a form asks for there are no others. -/
theorem logs_evaluateSiblings (host : Host) (env : Environment) (text : String)
    (siblings : List String) : Logs P (evaluateSiblings host descend env text siblings) := by
  unfold evaluateSiblings
  split
  · exact logs_of_log_eq_nil hP fun _ => rfl
  next head operands =>
    split
    · unfold evaluateDefine
      split
      next name expr =>
        apply logs_bind hP (logs_of_log_eq_nil hP (by simp))
        intro _
        exact logs_bind hP (hd env expr) fun value => logs_bindGlobal hP name value
      · exact logs_ofExcept hP _
    · exact logs_evaluateConditional hP hd env operands
    · unfold evaluateQuote
      split <;> exact logs_ofExcept hP _
    · unfold evaluateLambda
      split
      next params body =>
        exact logs_bind hP (logs_ofExcept hP _) fun _ => logs_makeClosure hP params body env
      · exact logs_ofExcept hP _
    · unfold evaluateAssign
      split
      next name expr =>
        apply logs_bind hP (logs_of_log_eq_nil hP (by simp))
        intro owner
        exact logs_bind hP (hd env expr) fun value => logs_overwrite hP owner name value
      · exact logs_ofExcept hP _
    · exact logs_evaluateApplication hP hd host (logs_applyClosure hP hd env) env head operands

theorem logs_evaluateForm (host : Host) (env : Environment) (text : String) :
    Logs P (evaluateForm host descend env text) :=
  logs_bind hP (logs_ofExcept hP _) fun siblings =>
    logs_evaluateSiblings hP hd host env text siblings

end

end

/-- The evaluations that are recorded are trees in a row, of so many levels at most. -/
def ListsCalls (depth levels : Nat) (log : List Record) : Prop :=
  ∃ calls, CallTree.rowHeight calls ≤ levels ∧
    log.filterMap Record.depth? = CallTree.rowDepths depth calls

theorem logCondition_listsCalls (depth levels : Nat) : LogCondition (ListsCalls depth levels) where
  nil := ⟨[], Nat.zero_le levels, rfl⟩
  quiet r hr := ⟨[], Nat.zero_le levels, List.filterMap_cons_none hr⟩
  append log log' := by
    rintro ⟨calls, hheight, hdepths⟩ ⟨calls', hheight', hdepths'⟩
    refine ⟨calls ++ calls', ?_, ?_⟩
    · rw [CallTree.rowHeight_append]
      exact max_le hheight hheight'
    · rw [List.filterMap_append, CallTree.rowDepths_append, hdepths, hdepths']

/-- Below the limit the records of an evaluation list a tree, with what is recorded inside as the
children of its root. -/
theorem exists_callTree {host : Host} {remaining depth : Nat}
    (h : ∀ env text, Logs (ListsCalls (depth + 1) remaining)
      (evaluate host remaining (depth + 1) env text))
    (env : Environment) (text : String) (s : Store) :
    ∃ call : CallTree, call.height ≤ remaining + 1 ∧
      (evaluate host (remaining + 1) depth env text s).log.filterMap Record.depth? =
        call.depths depth := by
  have hP := logCondition_listsCalls (depth + 1) remaining
  have hbody : Logs (ListsCalls (depth + 1) remaining)
      (if isBracketed (Text.trim text) then
        evaluateForm host (evaluate host remaining (depth + 1)) env (Text.trim text)
      else evaluateAtom env (Text.trim text)) := by
    split
    · exact logs_evaluateForm hP h host env _
    · exact logs_of_log_eq_nil hP (by simp)
  obtain ⟨calls, hheight, hdepths⟩ := hbody s
  refine ⟨.node calls, Nat.succ_le_succ hheight, ?_⟩
  rw [evaluate_succ]
  exact congrArg (depth :: ·) hdepths

/-- The records of an evaluation list a tree that is no higher than there are levels left. Without
a level left nothing is recorded. -/
theorem listsCalls_evaluate (host : Host) (remaining depth : Nat) (env : Environment)
    (text : String) : Logs (ListsCalls depth remaining) (evaluate host remaining depth env text) := by
  induction remaining generalizing depth env text with
  | zero => exact fun s => (logCondition_listsCalls depth 0).nil
  | succ remaining ih =>
    intro s
    obtain ⟨call, hheight, hdepths⟩ := exists_callTree (ih (depth + 1)) env text s
    refine ⟨[call], ?_, ?_⟩
    · exact max_le hheight (Nat.zero_le _)
    · rw [hdepths, CallTree.rowDepths, CallTree.rowDepths, List.append_nil]

end TextLisp
