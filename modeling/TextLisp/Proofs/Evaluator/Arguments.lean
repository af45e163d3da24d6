import TextLisp.Proofs.Evaluator.Operations
import TextLisp.Proofs.Value.Within

namespace TextLisp

variable {β : Type}

/-- The first argument that is not fit for its place. -/
structure FirstUnfit (fits : Nat → Value β → Prop) (args : List (Value β)) (place : Nat)
    (v : Value β) : Prop where
  arg : args[place]? = some v
  unfit : ¬ fits place v
  before : ∀ i < place, ∀ w, args[i]? = some w → fits i w

/-- No two arguments are the first that is not fit. -/
theorem FirstUnfit.unique {fits : Nat → Value β → Prop} {args : List (Value β)} {place place' : Nat}
    {v v' : Value β} (h : FirstUnfit fits args place v) (h' : FirstUnfit fits args place' v') :
    v = v' := by
  obtain hlt | rfl | hlt := Nat.lt_trichotomy place place'
  · exact absurd (h'.before place hlt v h.arg) h.unfit
  · exact Option.some.inj (h.arg.symm.trans h'.arg)
  · exact absurd (h.before place' hlt v' h'.arg) h'.unfit

theorem FirstUnfit.head {fits : Nat → Value β → Prop} {v : Value β} (h : ¬ fits 0 v)
    (args : List (Value β)) : FirstUnfit fits (v :: args) 0 v :=
  ⟨rfl, h, fun i hlt => absurd hlt (Nat.not_lt_zero i)⟩

/-- Behind an argument that is fit, the places are counted from the next one on. -/
theorem FirstUnfit.tail {fits : Nat → Value β → Prop} {v w : Value β} {args : List (Value β)}
    {place : Nat} (h : fits 0 v) (h' : FirstUnfit (fun i => fits (i + 1)) args place w) :
    FirstUnfit fits (v :: args) (place + 1) w := by
  refine ⟨h'.arg, h'.unfit, ?_⟩
  intro i hlt u hu
  cases i with
  | zero =>
    obtain rfl := Option.some.inj hu
    exact h
  | succ i => exact h'.before i (Nat.lt_of_succ_lt_succ hlt) u hu

/-- Where some argument is not fit, one is the first. -/
theorem exists_firstUnfit_iff {fits : Nat → Value β → Prop} {args : List (Value β)} :
    (∃ place v, FirstUnfit fits args place v) ↔
      ∃ place v, args[place]? = some v ∧ ¬ fits place v := by
  constructor
  · rintro ⟨place, v, hfirst⟩
    exact ⟨place, v, hfirst.arg, hfirst.unfit⟩
  · rintro ⟨place, v, harg, hunfit⟩
    induction args generalizing fits place with
    | nil => cases harg
    | cons w args ih =>
      by_cases hw : fits 0 w
      · cases place with
        | zero =>
          obtain rfl := Option.some.inj harg
          exact absurd hw hunfit
        | succ place =>
          obtain ⟨place', v', hfirst⟩ := @ih (fun i => fits (i + 1)) place harg hunfit
          exact ⟨place' + 1, v', hfirst.tail hw⟩
      · exact ⟨0, w, FirstUnfit.head hw args⟩

theorem forall_getElem?_nil {fits : Nat → Value β → Prop} :
    ∀ place v, ([] : List (Value β))[place]? = some v → fits place v := by
  intro place v hv
  cases hv

theorem forall_getElem?_cons {fits : Nat → Value β → Prop} {v : Value β} {args : List (Value β)}
    (h : fits 0 v) (h' : ∀ place w, args[place]? = some w → fits (place + 1) w) :
    ∀ place w, (v :: args)[place]? = some w → fits place w := by
  intro place w hw
  cases place with
  | zero =>
    obtain rfl := Option.some.inj hw
    exact h
  | succ place => exact h' place w hw

namespace Value

theorem toNumber_of_kind_eq {v : Value β} (h : v.kind = .number) (operation : String)
    (expected : Expectation) : ∃ x, v.toNumber operation expected = .ok x := by
  cases v with
  | number x => exact ⟨x, rfl⟩
  | _ => cases h

theorem toNumber_of_kind_ne {v : Value β} (h : v.kind ≠ .number) (operation : String)
    (expected : Expectation) : v.toNumber operation expected =
      .error (.typeMismatch (.argument operation expected v.kind v.render)) := by
  cases v with
  | number x => exact absurd rfl h
  | _ => rfl

/-- Arguments are taken as numbers up to the first that is none. -/
theorem toNumbers_ends (operation : String) (args : List (Value β)) :
    (∀ v ∈ args, v.kind = .number) ∧ (∃ xs, toNumbers operation args = .ok xs) ∨
      ∃ place v, FirstUnfit (fun _ w => w.kind = .number) args place v ∧
        toNumbers operation args =
          .error (.typeMismatch (.argument operation .numbers v.kind v.render)) := by
  induction args with
  | nil => exact Or.inl ⟨List.forall_mem_nil _, [], rfl⟩
  | cons v args ih =>
    by_cases hkind : v.kind = .number
    · obtain ⟨x, hx⟩ := toNumber_of_kind_eq hkind operation .numbers
      obtain ⟨hall, xs, hxs⟩ | ⟨place, w, hfirst, herror⟩ := ih
      · refine Or.inl ⟨List.forall_mem_cons.mpr ⟨hkind, hall⟩, x :: xs, ?_⟩
        rw [toNumbers, hx, hxs]
        rfl
      · refine Or.inr ⟨place + 1, w, hfirst.tail hkind, ?_⟩
        rw [toNumbers, hx, herror]
        rfl
    · refine Or.inr ⟨0, v, FirstUnfit.head hkind args, ?_⟩
      rw [toNumbers, toNumber_of_kind_ne hkind]
      rfl

end Value

/-- Whether a value is what is asked for in a place. A list is asked for only as the second
argument, where nil stands for the empty one. -/
def Expectation.Met : Expectation → Nat → Value β → Prop
  | .numbers, _, v | .number, _, v => v.kind = .number
  | .nonEmptyList, _, v => ∃ item items, v = .list (item :: items)
  | .listTail, place, v => place = 1 → v.kind = .list ∨ v.kind = .nil

namespace Builtin

/-- What an operation asks of its arguments. Some take every value. -/
def asks? : Builtin → Option Expectation
  | add | sub | mul | div | max | min | less | lessEq | greater | greaterEq => some .numbers
  | abs | expt => some .number
  | car | cdr => some .nonEmptyList
  | cons => some .listTail
  | list | isNull | equal | not => none

def call (operation : Builtin) (args : List (Value β)) : Except Error (Value β) := do
  operation.arity.check args.length
  operation.apply args

inductive Ends (operation : Builtin) (args : List (Value β)) : Except Error (Value β) → Prop
  | success {result : Value β} (hmet : ∀ expected, operation.asks? = some expected →
      ∀ place v, args[place]? = some v → expected.Met place v) : Ends operation args (.ok result)
  | fault {expected : Expectation} {place : Nat} {v : Value β}
      (hasks : operation.asks? = some expected) (hfirst : FirstUnfit expected.Met args place v) :
      Ends operation args
        (.error (.typeMismatch (.argument operation.id expected v.kind v.render)))

variable {operation : Builtin} {args : List (Value β)}

/-- An operation that takes every value ends well. -/
theorem Ends.of_asks_none (hasks : operation.asks? = none) (result : Value β) :
    operation.Ends args (.ok result) := by
  refine .success ?_
  intro expected hasks'
  rw [hasks] at hasks'
  cases hasks'

theorem Ends.of_met {expected : Expectation} (hasks : operation.asks? = some expected)
    (hmet : ∀ place v, args[place]? = some v → expected.Met place v) (result : Value β) :
    operation.Ends args (.ok result) := by
  refine .success ?_
  intro expected' hasks'
  obtain rfl := Option.some.inj (hasks.symm.trans hasks')
  exact hmet

/-- What is calculated from numbers fails where the arguments are none, and not afterwards. -/
theorem ends_onNumbers {f : List Float → Option (Value β)}
    (hasks : operation.asks? = some .numbers)
    (hf : ∀ xs, xs.length = args.length → ∃ v, f xs = some v) :
    operation.Ends args (onNumbers operation.id f args) := by
  obtain ⟨e, he, hresult⟩ | ⟨xs, hxs, ⟨v, hv, hresult⟩ | ⟨hnone, -⟩⟩ :=
    onNumbers_cases operation.id f args
  all_goals obtain ⟨hall, ys, hys⟩ | ⟨place, w, hfirst, herror⟩ :=
    Value.toNumbers_ends operation.id args
  · cases he.symm.trans hys
  · rw [hresult, Except.error.inj (he.symm.trans herror)]
    exact .fault hasks hfirst
  · rw [hresult]
    exact Ends.of_met hasks (fun _ v hv => hall v (List.mem_of_getElem? hv)) v
  · cases hxs.symm.trans herror
  all_goals
    obtain ⟨v, hv⟩ := hf xs (length_of_toNumbers hxs)
    cases hv.symm.trans hnone

theorem ends_onOne {f : Value β → Except Error (Value β)} (h : args.length = 1)
    (hf : ∀ v, operation.Ends [v] (f v)) : operation.Ends args (onOne f args) := by
  obtain ⟨v, rfl, hresult⟩ | ⟨hcount, -⟩ := onOne_cases f args
  · rw [hresult]
    exact hf v
  · exact absurd h hcount

theorem ends_onTwo {f : Value β → Value β → Except Error (Value β)} (h : args.length = 2)
    (hf : ∀ v w, operation.Ends [v, w] (f v w)) : operation.Ends args (onTwo f args) := by
  obtain ⟨v, w, rfl, hresult⟩ | ⟨hcount, -⟩ := onTwo_cases f args
  · rw [hresult]
    exact hf v w
  · exact absurd h hcount

/-- What takes a list apart fails where the argument is none that has items. -/
theorem ends_of_toNonEmpty {f : Value β × List (Value β) → Value β}
    (hasks : operation.asks? = some .nonEmptyList) (v : Value β) :
    operation.Ends [v] (v.toNonEmpty operation.id >>= fun parts => .ok (f parts)) := by
  unfold Value.toNonEmpty
  split
  next item items =>
    apply Ends.of_met hasks
    exact forall_getElem?_cons ⟨item, items, rfl⟩ forall_getElem?_nil
  next hempty =>
    apply Ends.fault hasks (FirstUnfit.head _ [])
    rintro ⟨item, items, rfl⟩
    exact hempty item items rfl

theorem ends_abs (v : Value β) :
    abs.Ends [v] (v.toNumber abs.id .number >>= fun x => .ok (.number x.abs)) := by
  by_cases hkind : v.kind = .number
  · obtain ⟨x, hx⟩ := Value.toNumber_of_kind_eq hkind abs.id .number
    rw [hx]
    apply Ends.of_met rfl
    exact forall_getElem?_cons hkind forall_getElem?_nil
  · rw [Value.toNumber_of_kind_ne hkind]
    exact .fault rfl (FirstUnfit.head hkind [])

/-- Of two arguments that are no numbers the first one is reported. -/
theorem ends_expt (v w : Value β) :
    expt.Ends [v, w] (v.toNumber expt.id .number >>= fun x => w.toNumber expt.id .number >>= fun y =>
      .ok (.number (x.pow y))) := by
  by_cases hkind : v.kind = .number
  · obtain ⟨x, hx⟩ := Value.toNumber_of_kind_eq hkind expt.id .number
    by_cases hkind' : w.kind = .number
    · obtain ⟨y, hy⟩ := Value.toNumber_of_kind_eq hkind' expt.id .number
      rw [hx, hy]
      apply Ends.of_met rfl
      exact forall_getElem?_cons hkind (forall_getElem?_cons hkind' forall_getElem?_nil)
    · rw [hx, Value.toNumber_of_kind_ne hkind']
      exact .fault rfl (FirstUnfit.tail hkind (FirstUnfit.head hkind' []))
  · rw [Value.toNumber_of_kind_ne hkind]
    exact .fault rfl (FirstUnfit.head hkind [w])

theorem ends_attach (item v : Value β) : cons.Ends [item, v] (attach item v) := by
  have hitem : Expectation.listTail.Met 0 item := fun hplace => absurd hplace Nat.zero_ne_one
  cases v with
  | list items =>
    have hitems : Expectation.listTail.Met 1 (.list items) := fun _ => Or.inl rfl
    apply Ends.of_met rfl
    exact forall_getElem?_cons hitem (forall_getElem?_cons hitems forall_getElem?_nil)
  | nil =>
    have hnil : Expectation.listTail.Met 1 (.nil : Value β) := fun _ => Or.inr rfl
    apply Ends.of_met rfl
    exact forall_getElem?_cons hitem (forall_getElem?_cons hnil forall_getElem?_nil)
  | _ =>
    apply Ends.fault rfl (FirstUnfit.tail hitem (FirstUnfit.head _ []))
    intro hmet
    cases hmet rfl with
    | inl hkind => cases hkind
    | inr hkind => cases hkind

/-- An operation ends as what it asks of its arguments says. Its own check of their count refuses
none that its arity accepts. -/
theorem ends_apply (h : operation.arity.Accepts args.length) :
    operation.Ends args (operation.apply args) := by
  have hsome {xs : List Float} (hlength : xs.length = args.length)
      (haccepts : 1 ≤ args.length) : xs ≠ [] := by
    rintro rfl
    rw [← hlength] at haccepts
    cases haccepts
  cases operation with
  | add | mul | max | min | less | lessEq | greater | greaterEq =>
    exact ends_onNumbers rfl fun xs _ => ⟨_, rfl⟩
  | sub =>
    apply ends_onNumbers rfl
    intro xs hlength
    obtain ⟨x, hx⟩ := Option.ne_none_iff_exists'.mp (mt eq_nil_of_difference (hsome hlength h))
    exact ⟨.number x, by rw [hx]; rfl⟩
  | div =>
    apply ends_onNumbers rfl
    intro xs hlength
    obtain ⟨x, hx⟩ := Option.ne_none_iff_exists'.mp (mt eq_nil_of_quotient (hsome hlength h))
    exact ⟨.number x, by rw [hx]; rfl⟩
  | abs => exact ends_onOne h ends_abs
  | expt => exact ends_onTwo h ends_expt
  | car | cdr => exact ends_onOne h (ends_of_toNonEmpty rfl)
  | cons => exact ends_onTwo h ends_attach
  | list => exact Ends.of_asks_none rfl _
  | isNull | not => exact ends_onOne h fun v => Ends.of_asks_none rfl _
  | equal => exact ends_onTwo h fun v w => Ends.of_asks_none rfl _

theorem Ends.exists_ok {ended : Except Error (Value β)} (h : operation.Ends args ended)
    (hasks : operation.asks? = none) : ∃ result, ended = .ok result := by
  cases h with
  | @success result _ => exact ⟨result, rfl⟩
  | fault hasks' _ =>
    rw [hasks] at hasks'
    cases hasks'

theorem Ends.exists_typeMismatch {e : Error} (h : operation.Ends args (.error e)) :
    ∃ fault, e = .typeMismatch fault := by
  cases h with
  | fault _ _ => exact ⟨_, rfl⟩

/-- An operation names the first argument that is not fit, and fails with a type fault in no other
case. -/
theorem Ends.typeMismatch_iff {ended : Except Error (Value β)} (h : operation.Ends args ended)
    {expected : Expectation} (hasks : operation.asks? = some expected) (fault : TypeFault) :
    ended = .error (.typeMismatch fault) ↔ ∃ place v, FirstUnfit expected.Met args place v ∧
      fault = .argument operation.id expected v.kind v.render := by
  cases h with
  | success hmet =>
    constructor
    · intro h
      cases h
    · rintro ⟨place, v, hfirst, -⟩
      exact absurd (hmet expected hasks place v hfirst.arg) hfirst.unfit
  | @fault _ place v hasks' hfirst =>
    obtain rfl := Option.some.inj (hasks.symm.trans hasks')
    constructor
    · intro h
      exact ⟨place, v, hfirst, (Error.typeMismatch.inj (Except.error.inj h)).symm⟩
    · rintro ⟨place', v', hfirst', rfl⟩
      rw [hfirst.unique hfirst']

/-- An accepted count leaves it to the operation. -/
theorem call_of_accepts (h : operation.arity.Accepts args.length) :
    operation.call args = operation.apply args := by
  rw [call, Arity.check, if_pos h]
  rfl

theorem call_of_not_accepts (h : ¬ operation.arity.Accepts args.length) :
    operation.call args = .error (.arityMismatch operation.arity args.length) := by
  rw [call, Arity.check, if_neg h]
  rfl

/-- The evaluator calls the procedure that an operation is registered as like this, and a call
leaves the store and the log alone. -/
theorem applyProcedure_registered (host : Host β)
    (enter : Closure β → List (Value β) → RunOver β (Value β)) (operation : Builtin)
    (args : List (Value β)) (s : Store β) :
    applyProcedure host enter args
        (.primitive ⟨operation.id, operation.arity, .builtin operation⟩) s =
      ⟨operation.call args, s, []⟩ := by
  rw [applyProcedure, Run.bind_ofExcept, call]
  cases operation.arity.check args.length with
  | error e => rfl
  | ok _ => exact Run.ofExcept_apply (operation.apply args) s

end Builtin

/-- An operation refuses a count of arguments exactly when the arity that it is registered with does
not accept it, and names both. Every other failure is one of a type. With a count that is accepted,
an operation that takes every value gives a result. Any other fails exactly when some argument is
not what it asks for in its place, and shows the kind and the text of the first such argument. -/
theorem builtins_fail_exactly (operation : Builtin) (args : List (Value β)) :
    (∀ arity got, operation.call args = .error (.arityMismatch arity got) ↔
      ¬ operation.arity.Accepts args.length ∧ arity = operation.arity ∧ got = args.length) ∧
    (∀ e, operation.call args = .error e →
      (∃ arity got, e = .arityMismatch arity got) ∨ ∃ fault, e = .typeMismatch fault) ∧
    (operation.arity.Accepts args.length →
      (operation.asks? = none → ∃ result, operation.call args = .ok result) ∧
      ∀ expected, operation.asks? = some expected →
        ((∃ fault, operation.call args = .error (.typeMismatch fault)) ↔
          ∃ place v, args[place]? = some v ∧ ¬ expected.Met place v) ∧
        ∀ fault, operation.call args = .error (.typeMismatch fault) ↔
          ∃ place v, FirstUnfit expected.Met args place v ∧
            fault = .argument operation.id expected v.kind v.render) := by
  by_cases haccepts : operation.arity.Accepts args.length
  · have hends := Builtin.ends_apply haccepts
    rw [← Builtin.call_of_accepts haccepts] at hends
    have hmismatch (e : Error) (he : operation.call args = .error e) :
        ∃ fault, e = .typeMismatch fault := (he ▸ hends).exists_typeMismatch
    refine ⟨fun arity got => ⟨fun h => ?_, fun h => absurd haccepts h.1⟩,
      fun e he => Or.inr (hmismatch e he), fun _ => ⟨hends.exists_ok, fun expected hasks => ?_⟩⟩
    · obtain ⟨fault, hfault⟩ := hmismatch _ h
      cases hfault
    · refine ⟨?_, hends.typeMismatch_iff hasks⟩
      rw [← exists_firstUnfit_iff]
      constructor
      · rintro ⟨fault, hfault⟩
        obtain ⟨place, v, hfirst, -⟩ := (hends.typeMismatch_iff hasks fault).mp hfault
        exact ⟨place, v, hfirst⟩
      · rintro ⟨place, v, hfirst⟩
        exact ⟨_, (hends.typeMismatch_iff hasks _).mpr ⟨place, v, hfirst, rfl⟩⟩
  · rw [Builtin.call_of_not_accepts haccepts]
    refine ⟨fun arity got => ⟨fun h => ?_, ?_⟩, fun e he => Or.inl ?_, fun h => absurd h haccepts⟩
    · obtain ⟨rfl, rfl⟩ := Error.arityMismatch.inj (Except.error.inj h)
      exact ⟨haccepts, rfl, rfl⟩
    · rintro ⟨-, rfl, rfl⟩
      rfl
    · exact ⟨_, _, (Except.error.inj he).symm⟩

/-- A power asks for two numbers, and shows the one that is none. -/
theorem expt_of_symbol_fails :
    Builtin.expt.call [.number 2, (.symbol "x" : Value)] =
        .error (.typeMismatch (.argument "expt" .number .symbol "x")) ∧
      (Builtin.expt.call [(.number 2 : Value)]) = .error (.arityMismatch (.exact 2) 1) := by
  have hfirst : FirstUnfit Expectation.number.Met [.number 2, (.symbol "x" : Value)] 1
      (.symbol "x") := by
    apply FirstUnfit.tail rfl
    apply FirstUnfit.head
    intro h
    cases h
  obtain ⟨-, -, htypes⟩ := builtins_fail_exactly Builtin.expt [.number 2, (.symbol "x" : Value)]
  obtain ⟨hcount, -, -⟩ := builtins_fail_exactly Builtin.expt [(.number 2 : Value)]
  refine ⟨(((htypes rfl).2 .number rfl).2 _).mpr ⟨1, .symbol "x", hfirst, rfl⟩, ?_⟩
  exact (hcount (.exact 2) 1).mpr ⟨by decide, rfl, rfl⟩

end TextLisp
