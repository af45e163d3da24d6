import TextLisp.Proofs.Evaluator.DepthLimit
import TextLisp.Proofs.Evaluator.Matching
import TextLisp.Proofs.Store.Reachable
import TextLisp.Proofs.Tree.Parse

namespace TextLisp

def Procedure.StaysAmong (among : Nat → Prop) : Procedure → Prop
  | .primitive p => ∃ operation, p.operation = .builtin operation
  | .closure c => ∀ index ∈ c.env.frames, among index

namespace Matching

def among (frames : Nat → Prop) : Matching where
  accepts _ := True
  frame i j := i = j ∧ frames i
  identity := Eq
  trimmed _ _ := trivial
  sibling _ _ _ _ _ _ := trivial
  frame_iff := by
    rintro i i' j j' ⟨rfl, -⟩ ⟨rfl, -⟩
    rfl
  identity_iff := by
    rintro a a' b b' rfl rfl
    rfl

variable {frames : Nat → Prop}

theorem among_chain {env : Environment} (h : ∀ index ∈ env.frames, frames index) :
    List.Forall₂ (among frames).frame env.frames env.frames :=
  List.forall₂_same.mpr fun index hmem => ⟨rfl, h index hmem⟩

theorem among_self {p : Procedure} (h : p.StaysAmong frames) : (among frames).Procedures p p := by
  cases p with
  | primitive p => exact .primitive h
  | closure c => exact .closure rfl trivial (among_chain h)

theorem eq_of_among {p q : Procedure} (h : (among frames).Procedures p q) : q = p := by
  cases h with
  | primitive => rfl
  | closure hidentity _ hframes =>
    obtain rfl := hidentity
    have hsame : List.Forall₂ Eq _ _ := hframes.imp fun _ _ hij => hij.1
    rw [List.forall₂_eq_eq_eq] at hsame
    rw [hsame]

end Matching

section

variable {s : Store} {env : Environment}

theorem staysAmong_inPlay {value : Value} (hvalue : value.Within Procedure.IsHostFree)
    (hreach : ∀ c, Value.Occurs (.closure c) value → ∀ index ∈ c.env.frames, s.Reaches env index) :
    value.Within (Procedure.StaysAmong (s.InPlay env)) := by
  apply Value.within_of_occurs
  intro p hp
  cases p with
  | primitive p => exact hvalue.of_occurs hp
  | closure c => exact fun index hmem => Or.inl (hreach c hp index hmem)

theorem globals_staysAmong (hs : s.Within Procedure.IsHostFree) :
    s.globals.Within (Procedure.StaysAmong (s.InPlay env)) := by
  intro name value hvalue
  apply staysAmong_inPlay (hs .globals name value hvalue)
  intro c hc index hmem
  exact .global hvalue hc hmem

theorem frame_staysAmong (hs : s.Within Procedure.IsHostFree) {index : Nat}
    (hindex : s.InPlay env index) :
    (s.frame index).Within (Procedure.StaysAmong (s.InPlay env)) := by
  obtain hreach | hle := hindex
  · intro name value hvalue
    apply staysAmong_inPlay (hs (.frame index) name value hvalue)
    intro c hc other hmem
    exact .frame hreach hvalue hc hmem
  · simpa [hle] using Table.within_empty

/-- Stores that differ out of reach only match in all that is in play. -/
theorem stores_inPlay (hs : s.Within Procedure.IsHostFree) {t : Store}
    (ht : Store.AgreesOn (s.Reaches env) s t) :
    (Matching.among (s.InPlay env)).Stores s t s t := by
  constructor
  case globals =>
    rw [ht.globals]
    exact (globals_staysAmong hs).alike_self fun _ => Matching.among_self
  case frames =>
    rintro i j ⟨rfl, hi⟩
    have hsame : t.frame i = s.frame i := by
      obtain hreach | hle := hi
      · exact ht.frames i hreach
      · simp [hle, ht.size.trans_le hle]
    rw [hsame]
    exact (frame_staysAmong hs hi).alike_self fun _ => Matching.among_self
  case newFrames =>
    intro n
    rw [ht.size]
    exact ⟨rfl, Or.inr (Nat.le_add_right _ n)⟩
  case newClosures =>
    intro n
    rw [ht.nextClosure]
    exact rfl
  case left => exact fun _ _ => rfl
  case right => exact fun _ _ => rfl

end

/-- Evaluation is confined to the frames that it can get at. Those out of reach are left as they
are, whether it succeeds or fails, and what they hold makes no difference: with anything else in
them, the result and the log are the same, and so are the globals, the frames that can be got at,
and all new ones. -/
theorem evaluation_is_confined (host : Host) {s : Store} (hs : s.Within Procedure.IsHostFree)
    (remaining depth : Nat) (env : Environment) (text : String) :
    let o := evaluate host remaining depth env text s
    (∀ index < s.frames.size, ¬ s.Reaches env index → o.store.frame index = s.frame index) ∧
    ∀ t, Store.AgreesOn (s.Reaches env) s t →
      let o' := evaluate host remaining depth env text t
      o'.result = o.result ∧ o'.log = o.log ∧ Store.AgreesOn (s.InPlay env) o.store o'.store ∧
      ∀ index < t.frames.size, ¬ t.Reaches env index → o'.store.frame index = t.frame index := by
  intro o
  let m := Matching.among (s.InPlay env)
  have hchain : List.Forall₂ m.frame env.frames env.frames :=
    Matching.among_chain fun index hmem => Or.inl (.chain hmem)
  have hends (t : Store) (ht : Store.AgreesOn (s.Reaches env) s t) :
      (m.coupling s t).Ends (Value.Alike m.Procedures) o
        (evaluate host remaining depth env text t) :=
    Matching.ends_evaluate host (stores_inPlay hs ht) hchain trivial remaining depth
  constructor
  · intro index hlt hreach
    have hstore : m.Stores s s o.store _ := (hends s (.refl _ s)).store
    exact hstore.left index fun _ hij => Store.not_inPlay hlt hreach hij.2
  · intro t ht o'
    obtain ⟨hresult, hstore, hlog⟩ := hends t ht
    have hstore : m.Stores s t o.store o'.store := hstore
    have heq : ∀ p q, m.Procedures p q → q = id p := fun _ _ => Matching.eq_of_among
    have hvalue : o'.result = o.result := by
      apply hresult.eq
      intro v w hvw
      exact hvw.eq heq
    have hagrees : Store.AgreesOn (s.InPlay env) o.store o'.store := by
      constructor
      · exact hstore.globals.eq heq
      · exact fun index hindex => (hstore.frames ⟨rfl, hindex⟩).eq heq
      · exact (hstore.newFrames 0).1.symm
      · exact (hstore.newClosures 0).symm
    refine ⟨hvalue, Matching.log_eq hlog, hagrees, ?_⟩
    intro index hlt hreach
    rw [ht.size] at hlt
    rw [ht.reaches] at hreach
    exact hstore.right index fun i hij => Store.not_inPlay hlt hreach (hij.1 ▸ hij.2)

/-- A closure that sets its own `n`, and a frame with another `n` that nothing leads to. -/
theorem other_frame_is_out_of_reach :
    let host : Host := fun _ _ => .ok .nil
    let setter : Value := .procedure (.closure ⟨0, "()", "(set! n (quote b))", ⟨[0]⟩⟩)
    let store : Value → Store := fun other => ⟨Table.ofList [("reset", setter)],
      #[Table.ofList [("n", .symbol "a")], Table.ofList [("n", other)]], 1⟩
    let run : Value → Outcome Value := fun other =>
      evaluate host 3 0 .empty "(reset)" (store other)
    (run .nil).store.frame 1 = (store .nil).frame 1 ∧
      (run (.symbol "c")).result = (run .nil).result ∧
      (run (.symbol "c")).store.frame 0 = (run .nil).store.frame 0 := by
  intro host setter store run
  have hone {bound name : String} {value found : Value}
      (h : (Table.ofList [(bound, value)]).get? name = some found) : found = value := by
    change (Table.empty.insert bound value).get? name = some found at h
    simp at h
    exact h.2.symm
  have hwithin (bound : String) {value : Value} (h : value.Within Procedure.IsHostFree) :
      (Table.ofList [(bound, value)]).Within Procedure.IsHostFree := by
    intro name found hfound
    rw [hone hfound]
    exact h
  have hs : (store .nil).Within Procedure.IsHostFree
    | .globals => hwithin "reset" (.procedure trivial)
    | .frame 0 => hwithin "n" (.symbol "a")
    | .frame 1 => hwithin "n" .nil
    | .frame (_ + 2) => Table.within_empty
  have hclosure {c : Closure} (h : Value.Occurs (.closure c) setter) : c.env.frames = [0] := by
    dsimp only [setter] at h
    cases h
    rfl
  have honly {index : Nat} (h : (store .nil).Reaches .empty index) : index = 0 := by
    induction h with
    | chain h => cases h
    | global hvalue hc h =>
      rw [hone hvalue] at hc
      rw [hclosure hc] at h
      exact List.mem_singleton.mp h
    | frame _ hvalue hc _ ih =>
      subst ih
      rw [hone hvalue] at hc
      cases hc
  have hreach : ¬ (store .nil).Reaches .empty 1 := fun h => absurd (honly h) (by decide)
  have hglobal : (store .nil).globals.get? "reset" = some setter := rfl
  have hfirst : (store .nil).Reaches .empty 0 := .global hglobal .here List.mem_cons_self
  have hagrees :
      Store.AgreesOn ((store .nil).Reaches .empty) (store .nil) (store (.symbol "c")) := by
    refine ⟨rfl, ?_, rfl, rfl⟩
    intro index hindex
    obtain rfl := honly hindex
    rfl
  obtain ⟨hleft, hsame⟩ := evaluation_is_confined host hs 3 0 .empty "(reset)"
  obtain ⟨hresult, -, hafter, -⟩ := hsame _ hagrees
  exact ⟨hleft 1 (by decide) hreach, hresult, hafter.frames 0 (Or.inl hfirst)⟩

end TextLisp
