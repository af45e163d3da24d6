import TextLisp.Proofs.Store.Alike
import TextLisp.Proofs.Store.Within

/-! Stores that hold the same in frames and closures of other places and identities. A matching says
which stand for which. What has no counterpart is out of reach, and stays as it is. -/
namespace TextLisp

/-- A table of admitted procedures is alike to itself if these are related to themselves. -/
theorem Table.Within.alike_self {admits : Procedure → Prop} {R : Procedure → Procedure → Prop}
    (hR : ∀ p, admits p → R p p) {t : Table Value} (h : t.Within admits) : t.Alike R t := by
  have hself {entries : List (String × Value)}
      (hentries : ∀ entry ∈ entries, entry.2.Within admits) :
      BindingsAlike R entries entries := by
    induction entries with
    | nil => exact .nil
    | cons entry entries ih =>
      have hvalue := hentries entry List.mem_cons_self
      exact .cons entry.1 (hvalue.alike_self hR)
        (ih fun other hmem => hentries other (List.mem_cons_of_mem entry hmem))
  exact hself fun _ hmem => h.of_mem hmem

/-- Which frames and which closures of one store stand for which of another one, and the texts that
closures may have. All that comes to be later is in its turn matched one to one. -/
structure Matching where
  accepts : String → Prop
  frame : Nat → Nat → Prop
  identity : Nat → Nat → Prop
  trimmed : ∀ text, accepts text → accepts (Text.trim text)
  sibling : ∀ text siblings, accepts text → Text.splitForm text = .ok siblings →
    ∀ sibling ∈ siblings, accepts sibling
  frame_iff : ∀ {i i' j j' : Nat}, frame i j → frame i' j' → (i = i' ↔ j = j')
  identity_iff : ∀ {a a' b b' : Nat}, identity a b → identity a' b' → (a = a' ↔ b = b')

namespace Matching

variable (m : Matching)

/-- Closures with the same text and matching identities and chains. Primitives are those of the
language. -/
inductive Procedures : Procedure → Procedure → Prop
  | primitive {p : Primitive} (hbuiltin : ∃ operation, p.operation = .builtin operation) :
      Procedures (.primitive p) (.primitive p)
  | closure {identity identity' : Nat} {params body : String} {frames frames' : List Nat}
      (hidentity : m.identity identity identity') (hbody : m.accepts body)
      (hframes : List.Forall₂ m.frame frames frames') :
      Procedures (.closure ⟨identity, params, body, ⟨frames⟩⟩)
        (.closure ⟨identity', params, body, ⟨frames'⟩⟩)

inductive Owners : Owner → Owner → Prop
  | frame {i j : Nat} (h : m.frame i j) : Owners (.frame i) (.frame j)
  | globals : Owners .globals .globals

/-- Matching frames hold alike values, and new frames and closures will match. Frames without a
counterpart are those of the stores at the start. -/
structure Stores (s₀ t₀ s t : Store) : Prop where
  globals : s.globals.Alike m.Procedures t.globals
  frames : ∀ {i j : Nat}, m.frame i j → (s.frame i).Alike m.Procedures (t.frame j)
  newFrames : ∀ n, m.frame (s.frames.size + n) (t.frames.size + n)
  newClosures : ∀ n, m.identity (s.nextClosure + n) (t.nextClosure + n)
  left : ∀ i, (∀ j, ¬ m.frame i j) → s.frame i = s₀.frame i
  right : ∀ j, (∀ i, ¬ m.frame i j) → t.frame j = t₀.frame j

theorem indiscernible_procedures : Procedure.Indiscernible m.Procedures where
  primitive h := by cases h; rfl
  closure h := by
    cases h
    exact ⟨_, rfl⟩
  render h := by
    cases h
    · rfl
    · rw [Value.render, Value.render]
  equal h h' := by
    cases h with
    | primitive => cases h' <;> rfl
    | closure hidentity =>
      cases h' with
      | primitive => rfl
      | closure hidentity' =>
        have hiff := m.identity_iff hidentity hidentity'
        rw [Procedure.equal, Procedure.equal, Bool.eq_iff_iff, beq_iff_eq, beq_iff_eq]
        exact hiff

variable {m} {s₀ t₀ s t : Store}

theorem Owners.table {owner owner' : Owner} (h : m.Owners owner owner')
    (hst : m.Stores s₀ t₀ s t) : (s.table owner).Alike m.Procedures (t.table owner') := by
  cases h with
  | frame h => exact hst.frames h
  | globals => exact hst.globals

namespace Stores

variable (h : m.Stores s₀ t₀ s t)
include h

/-- Of two matching places, either both are in use or none is. -/
theorem lt_size_iff {i j : Nat} (hij : m.frame i j) :
    i < s.frames.size ↔ j < t.frames.size := by
  rw [← not_iff_not, Nat.not_lt, Nat.not_lt]
  constructor
  · intro hle
    obtain ⟨n, rfl⟩ := Nat.exists_eq_add_of_le hle
    have hj := (m.frame_iff hij (h.newFrames n)).mp rfl
    omega
  · intro hle
    obtain ⟨n, rfl⟩ := Nat.exists_eq_add_of_le hle
    have hi := (m.frame_iff hij (h.newFrames n)).mpr rfl
    omega

/-- Values that match may be written to slots that match. -/
theorem put {owner owner' : Owner} (howner : m.Owners owner owner') (name : String)
    {value value' : Value} (hvalue : Value.Alike m.Procedures value value') :
    m.Stores s₀ t₀ (s.put owner name value) (t.put owner' name value') := by
  cases howner with
  | globals =>
    exact ⟨h.globals.insert name hvalue, h.frames, h.newFrames, h.newClosures, h.left, h.right⟩
  | @frame i j hij =>
    constructor
    case globals => exact h.globals
    case frames =>
      -- Places are matched one to one, so either both tables are the ones written to or none is.
      intro i' j' hij'
      have hplace := m.frame_iff hij' hij
      change ((s.put _ name value).table (.frame i')).Alike _
        ((t.put _ name value').table (.frame j'))
      by_cases hi : i' = i
      · obtain rfl := hplace.mp hi
        subst hi
        have hiff : s.HasTable (.frame i') ↔ t.HasTable (.frame j') := h.lt_size_iff hij
        by_cases htable : s.HasTable (.frame i')
        · simp only [htable, hiff.mp htable, Store.table_put_self]
          exact (h.frames hij).insert name hvalue
        · rw [Store.put_of_not_hasTable htable, Store.put_of_not_hasTable (mt hiff.mpr htable)]
          exact h.frames hij
      · have hj : j' ≠ j := fun he => hi (hplace.mpr he)
        simp only [ne_eq, Owner.frame.injEq, hi, hj, not_false_eq_true, Store.table_put_of_ne]
        exact h.frames hij'
    case newFrames =>
      simpa using h.newFrames
    case newClosures => exact h.newClosures
    case left =>
      intro i' hnone
      have hne : Owner.frame i' ≠ .frame i := by
        rintro ⟨⟩
        exact hnone j hij
      have hsame : (s.put (.frame i) name value).frame i' = s.frame i' :=
        Store.table_put_of_ne s hne name value
      exact hsame.trans (h.left i' hnone)
    case right =>
      intro j' hnone
      have hne : Owner.frame j' ≠ .frame j := by
        rintro ⟨⟩
        exact hnone i hij
      have hsame : (t.put (.frame j) name value').frame j' = t.frame j' :=
        Store.table_put_of_ne t hne name value'
      exact hsame.trans (h.right j' hnone)

/-- The next frame of one store matches the next one of the other. -/
theorem addFrame {table table' : Table Value} (htable : table.Alike m.Procedures table') :
    m.Stores s₀ t₀ (s.addFrame table) (t.addFrame table') := by
  have hlast : m.frame s.frames.size t.frames.size := h.newFrames 0
  constructor
  case globals => exact h.globals
  case frames =>
    intro i j hij
    have hplace := m.frame_iff hij hlast
    by_cases hi : i = s.frames.size
    · simpa [hi, hplace.mp hi] using htable
    · have hj : j ≠ t.frames.size := fun he => hi (hplace.mpr he)
      simpa [hi, hj] using h.frames hij
  case newFrames =>
    intro n
    have hnew := h.newFrames (1 + n)
    rw [← Nat.add_assoc, ← Nat.add_assoc] at hnew
    simpa only [Store.addFrame, Array.size_push] using hnew
  case newClosures => exact h.newClosures
  case left =>
    intro i hnone
    have hne : i ≠ s.frames.size := by
      rintro rfl
      exact hnone _ hlast
    simpa [hne] using h.left i hnone
  case right =>
    intro j hnone
    have hne : j ≠ t.frames.size := by
      rintro rfl
      exact hnone _ hlast
    simpa [hne] using h.right j hnone

theorem closure :
    m.Stores s₀ t₀ { s with nextClosure := s.nextClosure + 1 }
      { t with nextClosure := t.nextClosure + 1 } := by
  refine ⟨h.globals, h.frames, h.newFrames, ?_, h.left, h.right⟩
  intro n
  have hnew := h.newClosures (1 + n)
  rwa [← Nat.add_assoc, ← Nat.add_assoc] at hnew

theorem define (name : String) {value value' : Value}
    (hvalue : Value.Alike m.Procedures value value') :
    Agree (fun _ => True) (m.Stores s₀ t₀) (s.define name value) (t.define name value') :=
  Store.agree_define (h.globals.contains name) (h.put .globals name hvalue)

theorem assign {owner owner' : Owner} (howner : m.Owners owner owner') (name : String)
    {value value' : Value} (hvalue : Value.Alike m.Procedures value value') :
    Agree (fun _ => True) (m.Stores s₀ t₀) (s.assign owner name value)
      (t.assign owner' name value') := by
  have hput := h.put howner name hvalue
  cases howner with
  | frame => exact .ok hput
  | globals => exact Store.agree_assign_globals (h.globals.contains name) hput

/-- Matching chains find a name in matching places. -/
theorem owner? {frames frames' : List Nat} (hframes : List.Forall₂ m.frame frames frames')
    (name : String) :
    Option.Rel m.Owners (Environment.owner? ⟨frames⟩ s name)
      (Environment.owner? ⟨frames'⟩ t name) := by
  have hglobals := h.globals.contains name
  unfold Environment.owner? Environment.frame?
  induction hframes with
  | nil =>
    rw [List.find?_nil, List.find?_nil]
    dsimp only
    rw [hglobals]
    split
    · exact .some .globals
    · exact .none
  | @cons i j frames frames' hij _ ih =>
    rw [List.find?_cons, List.find?_cons, (h.frames hij).contains name]
    cases (t.frame j).contains name with
    | true => exact .some (.frame hij)
    | false => exact ih

theorem lookup {env env' : Environment} (henv : List.Forall₂ m.frame env.frames env'.frames)
    (name : String) :
    Option.Rel (Value.Alike m.Procedures) (env.lookup s name) (env'.lookup t name) := by
  have howner := h.owner? henv name
  rw [Environment.lookup_eq_owner?, Environment.lookup_eq_owner?]
  generalize env.owner? s name = found at howner ⊢
  generalize env'.owner? t name = found' at howner ⊢
  cases howner with
  | none => exact .none
  | some howner => exact (howner.table h).get? name

/-- In matching chains names are resolved to matching values. -/
theorem resolve {env env' : Environment} (henv : List.Forall₂ m.frame env.frames env'.frames)
    (name : String) :
    Agree (fun _ => True) (Value.Alike m.Procedures) (env.resolve s name)
      (env'.resolve t name) :=
  Store.agree_resolve (h.lookup henv name) fun target _ => h.globals.get? target

end Stores

end Matching

end TextLisp
