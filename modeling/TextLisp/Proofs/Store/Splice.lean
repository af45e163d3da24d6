import TextLisp.Proofs.Store.Chain
import TextLisp.Proofs.Store.Scope
import TextLisp.Proofs.Store.Sharing
import TextLisp.Run

/-! Splicing by reference. A chain is kept as links, each with a table and the link outside of it,
and links are never changed once they are made. A splice makes new links to the tables of the chain
in front, from its last one on, and the first of them leads to the chain behind, which stays as it
is. -/
namespace TextLisp

variable {β : Type}

structure Link where
  table : Nat
  outer : Option Nat
  deriving DecidableEq, Repr

/-- The links that have been made, the newest one first, with the one that a chain begins at. A link
is named by the number of those made before it. -/
structure Linked where
  links : List Link
  head : Option Nat
  deriving DecidableEq, Repr

namespace Linked

/-- The tables of the links from one on. What is outside of a link has been made before it. -/
def tablesFrom : List Link → Option Nat → List Nat
  | link :: older, some i =>
    if i = older.length then link.table :: tablesFrom older link.outer
    else tablesFrom older (some i)
  | _, _ => []

def tables (chain : Linked) : List Nat :=
  tablesFrom chain.links chain.head

def push (chain : Linked) (table : Nat) : Linked :=
  ⟨⟨table, chain.head⟩ :: chain.links, some chain.links.length⟩

def splice (links : List Link) (front back : Option Nat) : Linked :=
  (tables ⟨links, front⟩).reverse.foldl push ⟨links, back⟩

def Made (links : List Link) (head : Option Nat) : Prop :=
  ∀ i, head = some i → i < links.length

theorem tablesFrom_none (links : List Link) : tablesFrom links none = [] := by
  cases links <;> rfl

theorem tables_push (chain : Linked) (table : Nat) :
    (chain.push table).tables = table :: chain.tables :=
  if_pos rfl

theorem tables_foldl_push (added : List Nat) (chain : Linked) :
    (added.foldl push chain).tables = added.reverse ++ chain.tables := by
  induction added generalizing chain with
  | nil => rfl
  | cons table added ih =>
    calc ((table :: added).foldl push chain).tables
        = added.reverse ++ (chain.push table).tables := ih (chain.push table)
      _ = added.reverse ++ table :: chain.tables := by rw [tables_push]
      _ = (table :: added).reverse ++ chain.tables := by
        rw [List.reverse_cons, List.append_assoc, List.singleton_append]

/-- New links leave those alone that are there. -/
theorem suffix_foldl_push (added : List Nat) (chain : Linked) :
    chain.links <:+ (added.foldl push chain).links := by
  induction added generalizing chain with
  | nil => exact List.suffix_refl chain.links
  | cons table added ih => exact (List.suffix_cons _ chain.links).trans (ih (chain.push table))

theorem length_foldl_push (added : List Nat) (chain : Linked) :
    (added.foldl push chain).links.length = added.length + chain.links.length := by
  induction added generalizing chain with
  | nil => exact (Nat.zero_add _).symm
  | cons table added ih =>
    rw [List.foldl_cons, ih, push, List.length_cons, List.length_cons]
    omega

theorem tables_splice (links : List Link) (front back : Option Nat) :
    (splice links front back).tables = tables ⟨links, front⟩ ++ tables ⟨links, back⟩ := by
  rw [splice, tables_foldl_push, List.reverse_reverse]

theorem suffix_splice (links : List Link) (front back : Option Nat) :
    links <:+ (splice links front back).links :=
  suffix_foldl_push (tables ⟨links, front⟩).reverse ⟨links, back⟩

theorem length_splice (links : List Link) (front back : Option Nat) :
    (splice links front back).links.length = (tables ⟨links, front⟩).length + links.length := by
  rw [splice, length_foldl_push, List.length_reverse]

/-- What a chain holds is told by the links that were there when it was made. -/
theorem tablesFrom_of_suffix {links links' : List Link} (h : links <:+ links') {head : Option Nat}
    (hmade : Made links head) : tablesFrom links' head = tablesFrom links head := by
  obtain ⟨newer, rfl⟩ := h
  cases head with
  | none => rw [tablesFrom_none, tablesFrom_none]
  | some i =>
    induction newer with
    | nil => rfl
    | cons link newer ih =>
      -- The newest link has a name that was not given yet, so the search goes on behind it.
      have hlt : i < links.length := hmade i rfl
      have hne : i ≠ (newer ++ links).length := by
        rw [List.length_append]
        omega
      rw [List.cons_append, tablesFrom, if_neg hne, ih]

end Linked

structure Store.AddsTable (s : Store β) (index : Nat) (bindings : List (String × Value β))
    (s' : Store β) : Prop where
  fresh : ¬ s.HasTable (.frame index)
  holds : s'.table (.frame index) = Table.ofList bindings
  others : ∀ owner, s.HasTable owner → s'.table owner = s.table owner
  hasTable_iff : ∀ owner, s'.HasTable owner ↔ owner = .frame index ∨ s.HasTable owner

theorem Store.addsTable_addFrame (s : Store β) (bindings : List (String × Value β)) :
    s.AddsTable s.frames.size bindings (s.addFrame (Table.ofList bindings)) where
  fresh := Nat.lt_irrefl s.frames.size
  holds := (s.frame_addFrame _ _).trans (if_pos rfl)
  others := fun _ h => Store.table_addFrame h _
  hasTable_iff := by
    intro owner
    cases owner with
    | frame index =>
      have hsize : (s.addFrame (Table.ofList bindings)).frames.size = s.frames.size + 1 :=
        Array.size_push _
      change index < _ ↔ _ ∨ index < s.frames.size
      rw [hsize, Owner.frame.injEq]
      omega
    | globals => exact iff_of_true trivial (Or.inr trivial)

namespace Environment

def IsLocal (env : Environment) (s : Store β) (name : String) : Prop :=
  ∃ index ∈ env.frames, (s.frame index).contains name = true

variable {a : Environment} {s : Store β} {name : String}

theorem frame?_of_isLocal (h : a.IsLocal s name) :
    ∃ index, a.frame? s name = some index ∧ index ∈ a.frames := by
  obtain ⟨index, hmem, hbound⟩ := h
  cases hframe : a.frame? s name with
  | none => exact absurd hbound (List.find?_eq_none.mp hframe index hmem)
  | some found => exact ⟨found, rfl, List.mem_of_find?_eq_some hframe⟩

theorem frame?_of_not_isLocal (h : ¬ a.IsLocal s name) : a.frame? s name = none := by
  apply List.find?_eq_none.mpr
  exact fun index hmem hbound => h ⟨index, hmem, hbound⟩

theorem lookup_splice_of_isLocal (h : a.IsLocal s name) (b : Environment) :
    (a.splice b).lookup s name = a.lookup s name := by
  obtain ⟨index, hframe, -⟩ := frame?_of_isLocal h
  rw [lookup_eq_frame?, lookup_eq_frame?, frame?_splice, hframe]
  rfl

theorem lookup_splice_of_not_isLocal (h : ¬ a.IsLocal s name) (b : Environment) :
    (a.splice b).lookup s name = b.lookup s name := by
  rw [lookup_eq_frame?, lookup_eq_frame?, frame?_splice, frame?_of_not_isLocal h]
  rfl

theorem owner?_splice_of_isLocal (h : a.IsLocal s name) (b : Environment) :
    (a.splice b).owner? s name = a.owner? s name := by
  obtain ⟨index, hframe, -⟩ := frame?_of_isLocal h
  unfold owner?
  rw [frame?_splice, hframe]
  rfl

theorem owner?_splice_of_not_isLocal (h : ¬ a.IsLocal s name) (b : Environment) :
    (a.splice b).owner? s name = b.owner? s name := by
  unfold owner?
  rw [frame?_splice, frame?_of_not_isLocal h]
  rfl

/-- A frame that owns a name is one of the chain's. -/
theorem mem_frames_of_owner? {index : Nat} (h : a.owner? s name = some (.frame index)) :
    index ∈ a.frames := by
  unfold owner? at h
  split at h
  next found hframe =>
    obtain rfl := Owner.frame.inj (Option.some.inj h)
    exact List.mem_of_find?_eq_some hframe
  · split at h <;> cases h

theorem read_eq_of_lookup_eq {a b : Environment} (h : a.lookup s name = b.lookup s name) :
    a.read s name = b.read s name := by
  rw [read, read, resolve, resolve, h]

/-- What is assigned to the owner of a name is seen. -/
theorem lookup_put_of_owner? {owner : Owner} (h : a.owner? s name = some owner) (value : Value β) :
    a.lookup (s.put owner name value) name = some value := by
  rw [lookup_put (contains_of_owner? h), if_pos ⟨rfl, h⟩]

end Environment

/-- A splice is made of new links, which hold the tables of the first chain in their order and lead
on to the second chain; the links there were are kept, so every chain that there was holds what it
held. Read as tables, it is the first chain followed by the second one. Splicing is associative,
nothing is changed by the chain without frames, and depths add up. Extending before and after a
splice gives the same tables behind a new one with the same bindings. A name that the first chain
binds is read there and owned as it is there, any other as in the second chain. An assignment
through the splice goes to the table of a frame of one of the two chains, or to the globals,
changes one slot there, and shows through that chain. -/
theorem splice_concatenates_by_reference (a b : Environment) :
    (∀ (links : List Link) (front back : Option Nat),
      Linked.tables ⟨links, front⟩ = a.frames → Linked.tables ⟨links, back⟩ = b.frames →
      (Linked.splice links front back).tables = (a.splice b).frames ∧
        links <:+ (Linked.splice links front back).links ∧
        (Linked.splice links front back).links.length = a.depth + links.length ∧
        ∀ head, Linked.Made links head →
          Linked.tables ⟨(Linked.splice links front back).links, head⟩ =
            Linked.tables ⟨links, head⟩) ∧
    (a.splice b).frames = a.frames ++ b.frames ∧
    (∀ c, (a.splice b).splice c = a.splice (b.splice c)) ∧
    Environment.empty.splice a = a ∧ a.splice .empty = a ∧
    (a.splice b).depth = a.depth + b.depth ∧
    (∀ (bindings : List (String × Value β)) (s s' : Store β), ∃ fresh t fresh' extended t',
      Run.extend (a.splice b) bindings s = ⟨.ok ⟨fresh :: (a.frames ++ b.frames)⟩, t, []⟩ ∧
      Run.extend a bindings s' = ⟨.ok extended, t', []⟩ ∧
      extended.splice b = ⟨fresh' :: (a.frames ++ b.frames)⟩ ∧
      s.AddsTable fresh bindings t ∧ s'.AddsTable fresh' bindings t') ∧
    ∀ (s : Store β) (name : String),
      (a.IsLocal s name →
        (a.splice b).read s name = a.read s name ∧
          (a.splice b).owner? s name = a.owner? s name ∧
          ∃ index ∈ a.frames, a.owner? s name = some (.frame index)) ∧
      (¬ a.IsLocal s name →
        (a.splice b).read s name = b.read s name ∧
          (a.splice b).owner? s name = b.owner? s name) ∧
      ∀ owner value, (a.splice b).owner? s name = some owner →
        (owner = .globals ∨ ∃ index, owner = .frame index ∧ (index ∈ a.frames ∨ index ∈ b.frames)) ∧
        ∃ s', s.assign owner name value = .ok s' ∧
          (∀ other m, (s'.table other).get? m =
            if other = owner ∧ m = name then some value else (s.table other).get? m) ∧
          (a.IsLocal s name → a.lookup s' name = some value) ∧
          (¬ a.IsLocal s name → b.lookup s' name = some value) := by
  refine ⟨?_, rfl, ?_, rfl, a.splice_empty, List.length_append, ?_, ?_⟩
  · intro links front back hfront hback
    have hkept := Linked.suffix_splice links front back
    refine ⟨?_, hkept, ?_, fun head hmade => Linked.tablesFrom_of_suffix hkept hmade⟩
    · rw [Linked.tables_splice, hfront, hback]
      rfl
    · rw [Linked.length_splice, hfront]
      rfl
  · intro c
    exact congrArg Environment.mk (List.append_assoc a.frames b.frames c.frames)
  · intro bindings s s'
    exact ⟨_, _, _, _, _, rfl, rfl, rfl, s.addsTable_addFrame bindings,
      s'.addsTable_addFrame bindings⟩
  · intro s name
    refine ⟨?_, ?_, ?_⟩
    · intro hlocal
      obtain ⟨index, hframe, hmem⟩ := Environment.frame?_of_isLocal hlocal
      refine ⟨Environment.read_eq_of_lookup_eq (Environment.lookup_splice_of_isLocal hlocal b),
        Environment.owner?_splice_of_isLocal hlocal b, index, hmem, ?_⟩
      rw [Environment.owner?, hframe]
    · intro hnot
      exact ⟨Environment.read_eq_of_lookup_eq (Environment.lookup_splice_of_not_isLocal hnot b),
        Environment.owner?_splice_of_not_isLocal hnot b⟩
    · intro owner value howner
      have hbound := Environment.contains_of_owner? howner
      refine ⟨?_, s.put owner name value, Store.assign_of_contains hbound value,
        Store.get?_put hbound value, ?_, ?_⟩
      · cases owner with
        | globals => exact Or.inl rfl
        | frame index =>
          exact Or.inr ⟨index, rfl, List.mem_append.mp (Environment.mem_frames_of_owner? howner)⟩
      · intro hlocal
        rw [Environment.owner?_splice_of_isLocal hlocal] at howner
        exact Environment.lookup_put_of_owner? howner value
      · intro hnot
        rw [Environment.owner?_splice_of_not_isLocal hnot] at howner
        exact Environment.lookup_put_of_owner? howner value

/-- A caller's frame is spliced in front of a captured one. Both bind one name, the captured one
binds another: each is read and written in the frame that a call finds it in. -/
theorem caller_before_captured :
    let links : List Link := [⟨1, none⟩, ⟨0, none⟩]
    let caller : Environment := ⟨[0]⟩
    let captured : Environment := ⟨[1]⟩
    let s : Store := ⟨Table.empty, #[Table.ofList [("z", .number 5)],
      Table.ofList [("captured", .number 1), ("z", .number 9)]], 0⟩
    (Linked.splice links (some 0) (some 1)).tables = [0, 1] ∧
      Linked.tables ⟨(Linked.splice links (some 0) (some 1)).links, some 0⟩ = [0] ∧
      (caller.splice captured).read s "z" = caller.read s "z" ∧
      (caller.splice captured).read s "captured" = captured.read s "captured" ∧
      (∃ s', s.assign (.frame 1) "captured" .nil = .ok s' ∧
        captured.lookup s' "captured" = some .nil) ∧
      ∃ s', s.assign (.frame 0) "z" .nil = .ok s' ∧ caller.lookup s' "z" = some .nil := by
  intro links caller captured s
  have hz : caller.IsLocal s "z" := ⟨0, List.mem_singleton_self 0, by decide⟩
  have hcaptured : ¬ caller.IsLocal s "captured" := by
    rintro ⟨index, hmem, hbound⟩
    obtain rfl := List.mem_singleton.mp hmem
    revert hbound
    decide
  obtain ⟨hlinks, -, -, -, -, -, -, hnames⟩ :=
    splice_concatenates_by_reference caller captured
  obtain ⟨htables, -, -, hkept⟩ := hlinks links (some 0) (some 1) rfl rfl
  have hmade : Linked.Made links (some 0) := by
    intro i hi
    obtain rfl := Option.some.inj hi
    decide
  obtain ⟨hread, -, hwrite⟩ := hnames s "z"
  obtain ⟨-, hread', hwrite'⟩ := hnames s "captured"
  obtain ⟨-, s₁, hassign, -, hshows, -⟩ := hwrite (.frame 0) .nil (by decide)
  obtain ⟨-, s₂, hassign', -, -, hshows'⟩ := hwrite' (.frame 1) .nil (by decide)
  exact ⟨htables, hkept (some 0) hmade, (hread hz).1, (hread' hcaptured).1,
    ⟨s₂, hassign', hshows' hcaptured⟩, s₁, hassign, hshows hz⟩

end TextLisp
