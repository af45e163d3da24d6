import TextLisp.Environment

namespace TextLisp

theorem eraseDups_filter (p : Nat → Bool) : ∀ indices : List Nat,
    (indices.filter p).eraseDups = indices.eraseDups.filter p
  | [] => rfl
  | index :: indices => by
    -- Erasing goes on with what is left, and that is no tail of the list.
    have hrest := eraseDups_filter p (indices.filter fun other => !other == index)
    rw [List.eraseDups_cons]
    cases hp : p index with
    | true =>
      have hswap : (indices.filter p).filter (fun other => !other == index) =
          (indices.filter fun other => !other == index).filter p := by
        simp only [List.filter_filter, Bool.and_comm]
      rw [List.filter_cons_of_pos hp, List.filter_cons_of_pos hp, List.eraseDups_cons, hswap, hrest]
    | false =>
      have hp' : ¬ p index = true := Bool.eq_false_iff.mp hp
      have hskip : (fun other => p other && !other == index) = p := by
        funext other
        by_cases hother : other = index
        · subst hother
          simp [hp]
        · simp [hother]
      rw [List.filter_cons_of_neg hp', List.filter_cons_of_neg hp', ← hrest, List.filter_filter,
        hskip]
termination_by indices => indices.length
decreasing_by exact Nat.lt_succ_of_le (List.length_filter_le _ _)

theorem eraseDups_eraseDups : ∀ indices : List Nat,
    indices.eraseDups.eraseDups = indices.eraseDups
  | [] => rfl
  | index :: indices => by
    have hrest := eraseDups_eraseDups (indices.filter fun other => !other == index)
    rw [List.eraseDups_cons, List.eraseDups_cons, ← eraseDups_filter, List.filter_filter]
    simp only [Bool.and_self]
    rw [hrest]
termination_by indices => indices.length
decreasing_by exact Nat.lt_succ_of_le (List.length_filter_le _ _)

/-- The first index that a search accepts is kept. -/
theorem find?_eraseDups (p : Nat → Bool) (indices : List Nat) :
    indices.eraseDups.find? p = indices.find? p := by
  have hhead (indices : List Nat) : indices.eraseDups.head? = indices.head? := by
    cases indices with
    | nil => rfl
    | cons index indices => rw [List.eraseDups_cons, List.head?_cons, List.head?_cons]
  rw [← List.head?_filter, ← eraseDups_filter, hhead, List.head?_filter]

theorem eraseDups_append_eq (front back : List Nat) :
    (front ++ back).eraseDups =
      front.eraseDups ++ back.eraseDups.filter fun index => !front.eraseDups.contains index := by
  have hmem (index : Nat) : front.eraseDups.contains index = front.contains index := by
    rw [Bool.eq_iff_iff, List.contains_iff_mem, List.contains_iff_mem, List.mem_eraseDups]
  simp only [hmem]
  rw [List.eraseDups_append, List.removeAll, eraseDups_filter]

namespace Environment

variable {β : Type} {env env' tail tail' : Environment}

/-- The chain without the tables that it has met before. -/
def dedup (env : Environment) : Environment :=
  ⟨env.frames.eraseDups⟩

theorem dedup_dedup (env : Environment) : env.dedup.dedup = env.dedup :=
  congrArg Environment.mk (eraseDups_eraseDups env.frames)

/-- A search never gets to a repetition. -/
theorem frame?_dedup (env : Environment) (s : Store β) (name : String) :
    env.dedup.frame? s name = env.frame? s name :=
  find?_eraseDups _ env.frames

theorem splice_empty (env : Environment) : env.splice empty = env :=
  congrArg Environment.mk (List.append_nil env.frames)

/-- Chains with the same tables lead to such chains when others are attached to them. -/
theorem dedup_splice (h : env.dedup = env'.dedup) (htail : tail.dedup = tail'.dedup) :
    (env.splice tail).dedup = (env'.splice tail').dedup := by
  have hfront : env.frames.eraseDups = env'.frames.eraseDups := congrArg frames h
  have hback : tail.frames.eraseDups = tail'.frames.eraseDups := congrArg frames htail
  unfold dedup splice
  rw [eraseDups_append_eq, eraseDups_append_eq, hfront, hback]

theorem dedup_push (h : env.dedup = env'.dedup) (index : Nat) :
    (env.push index).dedup = (env'.push index).dedup := by
  have hchain : env.frames.eraseDups = env'.frames.eraseDups := congrArg frames h
  unfold dedup push
  rw [List.eraseDups_cons, List.eraseDups_cons, eraseDups_filter, eraseDups_filter, hchain]

end Environment

end TextLisp
