import Css.Rule.Namespace
import Mathlib

/-!
# Tables of namespaces

A binding overwrites the address of its prefix and nothing else. A prefix keeps its place in the
table, and a new one goes to the end. So no key stands twice in a table, and the table is what its
own bindings make up in their order, `ofList_bindings`.
-/

namespace Css.Namespaces

/-- The keys of a table in order. -/
def keys (n : Namespaces) : List (Option String) := n.bindings.map Prod.fst

/-- A key in a list of bindings with one more. -/
theorem lookup_insertIn (key k : Option String) (address : String)
    (bindings : List (Option String × String)) :
    (insertIn key address bindings).lookup k =
      if k = key then some address else bindings.lookup k := by
  induction bindings with
  | nil =>
      by_cases hk : k = key
      · simp [insertIn, hk]
      · simp [insertIn, hk]
  | cons first rest ih =>
      obtain ⟨other, a⟩ := first
      by_cases hother : other = key
      · subst hother
        by_cases hk : k = other
        · simp [insertIn, hk]
        · have hbeq : (k == other) = false := by simpa using hk
          simp [insertIn, hk, List.lookup_cons, hbeq]
      · simp only [insertIn, hother, if_false, List.lookup_cons, ih]
        by_cases hk : k = other
        · subst hk
          simp [hother]
        · have hbeq : (k == other) = false := by simpa using hk
          simp [hbeq]

/-- A binding overwrites the address of its key and of no other. -/
theorem get?_insert (n : Namespaces) (key k : Option String) (address : String) :
    (n.insert key address).get? k = if k = key then some address else n.get? k :=
  lookup_insertIn key k address n.bindings

/-- A key is bound if it stands in the table. -/
theorem binds_iff_mem_keys (n : Namespaces) (key : Option String) :
    n.binds key = true ↔ key ∈ n.keys := by
  simp [binds, get?, keys, List.lookup_isSome_iff]

/-- A key that is bound keeps its place, and a new key goes to the end. -/
theorem keys_insert (n : Namespaces) (key : Option String) (address : String) :
    (n.insert key address).keys = if n.binds key then n.keys else n.keys ++ [key] := by
  simp only [binds_iff_mem_keys]
  obtain ⟨bindings⟩ := n
  unfold insert keys
  induction bindings with
  | nil => simp [insertIn]
  | cons first rest ih =>
      obtain ⟨other, a⟩ := first
      by_cases hother : other = key
      · simp [insertIn, hother]
      · have hne : key ≠ other := fun h => hother h.symm
        simp only [insertIn, hother, if_false, List.map_cons, ih, List.mem_cons, hne, false_or]
        split <;> rfl

/-- A key that is not bound goes to the end with its address. -/
theorem bindings_insert {n : Namespaces} {key : Option String} (h : key ∉ n.keys)
    (address : String) : (n.insert key address).bindings = n.bindings ++ [(key, address)] := by
  obtain ⟨bindings⟩ := n
  unfold insert keys at *
  induction bindings with
  | nil => rfl
  | cons first rest ih =>
      obtain ⟨other, a⟩ := first
      rw [List.map_cons, List.mem_cons, not_or] at h
      have hother : ¬other = key := fun heq => h.1 heq.symm
      simp only [insertIn, hother, if_false, List.cons_append]
      exact congrArg _ (ih h.2)

/-- A binding in a table with one more is the new one or was there before. -/
theorem mem_bindings_insert {n : Namespaces} {key : Option String} {address : String}
    {binding : Option String × String} (h : binding ∈ (n.insert key address).bindings) :
    binding = (key, address) ∨ binding ∈ n.bindings := by
  obtain ⟨bindings⟩ := n
  unfold insert at h
  dsimp only at h ⊢
  induction bindings with
  | nil => exact .inl (List.mem_singleton.mp h)
  | cons first rest ih =>
      unfold insertIn at h
      split at h
      · rcases List.mem_cons.mp h with rfl | hrest
        · exact .inl rfl
        · exact .inr (List.mem_cons_of_mem _ hrest)
      · rcases List.mem_cons.mp h with rfl | hrest
        · exact .inr (List.mem_cons_self ..)
        · exact (ih hrest).imp_right (List.mem_cons_of_mem _)

/-- If no key stands twice, this is so with one more binding. -/
theorem nodup_keys_insert {n : Namespaces} (h : n.keys.Nodup) (key : Option String)
    (address : String) : (n.insert key address).keys.Nodup := by
  rw [keys_insert]
  split
  · exact h
  · rename_i hbinds
    rw [binds_iff_mem_keys] at hbinds
    rw [← List.concat_eq_append]
    exact h.concat hbinds

/-- A binding leaves every key in its place. -/
theorem keys_prefix_insert (n : Namespaces) (key : Option String) (address : String) :
    n.keys <+: (n.insert key address).keys := by
  rw [keys_insert]
  split
  · exact List.prefix_rfl
  · exact List.prefix_append _ _

/-- Bindings in a row are made one after the other. -/
theorem insertAll_append (n : Namespaces) (first second : List (Option String × String)) :
    n.insertAll (first ++ second) = (n.insertAll first).insertAll second := by
  rw [insertAll, insertAll, insertAll, List.foldl_append]

/-- Bindings leave every key in its place. -/
theorem keys_prefix_insertAll (n : Namespaces) (bindings : List (Option String × String)) :
    n.keys <+: (n.insertAll bindings).keys := by
  unfold insertAll
  induction bindings generalizing n with
  | nil => exact List.prefix_rfl
  | cons first rest ih => exact (n.keys_prefix_insert first.1 first.2).trans (ih _)

/-- Bindings of new and different keys are added as they are. -/
theorem bindings_insertAll {n : Namespaces} {bindings : List (Option String × String)}
    (h : (n.keys ++ bindings.map Prod.fst).Nodup) :
    (n.insertAll bindings).bindings = n.bindings ++ bindings := by
  unfold insertAll
  induction bindings generalizing n with
  | nil => exact (List.append_nil _).symm
  | cons first rest ih =>
      obtain ⟨key, address⟩ := first
      have hkey : key ∉ n.keys := fun hmem =>
        (List.nodup_append.mp h).2.2 key hmem key (List.mem_cons_self ..) rfl
      have hbindings := bindings_insert hkey address
      have hkeys : (n.insert key address).keys = n.keys ++ [key] := by
        rw [keys, hbindings, List.map_append]
        rfl
      rw [List.foldl_cons, ih (by rw [hkeys, List.append_assoc]; exact h), hbindings,
        List.append_assoc]
      rfl

/-- A table in which no key stands twice is what its bindings make up. -/
theorem ofList_bindings {n : Namespaces} (h : n.keys.Nodup) : ofList n.bindings = n := by
  have hbindings : (ofList n.bindings).bindings = empty.bindings ++ n.bindings :=
    bindings_insertAll h
  cases n with
  | mk bindings => exact congrArg mk hbindings

end Css.Namespaces
