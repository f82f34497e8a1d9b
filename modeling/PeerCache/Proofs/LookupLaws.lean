/-!
# Laws of lookups

A list of named values answers a name with the first value under it. When no two values have
one name, the value that is answered is the one that the list holds, and a filter keeps or
drops it by itself.
-/

namespace PeerCache

variable {α : Type} {entries : List (String × α)} {name : String} {value : α}

theorem lookup_cons_ite (name n : String) (value : α) (rest : List (String × α)) :
    List.lookup n ((name, value) :: rest) = if n = name then some value else rest.lookup n := by
  rw [List.lookup_cons]
  by_cases h : n = name
  · simp [h]
  · simp [h, beq_eq_false_iff_ne.mpr h]

theorem lookup_filter_ne (name n : String) (entries : List (String × α)) :
    (entries.filter fun e => e.1 != name).lookup n =
      if n = name then none else entries.lookup n := by
  induction entries with
  | nil => simp
  | cons e rest ih =>
    obtain ⟨m, value⟩ := e
    by_cases hm : m = name
    · rw [List.filter_cons_of_neg (by simpa using hm), ih, lookup_cons_ite]
      by_cases h : n = name
      · rw [if_pos h, if_pos h]
      · rw [if_neg h, if_neg h, if_neg (hm ▸ h)]
    · rw [List.filter_cons_of_pos (by simpa using hm), lookup_cons_ite, ih, lookup_cons_ite]
      by_cases h : n = name
      · rw [if_pos h, if_neg (h ▸ Ne.symm hm), if_pos h]
      · rw [if_neg h, if_neg h]

theorem not_mem_names_of_lookup (h : entries.lookup name = none) :
    name ∉ entries.map Prod.fst := by
  intro hn
  obtain ⟨e, he, rfl⟩ := List.mem_map.mp hn
  simpa using List.lookup_eq_none_iff.mp h e he

theorem lookup_of_not_mem (h : name ∉ entries.map Prod.fst) : entries.lookup name = none := by
  apply List.lookup_eq_none_iff.mpr
  intro e he
  exact bne_iff_ne.mpr fun hn => h (hn ▸ List.mem_map_of_mem he)

theorem mem_of_lookup (h : entries.lookup name = some value) : (name, value) ∈ entries := by
  obtain ⟨front, rest, rfl, -⟩ := List.lookup_eq_some_iff.mp h
  simp

theorem lookup_of_mem (hd : (entries.map Prod.fst).Nodup) (h : (name, value) ∈ entries) :
    entries.lookup name = some value := by
  induction entries with
  | nil => cases h
  | cons e rest ih =>
    rw [List.map_cons, List.nodup_cons] at hd
    rw [List.lookup_cons]
    rcases List.mem_cons.mp h with rfl | hrest
    · simp
    · have hn : name ≠ e.1 := fun he => hd.1 (he ▸ List.mem_map_of_mem hrest)
      rw [beq_eq_false_iff_ne.mpr hn]
      exact ih hd.2 hrest

theorem lookup_filter (hd : (entries.map Prod.fst).Nodup) (p : String × α → Bool)
    (name : String) :
    (entries.filter p).lookup name = (entries.lookup name).filter fun value => p (name, value) := by
  induction entries with
  | nil => rfl
  | cons e rest ih =>
    obtain ⟨m, value⟩ := e
    rw [List.map_cons, List.nodup_cons] at hd
    rw [lookup_cons_ite]
    by_cases hn : name = m
    · subst hn
      rw [if_pos rfl]
      cases hp : p (name, value) with
      | true =>
        rw [List.filter_cons_of_pos hp, List.lookup_cons_self]
        exact (Option.filter_some_pos (p := fun value => p (name, value)) hp).symm
      | false =>
        -- The only value under the name is dropped, so nothing is left under it.
        rw [List.filter_cons_of_neg (by simp [hp]), ih hd.2, lookup_of_not_mem hd.1]
        exact (Option.filter_some_neg (p := fun value => p (name, value)) hp).symm
    · rw [if_neg hn, ← ih hd.2]
      cases hp : p (m, value) with
      | true => rw [List.filter_cons_of_pos hp, lookup_cons_ite, if_neg hn]
      | false => rw [List.filter_cons_of_neg (by simp [hp])]

end PeerCache
