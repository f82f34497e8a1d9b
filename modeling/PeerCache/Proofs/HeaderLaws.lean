import Mathlib.Data.List.Induction
import PeerCache.Http.HopByHop
import PeerCache.Proofs.TextLaws

/-!
# Laws of header maps

A text names a header in any case of its letters. A header map is seen through the values that it
has for each name. Every operation changes the values of its own name in one way and leaves those
of all other names as they are. The lines of a map, added to an empty one, give the map back with
its order.
-/

namespace PeerCache

/-! ## Names -/

namespace HeaderName

/-- A text names a header exactly if it is the name, but for the case of its letters. -/
theorem ofChars?_eq_some_iff {text : List Char} {name : HeaderName} :
    ofChars? text = some name ↔ Text.lower text = name.text.toList := by
  have hvalid := name.valid
  rw [ofChars?]
  constructor
  · intro h
    obtain ⟨_, hname⟩ := Option.dite_none_right_eq_some.mp h
    rw [← Option.some.inj hname, String.toList_ofList]
  · intro h
    obtain ⟨text', hvalid'⟩ := name
    obtain rfl : text' = String.ofList (Text.lower text) := by
      rw [h, String.ofList_toList]
    rw [dif_pos hvalid]

theorem ofChars?_lower (text : List Char) : ofChars? (Text.lower text) = ofChars? text := by
  rw [ofChars?]
  rw [Text.lower_lower]
  rfl

theorem text_of_ofChars? {text : List Char} {name : HeaderName} (h : ofChars? text = some name) :
    name.text = String.ofList (Text.lower text) := by
  rw [ofChars?_eq_some_iff.mp h, String.ofList_toList]

end HeaderName

namespace Headers

variable {h : Headers} {n name : HeaderName} {v : HeaderValue}

/-! ## Fields -/

theorem mem_of_find? {f : Field} (hf : h.find? name = some f) : f ∈ h.fields ∧ f.name = name :=
  ⟨List.mem_of_find?_eq_some hf, by simpa using List.find?_some hf⟩

/-- With distinct names, the field found is any field of the name. -/
theorem find?_of_mem {fields : List Field} (hd : (fields.map Field.name).Nodup) {f : Field}
    (hf : f ∈ fields) : (fields.find? fun g => g.name = f.name) = some f := by
  induction fields with
  | nil => cases hf
  | cons g rest ih =>
    rw [List.map_cons, List.nodup_cons] at hd
    rcases List.mem_cons.mp hf with rfl | hrest
    · simp
    · have hne : g.name ≠ f.name := fun he => hd.1 (he ▸ List.mem_map_of_mem hrest)
      rw [List.find?_cons_of_neg (by simpa using hne)]
      exact ih hd.2 hrest

/-- The order of the fields does not matter for what is found. -/
theorem find?_perm {a b : List Field} (hp : a.Perm b) (hd : (b.map Field.name).Nodup) :
    (a.find? fun f => f.name = n) = b.find? fun f => f.name = n := by
  cases hb : b.find? fun f => f.name = n with
  | none =>
    rw [List.find?_eq_none] at hb ⊢
    intro f hf
    exact hb f (hp.mem_iff.mp hf)
  | some f =>
    have hname : f.name = n := by simpa using List.find?_some hb
    have hmem := hp.mem_iff.mpr (List.mem_of_find?_eq_some hb)
    exact hname ▸ find?_of_mem ((hp.map Field.name).nodup_iff.mpr hd) hmem

theorem find?_update (change : Field → HeaderValue × List HeaderValue) :
    (h.update name change).find? n =
      (h.find? n).map fun f => if n = name then ⟨f.name, (change f).1, (change f).2⟩ else f := by
  simp only [find?, update]
  rw [List.find?_map]
  have hkeep : (fun f : Field => decide (f.name = n)) ∘
      (fun f => if f.name = name then ⟨f.name, (change f).1, (change f).2⟩ else f) =
      fun f => decide (f.name = n) := by
    funext f
    simp only [Function.comp]
    split <;> rfl
  rw [hkeep]
  cases hf : h.fields.find? fun f => f.name = n with
  | none => rfl
  | some f =>
    have hname : f.name = n := by simpa using List.find?_some hf
    simp [hname]

theorem find?_addField (fresh : h.contains name = false) :
    (h.addField name v fresh).find? n = if n = name then some ⟨name, v, []⟩ else h.find? n := by
  have hnone : h.find? name = none := by simpa [contains] using fresh
  simp only [find?, addField] at *
  rw [List.find?_append]
  split
  · next hn => rw [hn, hnone]; simp
  · next hn => rw [List.find?_singleton]; simp [Ne.symm hn]

theorem find?_eraseP {fields : List Field} (hd : (fields.map Field.name).Nodup)
    (name n : HeaderName) :
    ((fields.eraseP fun f => f.name = name).find? fun f => f.name = n) =
      if n = name then none else fields.find? fun f => f.name = n := by
  induction fields with
  | nil => simp
  | cons f rest ih =>
    rw [List.map_cons, List.nodup_cons] at hd
    by_cases hf : f.name = name
    · rw [List.eraseP_cons_of_pos (by simpa using hf)]
      split
      · next hn =>
        refine List.find?_eq_none.mpr fun g hg => ?_
        have hne : g.name ≠ name := by
          intro he
          exact hd.1 (hf ▸ he ▸ List.mem_map_of_mem hg)
        simpa [hn] using hne
      · next hn => rw [List.find?_cons_of_neg (by simpa [hf] using Ne.symm hn)]
    · rw [List.eraseP_cons_of_neg (by simpa using hf), List.find?_cons, List.find?_cons]
      by_cases hfn : f.name = n
      · have hne : n ≠ name := hfn ▸ hf
        simp [hfn, hne]
      · simpa [hfn] using ih hd.2

theorem find?_remove : (h.remove name).find? n = if n = name then none else h.find? n := by
  have hd : ((h.fields.eraseP fun f => f.name = name).map Field.name).Nodup :=
    (List.eraseP_sublist.map Field.name).nodup h.distinct
  exact (find?_perm (removeField_perm name h.fields) hd).trans (find?_eraseP h.distinct name n)

/-! ## Values -/

theorem get?_eq_head? (h : Headers) (name : HeaderName) :
    h.get? name = (h.values name).head? := by
  rw [get?, values]
  cases h.find? name <;> rfl

theorem contains_iff : h.contains name = true ↔ h.values name ≠ [] := by
  rw [contains, values]
  cases h.find? name <;> simp [Field.values]

theorem contains_eq_false_iff : h.contains name = false ↔ h.values name = [] := by
  rw [contains, values]
  cases h.find? name <;> simp [Field.values]

theorem mem_names_iff : name ∈ h.names ↔ h.values name ≠ [] := by
  rw [← contains_iff]
  simp [names, contains, find?]

@[simp] theorem values_empty (name : HeaderName) : empty.values name = [] := rfl

theorem contains_congr {k : Headers} (hv : h.values n = k.values n) :
    h.contains n = k.contains n := by
  rw [Bool.eq_iff_iff, contains_iff, contains_iff, hv]

theorem elements_congr {k : Headers} (hv : h.values n = k.values n) :
    h.elements n = k.elements n := by
  rw [elements, elements, hv]

theorem find?_of_not_fresh (present : ¬h.contains name = false) :
    ∃ f, h.find? name = some f := by
  rw [Bool.not_eq_false] at present
  exact Option.isSome_iff_exists.mp present

theorem values_addField (fresh : h.contains name = false) (n : HeaderName) :
    (h.addField name v fresh).values n = if n = name then [v] else h.values n := by
  simp only [values]
  rw [find?_addField]
  by_cases hn : n = name
  · rw [if_pos hn, if_pos hn]
    rfl
  · rw [if_neg hn, if_neg hn]

theorem values_update {f : Field} (hf : h.find? name = some f)
    (change : Field → HeaderValue × List HeaderValue) (n : HeaderName) :
    (h.update name change).values n =
      if n = name then (change f).1 :: (change f).2 else h.values n := by
  simp only [values]
  rw [find?_update]
  by_cases hn : n = name
  · subst hn
    rw [hf, if_pos rfl]
    simp [Field.values]
  · simp [hn]

@[simp] theorem values_insert (h : Headers) (name : HeaderName) (v : HeaderValue)
    (n : HeaderName) :
    (h.insert name v).values n = if n = name then [v] else h.values n := by
  rw [insert]
  split
  · next fresh => exact values_addField fresh n
  · next present =>
    obtain ⟨f, hf⟩ := find?_of_not_fresh present
    exact values_update hf _ n

@[simp] theorem values_append (h : Headers) (name : HeaderName) (v : HeaderValue)
    (n : HeaderName) :
    (h.append name v).values n = if n = name then h.values n ++ [v] else h.values n := by
  rw [append]
  split
  · next fresh =>
    rw [values_addField fresh]
    by_cases hn : n = name
    · rw [if_pos hn, if_pos hn, hn, contains_eq_false_iff.mp fresh]
      rfl
    · rw [if_neg hn, if_neg hn]
  · next present =>
    obtain ⟨f, hf⟩ := find?_of_not_fresh present
    rw [values_update hf]
    by_cases hn : n = name
    · subst hn
      rw [if_pos rfl, if_pos rfl, values, hf]
      rfl
    · rw [if_neg hn, if_neg hn]

@[simp] theorem values_remove (h : Headers) (name n : HeaderName) :
    (h.remove name).values n = if n = name then [] else h.values n := by
  simp only [values]
  rw [find?_remove]
  by_cases hn : n = name
  · rw [if_pos hn, if_pos hn]
  · rw [if_neg hn, if_neg hn]

theorem values_removeAll (h : Headers) (names : List HeaderName) (n : HeaderName) :
    (h.removeAll names).values n = if n ∈ names then [] else h.values n := by
  induction names generalizing h with
  | nil => simp [removeAll]
  | cons name names ih =>
    apply (ih (h.remove name)).trans
    rw [values_remove]
    by_cases hn : n = name <;> simp [hn]

theorem values_appendAll (h : Headers) (lines : List (HeaderName × HeaderValue))
    (n : HeaderName) :
    (h.appendAll lines).values n =
      h.values n ++ (lines.filter fun line => line.1 = n).map Prod.snd := by
  induction lines generalizing h with
  | nil => simp [appendAll]
  | cons line lines ih =>
    apply (ih (h.append line.1 line.2)).trans
    rw [values_append, List.filter_cons]
    by_cases hn : n = line.1
    · simp [hn]
    · simp [hn, Ne.symm hn]

/-- The lines of a name hold its values in order. -/
theorem lines_filter (h : Headers) (n : HeaderName) :
    (h.lines.filter fun line => line.1 = n).map Prod.snd = h.values n := by
  obtain ⟨fields, hd⟩ := h
  rw [values, find?, lines]
  dsimp only at hd ⊢
  induction fields with
  | nil => rfl
  | cons f rest ih =>
    rw [List.map_cons, List.nodup_cons] at hd
    rw [List.flatMap_cons, List.filter_append, List.map_append]
    by_cases hf : f.name = n
    · have hrest : (rest.find? fun g => g.name = n) = none :=
        List.find?_eq_none.mpr fun g hg hgn =>
          hd.1 (List.mem_map.mpr ⟨g, hg, by simpa [hf] using hgn⟩)
      have ih' := ih hd.2
      rw [hrest] at ih'
      rw [ih', List.find?_cons_of_pos (by simpa using hf)]
      simp [List.filter_map, Function.comp_def, hf]
    · rw [List.find?_cons_of_neg (by simpa using hf), ← ih hd.2]
      simp [List.filter_map, Function.comp_def, hf]

/-! ## Maps from lines -/

theorem eq_of_fields {h k : Headers} (hf : h.fields = k.fields) : h = k := by
  cases h
  cases k
  subst hf
  rfl

/-- Removing a name that is not there changes nothing. -/
theorem remove_of_fresh (fresh : h.contains name = false) : h.remove name = h := by
  apply eq_of_fields
  have hnone : ∀ f ∈ h.fields, f.name ≠ name := by
    simpa [contains, find?] using fresh
  change removeField name h.fields = h.fields
  generalize h.fields = fields at hnone
  induction fields with
  | nil => rfl
  | cons f rest ih =>
    rw [List.forall_mem_cons] at hnone
    rw [removeField, if_neg hnone.1, ih hnone.2]

theorem fields_append_of_fresh (fresh : h.contains name = false) :
    (h.append name v).fields = h.fields ++ [⟨name, v, []⟩] := by
  rw [append]
  rw [dif_pos fresh]
  rfl

/-- A value for the last name goes behind its other values. -/
theorem fields_append_last {front : List Field} {first : HeaderValue} {more : List HeaderValue}
    (hf : h.fields = front ++ [⟨name, first, more⟩]) :
    (h.append name v).fields = front ++ [⟨name, first, more ++ [v]⟩] := by
  have hmem : (⟨name, first, more⟩ : Field) ∈ h.fields := by simp [hf]
  have hfound : h.find? name = some ⟨name, first, more⟩ := find?_of_mem h.distinct hmem
  have present : ¬h.contains name = false := by simp [contains, hfound]
  have hfront : ∀ f ∈ front, f.name ≠ name := by
    intro f hfront hname
    have hd := h.distinct
    rw [hf, List.map_append, List.nodup_append] at hd
    exact hd.2.2 f.name (List.mem_map_of_mem hfront) name (by simp) hname
  rw [append]
  rw [dif_neg present]
  simp only [update, hf, List.map_append, List.map_cons, List.map_nil, if_true]
  rw [List.map_congr_left (fun f hmem => if_neg (hfront f hmem)), List.map_id']

theorem fields_appendAll_last {front : List Field} {first : HeaderValue}
    {more : List HeaderValue} (hf : h.fields = front ++ [⟨name, first, more⟩])
    (vs : List HeaderValue) :
    (h.appendAll (vs.map fun v => (name, v))).fields = front ++ [⟨name, first, more ++ vs⟩] := by
  induction vs generalizing h more with
  | nil => rw [List.append_nil]; exact hf
  | cons v vs ih =>
    have hnext := ih (fields_append_last (v := v) hf)
    rw [List.append_assoc] at hnext
    exact hnext

theorem fields_appendAll_field {f : Field} (fresh : h.contains f.name = false) :
    (h.appendAll (f.values.map fun v => (f.name, v))).fields = h.fields ++ [f] :=
  fields_appendAll_last (fields_append_of_fresh fresh) f.more

theorem appendAll_append (h : Headers) (a b : List (HeaderName × HeaderValue)) :
    h.appendAll (a ++ b) = (h.appendAll a).appendAll b :=
  List.foldl_append

/-- Lines of new names, in groups, become fields in the same order. -/
theorem fields_appendAll_lines {fields : List Field}
    (hd : ((h.fields ++ fields).map Field.name).Nodup) :
    (h.appendAll (fields.flatMap fun f => f.values.map fun v => (f.name, v))).fields =
      h.fields ++ fields := by
  induction fields generalizing h with
  | nil => rw [List.append_nil]; rfl
  | cons f rest ih =>
    have fresh : h.contains f.name = false := by
      rw [List.map_append, List.nodup_append] at hd
      apply Bool.eq_false_iff.mpr
      intro present
      obtain ⟨g, hg⟩ := Option.isSome_iff_exists.mp present
      obtain ⟨hmem, hname⟩ := mem_of_find? hg
      exact hd.2.2 g.name (List.mem_map_of_mem hmem) f.name (by simp) hname
    have hfirst := fields_appendAll_field fresh
    rw [List.flatMap_cons, appendAll_append, ih, hfirst]
    · simp
    · rw [hfirst]
      simpa using hd

/-- A header map is what its lines make of an empty one. -/
theorem ofLines_lines (h : Headers) : ofLines h.lines = h :=
  eq_of_fields (fields_appendAll_lines (h := empty) h.distinct)

theorem count_line (lines : List (HeaderName × HeaderValue)) (n : HeaderName) (v : HeaderValue) :
    lines.count (n, v) = ((lines.filter fun line => line.1 = n).map Prod.snd).count v := by
  induction lines with
  | nil => rfl
  | cons line lines ih =>
    by_cases hn : line.1 = n
    · simp [List.count_cons, ih, hn, Prod.ext_iff]
    · simp [ih, hn, Prod.ext_iff]

/-- A map made from lines has these lines, in its own order. -/
theorem lines_ofLines_perm (lines : List (HeaderName × HeaderValue)) :
    (ofLines lines).lines.Perm lines := by
  rw [List.perm_iff_count]
  rintro ⟨n, v⟩
  rw [count_line, count_line, lines_filter, ofLines, values_appendAll, values_empty,
    List.nil_append]

/-! ## Room -/

theorem mem_names_appendAll {lines : List (HeaderName × HeaderValue)} :
    n ∈ (h.appendAll lines).names ↔ n ∈ h.names ∨ n ∈ lines.map Prod.fst := by
  rw [mem_names_iff, mem_names_iff, values_appendAll]
  by_cases hn : n ∈ lines.map Prod.fst
  · obtain ⟨line, hline, hname⟩ := List.mem_map.mp hn
    have hadded : line ∈ lines.filter fun line => line.1 = n := by simp [hline, hname]
    exact iff_of_true (by simp [List.ne_nil_of_mem hadded]) (.inr hn)
  · have hnone : (lines.filter fun line => line.1 = n) = [] := by
      rw [List.filter_eq_nil_iff]
      intro line hline hname
      exact hn (List.mem_map.mpr ⟨line, hline, of_decide_eq_true hname⟩)
    rw [hnone, List.map_nil, List.append_nil, or_iff_left hn]

/-- New names stand behind the old ones, however their lines are ordered. -/
theorem length_names_appendAll {lines : List (HeaderName × HeaderValue)} {names : List HeaderName}
    (hd : (h.names ++ names).Nodup) (hmem : ∀ n, n ∈ lines.map Prod.fst ↔ n ∈ names) :
    (h.appendAll lines).names.length = h.names.length + names.length := by
  have hperm : (h.appendAll lines).names.Perm (h.names ++ names) := by
    rw [List.perm_ext_iff_of_nodup (nodup_names _) hd]
    intro n
    rw [mem_names_appendAll, hmem, List.mem_append]
  rw [hperm.length_eq, List.length_append]

theorem mem_names_of_values {vs : List HeaderValue} :
    n ∈ (vs.map fun v => (name, v)).map Prod.fst ↔ vs ≠ [] ∧ n = name := by
  cases vs with
  | nil => simp
  | cons v vs => simp [eq_comm]

/-- The names of all lines but the last: the last name is among them if it has more values. -/
theorem mem_dropLast_lines {front : List Field} {last : Field} (hf : h.fields = front ++ [last]) :
    n ∈ h.lines.dropLast.map Prod.fst ↔
      n ∈ if last.more = [] then front.map Field.name else h.names := by
  have hlines : h.lines.dropLast = (front.flatMap fun f => f.values.map fun v => (f.name, v)) ++
      last.values.dropLast.map fun v => (last.name, v) := by
    rw [lines, hf, List.flatMap_append, List.flatMap_singleton, List.map_dropLast]
    exact List.dropLast_append_of_ne_nil (List.cons_ne_nil _ _)
  have hfront : n ∈ (front.flatMap fun f => f.values.map fun v => (f.name, v)).map Prod.fst ↔
      n ∈ front.map Field.name := by
    rw [List.map_flatMap, List.mem_flatMap, List.mem_map]
    refine exists_congr fun f => and_congr_right fun _ => ?_
    have hvalues : f.values ≠ [] := List.cons_ne_nil f.first f.more
    rw [mem_names_of_values, and_iff_right hvalues, eq_comm]
  have hlast : last.values.dropLast = [] ↔ last.more = [] := by
    rw [Field.values]
    cases last.more <;> simp
  rw [hlines, List.map_append, List.mem_append, hfront, mem_names_of_values, ne_eq, hlast]
  by_cases hmore : last.more = []
  · simp [hmore]
  · simp [hmore, names, hf]

theorem length_names_le_append (h : Headers) (name : HeaderName) (v : HeaderValue) :
    h.names.length ≤ (h.append name v).names.length := by
  rw [append]
  split
  · simp [names, addField]
  · simp [names, update]

theorem length_names_le_appendAll (h : Headers) (lines : List (HeaderName × HeaderValue)) :
    h.names.length ≤ (h.appendAll lines).names.length := by
  induction lines generalizing h with
  | nil => exact Nat.le_refl _
  | cons line lines ih => exact (h.length_names_le_append line.1 line.2).trans (ih _)

/-- Lines go into a map exactly if it still has room when the last of them is added. -/
theorem appendAll?_eq (h : Headers) (lines : List (HeaderName × HeaderValue)) :
    h.appendAll? lines =
      if lines = [] ∨ (h.appendAll lines.dropLast).names.length < mostNames then
        some (h.appendAll lines)
      else none := by
  induction lines using List.reverseRecOn with
  | nil => rfl
  | append_singleton front line ih =>
    have hlast : h.appendAll? (front ++ [line]) =
        (h.appendAll? front).bind fun k => k.append? line.1 line.2 := by
      rw [appendAll?, List.foldlM_append]
      simp [appendAll?]
    rw [hlast, ih, List.dropLast_concat, appendAll_append]
    by_cases hroom : (h.appendAll front).names.length < mostNames
    · -- a map that has room now had room all the time
      have hfront : front = [] ∨ (h.appendAll front.dropLast).names.length < mostNames := by
        obtain hnil | ⟨init, last, rfl⟩ := List.eq_nil_or_concat front
        · exact .inl hnil
        · rw [List.concat_eq_append, appendAll_append] at hroom
          rw [List.concat_eq_append, List.dropLast_concat]
          exact .inr (Nat.lt_of_le_of_lt (length_names_le_appendAll ..) hroom)
      rw [if_pos hfront, if_pos (.inr hroom), Option.bind_some, append?, if_pos hroom]
      rfl
    · have hfull : ¬(front ++ [line] = [] ∨ (h.appendAll front).names.length < mostNames) := by
        simpa using hroom
      rw [if_neg hfull]
      split
      · rw [Option.bind_some, append?, if_neg hroom]
      · rfl

theorem eq_of_appendAll? {k : Headers} {lines : List (HeaderName × HeaderValue)}
    (hk : h.appendAll? lines = some k) : k = h.appendAll lines := by
  rw [appendAll?_eq] at hk
  split at hk
  · exact (Option.some.inj hk).symm
  · cases hk

/-! ## Hop-by-hop fields -/

theorem values_stripHopByHop (h : Headers) (n : HeaderName) :
    h.stripHopByHop.values n =
      if n ∈ h.connectionNames ∨ n ∈ HeaderName.hopByHop then [] else h.values n := by
  rw [stripHopByHop]
  rw [values_removeAll, values_removeAll]
  by_cases h₁ : n ∈ HeaderName.hopByHop <;> simp [h₁]

end Headers

end PeerCache
