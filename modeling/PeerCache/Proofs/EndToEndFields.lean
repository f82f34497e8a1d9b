import Mathlib.Data.List.Nodup
import Mathlib.Data.Nat.Digits.Defs
import PeerCache.Proofs.EntryLaws
import PeerCache.Proofs.ExchangeCourses

/-!
# Fields that go further than a connection

Which header fields are dropped with a connection and what the others do to a stored entry. A field
is dropped if its name is one of nine or is listed in a `Connection` value that can be read. The
names to drop are read off before anything is dropped, and `Connection` is one of the nine. So what
is left lists nothing more, and dropping again changes nothing. The fields of a confirmation that
are left over, but for two that say nothing about the entry, replace those of the same names.
-/

namespace PeerCache

/-- A field that describes a connection, whatever the connection itself lists. -/
def HeaderName.IsHopByHop (n : HeaderName) : Prop :=
  n.text ∈ ["connection", "keep-alive", "proxy-connection", "proxy-authenticate",
    "proxy-authorization", "te", "trailer", "transfer-encoding", "upgrade"]

instance (n : HeaderName) : Decidable n.IsHopByHop :=
  inferInstanceAs (Decidable (_ ∈ _))

theorem HeaderName.mem_hopByHop {n : HeaderName} : n ∈ hopByHop ↔ n.IsHopByHop := by
  have htexts : hopByHop.map HeaderName.text = ["connection", "keep-alive", "proxy-connection",
    "proxy-authenticate", "proxy-authorization", "te", "trailer", "transfer-encoding",
    "upgrade"] := rfl
  rw [IsHopByHop, ← htexts, List.mem_map]
  constructor
  · intro h
    exact ⟨n, h, rfl⟩
  · rintro ⟨m, hm, htext⟩
    obtain ⟨text, _⟩ := m
    obtain rfl : text = n.text := htext
    exact hm

namespace Headers

variable {h : Headers} {n : HeaderName}

/-- A name is listed for the connection: in any case and between blanks, it is one of the parts
between commas of a readable `Connection` value. -/
def ListsForConnection (h : Headers) (n : HeaderName) : Prop :=
  ∃ v ∈ h.values HeaderName.connection, ∃ text, v.text? = some text ∧
    ∃ part ∈ text.splitOn ',', Text.lower (Text.trim part) = n.text.toList

theorem mem_connectionNames : n ∈ h.connectionNames ↔ h.ListsForConnection n := by
  simp only [connectionNames, elements, List.mem_filterMap, List.mem_flatMap,
    HeaderName.ofChars?_eq_some_iff, ListsForConnection]
  constructor
  · rintro ⟨part, ⟨text, ⟨v, hv, htext⟩, hpart⟩, hname⟩
    exact ⟨v, hv, text, htext, part, hpart, hname⟩
  · rintro ⟨v, hv, text, htext, part, hpart, hname⟩
    exact ⟨part, ⟨text, ⟨v, hv, htext⟩, hpart⟩, hname⟩

instance (h : Headers) (n : HeaderName) : Decidable (h.ListsForConnection n) :=
  decidable_of_iff _ mem_connectionNames

/-- A field of this name goes further than the connection. -/
def Forwards (h : Headers) (n : HeaderName) : Prop :=
  ¬n.IsHopByHop ∧ ¬h.ListsForConnection n

instance (h : Headers) (n : HeaderName) : Decidable (h.Forwards n) :=
  inferInstanceAs (Decidable (_ ∧ _))

/-! ## Dropping -/

theorem values_strip (h : Headers) (n : HeaderName) :
    h.stripHopByHop.values n = if h.Forwards n then h.values n else [] := by
  have hdropped : (n ∈ h.connectionNames ∨ n ∈ HeaderName.hopByHop) ↔ ¬h.Forwards n := by
    rw [mem_connectionNames, HeaderName.mem_hopByHop, Forwards, not_and_or, not_not, not_not]
    exact or_comm
  rw [values_stripHopByHop, if_congr hdropped rfl rfl, ite_not]

/-- The values of a name that the connection does not list. -/
def unlisted (h : Headers) (n : HeaderName) : List HeaderValue :=
  if h.ListsForConnection n then [] else h.values n

theorem values_strip_of_hop (h : Headers) {n : HeaderName} (hn : n.IsHopByHop) :
    h.stripHopByHop.values n = [] := by
  rw [values_strip, if_neg fun hforwards => hforwards.1 hn]

theorem values_strip_of_end {h : Headers} {n : HeaderName} (hn : ¬n.IsHopByHop) :
    h.stripHopByHop.values n = h.unlisted n := by
  have hforwards : h.Forwards n ↔ ¬h.ListsForConnection n := and_iff_right hn
  rw [values_strip, unlisted, if_congr hforwards rfl rfl, ite_not]

theorem mem_names_strip : n ∈ h.stripHopByHop.names ↔ n ∈ h.names ∧ h.Forwards n := by
  rw [mem_names_iff, mem_names_iff, values_strip]
  by_cases hf : h.Forwards n
  · rw [if_pos hf, and_iff_left hf]
  · simp [hf]

theorem removeAll_of_fresh {names : List HeaderName}
    (fresh : ∀ name ∈ names, h.contains name = false) : h.removeAll names = h := by
  induction names with
  | nil => rfl
  | cons name names ih =>
    obtain ⟨hname, hrest⟩ := List.forall_mem_cons.mp fresh
    change (h.remove name).removeAll names = h
    rw [remove_of_fresh hname]
    exact ih hrest

/-- Headers without any of the nine fields are left as they are. -/
theorem strip_of_fresh (fresh : ∀ n, n.IsHopByHop → h.contains n = false) :
    h.stripHopByHop = h := by
  have hlisted : h.connectionNames = [] := by
    have hnone := contains_eq_false_iff.mp (fresh HeaderName.connection (by decide))
    rw [connectionNames, elements, hnone]
    rfl
  rw [stripHopByHop, hlisted]
  exact removeAll_of_fresh fun n hn => fresh n (HeaderName.mem_hopByHop.mp hn)

theorem strip_strip (h : Headers) : h.stripHopByHop.stripHopByHop = h.stripHopByHop := by
  apply strip_of_fresh
  intro n hn
  rw [contains_eq_false_iff, values_strip_of_hop h hn]

/-- **Dropping the fields of a connection.** What is left are the names that are none of the nine
and not listed, each with all its values in order, and dropping again changes nothing. -/
theorem stripping_exact (h : Headers) :
    (∀ n, n ∈ h.stripHopByHop.names ↔ n ∈ h.names ∧ ¬n.IsHopByHop ∧ ¬h.ListsForConnection n) ∧
    (∀ n ∈ h.stripHopByHop.names, h.stripHopByHop.values n = h.values n) ∧
    h.stripHopByHop.stripHopByHop = h.stripHopByHop := by
  refine ⟨fun n => mem_names_strip, fun n hn => ?_, strip_strip h⟩
  rw [values_strip, if_pos (mem_names_strip.mp hn).2]

namespace Hops

open Sample

def listed : HeaderName := ⟨"x-a", by decide⟩

def kept : HeaderName := ⟨"x-b", by decide⟩

/-- A value that is no text, because of its first byte. -/
def unreadable : HeaderValue := ⟨233 :: utf8 ", x-b", by decide +kernel⟩

/-- Headers that list one name between an empty part and a part that is no name, and another one
in a value that cannot be read. -/
def headers : Headers :=
  ofLines [(listed, .one), (kept, value "p"), (.connection, value ", X-A\t,a b"), (kept, value "q"),
    (.connection, unreadable)]

end Hops

open Hops in
theorem unreadable_list_drops_nothing :
    kept ∈ headers.stripHopByHop.names ∧ listed ∉ headers.stripHopByHop.names ∧
    HeaderName.connection ∉ headers.stripHopByHop.names ∧
    headers.stripHopByHop.values kept = [Sample.value "p", Sample.value "q"] ∧
    headers.stripHopByHop.stripHopByHop = headers.stripHopByHop := by
  obtain ⟨hnames, hvalues, hagain⟩ := stripping_exact headers
  have hkept := (hnames kept).mpr (by decide +kernel)
  have hlisted : listed ∉ headers.stripHopByHop.names := mt (hnames listed).mp (by decide +kernel)
  have hconnection : HeaderName.connection ∉ headers.stripHopByHop.names :=
    mt (hnames .connection).mp (by decide +kernel)
  exact ⟨hkept, hlisted, hconnection, (hvalues kept hkept).trans (by decide +kernel), hagain⟩

end Headers

/-! ## Confirmations -/

namespace Entry

variable {h : Headers} {n : HeaderName}

/-- A field of a confirmation takes the place of the entry's field of that name. -/
def Replaces (notModified : Headers) (n : HeaderName) : Prop :=
  n ∈ notModified.names ∧ ¬n.IsHopByHop ∧ ¬notModified.ListsForConnection n ∧
    n ≠ HeaderName.contentLength ∧ n ≠ HeaderName.fromCache

instance (notModified : Headers) (n : HeaderName) : Decidable (Replaces notModified n) :=
  inferInstanceAs (Decidable (_ ∧ _))

theorem values_endToEnd (h : Headers) (n : HeaderName) :
    (endToEnd h).values n = if Replaces h n then h.values n else [] := by
  rw [endToEnd]
  by_cases hr : Replaces h n
  · rw [if_pos hr]
    obtain ⟨-, hhop, hlisted, hlength, hmark⟩ := hr
    rw [Headers.values_remove, if_neg hmark, Headers.values_remove, if_neg hlength,
      Headers.values_strip, if_pos ⟨hhop, hlisted⟩]
  · rw [if_neg hr, Headers.values_remove]
    split
    · rfl
    · next hmark =>
      rw [Headers.values_remove]
      split
      · rfl
      · next hlength =>
        rw [Headers.values_strip]
        split
        · next hf =>
          by_contra hne
          exact hr ⟨Headers.mem_names_iff.mpr hne, hf.1, hf.2, hlength, hmark⟩
        · rfl

theorem mem_names_endToEnd : n ∈ (endToEnd h).names ↔ Replaces h n := by
  rw [Headers.mem_names_iff, values_endToEnd]
  split
  · next hr => exact iff_of_true (Headers.mem_names_iff.mp hr.1) hr
  · next hr => exact iff_of_false (fun hne => hne rfl) hr

theorem values_merged {e merged : Entry} {notModified : Headers}
    (hm : e.refresh? notModified = some merged) (n : HeaderName) :
    merged.headers.values n =
      if Replaces notModified n then notModified.values n else e.headers.values n := by
  rw [values_of_refresh? hm, values_endToEnd]
  by_cases hr : Replaces notModified n
  · rw [if_pos hr, if_pos hr, if_neg (Headers.mem_names_iff.mp hr.1)]
  · rw [if_neg hr, if_neg hr, if_pos rfl]

/-- The names that a merge leaves alone. -/
def keptNames (e : Entry) (notModified : Headers) : List HeaderName :=
  e.headers.names.filter fun n => ¬Replaces notModified n

/-- There is room for a merge: what is kept and what comes are together less than the most names
of a map. The last name may also be the one that fills the map, unless it has more values. -/
def HasRoom (e : Entry) (notModified : Headers) : Prop :=
  ∀ last ∈ (endToEnd notModified).fields.getLast?,
    (e.keptNames notModified).length + (endToEnd notModified).names.length < Headers.mostNames ∨
    (e.keptNames notModified).length + (endToEnd notModified).names.length = Headers.mostNames ∧
      last.more = []

theorem mem_keptNames {e : Entry} {notModified : Headers} :
    n ∈ e.keptNames notModified ↔ n ∈ e.headers.names ∧ ¬Replaces notModified n := by
  simp [keptNames]

theorem nodup_keptNames (e : Entry) (notModified : Headers) :
    (e.keptNames notModified).Nodup :=
  e.headers.nodup_names.filter _

theorem keptNames_perm (e : Entry) (notModified : Headers) :
    (e.headers.removeAll (endToEnd notModified).names).names.Perm (e.keptNames notModified) := by
  rw [List.perm_ext_iff_of_nodup (Headers.nodup_names _) (nodup_keptNames e notModified)]
  intro n
  rw [mem_keptNames, Headers.mem_names_iff, Headers.mem_names_iff, Headers.values_removeAll]
  by_cases hr : Replaces notModified n
  · simp [mem_names_endToEnd.mpr hr, hr]
  · simp [mt mem_names_endToEnd.mp hr, hr]

/-- Names of the confirmation come to those that are kept. -/
theorem length_names_kept_appendAll {e : Entry} {notModified : Headers}
    {lines : List (HeaderName × HeaderValue)} {names : List HeaderName}
    (hsub : names.Sublist (endToEnd notModified).names)
    (hmem : ∀ n, n ∈ lines.map Prod.fst ↔ n ∈ names) :
    ((e.headers.removeAll (endToEnd notModified).names).appendAll lines).names.length =
      (e.keptNames notModified).length + names.length := by
  have hkept := keptNames_perm e notModified
  rw [← hkept.length_eq]
  refine Headers.length_names_appendAll (List.nodup_append.mpr ⟨Headers.nodup_names _, ?_, ?_⟩) hmem
  · exact hsub.nodup (Headers.nodup_names _)
  · intro n hn m hm he
    have hr := mem_names_endToEnd.mp (hsub.subset hm)
    exact (mem_keptNames.mp (hkept.mem_iff.mp hn)).2 (he ▸ hr)

theorem isSome_refresh?_iff (e : Entry) (notModified : Headers) :
    (e.refresh? notModified).isSome = true ↔ e.HasRoom notModified := by
  rw [refresh?, Option.isSome_map, Headers.appendAll?_eq, Option.isSome_ite]
  obtain hnone | ⟨front, last, hfields⟩ := List.eq_nil_or_concat (endToEnd notModified).fields
  · -- nothing is merged
    have hlines : (endToEnd notModified).lines = [] := by simp [Headers.lines, hnone]
    simp [HasRoom, hnone, hlines]
  · rw [List.concat_eq_append] at hfields
    have hlines : (endToEnd notModified).lines ≠ [] := by
      simp [Headers.lines, hfields, Field.values]
    have hnames : (endToEnd notModified).names = front.map Field.name ++ [last.name] := by
      simp [Headers.names, hfields]
    have hlast : (endToEnd notModified).fields.getLast? = some last := by simp [hfields]
    rw [or_iff_right hlines, HasRoom, hlast]
    have hbefore := fun n => Headers.mem_dropLast_lines (n := n) hfields
    by_cases hmore : last.more = []
    · -- the last name comes with the last line only
      simp only [if_pos hmore] at hbefore
      rw [length_names_kept_appendAll (hnames ▸ List.sublist_append_left ..) hbefore]
      simp [hnames, hmore]
      omega
    · simp only [if_neg hmore] at hbefore
      rw [length_names_kept_appendAll (List.Sublist.refl _) hbefore]
      simp [hmore]

theorem exists_merged {e : Entry} {notModified : Headers} (hroom : e.HasRoom notModified) :
    ∃ merged, e.refresh? notModified = some merged :=
  Option.isSome_iff_exists.mp ((isSome_refresh?_iff e notModified).mpr hroom)

theorem refresh?_eq_none {e : Entry} {notModified : Headers} (hfull : ¬e.HasRoom notModified) :
    e.refresh? notModified = none :=
  Option.not_isSome_iff_eq_none.mp (mt (isSome_refresh?_iff e notModified).mp hfull)

/-- A merged entry keeps the names that the entry kept, so it has room for the same fields. -/
theorem hasRoom_of_merged {e merged : Entry} {notModified : Headers}
    (hm : e.refresh? notModified = some merged) : merged.HasRoom notModified := by
  have hroom : e.HasRoom notModified := (isSome_refresh?_iff ..).mp (by rw [hm]; rfl)
  have hkept : (merged.keptNames notModified).Perm (e.keptNames notModified) := by
    rw [List.perm_ext_iff_of_nodup (nodup_keptNames ..) (nodup_keptNames ..)]
    intro n
    rw [mem_keptNames, mem_keptNames, Headers.mem_names_iff, Headers.mem_names_iff]
    refine and_congr_left fun hr => ?_
    rw [values_merged hm, if_neg hr]
  rw [HasRoom, hkept.length_eq]
  exact hroom

/-- **Merging a confirmation.** If the entry has room for the fields, nothing but the headers
changes. Each name that the confirmation has, unless its field describes the connection, the length
of the body or a replay, has the confirmation's values afterwards; every other name has its old
ones. The same confirmation again changes nothing. Without room there is no merged entry. -/
theorem refresh_merges (e : Entry) (notModified : Headers) :
    (e.HasRoom notModified → ∃ merged, e.refresh? notModified = some merged ∧
      merged.status = e.status ∧ merged.body = e.body ∧ merged.varied = e.varied ∧
      (∀ n, (Replaces notModified n → merged.headers.values n = notModified.values n) ∧
        (¬Replaces notModified n → merged.headers.values n = e.headers.values n)) ∧
      ∃ again, merged.refresh? notModified = some again ∧
        ∀ n, again.headers.values n = merged.headers.values n) ∧
    (¬e.HasRoom notModified → e.refresh? notModified = none) := by
  refine ⟨fun hroom => ?_, refresh?_eq_none⟩
  obtain ⟨merged, hm⟩ := exists_merged hroom
  obtain ⟨again, ha⟩ := exists_merged (hasRoom_of_merged hm)
  refine ⟨merged, hm, status_of_refresh? hm, body_of_refresh? hm, varied_of_refresh? hm,
    fun n => ⟨fun hr => ?_, fun hr => ?_⟩, again, ha, fun n => ?_⟩
  · rw [values_merged hm, if_pos hr]
  · rw [values_merged hm, if_neg hr]
  · rw [values_merged ha]
    split
    · next hr => rw [values_merged hm, if_pos hr]
    · rfl

namespace Merged

open Sample

def kept : HeaderName := ⟨"x-kept", by decide⟩

/-- An entry with two fields that its confirmation has too. -/
def entry : Entry where
  status := .ok
  headers := Headers.ofLines [(kept, value "old"), (.etag, value "1"), (.contentLength, .one)]
  varied := []
  body := utf8 "o"

/-- A confirmation that has another length, lists one of the fields and has two values of the
other. -/
def confirmation : Headers :=
  Headers.ofLines [(.etag, value "2"), (.connection, value "close, X-Kept"), (kept, value "new"),
    (.contentLength, value "0"), (.etag, value "3")]

end Merged

open Merged in
theorem listed_field_is_not_merged :
    Replaces confirmation .etag ∧ ¬Replaces confirmation kept ∧
    ¬Replaces confirmation .contentLength ∧
    ∃ merged, entry.refresh? confirmation = some merged ∧
      merged.headers.values .etag = [Sample.value "2", Sample.value "3"] ∧
      merged.headers.values kept = [Sample.value "old"] ∧
      merged.headers.values .contentLength = [.one] ∧ merged.body = utf8 "o" := by
  have hroom : entry.HasRoom confirmation := fun _ _ => .inl (by decide +kernel)
  obtain ⟨merged, hm, -, hbody, -, hvalues, -⟩ := (refresh_merges entry confirmation).1 hroom
  have hetag : Replaces confirmation .etag := by decide +kernel
  have hkept : ¬Replaces confirmation kept := by decide +kernel
  have hlength : ¬Replaces confirmation .contentLength := by decide +kernel
  refine ⟨hetag, hkept, hlength, merged, hm, ?_, ?_, ?_, hbody⟩
  · exact ((hvalues .etag).1 hetag).trans (by decide +kernel)
  · exact ((hvalues kept).2 hkept).trans (by decide +kernel)
  · exact ((hvalues .contentLength).2 hlength).trans (by decide +kernel)

namespace Numbered

theorem isLower_of_isDigit {c : Char} (h : c.isDigit = true) : (!c.isUpper) = true := by
  have hascii : ∀ n < 128, (Char.ofNat n).isDigit = true → (!(Char.ofNat n).isUpper) = true := by
    decide
  have halphanum : c.isAlphanum = true := by rw [Char.isAlphanum, h, Bool.or_true]
  have hlt := Text.lt_of_isAlphanum halphanum
  exact Text.of_ascii (p := fun c => c.isDigit = true → (!c.isUpper) = true) hascii hlt h

/-- A name of one letter and a number. -/
def name (letter : Char) (hl : (isTokenChar letter && !letter.isUpper) = true) (i : Fin 100000) :
    HeaderName where
  text := String.ofList (letter :: Nat.toDigits 10 i)
  valid := by
    rw [String.toList_ofList]
    have hdigits : (Nat.toDigits 10 i).length ≤ 5 := Nat.toDigits_length 10 i 5 (by decide) i.isLt
    refine ⟨List.cons_ne_nil _ _, ?_, ?_⟩
    · rw [List.length_cons]
      omega
    · rw [List.all_cons, hl, Bool.true_and, List.all_eq_true]
      intro c hc
      have hdigit := Nat.isDigit_of_mem_toDigits (by decide) (by decide) hc
      rw [isLower_of_isDigit hdigit, isTokenChar, Char.isAlphanum, hdigit]
      simp

theorem name_injective {letter : Char} (hl : (isTokenChar letter && !letter.isUpper) = true) :
    Function.Injective (name letter hl) := by
  intro i j h
  have htext := String.ofList_injective (congrArg HeaderName.text h)
  have hdigits : Nat.toDigits 10 i = Nat.toDigits 10 j := (List.cons.inj htext).2
  apply Fin.ext
  calc
    (i : Nat) = Nat.ofDigitChars 10 (Nat.toDigits 10 i) 0 := Nat.ofDigitChars_ten_toDigits.symm
    _ = Nat.ofDigitChars 10 (Nat.toDigits 10 j) 0 := by rw [hdigits]
    _ = j := Nat.ofDigitChars_ten_toDigits

section Headers

variable {letter : Char} {hl : (isTokenChar letter && !letter.isUpper) = true} {count : Nat}
  {hc : count ≤ 100000}

/-- Headers with so many numbered names, each with one value. -/
def headers (letter : Char) (hl : (isTokenChar letter && !letter.isUpper) = true) (count : Nat)
    (hc : count ≤ 100000) : Headers where
  fields := (List.finRange count).map fun i => ⟨name letter hl (i.castLE hc), .one, []⟩
  distinct := by
    rw [List.map_map]
    refine List.Nodup.map (fun i j h => ?_) (List.nodup_finRange count)
    have hcast := name_injective hl h
    exact Fin.ext (Fin.mk.inj hcast)

theorem length_names_headers : (headers letter hl count hc).names.length = count := by
  simp [headers, Headers.names]

theorem head_of_mem_names {n : HeaderName} (hn : n ∈ (headers letter hl count hc).names) :
    n.text.toList.head? = some letter := by
  rw [Headers.names, headers, List.map_map, List.mem_map] at hn
  obtain ⟨i, -, rfl⟩ := hn
  simp [name]

end Headers

/-- Many names under one letter. -/
def entry : Entry :=
  { status := .ok, headers := headers 'a' (by decide) 24500 (by decide), varied := [], body := [] }

/-- A confirmation that has a hundred names under another letter. -/
def confirmation : Headers :=
  headers 'b' (by decide) 100 (by decide)

theorem not_mem_entry_of_mem {n : HeaderName} (hn : n ∈ confirmation.names) :
    n ∉ entry.headers.names := by
  intro he
  have hletters := (head_of_mem_names he).symm.trans (head_of_mem_names hn)
  cases hletters

theorem replaces_of_mem {n : HeaderName} (hn : n ∈ confirmation.names) :
    Replaces confirmation n := by
  have hother : ∀ m : HeaderName, m.text.toList.head? ≠ some 'b' → m ∉ confirmation.names :=
    fun m hm hmem => hm (head_of_mem_names hmem)
  refine ⟨hn, fun hhop => ?_, ?_, ?_, ?_⟩
  · have hnine : ∀ text ∈ ["connection", "keep-alive", "proxy-connection", "proxy-authenticate",
        "proxy-authorization", "te", "trailer", "transfer-encoding", "upgrade"],
        text.toList.head? ≠ some 'b' := by decide
    exact hnine n.text hhop (head_of_mem_names hn)
  · rintro ⟨v, hv, -⟩
    exact hother .connection (by decide) (Headers.mem_names_iff.mpr (List.ne_nil_of_mem hv))
  · rintro rfl
    exact hother .contentLength (by decide) hn
  · rintro rfl
    exact hother .fromCache (by decide) hn

theorem length_names_endToEnd : (endToEnd confirmation).names.length = 100 := by
  have hperm : (endToEnd confirmation).names.Perm confirmation.names := by
    rw [List.perm_ext_iff_of_nodup (Headers.nodup_names _) (Headers.nodup_names _)]
    intro n
    rw [mem_names_endToEnd]
    exact ⟨fun hr => hr.1, replaces_of_mem⟩
  exact hperm.length_eq.trans length_names_headers

theorem length_keptNames : (entry.keptNames confirmation).length = 24500 := by
  have hall : entry.keptNames confirmation = entry.headers.names := by
    rw [keptNames, List.filter_eq_self]
    intro n hn
    exact decide_eq_true fun hr => not_mem_entry_of_mem hr.1 hn
  rw [hall]
  exact length_names_headers

/-- Together they are more names than a map has room for. -/
theorem not_hasRoom : ¬entry.HasRoom confirmation := by
  intro hroom
  have hsome : (endToEnd confirmation).fields ≠ [] := by
    have hlength := length_names_endToEnd
    rw [Headers.names, List.length_map] at hlength
    exact List.ne_nil_of_length_pos (by omega)
  have hlast := hroom _ (List.getLast_mem_getLast? hsome)
  rw [length_keptNames, length_names_endToEnd, Headers.mostNames] at hlast
  omega

end Numbered

open Numbered in
/-- A confirmation with a hundred new names breaks off at an entry of many. -/
theorem crowded_entry_not_merged :
    entry.headers.names.length = 24500 ∧ confirmation.names.length = 100 ∧
    (∀ n ∈ confirmation.names, Replaces confirmation n ∧ n ∉ entry.headers.names) ∧
    entry.refresh? confirmation = none :=
  ⟨length_names_headers, length_names_headers,
    fun _ hn => ⟨replaces_of_mem hn, not_mem_entry_of_mem hn⟩, refresh?_eq_none not_hasRoom⟩

end Entry

end PeerCache
