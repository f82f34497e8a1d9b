import PeerCache.Proofs.Attempts
import PeerCache.Proofs.EntryCodec

/-!
# Storage rules

Which values can lie in a store after a run. Each is the stored form of an entry that was captured
from a response which may be stored, whether an origin answered it or an entry was merged into
it. What is read of the response to decide this is in the entry too, so the entry obeys the
rules itself. It is read back if there is room for its lines.
-/

namespace PeerCache

namespace Entry

/-- The rules that every stored entry obeys. -/
structure Lawful (e : Entry) : Prop where
  status : e.status.code ∈ [200, 203, 204, 300, 301, 404, 405, 410, 414, 501]
  allowed : (Directives.ofHeaders e.headers).has "no-store" = false
  lasting : (Directives.ofHeaders e.headers).has "max-age" = true ∨
    e.headers.contains .expires = true ∨ e.headers.contains .etag = true ∨
      e.headers.contains .lastModified = true
  dated : e.headers.contains .date = true
  unmarked : e.headers.contains .fromCache = false

/-! ## Capturing -/

variable {req : Request} {resp : Response}

theorem contains_date_capture (req : Request) (resp : Response) (now : Nat) :
    (capture req resp now).headers.contains .date = true := by
  rw [Headers.contains_iff]
  obtain ⟨v, -, hv⟩ := values_capture_date req resp now
  rw [hv]
  split
  · next h => exact Headers.contains_iff.mp h
  · exact List.cons_ne_nil v []

/-- What is captured from a response that may be stored obeys the rules. -/
theorem lawful_capture (h : canStore req resp = true) (now : Nat) :
    (capture req resp now).Lawful := by
  simp only [canStore, Bool.and_eq_true, Bool.not_eq_true', Bool.or_eq_true, or_assoc] at h
  obtain ⟨⟨⟨-, hallowed⟩, hstatus⟩, hlasting⟩ := h
  constructor
  · exact List.contains_iff_mem.mp hstatus
  · rw [directives_capture]
    exact hallowed
  · rw [directives_capture, contains_capture req resp now (by decide) (by decide),
      contains_capture req resp now (by decide) (by decide),
      contains_capture req resp now (by decide) (by decide)]
    exact hlasting
  · exact contains_date_capture req resp now
  · exact Headers.contains_eq_false_iff.mpr (values_capture_fromCache req resp now)

end Entry

/-- An entry that is stored obeys the rules, also when it was merged with what confirmed it. -/
theorem Stores.lawful {σ : Type} [ByteStore σ] {origin : Origin} {now : Nat} {store : σ}
    {req : Request} {a : Attempt σ} {e : Entry} (h : Stores origin now store req a e) :
    e.Lawful := by
  cases h with
  | answered hc ha hr hs => exact Entry.lawful_capture hs now
  | confirmed hv hm hs => exact Entry.lawful_capture hs now

/-! ## Runs -/

/-- A value is the stored form of an entry that obeys the rules, under the key of a request. -/
def Ruled (s : Stack) (visits : List Visit) (slot : String) (value : Bytes) : Prop :=
  ∃ e : Entry, value = e.encode ∧ e.Lawful ∧
    ∃ v ∈ visits, v.req.isCacheable = true ∧ slot = s.slot (cacheKey v.req)

theorem keeps_ruled (s : Stack) (visits : List Visit) :
    s.Keeps (Ruled s visits) (visited s.initial visits) := by
  refine visited_invariant (I := fun front store => s.Keeps (Ruled s front) store)
    (Stack.keeps_initial s _) ?_ visits
  intro front v h
  have hmore : s.Keeps (Ruled s (front ++ [v])) (visited s.initial front) := by
    refine h.mono ?_
    rintro slot value ⟨e, hvalue, hlawful, w, hw, hc⟩
    exact ⟨e, hvalue, hlawful, w, List.mem_append_left _ hw, hc⟩
  apply hmore.attempt
  intro e hstores
  exact ⟨e, rfl, hstores.lawful, v, by simp, hstores.isCacheable, rfl⟩

/-- **Storage rules.** After any run from an empty store, over any layers and whichever of their
operations fail, every value is the stored form of an entry that obeys the rules, under the key
of a `GET` or `HEAD` request without `Range`. It is read back if there is room for the lines of
the entry. -/
theorem stored_values_lawful (s : Stack) (visits : List Visit) (key : String) (value : Bytes)
    (h : (ByteStore.get (s.base (visited s.initial visits)) key).answer = .ok (some value)) :
    ∃ e : Entry, value = e.encode ∧ e.Lawful ∧
      (∃ v ∈ visits, (v.req.method = .get ∨ v.req.method = .head) ∧
        v.req.headers.contains .range = false ∧ s.slot key = s.slot (cacheKey v.req)) ∧
      (e.toWire.Fits → Entry.decode value =
        if e.headers.lines.length ≤ Entry.mostLines then .ok e else .error .noRoom) := by
  obtain ⟨e, rfl, hlawful, v, hv, hc, hslot⟩ := keeps_ruled s visits key value h
  obtain ⟨hmethod, hrange⟩ := Request.isCacheable_iff.mp hc
  exact ⟨e, rfl, hlawful, ⟨v, hv, hmethod, hrange, hslot⟩, Entry.decode_encode⟩

/-! ## A confirmed entry -/

namespace ConfirmedDocument

open Sample

/-- A response that has to be checked, and what confirms it and makes it fresh for a minute. -/
def visits : List Visit :=
  [⟨fun _ => .ok (response .ok [(.date, epoch), (.etag, value "\"1\"")] (utf8 "o")), 0, request []⟩,
    ⟨fun _ => .ok (response .notModified [(.cacheControl, value "max-age=60")] []), 0, request []⟩]

def merged : Entry where
  status := .ok
  headers :=
    Headers.ofLines [(.date, epoch), (.etag, value "\"1\""), (.cacheControl, value "max-age=60")]
  varied := []
  body := utf8 "o"

end ConfirmedDocument

open ConfirmedDocument in
theorem stored_values_lawful_after_confirmation :
    (ByteStore.get (Stack.memory.base (visited Stack.memory.initial visits))
      "http://o.test/").answer = .ok (some merged.encode) ∧
    ∃ e : Entry, merged.encode = e.encode ∧ e.Lawful ∧
      (∃ v ∈ visits, (v.req.method = .get ∨ v.req.method = .head) ∧
        v.req.headers.contains .range = false ∧
        Stack.memory.slot "http://o.test/" = Stack.memory.slot (cacheKey v.req)) ∧
      (e.toWire.Fits → Entry.decode merged.encode =
        if e.headers.lines.length ≤ Entry.mostLines then .ok e else .error .noRoom) := by
  have hstored : (ByteStore.get (Stack.memory.base (visited Stack.memory.initial visits))
      "http://o.test/").answer = .ok (some merged.encode) := by decide +kernel
  exact ⟨hstored, stored_values_lawful .memory visits "http://o.test/" merged.encode hstored⟩

/-! ## A value without room -/

namespace CrowdedAnswer

open Sample

def crowd : HeaderName := ⟨"a", by decide⟩

/-- A response that is fresh for a minute, with so many more values of one name than one. -/
def answer (more : Nat) : Response where
  status := .ok
  headers := {
    fields := [⟨.cacheControl, value "max-age=60", []⟩, ⟨.date, epoch, []⟩,
      ⟨crowd, .one, List.replicate more .one⟩]
    distinct := show [HeaderName.cacheControl, .date, crowd].Nodup by decide }
  body := utf8 "o"

def entry (more : Nat) : Entry :=
  Entry.capture (request []) (answer more) 0

theorem headers_entry (more : Nat) : (entry more).headers = (answer more).headers :=
  Entry.headers_capture rfl rfl (request []) 0

theorem varied_entry (more : Nat) : (entry more).varied = [] :=
  Entry.varied_capture (request []) (answer more) 0

theorem length_lines_entry (more : Nat) : (entry more).headers.lines.length = more + 3 := by
  rw [headers_entry]
  simp [answer, Headers.lines, Field.values]

theorem values_entry {more : Nat} {line : HeaderName × HeaderValue}
    (h : line ∈ (entry more).headers.lines) :
    line.2 ∈ [value "max-age=60", epoch, .one] := by
  rw [headers_entry] at h
  simp only [answer, Headers.lines, Field.values, List.flatMap_cons, List.flatMap_nil,
    List.append_nil, List.mem_append, List.mem_map, List.mem_cons, List.mem_replicate] at h
  simp only [List.mem_cons]
  rcases h with ⟨v, hv, rfl⟩ | ⟨v, hv, rfl⟩ | ⟨v, rfl | ⟨-, rfl⟩, rfl⟩ <;> simp_all

theorem fits_entry {more : Nat} (hshort : Wire.Short (more + 3)) : (entry more).toWire.Fits := by
  have hvalues : ∀ v ∈ [value "max-age=60", epoch, .one], v.bytes.length < Nat.pow 2 64 := by
    decide +kernel
  have hbody : (utf8 "o").length < Nat.pow 2 64 := by decide +kernel
  refine Entry.fits_of_values hvalues ?_ ?_ (varied_entry more) hbody
  · rwa [length_lines_entry]
  · exact fun line hline => values_entry hline

theorem decode_entry {more : Nat} (hshort : Wire.Short (more + 3))
    (hroom : Entry.mostLines < more + 3) : Entry.decode (entry more).encode = .error .noRoom := by
  rw [Entry.decode_encode (fits_entry hshort), length_lines_entry, if_neg (Nat.not_le.mpr hroom)]

/-- One line more than there is room for. -/
def overfull : Visit :=
  ⟨fun _ => .ok (answer Entry.mostLines), 0, request []⟩

theorem store_overfull : (overfull.attempt Memory.empty).store =
    Memory.empty.insert "http://o.test/" (entry Entry.mostLines).encode := by
  have hstored : canStore (request []) (answer Entry.mostLines) = true := by decide +kernel
  have hkey : cacheKey (request []) = "http://o.test/" := by decide +kernel
  have hanswer : overfull.origin overfull.req = .ok (answer Entry.mostLines) := rfl
  rw [Visit.attempt, attempt_of_miss (by decide +kernel) rfl rfl (by decide +kernel) hanswer]
  change Effect.apply (deliver (request []) 0 (answer Entry.mostLines)).effect Memory.empty
    (cacheKey (request [])) = _
  rw [hkey, deliver, if_pos hstored]
  rfl

end CrowdedAnswer

open CrowdedAnswer in
/-- The response may be stored and is stored, and the value that it leaves is read as no entry. -/
theorem crowded_answer_unreadable :
    (ByteStore.get (Stack.memory.base (visited Stack.memory.initial [overfull]))
      "http://o.test/").answer = .ok (some (entry Entry.mostLines).encode) ∧
    (entry Entry.mostLines).toWire.Fits ∧
    ∀ e, Entry.decode (entry Entry.mostLines).encode ≠ .ok e := by
  have hshort : Wire.Short (Entry.mostLines + 3) :=
    show Entry.mostLines + 3 < Nat.pow 2 64 by decide
  refine ⟨?_, fits_entry hshort, ?_⟩
  · change Except.ok (Memory.find? (overfull.attempt Memory.empty).store "http://o.test/") = _
    rw [store_overfull, Memory.find?_insert_self]
  · intro e
    rw [decode_entry hshort (by decide)]
    nofun

end PeerCache
