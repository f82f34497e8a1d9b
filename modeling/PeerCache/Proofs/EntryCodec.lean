import PeerCache.Proofs.CodecLaws

/-!
# The stored form of an entry

Which entries can be read again, which bytes cannot be an entry, and what is known of an entry
that some bytes were read as. Whatever a reader gives has lengths within 64 bits, so an entry
that was read fits the format, whether or not its bytes are the ones that would be written for
it. Its lines are the lines that were stored, in another order, so there is room for them again.
-/

namespace PeerCache

namespace Wire

/-- All that a reader gives has a property. -/
structure Yields {α : Type} (read : ByteReader α) (P : α → Prop) : Prop where
  holds : ∀ {input a rest}, read input = .ok (a, rest) → P a

variable {α β : Type} {read : ByteReader α} {P : α → Prop} {Q : β → Prop}

theorem Yields.andThen {next : α → ByteReader β} (h : Yields read P)
    (h' : ∀ a, P a → Yields (next a) Q) : Yields (andThen read next) Q := by
  constructor
  intro input b last hr
  obtain ⟨a, rest, hread, hnext⟩ := andThen_inv hr
  exact (h' a (h.holds hread)).holds hnext

/-- The last step of a reader gives what it makes of the value before it. -/
theorem Yields.map {f : α → β} (h : Yields read P) (hf : ∀ a, P a → Q (f a)) :
    Yields (Wire.andThen read fun a rest => .ok (f a, rest)) Q := by
  apply h.andThen
  intro a ha
  constructor
  intro input b rest hr
  cases hr
  exact hf a ha

/-- A number that is read starts with a last group, or with one that more groups follow. -/
theorem readGroups_inv {groups most n : Nat} {input rest : Bytes}
    (h : readGroups (groups + 1) most input = .ok (n, rest)) :
    ∃ b tail, input = b :: tail ∧
      ((b.toNat < 128 ∧ n = b.toNat ∧ (groups = 0 → n ≤ most)) ∨
        ∃ m, readGroups groups most tail = .ok (m, rest) ∧ n = b.toNat - 128 + 128 * m) := by
  cases input with
  | nil => cases h
  | cons b tail =>
    refine ⟨b, tail, rfl, ?_⟩
    rw [readGroups] at h
    split at h
    · next hlow =>
      split at h
      · cases h
      · next hbound =>
        cases h
        refine .inl ⟨UInt8.lt_iff_toNat_lt.mp hlow, rfl, ?_⟩
        intro hlast
        exact Nat.le_of_not_lt fun hover => hbound ⟨hlast, hover⟩
    · split at h
      · next m more hm =>
        cases h
        exact .inr ⟨m, hm, rfl⟩
      · cases h

theorem yields_groups (groups most : Nat) :
    Yields (readGroups (groups + 1) most) (· < Nat.pow 128 groups * (most + 1)) := by
  induction groups with
  | zero =>
    constructor
    intro input n rest hr
    change n < 1 * (most + 1)
    obtain ⟨b, tail, -, ⟨-, -, hmost⟩ | ⟨m, hm, -⟩⟩ := readGroups_inv hr
    · have hle := hmost rfl
      omega
    · cases hm
  | succ groups ih =>
    constructor
    intro input n rest hr
    have hpow : Nat.pow 128 (groups + 1) * (most + 1) =
        128 * (Nat.pow 128 groups * (most + 1)) := by
      rw [show Nat.pow 128 (groups + 1) = Nat.pow 128 groups * 128 from rfl,
        Nat.mul_comm (Nat.pow 128 groups) 128, Nat.mul_assoc]
    rw [hpow]
    obtain ⟨b, tail, -, ⟨hlow, rfl, -⟩ | ⟨m, hm, rfl⟩⟩ := readGroups_inv hr
    · have hpos : 0 < Nat.pow 128 groups * (most + 1) :=
        Nat.mul_pos (Nat.pow_pos (by decide)) (Nat.succ_pos most)
      omega
    · have hbyte := b.toNat_lt
      have hrest := ih.holds hm
      omega

theorem yields_length : Yields readLength Short :=
  yields_groups 9 1

theorem yields_status : Yields readStatus (· < 65536) :=
  yields_groups 2 3

theorem yields_exactly (n : Nat) : Yields (readExactly n) (·.length = n) := by
  induction n with
  | zero =>
    constructor
    intro input bytes rest hr
    cases hr
    rfl
  | succ n ih =>
    constructor
    intro input bytes rest hr
    cases input with
    | nil => cases hr
    | cons b input =>
      rw [readExactly] at hr
      split at hr
      · next hm =>
        have hrest := ih.holds hm
        cases hr
        exact congrArg (· + 1) hrest
      · cases hr

theorem yields_bytes : Yields readBytes fun bytes => Short bytes.length := by
  rw [readBytes_eq]
  apply yields_length.andThen
  intro n hn
  constructor
  intro input bytes rest hr
  rw [(yields_exactly n).holds hr]
  exact hn

theorem yields_text : Yields readText fun text => Short (utf8 text).length := by
  rw [readText_eq]
  apply yields_bytes.andThen
  intro bytes hbytes
  constructor
  intro input text rest hr
  rw [textOf] at hr
  split at hr
  · next hdecode =>
    cases hr
    rw [utf8, String.toList_ofList, Utf8.encode_of_decode? hdecode]
    exact hbytes
  · cases hr

theorem yields_option : Yields readOption fun value => ∀ bytes ∈ value, Short bytes.length := by
  constructor
  intro input value rest hr
  cases input with
  | nil => cases hr
  | cons b input =>
    rw [readOption] at hr
    split at hr
    · cases hr
      simp
    · split at hr
      · split at hr
        · next hbytes =>
          cases hr
          rintro bytes ⟨⟩
          exact yields_bytes.holds hbytes
        · cases hr
      · cases hr

theorem yields_pair (h : Yields read P) :
    Yields (readPair read) fun pair => Short (utf8 pair.1).length ∧ P pair.2 := by
  rw [readPair_eq]
  apply yields_text.andThen
  intro name hname
  apply h.map
  intro value hvalue
  exact ⟨hname, hvalue⟩

theorem yields_many (h : Yields read P) (n : Nat) :
    Yields (readMany read n) fun items => items.length = n ∧ ∀ item ∈ items, P item := by
  induction n with
  | zero =>
    constructor
    intro input items rest hr
    cases hr
    simp
  | succ n ih =>
    rw [readMany_succ]
    apply h.andThen
    intro item hitem
    apply ih.map
    rintro items ⟨hlength, hitems⟩
    exact ⟨congrArg (· + 1) hlength, List.forall_mem_cons.mpr ⟨hitem, hitems⟩⟩

theorem yields_list (h : Yields read P) :
    Yields (readList read) fun items => Short items.length ∧ ∀ item ∈ items, P item := by
  rw [readList_eq]
  apply yields_length.andThen
  intro n hn
  constructor
  intro input items rest hr
  obtain ⟨hlength, hitems⟩ := (yields_many h n).holds hr
  exact ⟨hlength ▸ hn, hitems⟩

end Wire

namespace WireEntry

open Wire

/-- All that is read fits, however it was written. -/
theorem yields_entry : Yields WireEntry.read WireEntry.Fits := by
  rw [read_eq]
  apply yields_status.andThen
  intro status hstatus
  apply (yields_list (yields_pair yields_bytes)).andThen
  rintro headers ⟨hheaders, hlines⟩
  apply (yields_list (yields_pair yields_option)).andThen
  rintro varied ⟨hvaried, hpairs⟩
  apply yields_bytes.map
  intro body hbody
  exact ⟨hstatus, hheaders, hlines, hvaried, hpairs, hbody⟩

theorem fits_of_decode {raw : Bytes} {w : WireEntry} (h : WireEntry.decode raw = .ok w) :
    w.Fits := by
  obtain ⟨r, hread, rfl⟩ := exists_of_map_ok h
  exact yields_entry.holds hread

end WireEntry

/-! ## Entries -/

theorem Utf8.length_encode_le (text : List Char) : (encode text).length ≤ 4 * text.length := by
  induction text with
  | nil => exact Nat.le_refl 0
  | cons c text ih =>
    have hchar : (String.utf8EncodeChar c).length ≤ 4 := by
      rw [String.length_utf8EncodeChar]
      exact c.utf8Size_le_four
    change (String.utf8EncodeChar c ++ encode text).length ≤ 4 * (text.length + 1)
    rw [List.length_append]
    omega

theorem HeaderName.short_text (name : HeaderName) : Wire.Short (utf8 name.text).length := by
  have hchars := name.valid.2.1
  have hbytes := Utf8.length_encode_le name.text.toList
  change (Utf8.encode name.text.toList).length < 18446744073709551616
  omega

namespace Entry

variable {raw : Bytes} {w : WireEntry} {e : Entry}

theorem bytes_of_readValue {bytes : Bytes} {v : HeaderValue} (h : readValue bytes = .ok v) :
    v.bytes = bytes := by
  rw [readValue] at h
  split at h
  · next hv =>
    cases h
    rw [HeaderValue.ofBytes?] at hv
    split at hv
    · cases hv
      rfl
    · cases hv
  · cases h

theorem bytes_of_readLine {stored : String × Bytes} {line : HeaderName × HeaderValue}
    (h : readLine stored = .ok line) : line.2.bytes = stored.2 := by
  rw [readLine] at h
  split at h
  · cases h
  · obtain ⟨v, hv, rfl⟩ := exists_of_map_ok h
    exact bytes_of_readValue hv

theorem eq_of_readVaried {stored : String × Option Bytes} {pair : String × Option HeaderValue}
    (h : readVaried stored = .ok pair) : (pair.1, pair.2.map HeaderValue.bytes) = stored := by
  obtain ⟨name, value⟩ := stored
  cases value with
  | none =>
    cases h
    rfl
  | some bytes =>
    obtain ⟨v, hv, rfl⟩ := exists_of_map_ok h
    rw [Option.map_some, bytes_of_readValue hv]

/-- What an entry owes to the stored form that it was read from. -/
theorem readParts_inv (h : readParts w = .ok e) :
    e.headers.lines.length = w.headers.length ∧
      (∀ line ∈ e.headers.lines, ∃ stored ∈ w.headers, line.2.bytes = stored.2) ∧
      e.varied.length = w.varied.length ∧
      (∀ pair ∈ e.varied, (pair.1, pair.2.map HeaderValue.bytes) ∈ w.varied) ∧
      e.body = w.body := by
  rw [readParts] at h
  obtain ⟨lines, hlines, h⟩ := exists_of_bind_ok h
  obtain ⟨varied, hvaried, h⟩ := exists_of_bind_ok h
  split at h
  · next status hstatus =>
    cases h
    have hperm := Headers.lines_ofLines_perm lines
    obtain ⟨hcount, hfrom⟩ := mapM_inv hlines
    obtain ⟨hcountVaried, hfromVaried⟩ := mapM_inv hvaried
    refine ⟨hperm.length_eq.trans hcount, ?_, hcountVaried, ?_, rfl⟩
    · intro line hline
      obtain ⟨stored, hstored, hread⟩ := hfrom line (hperm.mem_iff.mp hline)
      exact ⟨stored, hstored, bytes_of_readLine hread⟩
    · intro pair hpair
      obtain ⟨stored, hstored, hread⟩ := hfromVaried pair hpair
      rw [eq_of_readVaried hread]
      exact hstored
  · cases h

/-- An entry fits if its lists, its values and its body are short; its status and its header
names fit by themselves. -/
theorem fits_toWire (hlines : Wire.Short e.headers.lines.length)
    (hvalues : ∀ line ∈ e.headers.lines, Wire.Short line.2.bytes.length)
    (hvaried : Wire.Short e.varied.length)
    (hpairs : ∀ pair ∈ e.varied, WireEntry.FitsVaried (pair.1, pair.2.map HeaderValue.bytes))
    (hbody : Wire.Short e.body.length) : e.toWire.Fits where
  status := by
    have hvalid := e.status.valid
    change e.status.code < 65536
    omega
  headers := by
    change Wire.Short (e.headers.lines.map _).length
    rwa [List.length_map]
  lines := by
    intro stored hstored
    obtain ⟨line, hline, rfl⟩ := List.mem_map.mp hstored
    exact ⟨line.1.short_text, hvalues line hline⟩
  varied := by
    change Wire.Short (e.varied.map _).length
    rwa [List.length_map]
  pairs := by
    intro stored hstored
    obtain ⟨pair, hpair, rfl⟩ := List.mem_map.mp hstored
    exact hpairs pair hpair
  body := hbody

/-- An entry that varies by nothing fits if it is short and its values are among some short ones. -/
theorem fits_of_values {values : List HeaderValue}
    (hvalues : ∀ v ∈ values, v.bytes.length < Nat.pow 2 64)
    (hlines : Wire.Short e.headers.lines.length) (hmem : ∀ line ∈ e.headers.lines, line.2 ∈ values)
    (hvaried : e.varied = []) (hbody : e.body.length < Nat.pow 2 64) : e.toWire.Fits := by
  apply fits_toWire hlines
  · intro line hline
    exact hvalues line.2 (hmem line hline)
  · rw [hvaried]
    exact Nat.pow_pos (by decide)
  · rw [hvaried]
    nofun
  · exact hbody

theorem fits_of_readParts (hfits : w.Fits) (h : readParts w = .ok e) : e.toWire.Fits := by
  obtain ⟨hcount, hlines, hcountVaried, hvaried, hbody⟩ := readParts_inv h
  apply fits_toWire
  · rw [hcount]
    exact hfits.headers
  · intro line hline
    obtain ⟨old, hold, hbytes⟩ := hlines line hline
    rw [hbytes]
    exact (hfits.lines old hold).2
  · rw [hcountVaried]
    exact hfits.varied
  · intro pair hpair
    exact hfits.pairs _ (hvaried pair hpair)
  · rw [hbody]
    exact hfits.body

/-- An entry that some bytes were read as fits the format, and there is room for its lines. -/
theorem fits_of_decode (h : decode raw = .ok e) :
    e.toWire.Fits ∧ e.headers.lines.length ≤ mostLines := by
  obtain ⟨w, hwire, hroom, hparts⟩ := decode_inv h
  refine ⟨fits_of_readParts (WireEntry.fits_of_decode hwire) hparts, ?_⟩
  rw [(readParts_inv hparts).1]
  exact hroom

/-- Whatever bytes an entry was read from, it is read again from its own. -/
theorem decode_encode_of_decode (h : decode raw = .ok e) : decode e.encode = .ok e := by
  obtain ⟨hfits, hroom⟩ := fits_of_decode h
  rw [decode_encode hfits, if_pos hroom]

/-- **The stored form of an entry.** An entry whose lengths fit the format is read back as it was,
whatever follows it, exactly if there is room for its lines. Its bytes are never read without
a part of their end. And if any bytes were read as the entry, it is read again from its own,
which are then the same ones. -/
theorem stored_form_read_back (e : Entry) :
    (e.toWire.Fits → ∀ trailing, decode (e.encode ++ trailing) =
      if e.headers.lines.length ≤ mostLines then .ok e else .error .noRoom) ∧
    (∀ front, front <+: e.encode → front ≠ e.encode →
      ∃ cause, decode front = .error (.codec cause)) ∧
    (∀ raw, decode raw = .ok e →
      decode e.encode = .ok e ∧ (decode e.encode).map encode = .ok e.encode) := by
  refine ⟨?_, ?_, ?_⟩
  · intro hfits trailing
    exact decode_append hfits trailing
  · intro front hfront hne
    exact decode_torn hfront hne
  · intro raw hread
    have hagain := decode_encode_of_decode hread
    refine ⟨hagain, ?_⟩
    rw [hagain]
    rfl

namespace LooseForm

/-- A count in one group more than it needs, a name with a capital letter, and a byte behind
the end. -/
def stored : Bytes :=
  [200, 1, 129, 0, 3, 65, 103, 101, 1, 49, 0, 1, 120, 7]

def entry : Entry :=
  { status := .ok, headers := Headers.empty.append .age .one, varied := [], body := [120] }

theorem decode_stored : decode stored = .ok entry := by
  decide +kernel

theorem encode_entry : entry.encode = [200, 1, 1, 3, 97, 103, 101, 1, 49, 0, 1, 120] := by
  rfl

end LooseForm

/-- An entry stored loosely is written in another form, which is read with more behind it and
not read without its last byte. -/
theorem loose_form_read_back :
    decode LooseForm.stored = .ok LooseForm.entry ∧
    LooseForm.entry.encode = [200, 1, 1, 3, 97, 103, 101, 1, 49, 0, 1, 120] ∧
    LooseForm.entry.toWire.Fits ∧
    decode (LooseForm.entry.encode ++ [7]) = .ok LooseForm.entry ∧
    decode LooseForm.entry.encode = .ok LooseForm.entry ∧
    ∃ cause, decode [200, 1, 1, 3, 97, 103, 101, 1, 49, 0, 1] = .error (.codec cause) := by
  obtain ⟨hwhole, htorn, hagain⟩ := stored_form_read_back LooseForm.entry
  have hfits := (fits_of_decode LooseForm.decode_stored).1
  have hfront : [200, 1, 1, 3, 97, 103, 101, 1, 49, 0, 1] <+: LooseForm.entry.encode :=
    ⟨[120], LooseForm.encode_entry.symm⟩
  have hne : [200, 1, 1, 3, 97, 103, 101, 1, 49, 0, 1] ≠ LooseForm.entry.encode := by
    rw [LooseForm.encode_entry]
    decide
  exact ⟨LooseForm.decode_stored, LooseForm.encode_entry, hfits, hwhole hfits [7],
    (hagain _ LooseForm.decode_stored).1, htorn _ hfront hne⟩

/-- An entry of one name with a first value and so many more. -/
def crowded (more : Nat) : Entry :=
  { status := .ok, varied := [], body := []
    headers := { fields := [⟨.age, .one, List.replicate more .one⟩] } }

theorem length_lines_crowded (more : Nat) : (crowded more).headers.lines.length = more + 1 := by
  simp [crowded, Headers.lines, Field.values]

theorem eq_one_of_crowded {more : Nat} {line : HeaderName × HeaderValue}
    (h : line ∈ (crowded more).headers.lines) : line.2 = .one := by
  simp only [crowded, Headers.lines, Field.values, List.flatMap_cons, List.flatMap_nil,
    List.append_nil, List.mem_map, List.mem_cons, List.mem_replicate] at h
  obtain ⟨v, rfl | ⟨-, rfl⟩, rfl⟩ := h
  · rfl
  · rfl

theorem fits_crowded {more : Nat} (h : Wire.Short (more + 1)) : (crowded more).toWire.Fits := by
  have hvalues : ∀ v ∈ [HeaderValue.one], v.bytes.length < Nat.pow 2 64 := by decide
  refine fits_of_values hvalues ?_ ?_ rfl (Nat.pow_pos (by decide))
  · rwa [length_lines_crowded]
  · intro line hline
    exact List.mem_singleton.mpr (eq_one_of_crowded hline)

/-- An entry of one name with many values fits the format and is not read back. -/
theorem crowded_entry_unreadable :
    (crowded mostLines).toWire.Fits ∧ decode (crowded mostLines).encode = .error .noRoom := by
  have hshort : mostLines + 1 < Nat.pow 2 64 := by decide
  have hfits := fits_crowded hshort
  have hread := decode_append hfits []
  rw [List.append_nil, length_lines_crowded, if_neg (Nat.not_succ_le_self mostLines)] at hread
  exact ⟨hfits, hread⟩

end Entry

end PeerCache
