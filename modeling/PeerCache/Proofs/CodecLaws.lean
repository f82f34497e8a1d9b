import PeerCache.Cache.Codec
import PeerCache.Proofs.ExceptLaws
import PeerCache.Proofs.HeaderLaws
import PeerCache.Proofs.TextLaws
import PeerCache.Proofs.Utf8Laws

/-!
# Entries there and back

What a reader makes of written bytes, with anything behind them. While all lengths fit 64
bits, an entry is read back as it was written. When one does not, the reader fails; it never
takes written bytes for something else. And it fails on bytes that end too early. `Reads` says
all this of a reader and the bytes that a writer made, and each combinator of the format has
one lemma about it.
-/

namespace PeerCache

namespace Wire

/-- A reader gives back the value that some bytes were written for, if the value fits, and
never anything else, and it fails on a front part of the bytes. -/
structure Reads {α : Type} (read : ByteReader α) (bytes : Bytes) (a : α) (fits : Prop) :
    Prop where
  complete : fits → ∀ rest, read (bytes ++ rest) = .ok (a, rest)
  exact : ∀ {rest b last}, read (bytes ++ rest) = .ok (b, last) → b = a ∧ last = rest
  torn : ∀ {front back}, bytes = front ++ back → back ≠ [] → ∃ cause, read front = .error cause

variable {α β : Type} {read : ByteReader α} {bytes : Bytes} {a : α} {fits : Prop}

/-- A reader that takes nothing reads nothing. -/
theorem Reads.of_nothing (h : ∀ rest, read rest = .ok (a, rest)) : Reads read [] a fits where
  complete _ := h
  exact {rest b last} hr := by
    have heq := (h rest).symm.trans hr
    cases heq
    exact ⟨rfl, rfl⟩
  torn hsplit hback := absurd (List.append_eq_nil_iff.mp hsplit.symm).2 hback

/-- A reader that always fails reads what never fits. -/
theorem Reads.of_error (h : ∀ input, ∃ cause, read input = .error cause) :
    Reads read bytes a False where
  complete hfit := hfit.elim
  exact {rest b last} hr := by
    obtain ⟨cause, hcause⟩ := h (bytes ++ rest)
    rw [hcause] at hr
    cases hr
  torn _ _ := h _

theorem Reads.mono {fits' : Prop} (h : Reads read bytes a fits) (hf : fits' → fits) :
    Reads read bytes a fits' :=
  ⟨fun hfit => h.complete (hf hfit), h.exact, h.torn⟩

/-- A first byte that a reader needs and then leaves to another reader. -/
theorem Reads.cons {read' : ByteReader α} {b : UInt8} (hempty : ∃ cause, read [] = .error cause)
    (hcons : ∀ input, read (b :: input) = read' input) (h : Reads read' bytes a fits) :
    Reads read (b :: bytes) a fits where
  complete hfit rest := by
    rw [List.cons_append, hcons]
    exact h.complete hfit rest
  exact hr := by
    rw [List.cons_append, hcons] at hr
    exact h.exact hr
  torn {front back} hsplit hback := by
    cases front with
    | nil => exact hempty
    | cons first front =>
      obtain ⟨rfl, hrest⟩ := List.cons.inj hsplit
      rw [hcons]
      exact h.torn hrest hback

/-- One reader after another. -/
def andThen (read : ByteReader α) (next : α → ByteReader β) : ByteReader β := fun input =>
  match read input with
  | .ok (a, rest) => next a rest
  | .error e => .error e

theorem andThen_of_error {next : α → ByteReader β} {input : Bytes} {cause : WireError}
    (h : read input = .error cause) : andThen read next input = .error cause := by
  rw [andThen, h]

theorem andThen_inv {next : α → ByteReader β} {input last : Bytes} {b : β}
    (h : andThen read next input = .ok (b, last)) :
    ∃ a rest, read input = .ok (a, rest) ∧ next a rest = .ok (b, last) := by
  rw [andThen] at h
  split at h
  · next a rest hread => exact ⟨a, rest, hread, h⟩
  · cases h

/-- A front part of two parts ends within the second one, or before all of the first. -/
theorem front_of_append {more front back : Bytes} (h : bytes ++ more = front ++ back) :
    (∃ taken, front = bytes ++ taken ∧ more = taken ++ back) ∨
      ∃ left, left ≠ [] ∧ bytes = front ++ left := by
  rcases List.append_eq_append_iff.mp h with ⟨taken, hfront, hmore⟩ | ⟨left, hbytes, hback⟩
  · exact .inl ⟨taken, hfront, hmore⟩
  · by_cases hleft : left = []
    · subst hleft
      exact .inl ⟨[], by rw [hbytes, List.append_nil, List.append_nil], hback.symm⟩
    · exact .inr ⟨left, hleft, hbytes⟩

/-- One reader after another takes what two writers wrote in that order. -/
theorem Reads.andThen {next : α → ByteReader β} {more : Bytes} {b : β} {fits' : Prop}
    (h : Reads read bytes a fits) (h' : Reads (next a) more b fits') :
    Reads (andThen read next) (bytes ++ more) b (fits ∧ fits') where
  complete hfit rest := by
    rw [Wire.andThen, List.append_assoc, h.complete hfit.1]
    exact h'.complete hfit.2 rest
  exact {rest c last} hr := by
    rw [List.append_assoc] at hr
    obtain ⟨a', rest', hread, hnext⟩ := andThen_inv hr
    obtain ⟨rfl, rfl⟩ := h.exact hread
    exact h'.exact hnext
  torn {front back} hsplit hback := by
    rcases front_of_append hsplit with ⟨taken, rfl, hmore⟩ | ⟨left, hleft, hbytes⟩
    · cases hread : read (bytes ++ taken) with
      | error e => exact ⟨e, andThen_of_error hread⟩
      | ok pair =>
        obtain ⟨a', rest⟩ := pair
        obtain ⟨rfl, rfl⟩ := h.exact hread
        rw [Wire.andThen, hread]
        exact h'.torn hmore hback
    · obtain ⟨e, he⟩ := h.torn hbytes hleft
      exact ⟨e, andThen_of_error he⟩

/-- The last step of a reader takes nothing more. -/
theorem Reads.map (f : α → β) (h : Reads read bytes a fits) :
    Reads (Wire.andThen read fun a rest => .ok (f a, rest)) bytes (f a) fits := by
  let last : α → ByteReader β := fun a rest => .ok (f a, rest)
  have hlast : Reads (last a) [] (f a) True := .of_nothing fun _ => rfl
  rw [← List.append_nil bytes]
  exact (h.andThen hlast).mono fun hfit => ⟨hfit, trivial⟩

/-! ## Numbers -/

theorem toNat_low {n : Nat} (h : n < 128) : (UInt8.ofNat n).toNat = n :=
  Utf8.toNat_ofNat (by omega)

theorem low_lt {n : Nat} (h : n < 128) : UInt8.ofNat n < 128 := by
  rw [UInt8.lt_iff_toNat_lt, toNat_low h]
  exact h

theorem toNat_high (n : Nat) : (UInt8.ofNat (n % 128 + 128)).toNat = n % 128 + 128 :=
  Utf8.toNat_ofNat (by omega)

theorem not_high_lt (n : Nat) : ¬UInt8.ofNat (n % 128 + 128) < 128 := by
  rw [UInt8.lt_iff_toNat_lt, toNat_high]
  exact Nat.not_lt.mpr (Nat.le_add_left 128 _)

/-- A last group reads as its number while it is within the bound. -/
theorem reads_last {n : Nat} (hlow : n < 128) (groups most : Nat) :
    Reads (readGroups (groups + 1) most) [UInt8.ofNat n] n (n / Nat.pow 128 groups ≤ most) := by
  have hcons : ∀ input, readGroups (groups + 1) most (UInt8.ofNat n :: input) =
      if groups = 0 ∧ n > most then .error .badNumber else .ok (n, input) := by
    intro input
    rw [readGroups, if_pos (low_lt hlow), toNat_low hlow]
  by_cases hover : groups = 0 ∧ n > most
  · have hfails := fun input => (hcons input).trans (if_pos hover)
    refine (Reads.cons ⟨_, rfl⟩ hfails (.of_error fun _ => ⟨_, rfl⟩)).mono fun hfit => ?_
    rw [hover.1, show Nat.pow 128 0 = 1 from rfl, Nat.div_one] at hfit
    omega
  · have hreads := fun input => (hcons input).trans (if_neg hover)
    exact Reads.cons ⟨_, rfl⟩ hreads (.of_nothing fun _ => rfl)

/-- The groups of a number read as the number while there are enough of them and the last one
is within its bound. -/
theorem reads_groups {fuel n : Nat} (hn : n ≤ fuel) (groups most : Nat) :
    Reads (readGroups (groups + 1) most) (writeGroups fuel n) n
      (n / Nat.pow 128 groups ≤ most ∧ most < 128) := by
  induction fuel generalizing n groups with
  | zero =>
    obtain rfl : n = 0 := by omega
    exact (reads_last (by decide) groups most).mono And.left
  | succ fuel ih =>
    by_cases hlow : n < 128
    · rw [writeGroups, if_pos hlow]
      exact (reads_last hlow groups most).mono And.left
    · let raise : Nat → Nat := fun m => (UInt8.ofNat (n % 128 + 128)).toNat - 128 + 128 * m
      have hback : raise (n / 128) = n := by
        simp only [raise, toNat_high]
        omega
      have hcons : ∀ input,
          readGroups (groups + 1) most (UInt8.ofNat (n % 128 + 128) :: input) =
            andThen (readGroups groups most) (fun m rest => .ok (raise m, rest)) input := by
        intro input
        rw [readGroups, if_neg (not_high_lt n), andThen]
        cases readGroups groups most input <;> rfl
      rw [writeGroups, if_neg hlow]
      cases groups with
      | zero =>
        refine (Reads.cons ⟨_, rfl⟩ hcons (.of_error fun _ => ⟨_, rfl⟩)).mono fun hfit => ?_
        rw [show Nat.pow 128 0 = 1 from rfl, Nat.div_one] at hfit
        omega
      | succ groups =>
        have hpow : n / Nat.pow 128 (groups + 1) = n / 128 / Nat.pow 128 groups := by
          rw [Nat.div_div_eq_div_mul, Nat.mul_comm]
          rfl
        have hrest := (ih (n := n / 128) (by omega) groups).map raise
        rw [hback] at hrest
        refine (Reads.cons ⟨_, rfl⟩ hcons hrest).mono fun hfit => ?_
        rw [← hpow]
        exact hfit

/-- Lengths that 64 bits hold. -/
def Short (n : Nat) : Prop :=
  n < Nat.pow 2 64

theorem reads_length (n : Nat) : Reads readLength (writeNumber n) n (Short n) :=
  (reads_groups (Nat.le_refl n) 9 1).mono fun h => by
    refine ⟨Nat.le_of_lt_succ ((Nat.div_lt_iff_lt_mul (by decide)).mpr ?_), by decide⟩
    exact h

theorem reads_status (n : Nat) : Reads readStatus (writeNumber n) n (n < 65536) :=
  (reads_groups (Nat.le_refl n) 2 3).mono fun h => by
    refine ⟨Nat.le_of_lt_succ ((Nat.div_lt_iff_lt_mul (by decide)).mpr ?_), by decide⟩
    exact h

/-! ## Byte strings and texts -/

theorem reads_exactly (bytes : Bytes) : Reads (readExactly bytes.length) bytes bytes True := by
  induction bytes with
  | nil => exact .of_nothing fun _ => rfl
  | cons b bytes ih =>
    have hcons : ∀ input, readExactly (bytes.length + 1) (b :: input) =
        andThen (readExactly bytes.length) (fun bytes rest => .ok (b :: bytes, rest)) input := by
      intro input
      rw [readExactly, andThen]
      cases readExactly bytes.length input <;> rfl
    exact Reads.cons ⟨_, rfl⟩ hcons (ih.map (b :: ·))

theorem readBytes_eq : readBytes = andThen readLength readExactly := by
  funext input
  rw [readBytes, andThen]
  cases readLength input <;> rfl

theorem reads_bytes (bytes : Bytes) :
    Reads readBytes (writeBytes bytes) bytes (Short bytes.length) := by
  rw [readBytes_eq]
  exact ((reads_length bytes.length).andThen (reads_exactly bytes)).mono fun h => ⟨h, trivial⟩

/-- Text that has been read as bytes. -/
def textOf (bytes : Bytes) : ByteReader String := fun rest =>
  match Utf8.decode? bytes with
  | some text => .ok (String.ofList text, rest)
  | none => .error .badText

theorem readText_eq : readText = andThen readBytes textOf := by
  funext input
  rw [readText, andThen]
  cases readBytes input <;> rfl

theorem reads_text (text : String) :
    Reads readText (writeText text) text (Short (utf8 text).length) := by
  have htext : Reads (textOf (utf8 text)) [] text True := .of_nothing fun rest => by
    simp [textOf, utf8, Utf8.decode?_encode]
  rw [readText_eq, ← List.append_nil (writeText text)]
  exact ((reads_bytes (utf8 text)).andThen htext).mono fun h => ⟨h, trivial⟩

theorem readOption_some (input : Bytes) : readOption (1 :: input) =
    andThen readBytes (fun bytes rest => .ok (some bytes, rest)) input := by
  rw [readOption, if_neg (by decide), if_pos rfl, andThen]
  cases readBytes input <;> rfl

theorem reads_option (value : Option Bytes) :
    Reads readOption (writeOption value) value (∀ bytes ∈ value, Short bytes.length) := by
  cases value with
  | none => exact Reads.cons ⟨_, rfl⟩ (fun _ => rfl) (.of_nothing fun _ => rfl)
  | some bytes =>
    have hsome := (reads_bytes bytes).map some
    exact (Reads.cons ⟨_, rfl⟩ readOption_some hsome).mono fun hfit => hfit bytes rfl

/-! ## Pairs and lists -/

theorem readPair_eq (read : ByteReader α) : readPair read = andThen readText fun name =>
    andThen read fun value rest => .ok ((name, value), rest) := by
  funext input
  simp only [readPair, andThen]
  cases readText input with
  | error e => rfl
  | ok r =>
    obtain ⟨name, rest⟩ := r
    cases hvalue : read rest <;> simp only [hvalue]

theorem reads_pair {read : ByteReader α} {write : α → Bytes} {pair : String × α}
    (h : Reads read (write pair.2) pair.2 fits) :
    Reads (readPair read) (writePair write pair) pair (Short (utf8 pair.1).length ∧ fits) := by
  rw [readPair_eq]
  exact (reads_text pair.1).andThen (h.map fun value => (pair.1, value))

theorem readMany_succ (read : ByteReader α) (n : Nat) : readMany read (n + 1) =
    andThen read fun item => andThen (readMany read n) fun items rest =>
      .ok (item :: items, rest) := by
  funext input
  simp only [readMany, andThen]
  cases read input with
  | error e => rfl
  | ok r =>
    obtain ⟨item, rest⟩ := r
    dsimp only
    cases readMany read n rest <;> rfl

theorem reads_many {read : ByteReader α} {write : α → Bytes} {fits : α → Prop} {items : List α}
    (h : ∀ item ∈ items, Reads read (write item) item (fits item)) :
    Reads (readMany read items.length) (items.flatMap write) items
      (∀ item ∈ items, fits item) := by
  induction items with
  | nil => exact .of_nothing fun rest => rfl
  | cons item items ih =>
    have hitems := ih fun i hi => h i (List.mem_cons_of_mem item hi)
    rw [List.length_cons, readMany_succ, List.flatMap_cons]
    exact ((h item List.mem_cons_self).andThen (hitems.map fun items => item :: items)).mono
      fun hfit => ⟨hfit item List.mem_cons_self,
        fun i hi => hfit i (List.mem_cons_of_mem item hi)⟩

theorem readList_eq (read : ByteReader α) :
    readList read = andThen readLength (readMany read) := by
  funext input
  rw [readList, andThen]
  cases readLength input <;> rfl

theorem reads_list {read : ByteReader α} {write : α → Bytes} {fits : α → Prop} {items : List α}
    (h : ∀ item ∈ items, Reads read (write item) item (fits item)) :
    Reads (readList read) (writeList write items) items
      (Short items.length ∧ ∀ item ∈ items, fits item) := by
  rw [readList_eq]
  exact (reads_length items.length).andThen (reads_many h)

end Wire

namespace WireEntry

open Wire

/-- A line that fits: a short name and a short value. -/
def FitsLine (line : String × Bytes) : Prop :=
  Short (utf8 line.1).length ∧ Short line.2.length

def FitsVaried (pair : String × Option Bytes) : Prop :=
  Short (utf8 pair.1).length ∧ ∀ bytes ∈ pair.2, Short bytes.length

/-- Entries whose status and lengths have the widths of the format. -/
structure Fits (e : WireEntry) : Prop where
  status : e.status < 65536
  headers : Short e.headers.length
  lines : ∀ line ∈ e.headers, FitsLine line
  varied : Short e.varied.length
  pairs : ∀ pair ∈ e.varied, FitsVaried pair
  body : Short e.body.length

theorem read_eq : WireEntry.read =
    andThen readStatus fun status =>
      andThen (readList (readPair readBytes)) fun headers =>
        andThen (readList (readPair readOption)) fun varied =>
          andThen readBytes fun body rest => .ok ({ status, headers, varied, body }, rest) := by
  funext input
  simp only [WireEntry.read, andThen]
  cases readStatus input with
  | error e => rfl
  | ok r =>
    obtain ⟨status, rest⟩ := r
    simp only [bind, Except.bind]
    cases readList (readPair readBytes) rest with
    | error e => rfl
    | ok r =>
      obtain ⟨headers, rest⟩ := r
      dsimp only
      cases readList (readPair readOption) rest with
      | error e => rfl
      | ok r =>
        obtain ⟨varied, rest⟩ := r
        dsimp only
        cases readBytes rest <;> rfl

theorem reads_entry (e : WireEntry) : Reads WireEntry.read e.encode e e.Fits := by
  have hline : ∀ line ∈ e.headers,
      Reads (readPair readBytes) (writePair writeBytes line) line (FitsLine line) :=
    fun line _ => reads_pair (reads_bytes line.2)
  have hpair : ∀ pair ∈ e.varied,
      Reads (readPair readOption) (writePair writeOption pair) pair (FitsVaried pair) :=
    fun pair _ => reads_pair (reads_option pair.2)
  have hbody := (reads_bytes e.body).map fun body => { e with body }
  rw [read_eq, WireEntry.encode, List.append_assoc, List.append_assoc]
  exact ((reads_status e.status).andThen
    ((reads_list hline).andThen ((reads_list hpair).andThen hbody))).mono
    fun h => ⟨h.status, ⟨h.headers, h.lines⟩, ⟨h.varied, h.pairs⟩, h.body⟩

/-- An entry that fits is read back, whatever follows it. -/
theorem decode_append {e : WireEntry} (h : e.Fits) (trailing : Bytes) :
    WireEntry.decode (e.encode ++ trailing) = .ok e := by
  rw [WireEntry.decode, (reads_entry e).complete h trailing]
  rfl

theorem eq_of_decode_append {e e' : WireEntry} {trailing : Bytes}
    (h : WireEntry.decode (e.encode ++ trailing) = .ok e') : e' = e := by
  obtain ⟨r, hread, rfl⟩ := exists_of_map_ok h
  exact ((reads_entry e).exact hread).1

/-- An entry whose end is missing is not read. -/
theorem decode_torn {e : WireEntry} {front : Bytes} (h : front <+: e.encode)
    (hne : front ≠ e.encode) : ∃ cause, WireEntry.decode front = .error cause := by
  obtain ⟨back, hsplit⟩ := h
  have hback : back ≠ [] := by
    rintro rfl
    exact hne ((List.append_nil front).symm.trans hsplit)
  obtain ⟨cause, hcause⟩ := (reads_entry e).torn hsplit.symm hback
  exact ⟨cause, by rw [WireEntry.decode, hcause]; rfl⟩

end WireEntry

/-! ## Entries -/

theorem HeaderName.ofText?_text (name : HeaderName) : ofText? name.text = some name := by
  have hlower : Text.lower name.text.toList = name.text.toList :=
    Text.lower_of_not_upper fun c hc => by
      have := List.all_eq_true.mp name.valid.2.2 c hc
      rw [Bool.and_eq_true, Bool.not_eq_true'] at this
      exact this.2
  rw [ofText?, ofChars?]
  rw [hlower, String.ofList_toList, dif_pos name.valid]

theorem HeaderValue.ofBytes?_bytes (v : HeaderValue) : ofBytes? v.bytes = some v :=
  dif_pos v.valid

theorem Status.ofNat?_code (s : Status) : ofNat? s.code = some s :=
  dif_pos s.valid

namespace Entry

/-- The stored form of an entry has valid parts, the ones it was made from. -/
theorem readParts_toWire (e : Entry) : readParts e.toWire = .ok e := by
  have hline : ∀ line : HeaderName × HeaderValue,
      readLine (line.1.text, line.2.bytes) = .ok line := by
    intro line
    simp [readLine, readValue, HeaderName.ofText?_text, HeaderValue.ofBytes?_bytes, Except.map]
  have hpair : ∀ pair : String × Option HeaderValue,
      readVaried (pair.1, pair.2.map HeaderValue.bytes) = .ok pair := by
    intro pair
    obtain ⟨name, value⟩ := pair
    cases value with
    | none => rfl
    | some v => simp [readVaried, readValue, HeaderValue.ofBytes?_bytes, Except.map]
  rw [readParts, toWire]
  rw [mapM_ok hline, mapM_ok hpair]
  simp only [bind, Except.bind, Status.ofNat?_code, Headers.ofLines_lines]
  rfl

theorem ofWire_toWire (e : Entry) :
    ofWire e.toWire = if e.headers.lines.length ≤ mostLines then .ok e else .error .noRoom := by
  have hcount : e.toWire.headers.length = e.headers.lines.length := List.length_map _
  rw [ofWire, hcount, readParts_toWire]

/-- While its lengths fit, an entry is read back as it was, whatever follows it, if there is
room for its lines. -/
theorem decode_append {e : Entry} (h : e.toWire.Fits) (trailing : Bytes) :
    decode (e.encode ++ trailing) =
      if e.headers.lines.length ≤ mostLines then .ok e else .error .noRoom := by
  rw [decode, encode, WireEntry.decode_append h]
  exact ofWire_toWire e

theorem decode_encode {e : Entry} (h : e.toWire.Fits) : decode e.encode =
    if e.headers.lines.length ≤ mostLines then .ok e else .error .noRoom := by
  have hread := decode_append h []
  rwa [List.append_nil] at hread

/-- An entry is read from a stored form with room for its lines. -/
theorem decode_inv {raw : Bytes} {e : Entry} (h : decode raw = .ok e) :
    ∃ w, WireEntry.decode raw = .ok w ∧ w.headers.length ≤ mostLines ∧ readParts w = .ok e := by
  rw [decode] at h
  split at h
  · next w hwire =>
    rw [ofWire] at h
    split at h
    · next hroom => exact ⟨w, hwire, hroom, h⟩
    · cases h
  · cases h

/-- The bytes of an entry never read as another one. -/
theorem eq_of_decode_encode {e e' : Entry} (h : decode e.encode = .ok e') : e' = e := by
  obtain ⟨w, hwire, -, hparts⟩ := decode_inv h
  rw [encode, ← List.append_nil e.toWire.encode] at hwire
  rw [WireEntry.eq_of_decode_append hwire, readParts_toWire] at hparts
  exact (Except.ok.inj hparts).symm

/-- An entry whose end is missing is not read. -/
theorem decode_torn {e : Entry} {front : Bytes} (h : front <+: e.encode) (hne : front ≠ e.encode) :
    ∃ cause, decode front = .error (.codec cause) := by
  obtain ⟨cause, hcause⟩ := WireEntry.decode_torn h hne
  exact ⟨cause, by rw [decode, hcause]⟩

end Entry

end PeerCache
