import Mathlib.Tactic.IntervalCases
import PeerCache.Proofs.CalendarLaws
import PeerCache.Proofs.DateLaws
import PeerCache.Proofs.TextLaws

/-!
# Dates there and back

Every date up to the year 9999 is read back from the form that it is written in. The form has no
part of varying width, so each reader takes exactly what was written for its part, whatever
follows, and the parts that come out are those of the date.
-/

namespace PeerCache

/-! ## Readers -/

namespace Reader

variable {α β : Type} {read : Reader α} {text : List Char} {a : α}

/-- A reader takes a text off the front of every text that starts with it. -/
def Takes (read : Reader α) (text : List Char) (a : α) : Prop :=
  ∀ rest, read (text ++ rest) = some (a, rest)

/-- What a reader does next, after it took a text. -/
theorem Takes.bind_apply (h : Takes read text a) (next : α → Reader β) (rest : List Char) :
    (read >>= next) (text ++ rest) = next a rest := by
  change (read (text ++ rest)).bind (fun p => next p.1 p.2) = _
  rw [h rest]
  rfl

theorem takes_literal (expected : List Char) : Takes (literal expected) expected () := by
  intro rest
  rw [literal, List.isPrefixOf?_eq_some_iff_append_eq.mpr rfl]
  rfl

theorem takes_char {p : Char → Bool} {c : Char} (h : p c = true) : Takes (char p) [c] c :=
  fun _ => if_pos h

theorem takes_digit {n : Nat} (h : n < 10) : Takes digit [Nat.digitChar n] n := by
  intro rest
  have hdigit : (Nat.digitChar n).isDigit = true := Nat.isDigit_digitChar.trans (decide_eq_true h)
  rw [digit, (takes_char hdigit).bind_apply, Nat.toNat_digitChar_of_lt_ten h,
    Nat.add_sub_cancel_left]
  rfl

/-- A name is found at its place in a list of names of one length, where no other one can be taken
for it. -/
theorem findSome?_names {names : List String} {width : Nat}
    (hwidth : ∀ name ∈ names, name.toList.length = width) (hdistinct : names.Nodup)
    {name : String} {i : Nat} (hname : names[i]? = some name) (start : Nat) (rest : List Char) :
    (names.zipIdx start).findSome? (fun (other, j) =>
      (other.toList.isPrefixOf? (name.toList ++ rest)).map fun rest => (j, rest)) =
      some (start + i, rest) := by
  induction names generalizing start i with
  | nil => cases hname
  | cons first names ih =>
    obtain ⟨hfirst, hwidths⟩ := List.forall_mem_cons.mp hwidth
    obtain ⟨hnew, hdistincts⟩ := List.nodup_cons.mp hdistinct
    rw [List.zipIdx_cons, List.findSome?_cons]
    dsimp only
    cases i with
    | zero =>
      obtain rfl := Option.some.inj hname
      rw [List.isPrefixOf?_eq_some_iff_append_eq.mpr rfl]
      rfl
    | succ i =>
      -- The first name is as long as the one looked for, so it is no front part of the text.
      have hmem : name ∈ names := List.mem_of_getElem? hname
      have hother : first.toList.isPrefixOf? (name.toList ++ rest) = none := by
        rw [Option.eq_none_iff_forall_not_mem]
        intro last hlast
        have hsame := List.isPrefixOf?_eq_some_iff_append_eq.mp hlast
        have htexts := (List.append_inj hsame (hfirst.trans (hwidths name hmem).symm)).1
        exact hnew (String.toList_inj.mp htexts ▸ hmem)
      rw [hother, Option.map_none]
      dsimp only
      rw [ih hwidths hdistincts hname, Nat.add_right_comm, Nat.add_assoc]

theorem takes_oneOf {names : List String} {width : Nat}
    (hwidth : ∀ name ∈ names, name.toList.length = width) (hdistinct : names.Nodup) {i : Nat}
    (hi : i < names.length) : Takes (oneOf names) (HeaderDate.nameAt names i) i := by
  intro rest
  have hname : names[i]? = some names[i] := List.getElem?_eq_getElem hi
  have hfound := findSome?_names hwidth hdistinct hname 0 rest
  rw [HeaderDate.nameAt, List.getD_eq_getElem?_getD, hname, oneOf]
  rwa [Nat.zero_add] at hfound

theorem orElse_of_some {other : Reader α} {p : α × List Char} (h : read text = some p) :
    (read <|> other) text = some p := by
  change (read text).orElse (fun _ => other text) = some p
  rw [h]
  rfl

end Reader

namespace HeaderDate

open Reader

/-! ## Numbers -/

theorem padded_one {n : Nat} (h : n < 10) : padded 1 n = [Nat.digitChar n] := by
  rw [padded, Nat.toDigits_of_lt_base h]
  rfl

/-- The last digit of a number stands behind the padded rest of it. -/
theorem padded_succ (width n : Nat) :
    padded (width + 2) n = padded (width + 1) (n / 10) ++ [Nat.digitChar (n % 10)] := by
  by_cases h : n < 10
  · rw [Nat.div_eq_of_lt h, Nat.mod_eq_of_lt h]
    rw [padded, padded, Nat.toDigits_of_lt_base h]
    exact congrArg (· ++ [Nat.digitChar n]) List.replicate_succ'
  · rw [padded, padded, Nat.toDigits_of_base_le (by decide) (Nat.le_of_not_lt h)]
    simp

theorem takes_twoDigits {n : Nat} (h : n < 100) : Takes twoDigits (padded 2 n) n := by
  intro rest
  have hhigh : n / 10 < 10 := by omega
  have hlow : n % 10 < 10 := by omega
  rw [padded_succ, padded_one hhigh, List.append_assoc, twoDigits,
    (takes_digit hhigh).bind_apply, (takes_digit hlow).bind_apply, Nat.div_add_mod]
  rfl

theorem padded_four (n : Nat) : padded 4 n = padded 2 (n / 100) ++ padded 2 (n % 100) := by
  have hhigh : n / 10 / 10 = n / 100 := by omega
  have hmiddle : n / 10 % 10 = n % 100 / 10 := by omega
  have hlow : n % 10 = n % 100 % 10 := by omega
  rw [padded_succ 2 n, padded_succ 1 (n / 10), padded_succ 0 (n % 100),
    padded_one (by omega : n % 100 / 10 < 10), hhigh, hmiddle, hlow, List.append_assoc]

theorem takes_fourDigits {n : Nat} (h : n < 10000) : Takes fourDigits (padded 4 n) n := by
  intro rest
  have hhigh : n / 100 < 100 := by omega
  have hlow : n % 100 < 100 := by omega
  rw [padded_four, List.append_assoc, fourDigits, (takes_twoDigits hhigh).bind_apply,
    (takes_twoDigits hlow).bind_apply, Nat.div_add_mod]
  rfl

/-! ## Names -/

theorem takes_dayName {i : Nat} (h : i < 7) : Takes (oneOf dayNames) (nameAt dayNames i) i :=
  have hwidth : ∀ name ∈ dayNames, name.toList.length = 3 := by decide
  takes_oneOf hwidth (by decide) h

theorem takes_monthName {i : Nat} (h : i < 12) :
    Takes (oneOf monthNames) (nameAt monthNames i) i :=
  have hwidth : ∀ name ∈ monthNames, name.toList.length = 3 := by decide
  takes_oneOf hwidth (by decide) h

theorem exists_dayName {i : Nat} (h : i < 7) :
    ∃ c cs, nameAt dayNames i = c :: cs ∧ Text.isBlank c = false := by
  interval_cases i <;> exact ⟨_, _, rfl, by decide⟩

/-! ## The written form -/

theorem takes_time {hour minute second : Nat} (hh : hour < 100) (hm : minute < 100)
    (hs : second < 100) :
    Takes time (padded 2 hour ++ [':'] ++ padded 2 minute ++ [':'] ++ padded 2 second)
      (hour, minute, second) := by
  intro rest
  simp only [time, List.append_assoc]
  rw [(takes_twoDigits hh).bind_apply, (takes_literal [':']).bind_apply,
    (takes_twoDigits hm).bind_apply, (takes_literal [':']).bind_apply,
    (takes_twoDigits hs).bind_apply]
  rfl

/-- The parts of a date as they are written, one after the other. -/
def Fields.written (f : Fields) : List Char :=
  nameAt dayNames f.weekday ++ ([',', ' '] ++ (padded 2 f.day ++ ([' '] ++
    (nameAt monthNames f.month ++ ([' '] ++ (padded 4 f.year ++ ([' '] ++
      ((padded 2 f.hour ++ [':'] ++ padded 2 f.minute ++ [':'] ++ padded 2 f.second) ++
        " GMT".toList))))))))

theorem format_eq (seconds : Nat) : format seconds = (fields seconds).written := by
  simp [format, Fields.written]

theorem fixed_written {f : Fields} (h : f.InRange) : fixed f.written = some (f, []) := by
  -- Each reader takes the part in front and leaves the rest of the form to the next one.
  rw [Fields.written, fixed, (takes_dayName h.weekday).bind_apply,
    (takes_literal _).bind_apply, (takes_twoDigits h.day).bind_apply,
    (takes_literal _).bind_apply, (takes_monthName h.month).bind_apply,
    (takes_literal _).bind_apply, (takes_fourDigits h.year).bind_apply,
    (takes_literal _).bind_apply, (takes_time h.hour h.minute h.second).bind_apply]
  rfl

theorem trim_written {f : Fields} (h : f.InRange) : Text.trim f.written = f.written := by
  apply Text.trim_of_ends
  · obtain ⟨c, cs, hname, hc⟩ := exists_dayName h.weekday
    simpa [Fields.written, hname] using hc
  · have hzone : " GMT".toList.getLast? = some 'T' := by decide
    simp only [Fields.written, List.getLast?_append, hzone, Option.some_or]
    rintro _ ⟨⟩
    decide

/-- A date up to the year 9999 is read back from its written form. -/
theorem parse?_format {seconds : Nat} (h : seconds < 253402300800) :
    parse? (format seconds) = some seconds := by
  have hrange := inRange_fields h
  rw [parse?, parseFields?, format_eq, trim_written hrange,
    orElse_of_some (fixed_written hrange), Option.map_some]
  dsimp only
  rw [if_pos (isReal_fields h), seconds_fields]

end HeaderDate

end PeerCache
