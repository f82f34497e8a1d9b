import PeerCache.Proofs.EntryCodec
import PeerCache.Proofs.ExchangeCourses
import PeerCache.Proofs.TextLaws

/-!
# Matching of variants

Which requests an entry answers. `Vary` lists header names, in any case and between blanks, in
one line or several, or a star that no request matches. For each name the entry holds the first
value of its own request. So it answers every request with the same values, and those besides that
agree in the first value of each name and differ in a later one. Its stored form is read as an
entry that answers the same requests.
-/

namespace PeerCache

namespace Headers

/-- A star is listed in `Vary`. -/
def VariesByAll (h : Headers) : Prop :=
  ∃ part ∈ h.elements HeaderName.vary, Text.trim part = ['*']

/-- A header name is listed in `Vary`. -/
def VariesBy (h : Headers) (name : HeaderName) : Prop :=
  ∃ part ∈ h.elements HeaderName.vary, HeaderName.ofChars? (Text.trim part) = some name

end Headers

namespace Entry

variable {stored req : Request} {resp : Response} {now : Nat}

theorem mem_varyNames {h : Headers} {name : String} : name ∈ varyNames h ↔
    name ≠ "" ∧ ∃ part ∈ h.elements HeaderName.vary,
      String.ofList (Text.lower (Text.trim part)) = name := by
  rw [varyNames, List.mem_filter, List.mem_map, decide_eq_true_iff]
  exact and_comm

theorem star_mem_varyNames {h : Headers} : "*" ∈ varyNames h ↔ h.VariesByAll := by
  rw [mem_varyNames]
  refine (and_iff_right (by decide)).trans (exists_congr fun part => and_congr_right fun _ => ?_)
  rw [← String.toList_inj, String.toList_ofList]
  exact Text.lower_eq_singleton_iff rfl rfl

theorem variant_listed (h : Headers) (part : List Char) :
    variant h (String.ofList (Text.lower part)) = (HeaderName.ofChars? part).bind h.get? := by
  rw [variant, HeaderName.ofText?, String.toList_ofList, HeaderName.ofChars?_lower]

/-- An entry answers the requests that have the first values of its own request. -/
theorem answers_capture_iff : (capture stored resp now).answers req = true ↔
    ¬resp.headers.VariesByAll ∧ ∀ name, resp.headers.VariesBy name →
      (stored.headers.values name).head? = (req.headers.values name).head? := by
  rw [answers_iff, varied_capture, List.forall_mem_map, ← star_mem_varyNames]
  constructor
  · intro h
    refine ⟨fun hstar => (h "*" hstar).1 rfl, ?_⟩
    rintro name ⟨part, hpart, hname⟩
    have hlisted : String.ofList (Text.lower (Text.trim part)) ∈ varyNames resp.headers := by
      rw [← HeaderName.text_of_ofChars? hname]
      refine mem_varyNames.mpr ⟨?_, part, hpart, (HeaderName.text_of_ofChars? hname).symm⟩
      exact fun hempty => name.valid.1 (congrArg String.toList hempty)
    have hsame := (h _ hlisted).2
    rw [variant_listed, variant_listed, hname] at hsame
    rw [← Headers.get?_eq_head?, ← Headers.get?_eq_head?]
    exact hsame.symm
  · rintro ⟨hstar, hsame⟩ name hname
    refine ⟨fun h => hstar (h ▸ hname), ?_⟩
    obtain ⟨-, part, hpart, rfl⟩ := mem_varyNames.mp hname
    rw [variant_listed, variant_listed]
    cases hread : HeaderName.ofChars? (Text.trim part) with
    | none => rfl
    | some name =>
      have hvalue := hsame name ⟨part, hpart, hread⟩
      rw [← Headers.get?_eq_head?, ← Headers.get?_eq_head?] at hvalue
      exact hvalue.symm

/-- Two requests are one variant of a response: they have the same values of every name that it
varies by, and it does not vary by all. -/
def SameVariant (resp stored req : Headers) : Prop :=
  ¬resp.VariesByAll ∧ ∀ name, resp.VariesBy name → stored.values name = req.values name

theorem answers_of_sameVariant (h : SameVariant resp.headers stored.headers req.headers) :
    (capture stored resp now).answers req = true :=
  answers_capture_iff.mpr ⟨h.1, fun name hname => congrArg List.head? (h.2 name hname)⟩

theorem eq_of_head?_of_tail {a b : List HeaderValue} (hhead : a.head? = b.head?)
    (htail : a.tail = b.tail) : a = b := by
  cases a <;> cases b <;> simp_all

/-- **Matching of variants.** What is captured for one request answers another exactly if no star
is listed and both have the same first value, or none, of every listed name. So it answers all
requests of its variant. It answers no others exactly if those that it answers agree in the values
behind the first as well. If its lengths fit the format, it is read back as an entry that answers
the same requests, exactly if there is room for its lines. -/
theorem vary_matching_iff (stored req : Request) (resp : Response) (now : Nat) :
    let e := capture stored resp now
    (e.answers req = true ↔ ¬resp.headers.VariesByAll ∧ ∀ name, resp.headers.VariesBy name →
      (stored.headers.values name).head? = (req.headers.values name).head?) ∧
    (SameVariant resp.headers stored.headers req.headers → e.answers req = true) ∧
    ((e.answers req = true ↔ SameVariant resp.headers stored.headers req.headers) ↔
      (e.answers req = true → ∀ name, resp.headers.VariesBy name →
        (stored.headers.values name).tail = (req.headers.values name).tail)) ∧
    (e.toWire.Fits → (decode e.encode).map (fun read => read.answers req) =
      if e.headers.lines.length ≤ mostLines then .ok (e.answers req) else .error .noRoom) := by
  intro e
  refine ⟨answers_capture_iff, answers_of_sameVariant, ⟨?_, ?_⟩, fun hfits => ?_⟩
  · intro hexact hanswers name hname
    exact congrArg List.tail ((hexact.mp hanswers).2 name hname)
  · intro hlater
    refine ⟨fun hanswers => ?_, answers_of_sameVariant⟩
    obtain ⟨hstar, hfirst⟩ := answers_capture_iff.mp hanswers
    exact ⟨hstar, fun name hname =>
      eq_of_head?_of_tail (hfirst name hname) (hlater hanswers name hname)⟩
  · rw [decode_encode hfits]
    split <;> rfl

namespace Codings

open Sample

def agent : HeaderName := ⟨"user-agent", by decide⟩

def coding : HeaderName := ⟨"accept-encoding", by decide⟩

/-- A response that varies by two names, listed in two lines. -/
def document : Response :=
  response .ok [(.date, epoch), (.vary, value "USER-AGENT ,"), (.vary, value "\tAccept-Encoding")]
    (utf8 "o")

/-- A request with two codings. -/
def both : Request :=
  request [(agent, value "a/1"), (coding, value "br"), (coding, value "gzip")]

/-- A request with the first of them. -/
def first : Request :=
  request [(agent, value "a/1"), (coding, value "br")]

end Codings

open Codings in
theorem both_codings_match_again :
    let e := capture both document 0
    e.toWire.Fits ∧ e.headers.lines.length ≤ mostLines ∧
      SameVariant document.headers both.headers both.headers ∧ e.answers both = true ∧
      (decode e.encode).map (fun read => read.answers both) = .ok true := by
  intro e
  obtain ⟨-, hmatches, -, hstored⟩ := vary_matching_iff both both document 0
  have hdecode : decode e.encode = .ok e := by decide +kernel
  obtain ⟨hfits, hroom⟩ := fits_of_decode hdecode
  have hsame : SameVariant document.headers both.headers both.headers := by
    refine ⟨?_, fun _ _ => rfl⟩
    rintro ⟨part, hpart, hstar⟩
    revert part
    decide +kernel
  have hanswers := hmatches hsame
  refine ⟨hfits, hroom, hsame, hanswers, ?_⟩
  rw [hstored hfits, if_pos hroom]
  exact congrArg Except.ok hanswers

open Codings in
/-- What was captured for a request with two codings answers one with the first of them. -/
theorem first_coding_stands_for_both :
    document.headers.VariesBy coding ∧
      both.headers.values coding ≠ first.headers.values coding ∧
      (capture both document 0).answers first = true := by
  refine ⟨⟨"\tAccept-Encoding".toList, by decide +kernel⟩, by decide +kernel⟩

end Entry

end PeerCache
