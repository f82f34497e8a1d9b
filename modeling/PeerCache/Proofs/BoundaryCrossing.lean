import PeerCache.Proofs.EndToEndFields
import PeerCache.Proofs.TargetGrammar
import PeerCache.Store.Memory

/-!
# What crosses a boundary

A boundary turns what comes in into a request of its own. Method, body and the fields that go
further than a connection cross; target, version and `Host` are those of the address that the
query names. `Host` is set after the fields of the connection are dropped, so nobody can have it
dropped. Then the cache may add validators, which it has from the stored entry alone and sets where
the request has none left. On the way back the fields of the origin's connection are dropped, and
with them the length, which a server states anew.
-/

namespace PeerCache

/-! ## Requests that the origin sees -/

/-- The values of a validator at the origin: those that were sent, or, where none were, one of the
stored entry. -/
def MayValidate (stored : Option Entry) (field : HeaderName) (given seen : List HeaderValue) :
    Prop :=
  seen = given ∨ given = [] ∧ ∃ entry ∈ stored, ∃ v ∈ entry.headers.values field, seen = [v]

/-- What the origin sees of a request that is sent through the cache. -/
structure Reaches (stored : Option Entry) (req seen : Request) : Prop where
  same : seen = { req with headers := seen.headers }
  others : ∀ n, n ≠ .ifNoneMatch → n ≠ .ifModifiedSince →
    seen.headers.values n = req.headers.values n
  tag : MayValidate stored .etag (req.headers.values .ifNoneMatch)
    (seen.headers.values .ifNoneMatch)
  modified : MayValidate stored .lastModified (req.headers.values .ifModifiedSince)
    (seen.headers.values .ifModifiedSince)

section Asking

variable {σ : Type} [ByteStore σ] {origin : Origin} {now : Nat} {store : σ} {req seen : Request}
  {stored : Option Entry} {e : Entry}

theorem Reaches.refl (stored : Option Entry) (req : Request) : Reaches stored req req where
  same := rfl
  others := fun _ _ _ => rfl
  tag := .inl rfl
  modified := .inl rfl

theorem mayValidate_none {field : HeaderName} {given values : List HeaderValue} :
    MayValidate none field given values ↔ values = given := by
  constructor
  · rintro (h | ⟨-, e, he, -⟩)
    · exact h
    · cases he
  · exact .inl

theorem mayValidate_of_entry (he : e ∈ stored) {field name : HeaderName} {values : List HeaderValue}
    (h : values = if req.headers.contains name then req.headers.values name
      else (e.headers.get? field).toList) :
    MayValidate stored field (req.headers.values name) values := by
  rw [h]
  split
  · exact .inl rfl
  · next hc =>
    rw [Bool.not_eq_true, Headers.contains_eq_false_iff] at hc
    rw [Headers.get?_eq_head?]
    cases hvalue : (e.headers.values field).head? with
    | none => exact .inl hc.symm
    | some v => exact .inr ⟨hc, e, he, v, List.mem_of_mem_head? hvalue, rfl⟩

theorem Reaches.of_conditional (he : e ∈ stored) (h : conditional? req e = some seen) :
    Reaches stored req seen := by
  obtain ⟨htag, hmodified⟩ := values_conditional h
  obtain ⟨-, hseen⟩ := conditional?_eq_some h
  refine ⟨?_, ?_, mayValidate_of_entry he htag, mayValidate_of_entry he hmodified⟩
  · rw [hseen]
  · intro n htag hmodified
    rw [hseen]
    exact (values_addValidator_of_ne _ hmodified).trans (values_addValidator_of_ne _ htag)

theorem Reaches.of_plan {validates : Bool} (hf : found store req = some e)
    (hp : plan (some e) req now = .check e seen validates) :
    Reaches (load store (cacheKey req)).1 req seen := by
  have hstored : e ∈ (load store (cacheKey req)).1 := (Option.filter_eq_some_iff.mp hf).1
  obtain ⟨-, ⟨-, hsent⟩ | ⟨-, rfl⟩⟩ := plan_some_check hp
  · exact .of_conditional hstored hsent
  · exact .refl _ seen

/-- On every course the origin sees the request itself, or the request with validators. -/
theorem Course.reaches {a : Attempt σ} (c : Course origin now store req a)
    (hseen : seen ∈ a.asked) : Reaches (load store (cacheKey req)).1 req seen := by
  cases c with
  | unread | refused | fresh => cases hseen
  | passed | fetched | missed =>
    obtain rfl := List.mem_singleton.mp hseen
    exact .refl _ _
  | confirmed hv | unmerged hv =>
    obtain rfl := List.mem_singleton.mp hseen
    exact .of_plan hv.found hv.plan
  | covered _ hf hp | replaced _ hf hp | failed _ hf hp =>
    obtain rfl := List.mem_singleton.mp hseen
    exact .of_plan hf hp

theorem Reaches.cacheKey_eq (h : Reaches stored req seen) : cacheKey seen = cacheKey req := by
  rw [h.same]
  rfl

end Asking

/-! ## Requests that are accepted -/

/-- The boundary turns the request away itself. -/
def BoundaryError.IsRefusal (e : BoundaryError) : Prop :=
  e.kind ∈ ["WrongPath", "MissingTarget", "MalformedEscape", "InvalidTarget"]

theorem BoundaryError.not_isRefusal_origin (cause : TransportError) :
    ¬(BoundaryError.origin cause).IsRefusal := by
  simp [IsRefusal, kind]

namespace Boundary

/-- What the origin receives for an inbound request that asks for an address. -/
structure Crosses (stored : Option Entry) (target : Url) (inbound seen : Request) : Prop where
  method : seen.method = inbound.method
  body : seen.body = inbound.body
  version : seen.version = .http11
  uri : seen.uri.text = target.withoutFragment.text
  /-- The host is named once, with its port unless the scheme implies it. -/
  host : ∃ value, HeaderValue.ofChars? target.hostAndPort.toList = some value ∧
    seen.headers.values .host = [value]
  port : ∀ port, target.port = some port → Url.defaultPort? target.scheme.toList ≠ some port
  dropped : ∀ n, n.IsHopByHop → seen.headers.values n = []
  tag : MayValidate stored .etag (inbound.headers.unlisted .ifNoneMatch)
    (seen.headers.values .ifNoneMatch)
  modified : MayValidate stored .lastModified (inbound.headers.unlisted .ifModifiedSince)
    (seen.headers.values .ifModifiedSince)
  others : ∀ n, ¬n.IsHopByHop → n ≠ .host → n ≠ .ifNoneMatch → n ≠ .ifModifiedSince →
    seen.headers.values n = inbound.headers.unlisted n

section Crossing

variable {path : String} {inbound sent seen : Request} {target : Url} {stored : Option Entry}

theorem accept_inv (h : accept path inbound = .ok sent) :
    inbound.uri.path = path ∧ ∃ target,
      parseTarget (inbound.uri.query.map String.toList) = .ok target ∧
      originRequest inbound target = .ok sent := by
  rw [accept] at h
  split at h
  · cases h
  · next hpath =>
    split at h
    · cases h
    · next target htarget => exact ⟨not_not.mp hpath, target, htarget, h⟩

theorem isServed_of_parseTarget {query : Option (List Char)} (h : parseTarget query = .ok target) :
    ∃ resource, IsServed resource target := by
  cases (parseTarget_eq_iff query _).mp h with
  | served _ _ hserved => exact ⟨_, hserved⟩

/-- What was accepted crosses, if the cache adds nothing. -/
theorem crosses_accepted {query : Option (List Char)} (htarget : parseTarget query = .ok target)
    (h : originRequest inbound target = .ok sent) : Crosses none target inbound sent := by
  obtain ⟨resource, hread, hweb, -⟩ := isServed_of_parseTarget htarget
  obtain ⟨scheme, -, hassembled⟩ := Url.parse_inv hread
  obtain ⟨huri, ⟨host, hhost, hheaders⟩, hmethod, hbody, hversion⟩ := originRequest_eq_ok h
  have hname : scheme = "http".toList ∨ scheme = "https".toList := by
    rw [← hassembled.scheme_eq]
    exact hweb.imp (congrArg String.toList) (congrArg String.toList)
  -- `Host` is set last, so a connection that lists it does not get rid of it
  have hvalues : ∀ n, sent.headers.values n =
      if n = .host then [host] else inbound.headers.stripHopByHop.values n := by
    intro n
    rw [hheaders, Headers.values_insert]
  have hother : ∀ n, ¬n.IsHopByHop → n ≠ .host →
      sent.headers.values n = inbound.headers.unlisted n := by
    intro n hend hn
    rw [hvalues, if_neg hn, Headers.values_strip_of_end hend]
  refine
    { method := hmethod, body := hbody, version := hversion
      uri := Url.text_withoutFragment (hassembled.isWeb_withoutFragment hname) huri
      host := ⟨host, hhost, (hvalues _).trans (if_pos rfl)⟩
      port := hassembled.port_ne
      dropped := ?_
      tag := .inl (hother _ (by decide) (by decide))
      modified := .inl (hother _ (by decide) (by decide))
      others := fun n hend hn _ _ => hother n hend hn }
  intro n hhop
  have hn : n ≠ .host := by
    rintro rfl
    exact absurd hhop (by decide)
  rw [hvalues, if_neg hn, Headers.values_strip_of_hop _ hhop]

/-- Then so does what the origin sees of it. -/
theorem Crosses.of_reaches (h : Crosses none target inbound sent)
    (hseen : Reaches stored sent seen) : Crosses stored target inbound seen := by
  obtain ⟨host, hhost, hvalues⟩ := h.host
  have hkept : ∀ n, n.IsHopByHop → seen.headers.values n = sent.headers.values n := by
    intro n hhop
    apply hseen.others
    · rintro rfl
      exact absurd hhop (by decide)
    · rintro rfl
      exact absurd hhop (by decide)
  exact
    { method := (congrArg Request.method hseen.same).trans h.method
      body := (congrArg Request.body hseen.same).trans h.body
      version := (congrArg Request.version hseen.same).trans h.version
      uri := (congrArg (fun req => req.uri.text) hseen.same).trans h.uri
      host := ⟨host, hhost, (hseen.others _ (by decide) (by decide)).trans hvalues⟩
      port := h.port
      dropped := fun n hhop => (hkept n hhop).trans (h.dropped n hhop)
      tag := mayValidate_none.mp h.tag ▸ hseen.tag
      modified := mayValidate_none.mp h.modified ▸ hseen.modified
      others := fun n hend hn htag hmodified =>
        (hseen.others n htag hmodified).trans (h.others n hend hn htag hmodified) }

end Crossing

/-! ## The way back -/

/-- What comes back for an answer of the cache: nothing of the connection to the origin, and the
length only after a `HEAD`. -/
structure Returns (method : Method) (given answer : Response) : Prop where
  status : answer.status = given.status
  body : answer.body = given.body
  dropped : ∀ n, n.IsHopByHop → answer.headers.values n = []
  length : method ≠ .head → answer.headers.values .contentLength = []
  others : ∀ n, ¬n.IsHopByHop → (n = .contentLength → method = .head) →
    answer.headers.values n = given.headers.unlisted n

theorem values_relay (method : Method) (resp : Response) (n : HeaderName) :
    (relay method resp).headers.values n =
      if n = .contentLength ∧ method ≠ .head then [] else resp.headers.stripHopByHop.values n := by
  rw [relay]
  by_cases hmethod : method = .head
  · simp [hmethod]
  · simp [hmethod]

theorem returns_relay (method : Method) (resp : Response) :
    Returns method resp (relay method resp) where
  status := rfl
  body := rfl
  dropped := by
    intro n hhop
    rw [values_relay, Headers.values_strip_of_hop _ hhop, ite_self]
  length := by
    intro hmethod
    rw [values_relay, if_pos ⟨rfl, hmethod⟩]
  others := by
    intro n hend hlength
    rw [values_relay, if_neg fun h => h.2 (hlength h.1), Headers.values_strip_of_end hend]

/-! ## Both ways -/

section Handling

variable {σ : Type} [ByteStore σ] {path : String} {origin : Origin} {now : Nat} {store : σ}
  {inbound seen : Request} {handling : Handling σ}

/-- Only a refusal ends with the boundary's own errors, and it leaves everything as it is. -/
theorem Ends.of_refusal (h : Ends path origin now store inbound handling) {e : BoundaryError}
    (hanswer : handling.answer? = some (.error e)) (he : e.IsRefusal) :
    handling.asked = [] ∧ handling.store = store := by
  cases h with
  | refused => exact ⟨rfl, rfl⟩
  | concluded =>
    obtain ⟨cause, -, rfl⟩ := answer_conclude_eq_error_iff.mp (Option.some.inj hanswer)
    exact absurd he (BoundaryError.not_isRefusal_origin cause)
  | brokenOff => cases hanswer

theorem Ends.crosses (h : Ends path origin now store inbound handling)
    (hseen : seen ∈ handling.asked) :
    inbound.uri.path = path ∧ ∃ target,
      parseTarget (inbound.uri.query.map String.toList) = .ok target ∧
      Crosses (load store (cacheKey seen)).1 target inbound seen := by
  obtain ⟨hnone, -⟩ | ⟨sent, haccept, hasked, -⟩ := h.asked_store
  · rw [hnone] at hseen
    cases hseen
  rw [hasked] at hseen
  have hreaches := (attempt_course origin now store sent).reaches hseen
  rw [← hreaches.cacheKey_eq] at hreaches
  obtain ⟨hpath, target, htarget, hsent⟩ := accept_inv haccept
  exact ⟨hpath, target, htarget, (crosses_accepted htarget hsent).of_reaches hreaches⟩

theorem Ends.returns (h : Ends path origin now store inbound handling) {answer : Response}
    (hanswer : handling.answer? = some (.ok answer)) :
    ∃ sent given, accept path inbound = .ok sent ∧
      (PeerCache.attempt origin now store sent).answer? = some (.ok given) ∧
      Returns inbound.method given answer := by
  cases h with
  | refused | brokenOff => cases hanswer
  | @concluded sent h x hx =>
    obtain ⟨given, hgiven, rfl⟩ := answer_conclude_eq_ok_iff.mp (Option.some.inj hanswer)
    refine ⟨sent, given, h, ?_, returns_relay _ _⟩
    rw [hx]
    exact congrArg some hgiven

/-- **What crosses a boundary.** Whatever comes in and whatever is stored: a request that the
boundary refuses asks nothing and leaves the store. Every request that the origin receives is for
the address that the query names, with the inbound fields that go further than the connection and
the host of that address, and with validators of the stored entry at most. Every answer is that of
the cache without the fields of the origin's connection. -/
theorem crossing_exact (path : String) (origin : Origin) (now : Nat) (store : σ)
    (inbound : Request) :
    let handling := attempt path origin now store inbound
    (∀ e, handling.answer? = some (.error e) → e.IsRefusal →
      handling.asked = [] ∧ handling.store = store) ∧
    (∀ seen ∈ handling.asked, inbound.uri.path = path ∧ ∃ target,
      parseTarget (inbound.uri.query.map String.toList) = .ok target ∧
      Crosses (load store (cacheKey seen)).1 target inbound seen) ∧
    ∀ answer, handling.answer? = some (.ok answer) → ∃ sent given,
      accept path inbound = .ok sent ∧
      (PeerCache.attempt origin now store sent).answer? = some (.ok given) ∧
      Returns inbound.method given answer := by
  have hends := attempt_ends path origin now store inbound
  exact ⟨fun _ hanswer he => hends.of_refusal hanswer he, fun _ hseen => hends.crosses hseen,
    fun _ hanswer => hends.returns hanswer⟩

end Handling

/-! ## A hostile request -/

namespace HostileRequest

open Sample

def token : HeaderName := ⟨"x-token", by decide⟩

def trace : HeaderName := ⟨"x-trace", by decide⟩

/-- It names another host, and wants `Host` and its own validator dropped. -/
def inbound : Request where
  method := .get
  uri := target "/proxy?q=http%3A%2F%2Fu%40O.test%3A8080%2Fa%23b"
  version := .http10
  headers := Headers.ofLines [(.host, value "evil.test"), (.ifNoneMatch, value "\"9\""),
    (.connection, value "Host, If-None-Match, X-Token"), (token, .one), (trace, value "p"),
    (trace, value "q")]
  body := []

def first : Response :=
  response .ok [(.date, epoch), (.etag, value "\"1\"")] (utf8 "old")

def second : Response :=
  response .ok [(.connection, value "close"), (.contentLength, value "3")] (utf8 "new")

/-- The address is stored with a tag, and no longer fresh. -/
def store : Memory :=
  (attempt "/proxy" (fun _ => .ok first) 0 Memory.empty inbound).store

def handling : Handling Memory :=
  attempt "/proxy" (fun _ => .ok second) 0 store inbound

/-- What goes back. -/
def answer : Response := response .ok [] (utf8 "new")

/-- What is accepted. -/
def sent : Request where
  method := .get
  uri := target "http://u@o.test:8080/a"
  version := .http11
  headers := Headers.ofLines [(trace, value "p"), (trace, value "q"), (.host, value "o.test:8080")]
  body := []

/-- What the origin receives. -/
def seen : Request where
  method := .get
  uri := target "http://u@o.test:8080/a"
  version := .http11
  headers := Headers.ofLines [(trace, value "p"), (trace, value "q"), (.host, value "o.test:8080"),
    (.ifNoneMatch, value "\"1\"")]
  body := []

end HostileRequest

open HostileRequest in
/-- The origin sees its own host and the stored tag, and the answer shows neither its connection nor
the length it gave. -/
theorem hostile_request_crosses :
    handling.asked = [seen] ∧ inbound.headers.ListsForConnection .host ∧
      (∃ target, Crosses (load store (cacheKey seen)).1 target inbound seen) ∧
      handling.answer? = some (.ok answer) ∧ answer.headers.values .connection = [] ∧
        answer.headers.values .contentLength = [] := by
  have hasked : handling.asked = [seen] := by decide +kernel
  have hanswer : handling.answer? = some (.ok answer) := by decide +kernel
  obtain ⟨-, hcrosses, hreturns⟩ := crossing_exact "/proxy" (fun _ => .ok second) 0 store inbound
  obtain ⟨-, target, -, hcrosses⟩ := hcrosses seen (hasked ▸ List.mem_singleton_self seen)
  obtain ⟨_, _, -, -, hreturns⟩ := hreturns answer hanswer
  exact ⟨hasked, by decide +kernel, ⟨target, hcrosses⟩, hanswer,
    hreturns.dropped _ (by decide), hreturns.length (by decide)⟩

end Boundary

end PeerCache
