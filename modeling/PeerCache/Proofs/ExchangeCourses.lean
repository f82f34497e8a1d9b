import PeerCache.Cache.Exchange
import PeerCache.Proofs.EntryLaws

/-!
# Courses of an attempt

Everything that sending a request through the cache can do, one constructor for each way that
it can go. What is proved of all attempts is proved course by course. A course says which
entry was found, what the origin was asked and answered, what the client gets and what
becomes of the store. On two of them there is no room, and the client gets nothing.
-/

namespace PeerCache

/-- A request with fields added behind its own, all of them validators. -/
def AddsValidators (req sent : Request) : Prop :=
  ∃ added : List Field,
    (∀ f ∈ added, f.name = HeaderName.ifNoneMatch ∨ f.name = HeaderName.ifModifiedSince) ∧
      sent = { req with headers := sent.headers } ∧
      sent.headers.fields = req.headers.fields ++ added

theorem AddsValidators.refl (req : Request) : AddsValidators req req :=
  ⟨[], by simp, rfl, (List.append_nil _).symm⟩

section Exchange

variable {σ : Type} [ByteStore σ]

/-- The entry that a request finds: one that is stored under its key and answers it. -/
def found (store : σ) (req : Request) : Option Entry :=
  (load store (cacheKey req)).1.filter fun e => e.answers req

/-- Passing a request through leaves the store, or drops what is stored for the resource. -/
theorem store_passThrough (origin : Origin) (store : σ) (req : Request) :
    (passThrough origin store req).store = store ∨
      req.method.isSafe = false ∧ (passThrough origin store req).store =
        Effect.evict.apply (Effect.evict.apply store (keyOf .get req.uri))
          (keyOf .head req.uri) := by
  rw [passThrough]
  cases origin req with
  | error e => exact .inl rfl
  | ok resp =>
    dsimp only
    split
    · next hchanged =>
      rw [Bool.and_eq_true, Bool.not_eq_true'] at hchanged
      exact .inr ⟨hchanged.1, rfl⟩
    · exact .inl rfl

/-- The exchange of a request that was sent to the origin after its lookup. -/
def settled (store : σ) (req sent : Request) (s : Settlement) : Exchange σ :=
  { answer := s.answer, asked := [sent]
    store := s.effect.apply (load store (cacheKey req)).2 (cacheKey req) }

/-- The origin fails, and a stored response may be served instead. -/
def Covers (e : Entry) (req : Request) (now : Nat) : Answer → Prop
  | .ok resp => resp.status.isServerError = true ∧ canServeOnError e.headers req.headers now = true
  | .error _ => canServeOnError e.headers req.headers now = true

/-- The origin says that the stored response that it was asked about has not changed. -/
def Confirms (validates : Bool) : Answer → Prop
  | .ok resp => resp.status = .notModified ∧ validates = true
  | .error _ => False

/-- An attempt takes the origin's answer for a confirmation of the entry that it found. -/
structure Validates (origin : Origin) (now : Nat) (store : σ) (req : Request) (e : Entry)
    (sent : Request) (resp : Response) : Prop where
  cacheable : req.isCacheable = true
  found : found store req = some e
  plan : plan (some e) req now = .check e sent true
  answer : origin sent = .ok resp
  status : resp.status = .notModified

inductive Course (origin : Origin) (now : Nat) (store : σ) (req : Request) : Attempt σ → Prop
  /-- The request cannot be cached. -/
  | passed (hc : req.isCacheable = false) :
    Course origin now store req (.done (passThrough origin store req))
  /-- There is no room for what is stored. -/
  | unread (hc : req.isCacheable = true) (hb : breaksOff store (cacheKey req) = true) :
    Course origin now store req (.brokenOff [] (load store (cacheKey req)).2)
  /-- Nothing is stored and the origin must not be asked. -/
  | refused (hc : req.isCacheable = true) (hf : found store req = none)
    (ho : req.onlyIfCached = true) :
    Course origin now store req
      (.done { answer := .ok (Response.bare .gatewayTimeout), asked := []
               store := (load store (cacheKey req)).2 })
  /-- Nothing is stored and the origin answers. -/
  | fetched (hc : req.isCacheable = true) (hf : found store req = none) {resp : Response}
    (hr : origin req = .ok resp) :
    Course origin now store req (.done (settled store req req (deliver req now resp)))
  /-- Nothing is stored and the origin cannot be reached. -/
  | missed (hc : req.isCacheable = true) (hf : found store req = none) {e : TransportError}
    (hr : origin req = .error e) :
    Course origin now store req
      (.done (settled store req req { answer := .error e, effect := .keep }))
  /-- A fresh entry is served. -/
  | fresh (hc : req.isCacheable = true) {entry : Entry} (hf : found store req = some entry)
    (hfresh : freshness entry.headers req.headers now = .fresh) :
    Course origin now store req
      (.done { answer := .ok entry.toResponse, asked := []
               store := (load store (cacheKey req)).2 })
  /-- An entry is confirmed, takes over what the origin says, and is served and stored again. -/
  | confirmed {entry merged : Entry} {sent : Request} {resp : Response}
    (h : Validates origin now store req entry sent resp)
    (hm : entry.refresh? resp.headers = some merged) :
    Course origin now store req (.done (settled store req sent (deliver req now merged.toResponse)))
  /-- An entry is confirmed and there is no room for what the origin says. -/
  | unmerged {entry : Entry} {sent : Request} {resp : Response}
    (h : Validates origin now store req entry sent resp)
    (hm : entry.refresh? resp.headers = none) :
    Course origin now store req (.brokenOff [sent] (load store (cacheKey req)).2)
  /-- An entry stands in for an origin that fails. -/
  | covered (hc : req.isCacheable = true) {entry : Entry} (hf : found store req = some entry)
    {sent : Request} {validates : Bool}
    (hp : plan (some entry) req now = .check entry sent validates)
    (hr : Covers entry req now (origin sent)) :
    Course origin now store req
      (.done (settled store req sent { answer := .ok entry.toResponse, effect := .keep }))
  /-- The answer of the origin replaces an entry. -/
  | replaced (hc : req.isCacheable = true) {entry : Entry} (hf : found store req = some entry)
    {sent : Request} {validates : Bool}
    (hp : plan (some entry) req now = .check entry sent validates) {resp : Response}
    (hr : origin sent = .ok resp) (hconf : ¬Confirms validates (origin sent))
    (hcov : ¬Covers entry req now (origin sent)) :
    Course origin now store req (.done (settled store req sent (deliver req now resp)))
  /-- The origin fails and the entry is dropped. -/
  | failed (hc : req.isCacheable = true) {entry : Entry} (hf : found store req = some entry)
    {sent : Request} {validates : Bool}
    (hp : plan (some entry) req now = .check entry sent validates) {e : TransportError}
    (hr : origin sent = .error e) (hcov : ¬Covers entry req now (origin sent)) :
    Course origin now store req
      (.done (settled store req sent { answer := .error e, effect := .evict }))

end Exchange

/-! ## Requests that are sent -/

theorem fields_addValidator_some {h : Headers} {name : HeaderName} {v : HeaderValue}
    (fresh : h.contains name = false) :
    (addValidator h name (some v)).fields = h.fields ++ [⟨name, v, []⟩] := by
  show (h.insert name v).fields = _
  rw [Headers.insert]
  rw [dif_pos fresh]
  rfl

/-- A validator goes behind the fields that are there, because there is none of its name. -/
theorem fields_addValidator {h : Headers} {name : HeaderName} {v : Option HeaderValue}
    (hv : v ≠ none → h.contains name = false) :
    ∃ added : List Field, (∀ f ∈ added, f.name = name) ∧
      (addValidator h name v).fields = h.fields ++ added := by
  cases v with
  | none => exact ⟨[], by simp, (List.append_nil _).symm⟩
  | some v => exact ⟨[⟨name, v, []⟩], by simp, fields_addValidator_some (hv (by simp))⟩

theorem values_addValidator (h : Headers) (name n : HeaderName) (v : Option HeaderValue) :
    (addValidator h name v).values n =
      match v with
      | some v => if n = name then [v] else h.values n
      | none => h.values n := by
  cases v with
  | none => rfl
  | some v => exact Headers.values_insert h name v n

theorem values_addValidator_of_ne {h : Headers} {name n : HeaderName} (v : Option HeaderValue)
    (hn : n ≠ name) : (addValidator h name v).values n = h.values n := by
  rw [values_addValidator]
  cases v with
  | none => rfl
  | some v => exact if_neg hn

theorem validator?_ne_none {req : Request} {e : Entry} {stored sent : HeaderName}
    (h : validator? req e stored sent ≠ none) :
    req.headers.contains sent = false ∧ e.headers.get? stored ≠ none := by
  unfold validator? at h
  split at h
  · exact absurd rfl h
  · next hc => exact ⟨Bool.eq_false_iff.mpr hc, h⟩

theorem conditional?_eq_some {req sent : Request} {e : Entry}
    (h : conditional? req e = some sent) :
    (validator? req e HeaderName.etag HeaderName.ifNoneMatch ≠ none ∨
      validator? req e HeaderName.lastModified HeaderName.ifModifiedSince ≠ none) ∧
    sent = { req with
      headers := addValidator
        (addValidator req.headers HeaderName.ifNoneMatch
          (validator? req e HeaderName.etag HeaderName.ifNoneMatch))
        HeaderName.ifModifiedSince
        (validator? req e HeaderName.lastModified HeaderName.ifModifiedSince) } := by
  unfold conditional? at h
  dsimp only at h
  split at h
  · cases h
  · next hsome =>
    refine ⟨?_, (Option.some.inj h).symm⟩
    by_cases htag : validator? req e HeaderName.etag HeaderName.ifNoneMatch = none
    · exact .inr fun hmodified => hsome (by rw [htag, hmodified]; rfl)
    · exact .inl htag

/-- Adding a validator under one name leaves another name without values. -/
theorem contains_addValidator {h : Headers} {name n : HeaderName} (v : Option HeaderValue)
    (hn : n ≠ name) (fresh : h.contains n = false) :
    (addValidator h name v).contains n = false := by
  rw [Headers.contains_eq_false_iff] at fresh ⊢
  exact (values_addValidator_of_ne v hn).trans fresh

theorem AddsValidators.of_conditional {req sent : Request} {e : Entry}
    (h : conditional? req e = some sent) : AddsValidators req sent := by
  obtain ⟨-, rfl⟩ := conditional?_eq_some h
  have hfirst : validator? req e HeaderName.etag HeaderName.ifNoneMatch ≠ none →
      req.headers.contains HeaderName.ifNoneMatch = false := by
    intro hv
    exact (validator?_ne_none hv).1
  have hsecond : validator? req e HeaderName.lastModified HeaderName.ifModifiedSince ≠ none →
      (addValidator req.headers HeaderName.ifNoneMatch
        (validator? req e HeaderName.etag HeaderName.ifNoneMatch)).contains
          HeaderName.ifModifiedSince = false := by
    intro hv
    exact contains_addValidator _ (by decide) (validator?_ne_none hv).1
  obtain ⟨tag, htag, hfirst⟩ := fields_addValidator hfirst
  obtain ⟨modified, hmodified, hsecond⟩ := fields_addValidator hsecond
  refine ⟨tag ++ modified, ?_, rfl, ?_⟩
  · intro f hf
    rcases List.mem_append.mp hf with hf | hf
    · exact .inl (htag f hf)
    · exact .inr (hmodified f hf)
  · rw [hsecond, hfirst, List.append_assoc]

/-- Under the name of a validator stand the client's values, or the entry's if it has none. -/
theorem values_validated {req : Request} {h : Headers} {name : HeaderName}
    (hv : h.values name = req.headers.values name) (e : Entry) (stored : HeaderName) :
    (addValidator h name (validator? req e stored name)).values name =
      if req.headers.contains name then req.headers.values name
      else (e.headers.get? stored).toList := by
  rw [validator?]
  split
  · exact hv
  · next hc =>
    rw [Bool.not_eq_true, Headers.contains_eq_false_iff] at hc
    rw [values_addValidator]
    cases e.headers.get? stored with
    | none => exact hv.trans hc
    | some v => exact if_pos rfl

theorem values_conditional {req sent : Request} {e : Entry} (h : conditional? req e = some sent) :
    (sent.headers.values HeaderName.ifNoneMatch =
      if req.headers.contains HeaderName.ifNoneMatch then
        req.headers.values HeaderName.ifNoneMatch
      else (e.headers.get? HeaderName.etag).toList) ∧
    sent.headers.values HeaderName.ifModifiedSince =
      if req.headers.contains HeaderName.ifModifiedSince then
        req.headers.values HeaderName.ifModifiedSince
      else (e.headers.get? HeaderName.lastModified).toList := by
  obtain ⟨-, rfl⟩ := conditional?_eq_some h
  constructor
  · rw [values_addValidator_of_ne _ (by decide)]
    exact values_validated rfl e HeaderName.etag
  · exact values_validated (values_addValidator_of_ne _ (by decide)) e HeaderName.lastModified

theorem toList_ne_nil {α : Type} {v : Option α} (h : v ≠ none) : v.toList ≠ [] := by
  cases v with
  | none => exact absurd rfl h
  | some v => exact List.cons_ne_nil v []

/-- A request with the entry's validators is another one. -/
theorem conditional_ne {req sent : Request} {e : Entry} (h : conditional? req e = some sent) :
    sent ≠ req := by
  rintro rfl
  obtain ⟨htag, hmodified⟩ := values_conditional h
  obtain ⟨hadded | hadded, -⟩ := conditional?_eq_some h
  · obtain ⟨hc, hsome⟩ := validator?_ne_none hadded
    rw [hc, if_neg Bool.false_ne_true, Headers.contains_eq_false_iff.mp hc] at htag
    exact toList_ne_nil hsome htag.symm
  · obtain ⟨hc, hsome⟩ := validator?_ne_none hadded
    rw [hc, if_neg Bool.false_ne_true, Headers.contains_eq_false_iff.mp hc] at hmodified
    exact toList_ne_nil hsome hmodified.symm

/-- What a check of an entry sends, and when its answer may confirm the entry. -/
theorem plan_some_check {req sent : Request} {e e' : Entry} {now : Nat} {validates : Bool}
    (h : plan (some e) req now = .check e' sent validates) :
    e' = e ∧ ((validates = true ∧ conditional? req e = some sent) ∨
      (validates = false ∧ sent = req)) := by
  simp only [plan] at h
  split at h
  · cases h
  · cases h
    exact ⟨rfl, .inr ⟨rfl, rfl⟩⟩
  · split at h
    · next hsent =>
      cases h
      exact ⟨rfl, .inl ⟨rfl, hsent⟩⟩
    · cases h
      exact ⟨rfl, .inr ⟨rfl, rfl⟩⟩

theorem AddsValidators.of_plan {req sent : Request} {e e' : Entry} {now : Nat} {validates : Bool}
    (h : plan (some e) req now = .check e' sent validates) : AddsValidators req sent := by
  obtain ⟨-, ⟨-, hsent⟩ | ⟨-, rfl⟩⟩ := plan_some_check h
  · exact .of_conditional hsent
  · exact .refl sent

/-! ## Every attempt takes a course -/

section Exchange

variable {σ : Type} [ByteStore σ] {origin : Origin} {now : Nat} {store : σ} {req : Request}
  {e : Entry}

/-- What there is room to read is an entry, or nothing that counts as one. -/
theorem breaksOff_of_found (hf : found store req = some e) :
    breaksOff store (cacheKey req) = false := by
  obtain ⟨hload, -⟩ := Option.filter_eq_some_iff.mp hf
  rw [load] at hload
  rw [breaksOff]
  cases hget : (ByteStore.get store (cacheKey req)).answer with
  | error cause => rfl
  | ok value =>
    cases value with
    | none => rfl
    | some bytes =>
      simp only [hget] at hload
      cases hdecode : Entry.decode bytes with
      | ok read => simp only [hdecode]
      | error cause =>
        rw [hdecode] at hload
        cases hload

/-- The attempt of a request that was sent to the origin after its lookup; nothing is settled
where there was no room. -/
def concluded (store : σ) (req sent : Request) : Option Settlement → Attempt σ
  | some s => .done (settled store req sent s)
  | none => .brokenOff [sent] (load store (cacheKey req)).2

/-- A lookup that does not break off goes by the plan for what it found. -/
theorem lookUp_eq (origin : Origin) (now : Nat) (store : σ) (req : Request) :
    lookUp origin now store req =
      if breaksOff store (cacheKey req) then .brokenOff [] (load store (cacheKey req)).2
      else
        match plan (found store req) req now with
        | .reply resp =>
          .done { answer := .ok resp, asked := [], store := (load store (cacheKey req)).2 }
        | .fetch =>
          .done (settled store req req
            (match origin req with
            | .ok resp => deliver req now resp
            | .error e => { answer := .error e, effect := .keep }))
        | .check e sent validates =>
          concluded store req sent (settle req now e validates (origin sent)) := by
  rw [lookUp, found]
  dsimp only
  split
  · rfl
  · cases plan ((load store (cacheKey req)).1.filter fun e => e.answers req) req now with
    | reply resp => rfl
    | fetch => cases origin req <;> rfl
    | check e sent validates =>
      dsimp only
      cases settle req now e validates (origin sent) <;> rfl

theorem lookUp_of_found (hf : found store req = some e) (origin : Origin) (now : Nat) :
    lookUp origin now store req =
      match plan (some e) req now with
      | .reply resp =>
        .done { answer := .ok resp, asked := [], store := (load store (cacheKey req)).2 }
      | .fetch =>
        .done (settled store req req
          (match origin req with
          | .ok resp => deliver req now resp
          | .error e => { answer := .error e, effect := .keep }))
      | .check e sent validates =>
        concluded store req sent (settle req now e validates (origin sent)) := by
  rw [lookUp_eq, breaksOff_of_found hf, hf, if_neg Bool.false_ne_true]

theorem course_of_check (hc : req.isCacheable = true) (hf : found store req = some e)
    {sent : Request} {validates : Bool}
    (hp : plan (some e) req now = .check e sent validates) :
    Course origin now store req
      (concluded store req sent (settle req now e validates (origin sent))) := by
  cases hr : origin sent with
  | ok resp =>
    simp only [settle]
    split
    · next h304 =>
      rw [Bool.and_eq_true, decide_eq_true_iff] at h304
      obtain ⟨h304, rfl⟩ := h304
      have hvalidates : Validates origin now store req e sent resp := ⟨hc, hf, hp, hr, h304⟩
      cases hm : e.refresh? resp.headers with
      | some merged => exact .confirmed hvalidates hm
      | none => exact .unmerged hvalidates hm
    · next hconf =>
      rw [Bool.and_eq_true, decide_eq_true_iff] at hconf
      split
      · next hcov =>
        rw [Bool.and_eq_true] at hcov
        exact .covered hc hf hp (by rw [hr]; exact hcov)
      · next hcov =>
        rw [Bool.and_eq_true] at hcov
        exact .replaced hc hf hp hr (by rw [hr]; exact hconf) (by rw [hr]; exact hcov)
  | error err =>
    simp only [settle]
    split
    · next hcov => exact .covered hc hf hp (by rw [hr]; exact hcov)
    · next hcov => exact .failed hc hf hp hr (by rw [hr]; exact hcov)

theorem lookUp_course (hc : req.isCacheable = true) :
    Course origin now store req (lookUp origin now store req) := by
  cases hf : found store req with
  | none =>
    rw [lookUp_eq, hf]
    split
    · next hb => exact .unread hc hb
    · simp only [plan]
      split
      · next ho =>
        split at ho
        · next hasked =>
          cases ho
          exact .refused hc hf hasked
        · cases ho
      · cases hr : origin req with
        | ok resp => exact .fetched hc hf hr
        | error e => exact .missed hc hf hr
      · next ho => split at ho <;> cases ho
  | some e =>
    rw [lookUp_of_found hf]
    cases hp : plan (some e) req now with
    | reply resp =>
      simp only [plan] at hp
      split at hp
      · next hfresh =>
        cases hp
        exact .fresh hc hf hfresh
      · cases hp
      · split at hp <;> cases hp
    | fetch =>
      simp only [plan] at hp
      split at hp
      · cases hp
      · cases hp
      · split at hp <;> cases hp
    | check e' sent validates =>
      obtain ⟨rfl, -⟩ := plan_some_check hp
      exact course_of_check hc hf hp

theorem attempt_course (origin : Origin) (now : Nat) (store : σ) (req : Request) :
    Course origin now store req (attempt origin now store req) := by
  rw [attempt]
  split
  · next hc => exact lookUp_course hc
  · next hc => exact .passed (Bool.eq_false_iff.mpr hc)

/-! ## Single courses -/

/-- A request whose key cannot be read for want of room. -/
theorem attempt_of_breaksOff (hc : req.isCacheable = true)
    (hb : breaksOff store (cacheKey req) = true) (origin : Origin) (now : Nat) :
    attempt origin now store req = .brokenOff [] (load store (cacheKey req)).2 := by
  rw [attempt, if_pos hc, lookUp_eq, if_pos hb]

/-- A request for which nothing is stored gets the answer of the origin. -/
theorem attempt_of_miss (hc : req.isCacheable = true)
    (hb : breaksOff store (cacheKey req) = false) (hf : found store req = none)
    (ho : req.onlyIfCached = false) {resp : Response} (hr : origin req = .ok resp) (now : Nat) :
    attempt origin now store req = .done (settled store req req (deliver req now resp)) := by
  rw [attempt, if_pos hc, lookUp_eq, hb, if_neg Bool.false_ne_true, hf, plan, ho, hr]
  rfl

/-- A request that finds nothing and wants a stored response or none. -/
theorem attempt_of_refused (hc : req.isCacheable = true)
    (hb : breaksOff store (cacheKey req) = false) (hf : found store req = none)
    (ho : req.onlyIfCached = true) (origin : Origin) (now : Nat) :
    attempt origin now store req =
      .done { answer := .ok (Response.bare .gatewayTimeout), asked := []
              store := (load store (cacheKey req)).2 } := by
  rw [attempt, if_pos hc, lookUp_eq, hb, if_neg Bool.false_ne_true, hf, plan, ho]
  rfl

/-- A request that finds a fresh entry gets it. -/
theorem attempt_of_fresh (hc : req.isCacheable = true) (hf : found store req = some e)
    (hfresh : freshness e.headers req.headers now = .fresh) (origin : Origin) :
    attempt origin now store req =
      .done { answer := .ok e.toResponse, asked := []
              store := (load store (cacheKey req)).2 } := by
  rw [attempt, if_pos hc, lookUp_of_found hf]
  simp only [plan, hfresh]

/-- A request that finds a confirmed entry gets it with what the origin says, if there is room. -/
theorem Validates.attempt_eq {sent : Request} {resp : Response}
    (h : Validates origin now store req e sent resp) :
    attempt origin now store req =
      concluded store req sent
        ((e.refresh? resp.headers).map fun merged => deliver req now merged.toResponse) := by
  rw [attempt, if_pos h.cacheable, lookUp_of_found h.found, h.plan]
  dsimp only
  rw [h.answer]
  unfold settle
  dsimp only
  rw [if_pos (by simp [h.status])]

/-- A request that is answered without asking was refused or found a fresh entry. -/
theorem Course.of_not_asked {x : Exchange σ} (c : Course origin now store req (.done x))
    (h : x.asked = []) : req.isCacheable = true ∧
      ((found store req = none ∧ req.onlyIfCached = true ∧
          x.answer = .ok (Response.bare .gatewayTimeout)) ∨
        ∃ e, found store req = some e ∧ freshness e.headers req.headers now = .fresh ∧
          x.answer = .ok e.toResponse) := by
  cases c with
  | refused hc hf ho => exact ⟨hc, .inl ⟨hf, ho, rfl⟩⟩
  | fresh hc hf hfresh => exact ⟨hc, .inr ⟨_, hf, hfresh, rfl⟩⟩
  | passed | fetched | missed | confirmed | covered | replaced | failed =>
    exact absurd h (List.cons_ne_nil _ _)

/-- An entry that was found is served without asking exactly while it is fresh for the request. -/
theorem not_asked_iff_fresh (hc : req.isCacheable = true) (hf : found store req = some e) :
    (attempt origin now store req).asked = [] ↔
      freshness e.headers req.headers now = .fresh := by
  constructor
  · intro h
    have c := attempt_course origin now store req
    cases ha : attempt origin now store req with
    | done x =>
      rw [ha] at c h
      obtain ⟨-, ⟨hnone, -⟩ | ⟨e', hsome, hfresh, -⟩⟩ := c.of_not_asked h
      · exact absurd (hf.symm.trans hnone) nofun
      · obtain rfl := Option.some.inj (hf.symm.trans hsome)
        exact hfresh
    | brokenOff asked after =>
      rw [ha] at c h
      cases c with
      | unread _ hb => exact absurd (hb.symm.trans (breaksOff_of_found hf)) nofun
      | unmerged => exact absurd h (List.cons_ne_nil _ _)
  · intro hfresh
    rw [attempt_of_fresh hc hf hfresh]
    rfl

end Exchange

/-! ## Samples -/

namespace Sample

def target (text : String) : Uri :=
  (Uri.ofText text).toOption.getD Uri.star

def value (text : String) : HeaderValue :=
  (HeaderValue.ofBytes? (utf8 text)).getD .one

def epoch : HeaderValue := value "Thu, 01 Jan 1970 00:00:00 GMT"

def accept : HeaderName := ⟨"accept", by decide⟩

/-- A `GET` request for one fixed address. -/
def request (lines : List (HeaderName × HeaderValue)) : Request where
  method := .get
  uri := target "http://o.test/"
  version := .http11
  headers := Headers.ofLines lines
  body := []

def response (status : Status) (lines : List (HeaderName × HeaderValue)) (body : Bytes) :
    Response where
  status
  headers := Headers.ofLines lines
  body

end Sample

end PeerCache
