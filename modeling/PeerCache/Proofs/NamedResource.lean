import PeerCache.Proofs.ExchangeCourses
import PeerCache.Proofs.Forwarding

/-!
# Named resources

A router names a resource in the query of the request that it sends to a boundary. Whatever text
the resource is, and whatever other parts the query has, the boundary judges that very text: no
mark of the text is lost or taken for one of the query on the way.
-/

namespace PeerCache.Boundary

/-- The address that a resource is fetched from. -/
def IsServed (resource : String) (url : Url) : Prop :=
  Url.ofText resource = .ok (.hosted url) ∧ (url.scheme = "http" ∨ url.scheme = "https") ∧
    url.host ≠ ""

/-- Why a resource is no address of the web. -/
inductive Refuses (resource : String) : String → Prop
  | unreadable {e : UrlError} (h : Url.ofText resource = .error e) : Refuses resource e.message
  | scheme {address : Address} (h : Url.ofText resource = .ok address)
    (hscheme : address.scheme ≠ "http" ∧ address.scheme ≠ "https") :
    Refuses resource ("unsupported scheme " ++ address.scheme)
  | hostless {scheme : String} (h : Url.ofText resource = .ok (.hostless scheme))
    (hscheme : scheme = "http" ∨ scheme = "https") : Refuses resource "missing host"

/-- What naming a resource comes to. -/
inductive Judged (resource : String) : Except BoundaryError Url → Prop
  | missing (h : resource = "") : Judged resource (.error .missingTarget)
  | served {url : Url} (h : IsServed resource url) : Judged resource (.ok url)
  | invalid (reason : String) (hsome : resource ≠ "") (h : ∀ url, ¬IsServed resource url) :
    Judged resource (.error (.invalidTarget resource reason))

variable {resource : String} {answer : Except BoundaryError Url}

theorem Judged.ne_malformedEscape (h : Judged resource answer) :
    answer ≠ .error .malformedEscape := by
  cases h <;> simp

theorem host_ne {url : Url} (h : Url.ofText resource = .ok (.hosted url)) : url.host ≠ "" := by
  obtain ⟨scheme, -, hassembled⟩ := Url.parse_inv h
  exact hassembled.host_ne

theorem checkTarget_of_served {url : Url} (h : IsServed resource url) :
    checkTarget resource.toList = .ok url := by
  obtain ⟨hread, hweb, -⟩ := h
  have hparse : Url.parse resource.toList = .ok (.hosted url) := hread
  have hscheme :
      ¬((Address.hosted url).scheme ≠ "http" ∧ (Address.hosted url).scheme ≠ "https") := by
    rintro ⟨hhttp, hhttps⟩
    exact hweb.elim hhttp hhttps
  rw [checkTarget, hparse]
  exact if_neg hscheme

theorem checkTarget_of_refuses {reason : String} (h : Refuses resource reason) :
    checkTarget resource.toList = .error (.invalidTarget resource reason) := by
  rw [checkTarget, String.ofList_toList]
  cases h with
  | unreadable h =>
    have hparse : Url.parse resource.toList = _ := h
    rw [hparse]
  | scheme h hscheme =>
    have hparse : Url.parse resource.toList = _ := h
    rw [hparse]
    exact if_pos hscheme
  | hostless h hscheme =>
    have hparse : Url.parse resource.toList = _ := h
    rw [hparse]
    refine if_neg ?_
    rintro ⟨hhttp, hhttps⟩
    exact hscheme.elim hhttp hhttps

/-- Every resource is served, or it is not and there is a reason. -/
theorem served_or_refuses (resource : String) :
    (∃ url, IsServed resource url) ∨
      (∀ url, ¬IsServed resource url) ∧ ∃ reason, Refuses resource reason := by
  have hnot {url : Url} {answer : Except UrlError Address} (hread : Url.ofText resource = answer)
      (hne : answer ≠ .ok (.hosted url)) : ¬IsServed resource url :=
    fun hserved => hne (hread.symm.trans hserved.1)
  cases hread : Url.ofText resource with
  | error e => exact .inr ⟨fun url => hnot hread nofun, e.message, .unreadable hread⟩
  | ok address =>
    cases address with
    | hostless scheme =>
      refine .inr ⟨fun url => hnot hread nofun, ?_⟩
      by_cases hscheme : scheme = "http" ∨ scheme = "https"
      · exact ⟨_, .hostless hread hscheme⟩
      · exact ⟨_, .scheme hread (not_or.mp hscheme)⟩
    | hosted url =>
      by_cases hscheme : url.scheme = "http" ∨ url.scheme = "https"
      · exact .inl ⟨url, hread, hscheme, host_ne hread⟩
      · refine .inr ⟨?_, _, .scheme hread (not_or.mp hscheme)⟩
        rintro other ⟨hother, hweb, -⟩
        obtain rfl := Address.hosted.inj (Except.ok.inj (hread.symm.trans hother))
        exact hscheme hweb

theorem judged_checkTarget (hsome : resource ≠ "") :
    Judged resource (checkTarget resource.toList) := by
  obtain ⟨url, hserved⟩ | ⟨hnone, reason, hrefuses⟩ := served_or_refuses resource
  · rw [checkTarget_of_served hserved]
    exact .served hserved
  · rw [checkTarget_of_refuses hrefuses]
    exact .invalid reason hsome hnone

theorem judged_queryAmong (before after : List (List Char)) (resource : String)
    (hmarks : ∀ part ∈ before ++ after, '&' ∉ part)
    (hnames : ∀ part ∈ before, Form.decode (Form.splitPair part).1 ≠ ['q']) :
    Judged resource (parseTarget (some (queryAmong before after resource))) := by
  rw [parseTarget_queryAmong before after resource hmarks hnames]
  split
  · next h => exact .missing h
  · next h => exact judged_checkTarget h

end PeerCache.Boundary

namespace PeerCache

/-- The boundary of a peer judges the resource that a router named in the target of its request:
none, the address that the text is read as, or no address of the web. Other parts of the query
make no difference, as long as none in front has the same name. -/
theorem boundary_judges_named_resource {config : RouterConfig} {peer resource : String} {url : Url}
    {uri : Uri} (hurl : Router.boundaryUrl config peer resource = .ok url)
    (huri : Uri.ofText url.text = .ok uri) :
    ∃ answer, Boundary.Judged resource answer ∧ answer ≠ .error .malformedEscape ∧
      Boundary.parseTarget (uri.query.map String.toList) = answer ∧
      ∀ before after : List (List Char), (∀ part ∈ before ++ after, '&' ∉ part) →
        (∀ part ∈ before, Form.decode (Form.splitPair part).1 ≠ ['q']) →
        Boundary.parseTarget
          (some (['&'].intercalate (before ++ (uri.query.getD "").toList :: after))) = answer := by
  obtain ⟨-, -, -, -, hquery, -⟩ := Router.ofText_boundaryUrl hurl huri
  have hjudged := Boundary.judged_queryAmong [] [] resource (by simp) (by simp)
  rw [Boundary.queryAmong_nil] at hjudged
  refine ⟨_, hjudged, hjudged.ne_malformedEscape, by rw [hquery, Option.map_some], ?_⟩
  intro before after hmarks hnames
  have hown := Boundary.parseTarget_queryAmong [] [] resource (by simp) (by simp)
  rw [Boundary.queryAmong_nil] at hown
  rw [hquery, Option.getD_some, hown]
  exact Boundary.parseTarget_queryAmong before after resource hmarks hnames

/-! ## A resource full of marks -/

namespace MarkedResource

def config : RouterConfig := { path := "/p x" }

/-- Under another name of its scheme and host, with a name, a path, a query and a fragment. -/
def peer : String := "HTTP://u@P.test:80/base?x#f"

def resource : String := "http://o.test/a b+c?x=1&q=%zz;%26#ä"

def url : Url where
  scheme := "http"
  userinfo := "u@"
  host := "p.test"
  port := none
  path := "/p%20x"
  query := some "q=http%3A%2F%2Fo.test%2Fa+b%2Bc%3Fx%3D1%26q%3D%25zz%3B%2526%23%C3%A4"
  fragment := some "f"

def served : Url where
  scheme := "http"
  userinfo := ""
  host := "o.test"
  port := none
  path := "/a%20b+c"
  query := some "x=1&q=%zz;%26"
  fragment := some "%C3%A4"

/-- Parts with other names, one of them empty and one with a broken escape. -/
def before : List (List Char) := ["x=1".toList, [], "%zz".toList, "Q=http://o.test/".toList]

def after : List (List Char) := ["q=http://p.test/".toList, "%".toList]

end MarkedResource

open MarkedResource in
theorem marked_resource_reaches_boundary :
    Router.boundaryUrl config peer resource = .ok url ∧
      Uri.ofText url.text = .ok (Sample.target url.text) ∧
      (Sample.target url.text).query = url.query ∧
      (∀ part ∈ before ++ after, '&' ∉ part) ∧
      (∀ part ∈ before, Form.decode (Form.splitPair part).1 ≠ ['q']) ∧
      Boundary.Judged resource (.ok served) ∧
      Boundary.parseTarget ((Sample.target url.text).query.map String.toList) = .ok served ∧
      Boundary.parseTarget (some (['&'].intercalate
        (before ++ ((Sample.target url.text).query.getD "").toList :: after))) = .ok served := by
  have hurl : Router.boundaryUrl config peer resource = .ok url := by decide +kernel
  have huri : Uri.ofText url.text = .ok (Sample.target url.text) := by decide +kernel
  have hmarks : ∀ part ∈ before ++ after, '&' ∉ part := by decide
  have hnames : ∀ part ∈ before, Form.decode (Form.splitPair part).1 ≠ ['q'] := by decide +kernel
  obtain ⟨answer, hjudged, -, hread, hamong⟩ := boundary_judges_named_resource hurl huri
  have hserved : answer = .ok served := by
    rw [← hread]
    decide +kernel
  rw [hserved] at hjudged hread hamong
  exact ⟨hurl, huri, by decide +kernel, hmarks, hnames, hjudged, hread,
    hamong before after hmarks hnames⟩

end PeerCache
