import PeerCache.Proofs.CodecLaws
import PeerCache.Proofs.ExchangeCourses
import PeerCache.Proofs.StoreContents

/-!
# Stored entries

What attempts put into a stack of layers. An attempt stores at most one entry, captured from
what the client gets: an answer of the origin, or an entry that the origin has just confirmed.
So a property of slots and values, or of slots and entries, that holds of everything in a store
still holds after an attempt, provided that the entry which the attempt stores has it.
-/

namespace PeerCache

/-- An attempt stores an entry. -/
inductive Stores {σ : Type} [ByteStore σ] (origin : Origin) (now : Nat) (store : σ)
    (req : Request) : Attempt σ → Entry → Prop
  /-- What the origin answers is stored. -/
  | answered (hc : req.isCacheable = true) {sent : Request} (ha : AddsValidators req sent)
    {resp : Response} (hr : origin sent = .ok resp) (hs : canStore req resp = true) :
    Stores origin now store req (.done (settled store req sent (deliver req now resp)))
      (Entry.capture req resp now)
  /-- An entry that the origin confirms is stored again. -/
  | confirmed {old merged : Entry} {sent : Request} {conf : Response}
    (h : Validates origin now store req old sent conf)
    (hm : old.refresh? conf.headers = some merged) (hs : canStore req merged.toResponse = true) :
    Stores origin now store req
      (.done (settled store req sent (deliver req now merged.toResponse)))
      (Entry.capture req merged.toResponse now)

theorem Stores.isCacheable {σ : Type} [ByteStore σ] {origin : Origin} {now : Nat} {store : σ}
    {req : Request} {a : Attempt σ} {e : Entry} (h : Stores origin now store req a e) :
    req.isCacheable = true := by
  cases h with
  | answered hc => exact hc
  | confirmed h => exact h.cacheable

/-! ## Whatever is written -/

namespace Stack.Keeps

variable {s : Stack} {P : String → Bytes → Prop} {store : s.State} {key : String} {req : Request}
  {e : Entry}

theorem evict (h : s.Keeps P store) (key : String) :
    s.Keeps P (Effect.evict.apply store key) :=
  h.delete key

theorem save (h : s.Keeps P store) (he : P (s.slot key) e.encode) :
    s.Keeps P ((Effect.save e).apply store key) :=
  h.set key e.encode he

theorem passThrough (h : s.Keeps P store) (origin : Origin) (req : Request) :
    s.Keeps P (passThrough origin store req).store := by
  rcases store_passThrough origin store req with hsame | ⟨-, hdropped⟩
  · rw [hsame]
    exact h
  · rw [hdropped]
    exact (h.evict _).evict _

theorem deliver {now : Nat} {resp : Response} (h : s.Keeps P store)
    (hk : canStore req resp = true → P (s.slot key) (Entry.capture req resp now).encode) :
    s.Keeps P ((deliver req now resp).effect.apply store key) := by
  rw [PeerCache.deliver]
  dsimp only
  split
  · next hs => exact h.save (hk hs)
  · exact h.evict key

/-- An attempt keeps a property of slots and values that the value has which it writes. -/
theorem course (h : s.Keeps P store) {origin : Origin} {now : Nat} {a : Attempt s.State}
    (c : Course origin now store req a)
    (hk : ∀ e, Stores origin now store req a e → P (s.slot (cacheKey req)) e.encode) :
    s.Keeps P a.store := by
  have hload : s.Keeps P (load store (cacheKey req)).2 := h.get _
  cases c with
  | passed hc => exact h.passThrough origin req
  | unread | refused | missed | fresh | unmerged | covered => exact hload
  | fetched hc hf hr => exact hload.deliver fun hs => hk _ (.answered hc (.refl req) hr hs)
  | confirmed h hm => exact hload.deliver fun hs => hk _ (.confirmed h hm hs)
  | replaced hc hf hp hr hconf hcov =>
    exact hload.deliver fun hs => hk _ (.answered hc (.of_plan hp) hr hs)
  | failed hc hf hp hr hcov => exact hload.evict _

end Stack.Keeps

/-! ## Whatever is read -/

/-- Whether every entry that the base answers with has a property, given with its slot. -/
def Stack.Holds (s : Stack) (P : String → Entry → Prop) (store : s.State) : Prop :=
  s.Keeps (fun slot bytes => ∀ e, Entry.decode bytes = .ok e → P slot e) store

variable {s : Stack} {P Q : String → Entry → Prop} {store : s.State} {key : String}
  {req : Request} {e : Entry}

namespace Stack.Holds

theorem initial (s : Stack) (P : String → Entry → Prop) : s.Holds P s.initial :=
  keeps_initial s _

theorem mono (h : s.Holds P store) (hpq : ∀ slot e, P slot e → Q slot e) : s.Holds Q store :=
  Keeps.mono h fun slot _ hp e he => hpq slot e (hp e he)

theorem of_load (h : s.Holds P store) (he : (PeerCache.load store key).1 = some e) :
    P (s.slot key) e := by
  unfold PeerCache.load at he
  dsimp only at he
  split at he
  · next bytes hget =>
    cases hdecode : Entry.decode bytes with
    | error cause =>
      rw [hdecode] at he
      cases he
    | ok read =>
      rw [hdecode] at he
      cases he
      exact Keeps.of_get h hget _ hdecode
  · cases he

theorem of_found (h : s.Holds P store) (hf : found store req = some e) :
    P (s.slot (cacheKey req)) e ∧ e.answers req = true := by
  obtain ⟨hload, hanswers⟩ := Option.filter_eq_some_iff.mp hf
  exact ⟨h.of_load hload, hanswers⟩

/-- An attempt keeps a property that the entry has which it stores, because whatever is written
is what the written entry reads as. -/
theorem course (h : s.Holds P store) {origin : Origin} {now : Nat} {a : Attempt s.State}
    (c : Course origin now store req a)
    (hk : ∀ e, Stores origin now store req a e → P (s.slot (cacheKey req)) e) :
    s.Holds P a.store := by
  apply Keeps.course h c
  intro e he e' hdecode
  rw [Entry.eq_of_decode_encode hdecode]
  exact hk e he

end Stack.Holds

end PeerCache
