import Libobject.Core.RbTreeMap
import Libobject.Lib.Run
import Libobject.Lib.Scan

/-!
# Invokes and their replies

A client of the bus keeps a record of each invoke in `req_map`, under the name of the object and
the method, and a reply is looked up there by the same name. Records are numbered in the order in
which they are made. What arrives from the daemon answers one record; which one is known to the
model only, the message names an object and a method.
-/

namespace Libobject.Bus

open Scan

abbrev ReqId := ℕ

/-- The state of a synchronous request that has no reply yet. -/
def reqWaiting : BitVec 32 := 0xfffe

/-- `bus_req_t`. `sent`, `returned` and `answered` say how far the invoke has come. -/
structure Req where
  objectId : Text
  method : Text
  async : Bool
  state : BitVec 32
  outBuf : Bool
  bufferLen : ℕ
  reply : List UInt8
  sent : Bool
  returned : Bool
  answered : Bool
  deriving DecidableEq

def reqKey (objectId method : Text) : Text := objectId ++ 64 :: method

def Req.key (r : Req) : Text := reqKey r.objectId r.method

/-- The invoke is over: a synchronous one has returned, an asynchronous one could not be sent or
has had its callback. -/
def Req.Done (r : Req) : Prop :=
  r.returned = true ∧ (r.async = true → r.sent = false ∨ r.answered = true)

/-- `delivered` lists which request was handed the reply to which; `smashed` is set when a key is
written past its buffer. -/
structure Client where
  reqMap : RbTreeMap strcmp ReqId
  reqs : List Req
  delivered : List (ReqId × ReqId)
  smashed : Bool

def Client.init : Client := ⟨.empty, [], [], false⟩

def Client.updReq (c : Client) (i : ReqId) (f : Req → Req) : Client :=
  { c with reqs := c.reqs.modify i f }

def reqKeySize : ℕ := 4096

def replyKeySize : ℕ := 2048

variable (rb : Rebalance (Text × ReqId))

/-- The first half of an invoke: the record is made and added to the map. -/
def invoke (c : Client) (objectId method : Text) (async outBuf : Bool) (bufferLen : ℕ) : Client :=
  let key := reqKey objectId method
  { c with
    reqMap := c.reqMap.add rb key c.reqs.length
    reqs := c.reqs ++
      [{ objectId, method, async, state := if async then 0 else reqWaiting, outBuf, bufferLen,
         reply := [], sent := false, returned := false, answered := false }]
    smashed := c.smashed || reqKeySize ≤ key.length }

/-- The second half: the message is sent, and an asynchronous invoke returns. -/
def invokeSent (c : Client) (i : ReqId) : Client :=
  c.updReq i (fun r ↦ { r with sent := true, returned := r.async })

/-- The message could not be composed or sent: both kinds return the error. -/
def invokeFailed (c : Client) (i : ReqId) : Client :=
  c.updReq i (fun r ↦ { r with returned := true })

/-- A synchronous request takes over the reply, as much as its buffer holds. -/
def Req.take (r : Req) (state : BitVec 32) (buffer : List UInt8) : Req :=
  if r.async then r
  else
    { r with
      reply := if r.outBuf then buffer.take (min r.bufferLen buffer.length) else r.reply
      state := state }

/-- The client that has handled a reply and the request that was handed it. -/
def handleInvokeReply (c : Client) (objectId method : Text) (state : BitVec 32)
    (buffer : List UInt8) : Client × Option ReqId :=
  let key := reqKey objectId method
  let c := { c with smashed := c.smashed || replyKeySize ≤ key.length }
  match c.reqMap.search key with
  | none => (c, none)
  | some q => (c.updReq q (fun r ↦ r.take state buffer), some q)

/-- The waiting loop has seen another state: the record is deleted by its key and freed. -/
def invokeReturn (c : Client) (i : ReqId) : Client :=
  match c.reqs[i]? with
  | none => c
  | some r =>
    { c.updReq i (fun r ↦ { r with returned := true }) with reqMap := c.reqMap.del rb r.key }

/-- The reply that answers request `i` arrives. -/
def replyArrives (c : Client) (i : ReqId) (state : BitVec 32) (buffer : List UInt8) : Client :=
  match c.reqs[i]? with
  | none => c
  | some r =>
    let (c, q) := handleInvokeReply c r.objectId r.method state buffer
    { c.updReq i (fun r ↦ { r with answered := true }) with
      delivered := c.delivered ++ q.toList.map (fun q ↦ (i, q)) }

/-- A message is composed and sent, or fails, in one event, with no other in between. -/
inductive Event
  | invoke (objectId method : Text) (async outBuf : Bool) (bufferLen : ℕ)
  | sent (i : ReqId)
  | failed (i : ReqId)
  | reply (i : ReqId) (state : BitVec 32) (buffer : List UInt8)
  | returns (i : ReqId)

def step (c : Client) : Event → Client
  | .invoke objectId method async outBuf bufferLen =>
    invoke rb c objectId method async outBuf bufferLen
  | .sent i => invokeSent c i
  | .failed i => invokeFailed c i
  | .reply i state buffer => replyArrives c i state buffer
  | .returns i => invokeReturn rb c i

/-- The order of things: an invoke is sent or fails once, what was sent is answered at most once,
and a synchronous invoke returns when it has left the waiting state. -/
def Possible (c : Client) : Event → Prop
  | .invoke .. => True
  | .sent i | .failed i => ∃ r ∈ c.reqs[i]?, r.sent = false ∧ r.returned = false
  | .reply i _ _ => ∃ r ∈ c.reqs[i]?, r.sent = true ∧ r.answered = false
  | .returns i => ∃ r ∈ c.reqs[i]?,
      r.async = false ∧ r.sent = true ∧ r.returned = false ∧ r.state ≠ reqWaiting

instance (c : Client) : (e : Event) → Decidable (Possible c e)
  | .invoke .. => inferInstanceAs (Decidable True)
  | .sent _ | .failed _ | .reply .. | .returns _ =>
    inferInstanceAs (Decidable (∃ r ∈ _, _))

/-- Replies reach the requests they answer, each at most one, and what is over is out of reach. -/
structure Matched (c : Client) : Prop where
  own : ∀ p ∈ c.delivered, p.1 = p.2
  once : (c.delivered.map Prod.snd).Nodup
  unreachable : ∀ (i : ReqId) (r : Req), c.reqs[i]? = some r → r.Done →
    ∀ k, (k, i) ∉ c.reqMap.entries
  intact : c.smashed = false

/-- A reply is delivered to its request, and nothing else is delivered. -/
def Delivers (c : Client) (e : Event) (c' : Client) : Prop :=
  match e with
  | .reply i _ _ => c'.delivered = c.delivered ++ [(i, i)]
  | _ => c'.delivered = c.delivered

/-- An invoke finds no record of its key in the map, and its key fits the reply handler's buffer;
messages are sent; and only synchronous requests are answered. -/
def Separate (c : Client) : Event → Prop
  | .invoke objectId method _ _ _ =>
    c.reqMap.search (reqKey objectId method) = none ∧
      (reqKey objectId method).length < replyKeySize
  | .failed _ => False
  | .reply i _ _ => ∀ r ∈ c.reqs[i]?, r.async = false
  | _ => True

instance (c : Client) : (e : Event) → Decidable (Separate c e)
  | .invoke .. => inferInstanceAs (Decidable (_ ∧ _))
  | .failed _ => inferInstanceAs (Decidable False)
  | .reply .. => inferInstanceAs (Decidable (∀ r ∈ _, _))
  | .sent _ | .returns _ => inferInstanceAs (Decidable True)

/-! ## The invariant of separate requests -/

/-- In a client whose requests are kept separate the map holds exactly the records of those that
are not over, under their own keys and each key once. -/
structure Inv (c : Client) : Prop where
  listed : ∀ (i : ReqId) (r : Req), c.reqs[i]? = some r → (r.async = true ∨ r.returned = false) →
    (r.key, i) ∈ c.reqMap.entries
  entry : ∀ k i, (k, i) ∈ c.reqMap.entries → ∃ r, c.reqs[i]? = some r ∧ r.key = k ∧ ¬r.Done
  keys : (c.reqMap.entries.map Prod.fst).Nodup
  sync : ∀ (i : ReqId) (r : Req), c.reqs[i]? = some r → r.async = false → r.answered = false →
    r.returned = false ∧ r.state = reqWaiting
  call : ∀ (i : ReqId) (r : Req), c.reqs[i]? = some r → r.async = true → r.answered = false
  size : ∀ (i : ReqId) (r : Req), c.reqs[i]? = some r → r.key.length < replyKeySize
  own : ∀ p ∈ c.delivered, p.1 = p.2 ∧ ∃ r, c.reqs[p.2]? = some r ∧ r.answered = true
  once : (c.delivered.map Prod.snd).Nodup
  intact : c.smashed = false

theorem Inv.matched {c : Client} (h : Inv c) : Matched c where
  own p hp := (h.own p hp).1
  once := h.once
  unreachable := by
    intro i r hr hdone k hk
    obtain ⟨r', hr', -, hnot⟩ := h.entry k i hk
    rw [hr] at hr'
    cases hr'
    exact hnot hdone
  intact := h.intact

theorem inv_init : Inv Client.init where
  listed := by simp [Client.init]
  entry := by simp [Client.init]
  keys := by simp [Client.init]
  sync := by simp [Client.init]
  call := by simp [Client.init]
  size := by simp [Client.init]
  own := by simp [Client.init]
  once := by simp [Client.init]
  intact := rfl

theorem reqs_updReq (c : Client) (i j : ReqId) (f : Req → Req) :
    (c.updReq i f).reqs[j]? = if i = j then c.reqs[j]?.map f else c.reqs[j]? := by
  rw [Client.updReq, List.getElem?_modify]
  split <;> simp

theorem of_reqs_updReq {c : Client} {i j : ReqId} {f : Req → Req} {r' : Req}
    (hr' : (c.updReq i f).reqs[j]? = some r') :
    (i = j ∧ ∃ r, c.reqs[i]? = some r ∧ r' = f r) ∨ i ≠ j ∧ c.reqs[j]? = some r' := by
  rw [reqs_updReq] at hr'
  by_cases hij : i = j
  · subst hij
    rw [if_pos rfl, Option.map_eq_some_iff] at hr'
    obtain ⟨r, hr, rfl⟩ := hr'
    exact .inl ⟨rfl, r, hr, rfl⟩
  · rw [if_neg hij] at hr'
    exact .inr ⟨hij, hr'⟩

theorem to_reqs_updReq {c : Client} {j : ReqId} {r : Req} (i : ReqId) (f : Req → Req)
    (hr : c.reqs[j]? = some r) :
    ∃ r', (c.updReq i f).reqs[j]? = some r' ∧ (i ≠ j ∧ r' = r ∨ i = j ∧ r' = f r) := by
  rw [reqs_updReq]
  by_cases hij : i = j
  · exact ⟨f r, by rw [if_pos hij, hr]; rfl, .inr ⟨hij, rfl⟩⟩
  · exact ⟨r, by rw [if_neg hij, hr], .inl ⟨hij, rfl⟩⟩

/-- A change of one request that moves it to no other place: it keeps its name and kind, and if it
is over now, or answered, or has left the waiting state, it was so before. -/
theorem Inv.updReq {c : Client} {i : ReqId} {f : Req → Req} (h : Inv c)
    (hkey : ∀ r, (f r).key = r.key) (hasync : ∀ r, (f r).async = r.async)
    (hdone : ∀ r, c.reqs[i]? = some r → ¬r.Done → ¬(f r).Done)
    (hlive : ∀ r, c.reqs[i]? = some r → (f r).returned = false → r.returned = false)
    (hansw : ∀ r, c.reqs[i]? = some r → r.answered = true → (f r).answered = true)
    (hsync : ∀ r, c.reqs[i]? = some r → r.async = false → (f r).answered = false →
      (f r).returned = false ∧ (f r).state = reqWaiting)
    (hcall : ∀ r, c.reqs[i]? = some r → r.async = true → (f r).answered = false) :
    Inv (c.updReq i f) where
  listed := by
    intro j r' hr' hor
    rcases of_reqs_updReq hr' with ⟨rfl, r, hr, rfl⟩ | ⟨-, hr⟩
    · rw [hkey]
      refine h.listed i r hr ?_
      rw [hasync] at hor
      exact hor.imp_right (hlive r hr)
    · exact h.listed j r' hr hor
  entry := by
    intro k j hk
    obtain ⟨r, hr, hrk, hnot⟩ := h.entry k j hk
    obtain ⟨r', hr', ⟨-, rfl⟩ | ⟨rfl, rfl⟩⟩ := to_reqs_updReq i f hr
    · exact ⟨r', hr', hrk, hnot⟩
    · exact ⟨f r, hr', (hkey r).trans hrk, hdone r hr hnot⟩
  keys := h.keys
  sync := by
    intro j r' hr' has han
    rcases of_reqs_updReq hr' with ⟨rfl, r, hr, rfl⟩ | ⟨-, hr⟩
    · exact hsync r hr ((hasync r).symm.trans has) han
    · exact h.sync j r' hr has han
  call := by
    intro j r' hr' has
    rcases of_reqs_updReq hr' with ⟨rfl, r, hr, rfl⟩ | ⟨-, hr⟩
    · exact hcall r hr ((hasync r).symm.trans has)
    · exact h.call j r' hr has
  size := by
    intro j r' hr'
    rcases of_reqs_updReq hr' with ⟨rfl, r, hr, rfl⟩ | ⟨-, hr⟩
    · rw [hkey]
      exact h.size i r hr
    · exact h.size j r' hr
  own := by
    rintro ⟨q, j⟩ hp
    obtain ⟨hpp, r, hr, han⟩ := h.own ⟨q, j⟩ hp
    obtain ⟨r', hr', ⟨-, rfl⟩ | ⟨rfl, rfl⟩⟩ := to_reqs_updReq i f hr
    · exact ⟨hpp, r', hr', han⟩
    · exact ⟨hpp, f r, hr', hansw r hr han⟩
  once := h.once
  intact := h.intact

theorem Inv.search {c : Client} (h : Inv c) {i : ReqId} {r : Req} (hr : c.reqs[i]? = some r)
    (hlive : r.async = true ∨ r.returned = false) : c.reqMap.search r.key = some i := by
  have hmem := h.listed i r hr hlive
  cases hs : c.reqMap.search r.key with
  | none =>
    have hne := RbTreeMap.search_none hs _ hmem
    exact (hne (Std.LawfulEqCmp.compare_eq_iff_eq.mpr rfl)).elim
  | some q =>
    obtain ⟨k, hk, hq⟩ := RbTreeMap.search_some hs
    have hkey : r.key = k := Std.LawfulEqCmp.compare_eq_iff_eq.mp hk
    subst hkey
    have heq := List.inj_on_of_nodup_map h.keys hq hmem rfl
    cases heq
    rfl

/-! ## Steps of separate requests -/

theorem inv_invoke {c : Client} (h : Inv c) {objectId method : Text} {async outBuf : Bool}
    {bufferLen : ℕ} (hnew : c.reqMap.search (reqKey objectId method) = none)
    (hsize : (reqKey objectId method).length < replyKeySize) :
    Inv (invoke rb c objectId method async outBuf bufferLen) := by
  have hperm := RbTreeMap.entries_add rb c.reqMap (reqKey objectId method) c.reqs.length
  have hget : ∀ (i : ReqId) (r : Req),
      (invoke rb c objectId method async outBuf bufferLen).reqs[i]? = some r →
      c.reqs[i]? = some r ∨ i = c.reqs.length ∧ r =
        ⟨objectId, method, async, if async then 0 else reqWaiting, outBuf, bufferLen, [], false,
          false, false⟩ := by
    intro i r hr
    simp only [invoke] at hr
    rcases Nat.lt_or_ge i c.reqs.length with hlt | hge
    · rw [List.getElem?_append_left hlt] at hr
      exact .inl hr
    · rcases Nat.eq_or_lt_of_le hge with heq | hgt
      · rw [← heq, List.getElem?_concat_length] at hr
        exact .inr ⟨heq.symm, (Option.some.inj hr).symm⟩
      · rw [List.getElem?_eq_none (by simpa using Nat.succ_le_of_lt hgt)] at hr
        cases hr
  have hput : ∀ (i : ReqId) (r : Req), c.reqs[i]? = some r →
      (invoke rb c objectId method async outBuf bufferLen).reqs[i]? = some r := by
    intro i r hr
    obtain ⟨hlt, -⟩ := List.getElem?_eq_some_iff.mp hr
    simp only [invoke]
    rwa [List.getElem?_append_left hlt]
  exact {
    listed := by
      intro i r hr hor
      apply hperm.mem_iff.mpr
      rcases hget i r hr with hr | ⟨rfl, rfl⟩
      · exact List.mem_cons_of_mem _ (h.listed i r hr hor)
      · exact List.mem_cons_self
    entry := by
      intro k i hk
      rcases List.mem_cons.mp (hperm.mem_iff.mp hk) with heq | hk
      · cases heq
        refine ⟨_, by simp only [invoke]; rw [List.getElem?_concat_length], rfl, ?_⟩
        simp [Req.Done]
      · obtain ⟨r, hr, hrest⟩ := h.entry k i hk
        exact ⟨r, hput i r hr, hrest⟩
    keys := by
      apply (hperm.map Prod.fst).nodup_iff.mpr
      rw [List.map_cons, List.nodup_cons]
      refine ⟨?_, h.keys⟩
      intro hmem
      obtain ⟨e, he, hek⟩ := List.mem_map.mp hmem
      apply RbTreeMap.search_none hnew e he
      exact Std.LawfulEqCmp.compare_eq_iff_eq.mpr hek.symm
    sync := by
      intro i r hr has han
      rcases hget i r hr with hr | ⟨rfl, rfl⟩
      · exact h.sync i r hr has han
      · have hasync : async = false := has
        simp [hasync]
    call := by
      intro i r hr has
      rcases hget i r hr with hr | ⟨rfl, rfl⟩
      · exact h.call i r hr has
      · rfl
    size := by
      intro i r hr
      rcases hget i r hr with hr | ⟨rfl, rfl⟩
      · exact h.size i r hr
      · exact hsize
    own := by
      intro p hp
      obtain ⟨hpp, r, hr, han⟩ := h.own p hp
      exact ⟨hpp, r, hput p.2 r hr, han⟩
    once := h.once
    intact := by
      have hfits : ¬reqKeySize ≤ (reqKey objectId method).length := by
        simp only [reqKeySize, replyKeySize] at hsize ⊢
        omega
      simp [invoke, h.intact, hfits] }

theorem inv_sent {c : Client} (h : Inv c) {i : ReqId}
    (hi : ∃ r ∈ c.reqs[i]?, r.sent = false ∧ r.returned = false) : Inv (invokeSent c i) := by
  obtain ⟨r₀, hr₀, -, hret⟩ := hi
  have hthe : ∀ r, c.reqs[i]? = some r → r = r₀ := by
    intro r hr
    exact Option.some.inj (hr.symm.trans hr₀)
  unfold invokeSent
  refine h.updReq (fun _ ↦ rfl) (fun _ ↦ rfl) ?_ ?_ ?_ ?_ ?_
  · rintro r hr - ⟨hasync, hor⟩
    have hcall := h.call i r hr hasync
    rcases hor hasync with hsent | hansw
    · cases hsent
    · exact Bool.false_ne_true (hcall.symm.trans hansw)
  · intro r hr _
    rw [hthe r hr]
    exact hret
  · exact fun r hr han ↦ han
  · intro r hr has han
    exact ⟨has, (h.sync i r hr has han).2⟩
  · exact fun r hr has ↦ h.call i r hr has

theorem replyArrives_eq {c : Client} (h : Inv c) {i : ReqId} {r : Req} (hr : c.reqs[i]? = some r)
    (hasync : r.async = false) (hansw : r.answered = false) (state : BitVec 32)
    (buffer : List UInt8) :
    replyArrives c i state buffer =
      { c.updReq i (fun r ↦ { r.take state buffer with answered := true }) with
        delivered := c.delivered ++ [(i, i)] } := by
  have hsearch : c.reqMap.search (reqKey r.objectId r.method) = some i :=
    h.search hr (.inr (h.sync i r hr hasync hansw).1)
  have hsize : ¬replyKeySize ≤ (reqKey r.objectId r.method).length :=
    Nat.not_le_of_lt (h.size i r hr)
  have hsmashed : (c.smashed || decide (replyKeySize ≤ (reqKey r.objectId r.method).length)) =
      c.smashed := by
    simp [hsize]
  simp only [replyArrives, hr, handleInvokeReply, hsearch, hsmashed, Client.updReq,
    List.modify_modify_eq]
  rfl

theorem inv_reply {c : Client} (h : Inv c) {i : ReqId} {r : Req} (hr : c.reqs[i]? = some r)
    (hasync : r.async = false) (hansw : r.answered = false) (state : BitVec 32)
    (buffer : List UInt8) : Inv (replyArrives c i state buffer) := by
  rw [replyArrives_eq h hr hasync hansw]
  have hthe : ∀ r', c.reqs[i]? = some r' → r' = r :=
    fun r' hr' ↦ Option.some.inj (hr'.symm.trans hr)
  have hret := (h.sync i r hr hasync hansw).1
  have htake : ∀ r : Req, (r.take state buffer).key = r.key ∧
      (r.take state buffer).async = r.async ∧ (r.take state buffer).returned = r.returned := by
    intro r
    unfold Req.take
    split <;> exact ⟨rfl, rfl, rfl⟩
  have hupd : Inv (c.updReq i (fun r ↦ { r.take state buffer with answered := true })) := by
    refine h.updReq (fun r ↦ (htake r).1) (fun r ↦ (htake r).2.1) ?_ ?_ ?_ ?_ ?_
    · rintro r' hr' - ⟨hdone, -⟩
      rw [hthe r' hr'] at hdone
      exact Bool.false_ne_true (hret.symm.trans ((htake r).2.2.symm.trans hdone))
    · intro r' hr' _
      rw [hthe r' hr']
      exact hret
    · exact fun _ _ _ ↦ rfl
    · rintro _ _ _ ⟨⟩
    · intro r' hr' has
      rw [hthe r' hr', hasync] at has
      cases has
  exact {
    listed := hupd.listed
    entry := hupd.entry
    keys := hupd.keys
    sync := hupd.sync
    call := hupd.call
    size := hupd.size
    own := by
      intro p hp
      rcases List.mem_append.mp hp with hp | hp
      · exact hupd.own p hp
      · rw [List.mem_singleton.mp hp]
        refine ⟨rfl, { r.take state buffer with answered := true }, ?_, rfl⟩
        rw [reqs_updReq, if_pos rfl, hr]
        rfl
    once := by
      rw [List.map_append, List.nodup_append]
      refine ⟨h.once, by simp, ?_⟩
      intro q hq q' hq'
      obtain ⟨p, hp, rfl⟩ := List.mem_map.mp hq
      obtain ⟨-, r', hr', han⟩ := h.own p hp
      rintro rfl
      simp only [List.map_cons, List.map_nil, List.mem_singleton] at hq'
      rw [hq'] at hr'
      rw [hthe r' hr', hansw] at han
      cases han
    intact := h.intact }

theorem inv_return {c : Client} (h : Inv c) {i : ReqId} {r : Req} (hr : c.reqs[i]? = some r)
    (hasync : r.async = false) (hret : r.returned = false) (hstate : r.state ≠ reqWaiting) :
    Inv (invokeReturn rb c i) := by
  have hansw : r.answered = true := by
    by_contra hnot
    exact hstate (h.sync i r hr hasync (by simpa using hnot)).2
  obtain ⟨k, hk, hperm⟩ := RbTreeMap.entries_del rb (h.search hr (.inr hret))
  have hkey : r.key = k := Std.LawfulEqCmp.compare_eq_iff_eq.mp hk
  subst hkey
  have hother : ∀ e ∈ (c.reqMap.del rb r.key).entries, e ∈ c.reqMap.entries ∧ e.1 ≠ r.key := by
    intro e he
    refine ⟨hperm.mem_iff.mpr (List.mem_cons_of_mem _ he), ?_⟩
    intro hek
    have hnodup := (hperm.map Prod.fst).nodup_iff.mp h.keys
    rw [List.map_cons, List.nodup_cons] at hnodup
    exact hnodup.1 (List.mem_map.mpr ⟨e, he, hek⟩)
  have heq : invokeReturn rb c i =
      { c.updReq i (fun r ↦ { r with returned := true }) with
        reqMap := c.reqMap.del rb r.key } := by
    simp only [invokeReturn, hr]
  have hthe : ∀ r', c.reqs[i]? = some r' → r' = r :=
    fun r' hr' ↦ Option.some.inj (hr'.symm.trans hr)
  rw [heq]
  exact {
    listed := by
      intro j r' hr' hor
      rcases of_reqs_updReq hr' with ⟨rfl, r'', hr'', rfl⟩ | ⟨hij, hr'⟩
      · rw [hthe r'' hr''] at hor
        rcases hor with has | hlive
        · rw [hasync] at has
          cases has
        · cases hlive
      · rcases List.mem_cons.mp (hperm.mem_iff.mp (h.listed j r' hr' hor)) with hfirst | hrest
        · exact (hij (Prod.ext_iff.mp hfirst).2.symm).elim
        · exact hrest
    entry := by
      intro k j hk
      obtain ⟨hold, hne⟩ := hother (k, j) hk
      obtain ⟨r', hr', hrk, hnot⟩ := h.entry k j hold
      obtain ⟨r'', hr'', ⟨-, rfl⟩ | ⟨rfl, rfl⟩⟩ :=
        to_reqs_updReq i (fun r ↦ { r with returned := true }) hr'
      · exact ⟨r'', hr'', hrk, hnot⟩
      · rw [hthe r' hr'] at hrk
        exact (hne hrk.symm).elim
    keys := ((hperm.map Prod.fst).nodup_iff.mp h.keys).of_cons
    sync := by
      intro j r' hr' has han
      rcases of_reqs_updReq hr' with ⟨rfl, r'', hr'', rfl⟩ | ⟨-, hr'⟩
      · rw [hthe r'' hr''] at han
        exact (Bool.false_ne_true (han.symm.trans hansw)).elim
      · exact h.sync j r' hr' has han
    call := by
      intro j r' hr' has
      rcases of_reqs_updReq hr' with ⟨rfl, r'', hr'', rfl⟩ | ⟨-, hr'⟩
      · exact h.call i r'' hr'' has
      · exact h.call j r' hr' has
    size := by
      intro j r' hr'
      rcases of_reqs_updReq hr' with ⟨rfl, r'', hr'', rfl⟩ | ⟨-, hr'⟩
      · exact h.size i r'' hr''
      · exact h.size j r' hr'
    own := by
      rintro ⟨q, j⟩ hp
      obtain ⟨hpp, r', hr', han⟩ := h.own ⟨q, j⟩ hp
      obtain ⟨r'', hr'', ⟨-, rfl⟩ | ⟨rfl, rfl⟩⟩ :=
        to_reqs_updReq i (fun r ↦ { r with returned := true }) hr'
      · exact ⟨hpp, r'', hr'', han⟩
      · exact ⟨hpp, _, hr'', han⟩
    once := h.once
    intact := h.intact }

theorem inv_step {c : Client} (h : Inv c) {e : Event} (hpos : Possible c e) (hsep : Separate c e) :
    Inv (step rb c e) ∧ Delivers c e (step rb c e) := by
  cases e with
  | invoke objectId method async outBuf bufferLen =>
    exact ⟨inv_invoke rb h hsep.1 hsep.2, rfl⟩
  | sent i => exact ⟨inv_sent h hpos, rfl⟩
  | failed i => exact hsep.elim
  | reply i state buffer =>
    obtain ⟨r, hr, -, hansw⟩ := hpos
    have hasync := hsep r hr
    refine ⟨inv_reply h hr hasync hansw state buffer, ?_⟩
    change (replyArrives c i state buffer).delivered = _
    rw [replyArrives_eq h hr hasync hansw]
  | returns i =>
    obtain ⟨r, hr, hasync, -, hret, hstate⟩ := hpos
    refine ⟨inv_return rb h hr hasync hret hstate, ?_⟩
    change (invokeReturn rb c i).delivered = c.delivered
    simp only [invokeReturn, Option.mem_def.mp hr]
    rfl

/-- In every run in which the requests are kept separate each reply goes to the request that it
answers, each request gets at most one, and nothing that is over can be reached from the map. -/
theorem matched_run (es : List Event)
    (hrun : Run.Steps (step rb) (fun c e _ ↦ Possible c e ∧ Separate c e) Client.init es) :
    Run.Steps (step rb) (fun c e c' ↦ Delivers c e c' ∧ Matched c') Client.init es := by
  refine (Run.Steps.of_invariant (I := Inv) inv_init ?_ hrun).2
  intro c e hc he
  obtain ⟨hnext, hdel⟩ := inv_step rb hc he.1 he.2
  exact ⟨hnext, hdel, hnext.matched⟩

/-- Two objects are asked at once and answer in the other order, while an asynchronous request is
still under way. -/
theorem matched_run_two :
    let rb := Rebalance.small (Text × ReqId)
    let es : List Event :=
      [.invoke [98] [109] true true 8, .sent 0, .invoke [97] [109] false true 8,
      .sent 1, .invoke [99] [109] false true 8, .sent 2, .reply 2 1 [7], .reply 1 1 [5], .returns 1,
      .returns 2]
    (Run.final (step rb) Client.init es).delivered = [(2, 2), (1, 1)] ∧
      Run.Steps (step rb) (fun c e c' ↦ Delivers c e c' ∧ Matched c') Client.init es := by
  intro rb es
  refine ⟨by decide, matched_run rb es ?_⟩
  simp only [es, Run.steps_cons, Run.steps_nil, and_true]
  decide

/-- Two invokes of one method are under way at once: the reply to the second is handed to the
first, whose record the map finds. -/
theorem not_matched_run_same_key :
    ¬∀ (rb : Rebalance (Text × ReqId)) (es : List Event),
      Run.Steps (step rb) (fun c e _ ↦ Possible c e) Client.init es →
        Run.Steps (step rb) (fun c e c' ↦ Delivers c e c' ∧ Matched c') Client.init es := by
  intro h
  have hrun := h (Rebalance.small (Text × ReqId)) [.invoke [97] [109] false true 8, .sent 0,
    .invoke [97] [109] false true 8, .sent 1, .reply 1 1 [7]] (by decide)
  obtain ⟨-, -, -, -, ⟨hdel, -⟩, -⟩ := hrun
  have hwrong : ([(1, 0)] : List (ReqId × ReqId)) = [(1, 1)] := hdel
  cases hwrong

end Libobject.Bus
